/-
The digest on the file.

`commit` publishes an upload in two moves: a rename, and a `setxattr` by path
that records the digest of what was hashed. Between them other requests run, and
what the path leads to may be another file by then. There is also a way of
writing that knows nothing of digests: an `open` without truncation, or without
`create`, goes to `LocalFs`, which empties and writes the file in place.
`Careful` is what both of them would have to respect, and in runs that do, every
digest on a file is the digest of the file (`digest_recorded`).
-/
import WebDavs.Site

set_option autoImplicit false

namespace WebDavs.AutoFs

open WebDavs.Posix WebDavs.Posix.FileTree WebDavs.Steps

/-! ## The two halves of `commit` -/

namespace AtomicFile

/-- `commit` up to and with the rename: `true` when a digest is to be recorded
next. -/
def commit_rename (k : Kernel) (c : Crates) (af : AtomicFile) (d : Disk) (fault : CommitFault) :
    AtomicFile × Disk × Except FsError Bool :=
  if af.committed then (af, d, .ok false)
  else if af.checksum_mismatch c then (af, d, .error .general_failure)
  else
    let file := af.file
    let af := { af with file := none }
    let synced : Option Errno := if af.fsync && file.isSome then fault.sync else none
    match synced with
    | some e => (af, d, .error (.io e))
    | none =>
      if af.should_commit then
        match d.rename k af.temp_path af.target_path fault.rename with
        | .error e => (af, d, .error (.io e))
        | .ok d => ({ af with committed := true }, d, .ok true)
      else (af, d, .ok false)

/-- What `commit` does once it has renamed. -/
def record_sha256 (k : Kernel) (c : Crates) (af : AtomicFile) (d : Disk) : Disk :=
  set_xattr_sha256 k d af.target_path (c.hex_encode (c.sha256 af.hasher))

/-- `commit` is one half after the other. -/
theorem commit_eq (k : Kernel) (c : Crates) (af : AtomicFile) (d : Disk) (fault : CommitFault) :
    af.commit k c d fault =
      match af.commit_rename k c d fault with
      | (af', d', .ok true) => (af', af'.record_sha256 k c d', .ok ())
      | (af', d', .ok false) => (af', d', .ok ())
      | (af', d', .error e) => (af', d', .error e) := by
  unfold commit commit_rename
  by_cases hc : af.committed = true
  · rw [if_pos hc, if_pos hc]
  · rw [if_neg hc, if_neg hc]
    by_cases hm : af.checksum_mismatch c = true
    · rw [if_pos hm, if_pos hm]
    · rw [if_neg hm, if_neg hm]
      dsimp only
      cases hs : (if af.fsync && af.file.isSome then fault.sync else none) with
      | some e => rfl
      | none =>
        dsimp only
        by_cases hw : af.closed.should_commit = true
        · rw [closed] at hw
          rw [if_pos hw, if_pos hw]
          cases d.rename k af.temp_path af.target_path fault.rename <;> rfl
        · rw [closed] at hw
          rw [if_neg hw, if_neg hw]

end AtomicFile

/-! ## The server -/

/-- Who has a file open: a full upload, and whether its digest is still to be
recorded; a client that writes to an inode in place; nobody any more. -/
inductive Party where
  | full (u : Upload) (recording : Bool)
  | in_place (ino : Nat)
  | gone

/-- The disk and everybody who has opened something. -/
structure Store where
  disk : Disk
  parties : List Party

/-- A step of the server. `inner` is what the environment does to the `open` of
`LocalFs`, where that is asked. `act` is one operation on a full upload, which for one
that renames ends there; `record` is the rest of it. -/
inductive Move where
  | open_ (path : List String) (options : OpenOptions) (fault : OpenFault) (inner : Option Errno)
  | act (i : Nat) (a : Act)
  | record (i : Nat)
  | write_in_place (i pos : Nat) (bs : Bytes)
  | close (i : Nat)

namespace Upload

/-- `flush` or `metadata`, up to and with the rename. What `metadata` looks up
once it has committed changes nothing and is left out. -/
def commit_rename (k : Kernel) (c : Crates) (d : Disk) (u : Upload)
    (fault : AtomicFile.CommitFault) (ok : Stage) : Disk × Upload × Bool :=
  let r := u.af.commit_rename k c d fault
  (r.2.1, { u with af := r.1, stage := outcome ok r.2.2 },
    match r.2.2 with
    | .ok b => b
    | .error _ => false)

/-- `Upload.step` with `commit` cut in two; the flag says that the second half
is to follow. -/
def advance (k : Kernel) (c : Crates) (d : Disk) (u : Upload) : Act → Option (Disk × Upload × Bool)
  | .flush fault =>
    if u.stage = .writing then some (u.commit_rename k c d fault .flushed) else none
  | .metadata fault =>
    if u.stage = .flushed then some (u.commit_rename k c d fault .closed) else none
  | a => (u.step k c d a).map fun r => (r.1, r.2, false)

end Upload

namespace Store

/-- One step. What is opened without `write` is only read. -/
def step (k : Kernel) (c : Crates) (fs : AutoMkcolFs) (s : Store) : Move → Option Store
  | .open_ path options fault inner =>
    match fs.open_ k s.disk path options fault with
    | (d, .ok (.atomic af)) => some ⟨d, s.parties ++ [.full (Upload.start d af) false]⟩
    | (d, .error _) => some ⟨d, s.parties⟩
    | (d, .ok .inner) =>
      if options.write then
        match d.open_local k (fs.fspath path) options inner with
        | .ok (d, ino) => some ⟨d, s.parties ++ [.in_place ino]⟩
        | .error _ => some ⟨d, s.parties⟩
      else some ⟨d, s.parties⟩
  | .act i a =>
    match s.parties[i]? with
    | some (.full u false) =>
      (u.advance k c s.disk a).map fun r => ⟨r.1, s.parties.set i (.full r.2.1 r.2.2)⟩
    | _ => none
  | .record i =>
    match s.parties[i]? with
    | some (.full u true) => some ⟨u.af.record_sha256 k c s.disk, s.parties.set i (.full u false)⟩
    | _ => none
  | .write_in_place i pos bs =>
    match s.parties[i]? with
    | some (.in_place ino) => some ⟨(s.disk.write_at ⟨ino, pos⟩ bs).1, s.parties⟩
    | _ => none
  | .close i =>
    match s.parties[i]? with
    | some (.in_place _) => some ⟨s.disk, s.parties.set i .gone⟩
    | _ => none

/-- Nobody has anything open. -/
def Quiet (s : Store) : Prop :=
  ∀ p ∈ s.parties, p = .gone ∨ ∃ u, p = .full u false ∧ u.stage = .dropped

end Store

/-- Every digest on a file is the digest of the file. -/
def Recorded (c : Crates) (d : Disk) : Prop :=
  ∀ l i v, d.tree.get l = some (.file i) → (d.inode i).sha256 = some v →
    v = c.hex_encode (c.sha256 (d.inode i).content)

/-- The file carries no digest, and no upload is about to give it one. -/
def Unclaimed (s : Store) (ino : Nat) : Prop :=
  (s.disk.inode ino).sha256 = none ∧
    ∀ (n : Nat) v r, s.parties[n]? = some (.full v r) → v.stage = .writing ∨ r = true → v.ino ≠ ino

/-- A digest goes to the file it was computed for, or to one that holds the same
bytes and takes no more of them. A file is emptied or written in place only if it is
unclaimed, or if that leaves it as it is. -/
def Careful (k : Kernel) (fs : AutoMkcolFs) (s : Store) : Move → Prop
  | .open_ path options _ inner =>
    options.write = true → options.truncate = true → options.create = false →
      options.create_new = false → inner = none → ∀ ino,
        k.read s.disk.tree (fs.fspath path) = some ino →
          (s.disk.inode ino).content = [] ∨ Unclaimed s ino
  | .record i => ∀ u, s.parties[i]? = some (.full u true) →
      ∀ j, k.read s.disk.tree u.af.target_path = some j → j = u.ino ∨
        (s.disk.inode j).content = u.af.hasher ∧
          ∀ (n : Nat) v, s.parties[n]? = some (.full v false) → v.stage = .writing → v.ino ≠ j
  | .write_in_place i pos bs => ∀ ino, s.parties[i]? = some (.in_place ino) →
      splice (s.disk.inode ino).content pos bs = (s.disk.inode ino).content ∨ Unclaimed s ino
  | _ => True

/-! ## What a step keeps -/

/-- What is already right stays so when no file appears and those with a digest
stay as they are. -/
theorem Recorded.mono {c : Crates} {d d' : Disk} (h : Recorded c d)
    (hold : ∀ l i, d'.tree.get l = some (.file i) → (d'.inode i).sha256 ≠ none →
      d'.inode i = d.inode i ∧ ∃ m, d.tree.get m = some (.file i)) : Recorded c d' := by
  intro l i v hl hv
  have hsome : (d'.inode i).sha256 ≠ none := by
    rw [hv]
    exact Option.some_ne_none v
  obtain ⟨hi, m, hm⟩ := hold l i hl hsome
  rw [hi] at hv ⊢
  exact h m i v hm hv

/-- A full upload agrees with its temp file while there is something to come of
it: while it takes writes, and between the rename and the digest. -/
structure Ledger (d : Disk) (u : Upload) (recording : Bool) : Prop where
  old : u.ino < d.next
  taking : u.stage = .writing → u.af.committed = false ∧ (d.inode u.ino).sha256 = none ∧
    ∃ f, u.af.file = some f ∧ f.ino = u.ino ∧ AtomicFile.AtEnd d f
  hashed : u.stage = .writing ∨ recording = true → (d.inode u.ino).content = u.af.hasher
  settled : u.stage = .flushed → u.af.committed = true ∨ u.af.should_commit = false
  past : recording = true → u.stage ≠ .writing

theorem Ledger.frame {d d' : Disk} {u : Upload} {r : Bool} (h : Ledger d u r)
    (hnext : d.next ≤ d'.next)
    (hcontent : u.stage = .writing ∨ r = true → (d'.inode u.ino).content = (d.inode u.ino).content)
    (hsha : u.stage = .writing → (d'.inode u.ino).sha256 = (d.inode u.ino).sha256) :
    Ledger d' u r where
  old := Nat.lt_of_lt_of_le h.old hnext
  taking hw := by
    obtain ⟨hc, hs, f, hf, hfi, hend⟩ := h.taking hw
    refine ⟨hc, (hsha hw).trans hs, f, hf, hfi, ?_⟩
    simp only [AtomicFile.AtEnd, hfi] at hend ⊢
    rw [hcontent (.inl hw)]
    exact hend
  hashed hp := (hcontent hp).trans (h.hashed hp)
  settled := h.settled
  past := h.past

/-- A new upload. -/
theorem ledger_start {k : Kernel} {dm d : Disk} {o : Spot} {af : AtomicFile}
    (h : Opening k dm d o af) : Ledger d (Upload.start d af) false := by
  have hino : (Upload.start d af).ino = dm.next := by simp [Upload.start, h.file]
  have hnew : d.inode dm.next = ⟨[], none⟩ := by simp [h.inode]
  refine ⟨?_, ?_, ?_, ?_, ?_⟩
  · rw [hino, h.next]
    exact Nat.lt_succ_self _
  · intro _
    rw [hino, hnew]
    refine ⟨h.committed, rfl, _, h.file, rfl, ?_⟩
    rw [AtomicFile.AtEnd, hnew]
    rfl
  · intro _
    rw [hino, hnew]
    exact h.hasher.symm
  · intro hs
    cases hs
  · intro hr
    cases hr

/-- No file appears. -/
def NoNewFile (d d' : Disk) : Prop :=
  ∀ l i, d'.tree.get l = some (.file i) → ∃ m, d.tree.get m = some (.file i)

theorem NoNewFile.refl (d : Disk) : NoNewFile d d := fun l _ hl => ⟨l, hl⟩

theorem noNewFile_of_rename {k : Kernel} {d d' : Disk} {p q : Path} {fault : Option Errno}
    (h : d.rename k p q fault = .ok d') : NoNewFile d d' := by
  intro l i hl
  obtain ⟨-, ht, -, -⟩ := Disk.rename_ok h
  obtain ⟨_, _, _, _, _, -, -, -, -, -, hcase⟩ := Kernel.rename_spec ht
  rcases hcase with ⟨-, heq⟩ | ⟨-, -, -, -, hg⟩
  · exact ⟨l, heq ▸ hl⟩
  · rw [hg] at hl
    split at hl
    · exact ⟨_, hl⟩
    · split at hl
      · cases hl
      · exact ⟨l, hl⟩

theorem noNewFile_of_remove {k : Kernel} {d d' : Disk} {p : Path}
    (h : d.remove_file k p = .ok d') : NoNewFile d d' := by
  intro l i hl
  obtain ⟨ht, -, -⟩ := Disk.remove_file_ok h
  obtain ⟨_, _, _, -, -, -, hg⟩ := Kernel.remove_file_spec ht
  rw [hg] at hl
  split at hl
  · cases hl
  · exact ⟨l, hl⟩

/-- The first half of `commit` moves a file or does nothing to the disk, and the
upload is to be recorded if and only if it moved. -/
theorem AtomicFile.commit_rename_spec (k : Kernel) (c : Crates) (af : AtomicFile) (d : Disk)
    (fault : CommitFault) :
    (af.commit_rename k c d fault).2.1.inode = d.inode ∧
      (af.commit_rename k c d fault).2.1.next = d.next ∧
      NoNewFile d (af.commit_rename k c d fault).2.1 ∧
      (af.commit_rename k c d fault).1.hasher = af.hasher ∧
      (af.commit_rename k c d fault).1.should_commit = af.should_commit ∧
      ((af.commit_rename k c d fault).2.2 = .ok true →
        af.committed = false ∧ af.should_commit = true) ∧
      ∀ b, (af.commit_rename k c d fault).2.2 = .ok b →
        (af.commit_rename k c d fault).1.committed = true ∨ af.should_commit = false := by
  unfold commit_rename
  by_cases hc : af.committed = true
  · rw [if_pos hc]
    exact ⟨rfl, rfl, .refl d, rfl, rfl, by simp, fun _ _ => .inl hc⟩
  · rw [if_neg hc]
    by_cases hm : af.checksum_mismatch c = true
    · rw [if_pos hm]
      exact ⟨rfl, rfl, .refl d, rfl, rfl, by simp, by simp⟩
    · rw [if_neg hm]
      dsimp only
      cases hs : (if af.fsync && af.file.isSome then fault.sync else none) with
      | some e => exact ⟨rfl, rfl, .refl d, rfl, rfl, by simp, by simp⟩
      | none =>
        dsimp only
        have hsame : af.closed.should_commit = af.should_commit := rfl
        by_cases hw : af.closed.should_commit = true
        · have hw' := hw
          rw [closed] at hw'
          rw [if_pos hw']
          cases hr : d.rename k af.temp_path af.target_path fault.rename with
          | error e => exact ⟨rfl, rfl, .refl d, rfl, rfl, by simp, by simp⟩
          | ok d' =>
            obtain ⟨-, -, hino, hnext⟩ := Disk.rename_ok hr
            refine ⟨hino, hnext, noNewFile_of_rename hr, rfl, rfl, ?_, fun _ _ => .inl rfl⟩
            exact fun _ => ⟨Bool.eq_false_iff.mpr hc, hsame ▸ hw⟩
        · have hw' := hw
          rw [closed] at hw'
          rw [if_neg hw']
          refine ⟨rfl, rfl, .refl d, rfl, rfl, by simp, fun _ _ => .inr ?_⟩
          rw [← hsame]
          exact Bool.eq_false_iff.mpr hw

/-- What an operation on a full upload does to the disk, and what it keeps. -/
structure Advanced (d d' : Disk) (u u' : Upload) (r : Bool) : Prop where
  ledger : Ledger d' u' r
  ino : u'.ino = u.ino
  next : d'.next = d.next
  files : NoNewFile d d'
  others : ∀ i, i ≠ u.ino → d'.inode i = d.inode i
  digests : ∀ i, (d'.inode i).sha256 ≠ none → d'.inode i = d.inode i

/-- The first half of a commit. -/
theorem Ledger.commit_rename {d : Disk} {u : Upload} (h : Ledger d u false) (k : Kernel)
    (c : Crates) (fault : AtomicFile.CommitFault) {ok : Stage} (hok : ok = .flushed ∨ ok = .closed)
    (hs : u.stage = .writing ∨ u.stage = .flushed) :
    Advanced d (u.commit_rename k c d fault ok).1 u (u.commit_rename k c d fault ok).2.1
      (u.commit_rename k c d fault ok).2.2 := by
  obtain ⟨hino, hnext, hfiles, hhash, hsize, htrue, hsettled⟩ :=
    AtomicFile.commit_rename_spec k c u.af d fault
  -- a commit leaves the writing stage, whatever comes of it
  have hnw : ∀ r : Except FsError Bool, Upload.outcome ok r ≠ .writing := by
    intro r
    rcases hok with rfl | rfl <;> cases r <;> simp [Upload.outcome]
  refine ⟨⟨?_, ?_, ?_, ?_, ?_⟩, rfl, hnext, hfiles, ?_, ?_⟩
  · simp only [Upload.commit_rename, hnext]
    exact h.old
  · intro hw
    exact absurd hw (hnw _)
  · rintro (hw | hr)
    · exact absurd hw (hnw _)
    · -- it has renamed, so it was taking writes until now
      simp only [Upload.commit_rename] at hr ⊢
      rw [hino, hhash]
      cases hres : (u.af.commit_rename k c d fault).2.2 with
      | error e => simp [hres] at hr
      | ok b =>
        simp only [hres] at hr
        subst hr
        obtain ⟨hc, hsc⟩ := htrue hres
        rcases hs with hs | hs
        · exact h.hashed (.inl hs)
        · rcases h.settled hs with hs | hs
          · rw [hc] at hs
            cases hs
          · rw [hsc] at hs
            cases hs
  · intro hst
    simp only [Upload.commit_rename] at hst ⊢
    cases hres : (u.af.commit_rename k c d fault).2.2 with
    | error e => simp [hres, Upload.outcome] at hst
    | ok b =>
      rw [hsize]
      exact hsettled b hres
  · intro _
    exact hnw _
  · intro i _
    exact congrFun hino i
  · intro i _
    exact congrFun hino i

/-- A write of a full upload. -/
theorem Ledger.write {d : Disk} {u : Upload} (h : Ledger d u false) (hw : u.stage = .writing)
    (call : AtomicFile.WriteCall) :
    Advanced d (u.af.write d call).2.1 u { u with
      af := (u.af.write d call).1
      stage := Upload.outcome .writing (u.af.write d call).2.2
      sent := u.sent ++ call.body } false := by
  obtain ⟨hc, hs, f, hf, hfi, hend⟩ := h.taking hw
  obtain ⟨f', bs, hf', happ, hsame, hok⟩ := AtomicFile.write_spec hf hend call
  have hsha : ((u.af.write d call).2.1.inode u.ino).sha256 = none := by
    rw [← hfi, happ.sha256, hfi, hs]
  refine ⟨⟨?_, ?_, ?_, ?_, nofun⟩, rfl, happ.next, ?_, ?_, ?_⟩
  · rw [happ.next]
    exact h.old
  · intro _
    exact ⟨hsame.committed.trans hc, hsha, f', hf', happ.ino.trans hfi, happ.atEnd⟩
  · -- the stage says that the write succeeded
    rintro (hst | hr)
    · have hres : (u.af.write d call).2.2 = .ok () := by
        cases hr : (u.af.write d call).2.2 with
        | ok v => rfl
        | error e => simp [hr, Upload.outcome] at hst
      obtain ⟨rfl, hhash, -⟩ := hok hres
      have hcont := happ.content
      rw [hfi, h.hashed (.inl hw)] at hcont
      rw [hhash]
      exact hcont
    · cases hr
  · intro hst
    cases hr : (u.af.write d call).2.2 <;> simp [hr, Upload.outcome] at hst
  · intro l i hl
    rw [happ.tree] at hl
    exact ⟨l, hl⟩
  · intro i hi
    exact happ.others i (by rwa [hfi])
  · intro i hi
    by_cases hiu : i = u.ino
    · rw [hiu] at hi
      exact absurd hsha hi
    · exact happ.others i (by rwa [hfi])

/-- Taking away the temp file. -/
theorem Ledger.drop {d : Disk} {u : Upload} (h : Ledger d u false) (k : Kernel) :
    Advanced d (u.af.drop k d) u { u with stage := .dropped } false := by
  have hdisk : (u.af.drop k d).inode = d.inode ∧ (u.af.drop k d).next = d.next ∧
      NoNewFile d (u.af.drop k d) := by
    unfold AtomicFile.drop
    split
    · exact ⟨rfl, rfl, .refl d⟩
    · cases hr : d.remove_file k u.af.temp_path with
      | error e => exact ⟨rfl, rfl, .refl d⟩
      | ok d' =>
        obtain ⟨-, hino, hnext⟩ := Disk.remove_file_ok hr
        exact ⟨hino, hnext, noNewFile_of_remove hr⟩
  obtain ⟨hino, hnext, hfiles⟩ := hdisk
  refine ⟨⟨?_, nofun, ?_, nofun, nofun⟩, rfl, hnext, hfiles, ?_, ?_⟩
  · rw [hnext]
    exact h.old
  · rintro (hw | hr)
    · cases hw
    · cases hr
  · intro i _
    exact congrFun hino i
  · intro i _
    exact congrFun hino i

/-- **Every operation of a full upload** keeps its ledger and touches no other
file. -/
theorem Ledger.advance {k : Kernel} {c : Crates} {d d' : Disk} {u u' : Upload} {a : Act} {r : Bool}
    (h : Ledger d u false) (hs : u.advance k c d a = some (d', u', r)) :
    Advanced d d' u u' r := by
  cases a with
  | write call =>
    simp only [Upload.advance, Upload.step] at hs
    by_cases hw : u.stage = .writing
    · rw [if_pos hw] at hs
      cases hs
      exact h.write hw call
    · rw [if_neg hw] at hs
      cases hs
  | flush fault =>
    simp only [Upload.advance] at hs
    by_cases hw : u.stage = .writing
    · rw [if_pos hw] at hs
      cases hs
      exact h.commit_rename k c fault (.inl rfl) (.inl hw)
    · rw [if_neg hw] at hs
      cases hs
  | metadata fault =>
    simp only [Upload.advance] at hs
    by_cases hw : u.stage = .flushed
    · rw [if_pos hw] at hs
      cases hs
      exact h.commit_rename k c fault (.inr rfl) (.inr hw)
    · rw [if_neg hw] at hs
      cases hs
  | drop =>
    simp only [Upload.advance, Upload.step] at hs
    by_cases hw : u.stage = .dropped
    · rw [if_pos hw] at hs
      cases hs
    · rw [if_neg hw] at hs
      cases hs
      exact h.drop k

/-- What an `open` of whatever kind does: the files that are there stay as they
are, and a new one has no digest. -/
structure Spares (d d' : Disk) : Prop where
  next : d.next ≤ d'.next
  inode : ∀ i, i < d.next → d'.inode i = d.inode i
  files : ∀ l i, d'.tree.get l = some (.file i) →
    (∃ m, d.tree.get m = some (.file i)) ∨ (d'.inode i).sha256 = none

theorem Spares.trans {d₁ d₂ d₃ : Disk} (h : Spares d₁ d₂) (h' : Spares d₂ d₃) : Spares d₁ d₃ where
  next := Nat.le_trans h.next h'.next
  inode i hi := by
    rw [h'.inode i (Nat.lt_of_lt_of_le hi h.next)]
    exact h.inode i hi
  files l i hl := by
    rcases h'.files l i hl with ⟨m, hm⟩ | hn
    · rw [h'.inode i (d₂.fresh hm)]
      exact h.files m i hm
    · exact .inr hn

theorem spares_of_grows {d d' : Disk}
    (h : Grows d.tree d'.tree ∧ d'.inode = d.inode ∧ d'.next = d.next) : Spares d d' where
  next := Nat.le_of_eq h.2.2.symm
  inode i _ := congrFun h.2.1 i
  files l _ hl := .inl ⟨l, h.1.file_iff.mp hl⟩

/-- One new file, under the next inode number. -/
theorem spares_of_new {d d' : Disk} {x : Loc}
    (hget : ∀ l, d'.tree.get l = if l = x then some (.file d.next) else d.tree.get l)
    (hinode : d'.inode = fun i => if i = d.next then ⟨[], none⟩ else d.inode i)
    (hnext : d'.next = d.next + 1) : Spares d d' where
  next := by omega
  inode i hi := by
    have hne : i ≠ d.next := by omega
    rw [hinode]
    exact if_neg hne
  files l i hl := by
    rw [hget] at hl
    split at hl
    · cases hl
      right
      rw [hinode]
      simp
    · exact .inl ⟨l, hl⟩

namespace Disk

theorem create_spares {k : Kernel} {d d' : Disk} {p : Path} {i : Nat}
    (h : d.create k p = .ok (d', i)) : Spares d d' := by
  unfold create at h
  split at h
  · cases h
    exact spares_of_grows ⟨.refl _, rfl, rfl⟩
  · split at h
    · cases h
    · rename_i t ht
      cases h
      obtain ⟨D, n, -, -, hg⟩ := Kernel.write_spec ht
      exact spares_of_new hg rfl rfl

theorem open_in_place_spares {k : Kernel} {d d' : Disk} {p : Path} {options : OpenOptions} {i : Nat}
    (h : d.open_in_place k p options = .ok (d', i)) : Spares d d' := by
  unfold open_in_place at h
  split at h
  · split at h
    · cases h
    · rename_i d₁ f hc
      cases h
      obtain ⟨ht, -, hnext, hinode⟩ := create_new_ok hc
      obtain ⟨D, n, -, -, -, hg⟩ := Kernel.create_new_spec ht
      exact spares_of_new hg hinode hnext
  · split at h
    · exact create_spares h
    · split at h
      · cases h
        exact spares_of_grows ⟨.refl _, rfl, rfl⟩
      · cases h

/-- The file that is opened was there and is left as it is, or is new and empty. -/
theorem open_in_place_cases {k : Kernel} {d d' : Disk} {p : Path} {options : OpenOptions} {i : Nat}
    (h : d.open_in_place k p options = .ok (d', i)) :
    (d' = d ∧ k.read d.tree p = some i ∧ options.create_new = false) ∨
      (d'.inode i).content = [] := by
  unfold open_in_place at h
  split at h
  · split at h
    · cases h
    · rename_i d₁ f hc
      cases h
      obtain ⟨-, rfl, -, hinode⟩ := create_new_ok hc
      right
      rw [hinode]
      simp
  · rename_i hnew
    have hnew' : options.create_new = false := Bool.eq_false_iff.mpr hnew
    split at h
    · unfold create at h
      split at h
      · rename_i j hj
        cases h
        exact .inl ⟨rfl, hj, hnew'⟩
      · split at h
        · cases h
        · cases h
          right
          simp
    · split at h
      · rename_i j hj
        cases h
        exact .inl ⟨rfl, hj, hnew'⟩
      · cases h

end Disk

namespace AutoMkcolFs

/-- An `open` that hands out a full upload. -/
theorem open_spares {k : Kernel} {fs : AutoMkcolFs} {d d' : Disk} {path : List String}
    {options : OpenOptions} {fault : OpenFault} {af : AtomicFile}
    (h : fs.open_ k d path options fault = (d', .ok (.atomic af))) :
    Spares d d' ∧ Ledger d' (Upload.start d' af) false ∧ (Upload.start d' af).ino = d.next := by
  obtain ⟨dm, o, hens, hopening, -⟩ := open_spec h
  have hgrows := ensure_parent_grows k fs d path fault.parent
  rw [hens] at hgrows
  have hino : (Upload.start d' af).ino = dm.next := by simp [Upload.start, hopening.file]
  refine ⟨?_, ledger_start hopening, hino.trans hgrows.2.2⟩
  exact (spares_of_grows hgrows).trans (spares_of_new hopening.get hopening.inode hopening.next)

end AutoMkcolFs

/-! ## The invariant -/

/-- The digests are right, every full upload's ledger is, and no two of them
write to the same file. -/
structure Intact (c : Crates) (s : Store) : Prop where
  recorded : Recorded c s.disk
  ledger : ∀ (i : Nat) u r, s.parties[i]? = some (.full u r) → Ledger s.disk u r
  distinct : ∀ (i j : Nat) u v r q, i ≠ j → s.parties[i]? = some (.full u r) →
    s.parties[j]? = some (.full v q) → u.ino ≠ v.ino

variable {k : Kernel} {c : Crates} {fs : AutoMkcolFs} {s : Store}

/-- An `open` keeps everything intact. -/
theorem Intact.spared (h : Intact c s) {d : Disk} (hd : Spares s.disk d) :
    Intact c ⟨d, s.parties⟩ where
  recorded := by
    refine h.recorded.mono fun l i hl hn => ?_
    rcases hd.files l i hl with ⟨m, hm⟩ | hnone
    · exact ⟨hd.inode i (s.disk.fresh hm), m, hm⟩
    · exact absurd hnone hn
  ledger i u r hu := by
    have hl := h.ledger i u r hu
    have hsame := hd.inode u.ino hl.old
    exact hl.frame hd.next (fun _ => by rw [hsame]) (fun _ => by rw [hsame])
  distinct := h.distinct

/-- A party joins: if it is a full upload, one with a file of its own. -/
theorem Intact.joined (h : Intact c s) (p : Party)
    (hp : ∀ u r, p = .full u r → Ledger s.disk u r ∧
      ∀ (i : Nat) v q, s.parties[i]? = some (.full v q) → v.ino ≠ u.ino) :
    Intact c ⟨s.disk, s.parties ++ [p]⟩ where
  recorded := h.recorded
  ledger i u r hu := by
    rcases append_cases hu with ⟨-, he⟩ | hu
    · exact (hp u r he.symm).1
    · exact h.ledger i u r hu
  distinct i j u v r q hij hu hv := by
    rcases append_cases hu with ⟨hi, he⟩ | hu
    · rcases append_cases hv with ⟨hj, -⟩ | hv
      · exact absurd (hi.trans hj.symm) hij
      · exact ((hp u r he.symm).2 j v q hv).symm
    · rcases append_cases hv with ⟨-, he⟩ | hv
      · exact (hp v q he.symm).2 i u r hu
      · exact h.distinct i j u v r q hij hu hv

/-- A party goes on. -/
theorem Intact.replaced (h : Intact c s) {d : Disk} {n : Nat} {p : Party}
    (hrec : Recorded c d)
    (hself : ∀ u r, p = .full u r → Ledger d u r ∧
      ∃ v q, s.parties[n]? = some (.full v q) ∧ v.ino = u.ino)
    (hrest : ∀ (i : Nat) u r, i ≠ n → s.parties[i]? = some (.full u r) → Ledger d u r) :
    Intact c ⟨d, s.parties.set n p⟩ where
  recorded := hrec
  ledger i u r hu := by
    rcases set_cases hu with ⟨-, he⟩ | ⟨hi, hu⟩
    · exact (hself u r he.symm).1
    · exact hrest i u r hi hu
  distinct i j u v r q hij hu hv := by
    rcases set_cases hu with ⟨hi, he⟩ | ⟨-, hu⟩
    · rcases set_cases hv with ⟨hj, -⟩ | ⟨-, hv⟩
      · exact absurd (hi.trans hj.symm) hij
      · obtain ⟨-, w, q', hw, hino⟩ := hself u r he.symm
        rw [← hino]
        exact h.distinct n j w v q' q (hi ▸ hij) hw hv
    · rcases set_cases hv with ⟨hj, he⟩ | ⟨-, hv⟩
      · obtain ⟨-, w, q', hw, hino⟩ := hself v q he.symm
        rw [← hino]
        exact h.distinct i n u w r q' (hj ▸ hij) hu hw
      · exact h.distinct i j u v r q hij hu hv

/-- An operation of a full upload. -/
theorem Intact.advanced (h : Intact c s) {i : Nat} {u u' : Upload} {r : Bool} {d : Disk}
    (hu : s.parties[i]? = some (.full u false)) (ha : Advanced s.disk d u u' r) :
    Intact c ⟨d, s.parties.set i (.full u' r)⟩ := by
  refine h.replaced ?_ ?_ ?_
  · refine h.recorded.mono ?_
    intro l j hl hn
    exact ⟨ha.digests j hn, ha.files l j hl⟩
  · intro v q he
    cases he
    exact ⟨ha.ledger, u, false, hu, ha.ino.symm⟩
  · intro j v q hj hv
    have hne : v.ino ≠ u.ino := h.distinct j i v u q false hj hv hu
    have hsame := ha.others v.ino hne
    exact (h.ledger j v q hv).frame (Nat.le_of_eq ha.next.symm) (fun _ => by rw [hsame])
      fun _ => by rw [hsame]

/-- The digest goes to the file. -/
theorem Intact.digested (h : Intact c s) {i : Nat} {u : Upload}
    (hu : s.parties[i]? = some (.full u true)) (hc : Careful k fs s (.record i)) :
    Intact c ⟨u.af.record_sha256 k c s.disk, s.parties.set i (.full u false)⟩ := by
  have hu' := h.ledger i u true hu
  obtain ⟨htree, hnext, hcont, -⟩ := AtomicFile.set_xattr_sha256_spec k s.disk u.af.target_path
    (c.hex_encode (c.sha256 u.af.hasher))
  -- what is not the file at the target stays as it is
  have hrest : ∀ j, k.read s.disk.tree u.af.target_path ≠ some j →
      (u.af.record_sha256 k c s.disk).inode j = s.disk.inode j := by
    intro j hj
    unfold AtomicFile.record_sha256 AtomicFile.set_xattr_sha256
    split
    · rfl
    · rename_i n hn
      have hne : j ≠ n := by
        rintro rfl
        exact hj hn
      simp only [if_neg hne]
  -- the file at the target holds what was hashed, and takes no more
  have htarget : ∀ j, k.read s.disk.tree u.af.target_path = some j →
      (s.disk.inode j).content = u.af.hasher ∧
        ∀ (n : Nat) v q, n ≠ i → s.parties[n]? = some (.full v q) → v.stage = .writing →
          v.ino ≠ j := by
    intro j hj
    rcases hc u hu j hj with rfl | ⟨hsame, hnone⟩
    · exact ⟨hu'.hashed (.inr rfl), fun n v q hn hv _ => h.distinct n i v u q true hn hv hu⟩
    · refine ⟨hsame, ?_⟩
      intro n v q _ hv hw
      cases q with
      | false => exact hnone n v hv hw
      | true => exact absurd hw ((h.ledger n v true hv).past rfl)
  refine h.replaced ?_ ?_ ?_
  · intro l j v hl hv
    have hl' : s.disk.tree.get l = some (.file j) := htree ▸ hl
    by_cases hj : k.read s.disk.tree u.af.target_path = some j
    · have hset := (AtomicFile.set_xattr_sha256_spec k s.disk u.af.target_path
        (c.hex_encode (c.sha256 u.af.hasher))).2.2.2 j hj
      have hv' : v = c.hex_encode (c.sha256 u.af.hasher) := Option.some.inj (hv.symm.trans hset)
      have hbytes : ((u.af.record_sha256 k c s.disk).inode j).content = u.af.hasher :=
        (hcont j).trans (htarget j hj).1
      rw [hbytes]
      exact hv'
    · have hsame := hrest j hj
      simp only [hsame] at hv ⊢
      exact h.recorded l j v hl' hv
  · intro v q he
    cases he
    refine ⟨⟨?_, ?_, ?_, hu'.settled, nofun⟩, u, true, hu, rfl⟩
    · exact Nat.lt_of_lt_of_le hu'.old (Nat.le_of_eq hnext.symm)
    · intro hw
      exact absurd hw (hu'.past rfl)
    · rintro (hw | hr)
      · exact absurd hw (hu'.past rfl)
      · cases hr
  · intro n v q hn hv
    refine (h.ledger n v q hv).frame (Nat.le_of_eq hnext.symm) (fun _ => hcont v.ino) ?_
    intro hw
    by_cases hj : k.read s.disk.tree u.af.target_path = some v.ino
    · exact absurd rfl ((htarget v.ino hj).2 n v q hn hv hw)
    · exact congrArg Inode.sha256 (hrest v.ino hj)

/-- A file gets other contents, or the same. -/
theorem Intact.rewritten (h : Intact c s) (ino : Nat) {d : Disk} (htree : d.tree = s.disk.tree)
    (hnext : d.next = s.disk.next) (hrest : ∀ j, j ≠ ino → d.inode j = s.disk.inode j)
    (hsha : (d.inode ino).sha256 = (s.disk.inode ino).sha256)
    (hc : (d.inode ino).content = (s.disk.inode ino).content ∨ Unclaimed s ino) :
    Intact c ⟨d, s.parties⟩ := by
  rcases hc with hsame | ⟨hnone, hpend⟩
  · -- nothing has changed
    have hall : ∀ j, d.inode j = s.disk.inode j := by
      intro j
      by_cases hj : j = ino
      · subst hj
        cases hd : d.inode j
        cases hs : s.disk.inode j
        simp only [hd, hs] at hsame hsha
        rw [hsame, hsha]
      · exact hrest j hj
    refine ⟨?_, ?_, h.distinct⟩
    · exact h.recorded.mono fun l j hl _ => ⟨hall j, l, htree ▸ hl⟩
    · intro j u r hu
      exact (h.ledger j u r hu).frame (Nat.le_of_eq hnext.symm) (fun _ => by rw [hall])
        fun _ => by rw [hall]
  · refine ⟨?_, ?_, h.distinct⟩
    · refine h.recorded.mono fun l j hl hn => ⟨hrest j ?_, l, htree ▸ hl⟩
      rintro rfl
      rw [hsha] at hn
      exact hn hnone
    · intro j u r hu
      refine (h.ledger j u r hu).frame (Nat.le_of_eq hnext.symm) (fun hp => ?_) fun hw => ?_
      · rw [hrest u.ino (hpend j u r hu hp)]
      · rw [hrest u.ino (hpend j u r hu (.inl hw))]

/-- A write in place. -/
theorem Intact.wrote (h : Intact c s) {i ino pos : Nat} {bs : Bytes}
    (hi : s.parties[i]? = some (.in_place ino)) (hc : Careful k fs s (.write_in_place i pos bs)) :
    Intact c ⟨(s.disk.write_at ⟨ino, pos⟩ bs).1, s.parties⟩ := by
  refine h.rewritten ino rfl rfl ?_ ?_ ?_
  · intro j hj
    simp only [Disk.write_at, if_neg hj]
  · simp only [Disk.write_at, if_true]
  · simp only [Disk.write_at, if_true]
    exact hc ino hi

/-- A file is opened by `LocalFs`, and emptied if that is asked for. -/
theorem Intact.opened_local (h : Intact c s) {d : Disk} {p : Path} {options : OpenOptions}
    {inner : Option Errno} {ino : Nat} (ho : s.disk.open_local k p options inner = .ok (d, ino))
    (hc : options.truncate = true → options.create_new = false → inner = none →
      k.read s.disk.tree p = some ino → (s.disk.inode ino).content = [] ∨ Unclaimed s ino) :
    Intact c ⟨d, s.parties⟩ := by
  unfold Disk.open_local at ho
  split at ho
  · cases ho
  · split at ho
    · cases ho
    · rename_i d₁ i hip
      cases ho
      have h₁ : Intact c ⟨d₁, s.parties⟩ := h.spared (Disk.open_in_place_spares hip)
      split
      · rename_i ht
        refine h₁.rewritten ino rfl rfl ?_ ?_ ?_
        · intro j hj
          simp only [Disk.truncate, if_neg hj]
        · simp only [Disk.truncate, if_true]
        · simp only [Disk.truncate, if_true]
          rcases Disk.open_in_place_cases hip with ⟨rfl, hread, hnew⟩ | hempty
          · exact (hc ht hnew rfl hread).imp_left Eq.symm
          · exact .inl hempty.symm
      · exact h₁

/-- **One careful step** keeps everything intact. -/
theorem Intact.step {s' : Store} {m : Move} (ha : fs.atomic_writes = true) (h : Intact c s)
    (hc : Careful k fs s m) (hs : s.step k c fs m = some s') : Intact c s' := by
  cases m with
  | open_ path options fault inner =>
    simp only [Store.step] at hs
    split at hs
    · rename_i d af hop
      cases hs
      obtain ⟨hd, hl, hino⟩ := AutoMkcolFs.open_spares hop
      refine (h.spared hd).joined (.full (Upload.start d af) false) fun u r he => ?_
      cases he
      refine ⟨hl, fun i v q hv => ?_⟩
      -- an inode that another upload owes a digest for is older than this one
      have hold := (h.ledger i v q hv).old
      omega
    · rename_i d e hop
      cases hs
      exact h.spared (spares_of_grows (Server.open_error hop))
    · rename_i d hop
      have hd := h.spared (spares_of_grows (AutoMkcolFs.open_inner hop))
      -- not an upload of a whole file: it is opened in place, or refused
      split at hs
      · rename_i hw
        split at hs
        · rename_i d' ino hip
          cases hs
          refine (hd.opened_local hip ?_).joined (.in_place ino) fun u r he => by cases he
          intro ht hnew hin hread
          -- with `create` as well it would have been a full upload
          have hcr : options.create = false := AutoMkcolFs.not_create_of_inner ha hw ht hop
          obtain rfl := AutoMkcolFs.open_inner_same hcr hop
          exact hc hw ht hcr hnew hin ino hread
        · cases hs
          exact hd
      · cases hs
        exact hd
  | act i a =>
    simp only [Store.step] at hs
    split at hs
    · rename_i u hu
      obtain ⟨⟨d, u', r⟩, hadv, rfl⟩ := Option.map_eq_some_iff.mp hs
      exact h.advanced hu ((h.ledger i u false hu).advance hadv)
    · cases hs
  | record i =>
    simp only [Store.step] at hs
    split at hs
    · rename_i u hu
      cases hs
      exact h.digested hu hc
    · cases hs
  | write_in_place i pos bs =>
    simp only [Store.step] at hs
    split at hs
    · rename_i ino hi
      cases hs
      exact h.wrote hi hc
    · cases hs
  | close i =>
    simp only [Store.step] at hs
    split at hs
    · cases hs
      refine h.replaced h.recorded (fun u r he => ?_) fun j u r _ hu => h.ledger j u r hu
      cases he
    · cases hs

/-- **The digest on the file.** On a disk whose digests are right they stay
right, at every moment of every run of full uploads and of clients that write in
place, as long as each digest finds the file it was computed for and no file with
a digest is emptied or written in place. -/
theorem digest_recorded (k : Kernel) (c : Crates) (fs : AutoMkcolFs)
    (ha : fs.atomic_writes = true) (d : Disk) (hd : Recorded c d) {s : Store}
    (h : Reach (Store.step k c fs) (Careful k fs) ⟨d, []⟩ s) : Recorded c s.disk := by
  have hintact : Intact c s := by
    refine h.inv (I := Intact c) ⟨hd, ?_, ?_⟩ fun _ _ _ hi hc hs => hi.step ha hc hs
    · intro i u r hu
      simp at hu
    · intro i j u v r q _ hu
      simp at hu
  exact hintact.recorded

/-- A test for `Unclaimed`. -/
def unclaimed (s : Store) (ino : Nat) : Bool :=
  (s.disk.inode ino).sha256 = none ∧ s.parties.all fun
    | .full v r => !(decide (v.stage = .writing) || r) || decide (v.ino ≠ ino)
    | _ => true

theorem unclaimed_of_test {s : Store} {ino : Nat} (h : unclaimed s ino = true) :
    Unclaimed s ino := by
  simp only [unclaimed, Bool.decide_and, Bool.and_eq_true, decide_eq_true_eq] at h
  obtain ⟨hnone, hall⟩ := h
  refine ⟨hnone, ?_⟩
  intro n v r hv hp
  have hv' := List.all_eq_true.mp hall _ (List.mem_of_getElem? hv)
  rcases hp with hp | hp <;> simpa [hp] using hv'

/-- A test for `Careful`: a digest finds its own file, and a file is emptied or written in
place when it is unclaimed. -/
def careful (k : Kernel) (fs : AutoMkcolFs) (s : Store) : Move → Bool
  | .open_ path options _ _ =>
    !options.truncate || options.create ||
      match k.read s.disk.tree (fs.fspath path) with
      | some ino => unclaimed s ino
      | none => true
  | .record i =>
    match s.parties[i]? with
    | some (.full u true) =>
      match k.read s.disk.tree u.af.target_path with
      | some j => j = u.ino
      | none => true
    | _ => true
  | .write_in_place i _ _ =>
    match s.parties[i]? with
    | some (.in_place ino) => unclaimed s ino
    | _ => true
  | _ => true

theorem careful_of_test (s : Store) (m : Move) (h : careful k fs s m = true) :
    Careful k fs s m := by
  cases m with
  | open_ path options fault inner =>
    intro _ ht hc _ _ ino hread
    simp only [careful, ht, hc, hread, Bool.not_true, Bool.false_or] at h
    exact .inr (unclaimed_of_test h)
  | act i a => trivial
  | close i => trivial
  | record i =>
    intro u hu j hj
    simp only [careful, hu, hj, decide_eq_true_eq] at h
    exact .inl h
  | write_in_place i pos bs =>
    intro ino hi
    simp only [careful, hi] at h
    exact .inr (unclaimed_of_test h)

/-- A test for `Quiet`. -/
def Store.quiet (s : Store) : Bool :=
  s.parties.all fun
    | .full u r => !r && decide (u.stage = .dropped)
    | .in_place _ => false
    | .gone => true

theorem quiet_of_test {s : Store} (h : s.quiet = true) : s.Quiet := by
  intro p hp
  have hp' := List.all_eq_true.mp h p hp
  cases p with
  | full u r =>
    simp only [Bool.and_eq_true, Bool.not_eq_true', decide_eq_true_eq] at hp'
    exact .inr ⟨u, by rw [hp'.1], hp'.2⟩
  | in_place ino => cases hp'
  | gone => exact .inl rfl

theorem recorded_blank (c : Crates) : Recorded c .blank := by
  intro l i v _ hv
  cases hv

/-- An `open` for a partial upload. -/
def patching : OpenOptions := { putting none with truncate := false }

/-- The digest of one upload is recorded, and a client writes to another, new
file. -/
theorem digest_recorded_two : ∃ s, Reach (Store.step host digests serving) (Careful host serving)
    ⟨.blank, []⟩ s ∧ s.Quiet ∧ Recorded digests s.disk ∧ (s.disk.inode 0).sha256.isSome := by
  have hrun : ((exec_if (Store.step host digests serving) (careful host serving) ⟨.blank, []⟩
      [.open_ ["a"] (putting none) unhindered none, .act 0 (.write (.bytes [1] none)),
        .act 0 (.flush ⟨none, none⟩), .record 0, .act 0 (.metadata ⟨none, none⟩), .act 0 .drop,
        .open_ ["b"] patching unhindered none, .write_in_place 1 3 [7], .close 1]).map fun s =>
      (s.quiet, (s.disk.inode 0).sha256.isSome)) = some (true, true) := by decide
  obtain ⟨s, hs, hout⟩ := Option.map_eq_some_iff.mp hrun
  simp only [Prod.mk.injEq] at hout
  have hreach := reach_of_exec_if (C := Careful host serving) careful_of_test hs
  exact ⟨s, hreach, quiet_of_test hout.1,
    digest_recorded host digests serving rfl .blank (recorded_blank digests) hreach, hout.2⟩

/-- Where a finished run has left a wrong digest. -/
theorem not_recorded_of_run {C : Kernel → AutoMkcolFs → Store → Move → Prop}
    {t : Store → Move → Bool} (ht : ∀ s m, t s m = true → C host serving s m) {ms : List Move}
    {x : List String} {i : Nat} {v : String}
    (h : ((exec_if (Store.step host digests serving) t ⟨.blank, []⟩ ms).map fun s =>
      (s.quiet, s.disk.tree.get x, (s.disk.inode i).sha256,
        decide (v = digests.hex_encode (digests.sha256 (s.disk.inode i).content))))
      = some (true, some (.file i), some v, false)) :
    ¬ ∀ (k : Kernel) (c : Crates) (fs : AutoMkcolFs) (d : Disk), fs.atomic_writes = true →
      Recorded c d → ∀ s, Reach (Store.step k c fs) (C k fs) ⟨d, []⟩ s → s.Quiet →
        Recorded c s.disk := by
  intro hall
  obtain ⟨s, hs, hout⟩ := Option.map_eq_some_iff.mp h
  simp only [Prod.mk.injEq] at hout
  obtain ⟨hq, hx, hv, hne⟩ := hout
  have hrec := hall host digests serving .blank rfl (recorded_blank digests) s
    (reach_of_exec_if ht hs) (quiet_of_test hq)
  exact of_decide_eq_false hne (hrec x i v hx hv)

/-- Two uploads of one target: the second to rename is the first to record, and
its file ends up with the digest of the other. -/
theorem digest_of_another : ¬ ∀ (k : Kernel) (c : Crates) (fs : AutoMkcolFs) (d : Disk),
    fs.atomic_writes = true → Recorded c d → ∀ s, Reach (Store.step k c fs) Any ⟨d, []⟩ s →
      s.Quiet → Recorded c s.disk := by
  refine @not_recorded_of_run (fun _ _ => Any) (fun _ _ => true) (fun _ _ _ => trivial)
    [.open_ ["a"] (putting none) unhindered none, .open_ ["a"] (putting none) unhindered none,
      .act 0 (.write (.bytes [1] none)), .act 1 (.write (.bytes [1, 2] none)),
      .act 0 (.flush ⟨none, none⟩), .act 1 (.flush ⟨none, none⟩), .record 1, .record 0,
      .act 0 .drop, .act 1 .drop] ["a"] 1
    "4bf5122f344554c53bde2ebb8cd2b7e3d1600ad631c385a5d7cce23c7785459a" ?_
  decide

/-- Every digest finds its own file. -/
def Unrivalled (k : Kernel) (fs : AutoMkcolFs) (s : Store) (m : Move) : Prop :=
  ∀ i, m = .record i → Careful k fs s m

/-- It takes no second upload: a client writes in place to a file that an upload
has left there. -/
theorem digest_of_old_bytes : ¬ ∀ (k : Kernel) (c : Crates) (fs : AutoMkcolFs) (d : Disk),
    fs.atomic_writes = true → Recorded c d → ∀ s,
      Reach (Store.step k c fs) (Unrivalled k fs) ⟨d, []⟩ s → s.Quiet → Recorded c s.disk := by
  refine @not_recorded_of_run Unrivalled
    (fun s m => match m with | .record _ => careful host serving s m | _ => true) ?_
    [.open_ ["a"] (putting none) unhindered none, .act 0 (.write (.bytes [1] none)),
      .act 0 (.flush ⟨none, none⟩), .record 0, .act 0 .drop,
      .open_ ["a"] patching unhindered none, .write_in_place 1 1 [2], .close 1] ["a"] 0
    "4bf5122f344554c53bde2ebb8cd2b7e3d1600ad631c385a5d7cce23c7785459a" ?_
  · rintro s m hm i rfl
    exact careful_of_test s _ hm
  · decide

/-- An `open` for a whole body that makes no file: a `PUT` with `If-Match`. -/
def matching : OpenOptions := { putting none with create := false }

/-- Nor does it take a partial one: a whole body goes in place as well, if it may not make
a file. -/
theorem digest_of_emptied : ¬ ∀ (k : Kernel) (c : Crates) (fs : AutoMkcolFs) (d : Disk),
    fs.atomic_writes = true → Recorded c d → ∀ s,
      Reach (Store.step k c fs) (Unrivalled k fs) ⟨d, []⟩ s → s.Quiet → Recorded c s.disk := by
  refine @not_recorded_of_run Unrivalled
    (fun s m => match m with | .record _ => careful host serving s m | _ => true) ?_
    [.open_ ["a"] (putting none) unhindered none, .act 0 (.write (.bytes [1] none)),
      .act 0 (.flush ⟨none, none⟩), .record 0, .act 0 .drop,
      .open_ ["a"] matching unhindered none, .write_in_place 1 0 [2], .close 1] ["a"] 0
    "4bf5122f344554c53bde2ebb8cd2b7e3d1600ad631c385a5d7cce23c7785459a" ?_
  · rintro s m hm i rfl
    exact careful_of_test s _ hm
  · decide

end WebDavs.AutoFs
