/-
One upload, step by step.

The server opens an upload, hands it the body write by write until one fails,
flushes it, asks for its metadata and drops it; the client may go away before
any of these. `Upload.step` is that driver. Two invariants carry everything said
about its runs. `Books`: the hasher, the counter and the temp file's contents
agree with what was sent, and what is committed was complete. `Held`: the temp
file is still the one entry with its inode, at the spot `open` made it, and the
directories `open` saw are where they were; then the temp path can only mean
that file, whatever other uploads have done to the tree.
-/
import WebDavs.Upload
import WebDavs.Posix.Lasting
import WebDavs.Steps

set_option autoImplicit false

namespace WebDavs.AutoFs

open WebDavs.Posix WebDavs.Posix.FileTree WebDavs.Steps

/-! ## An upload as the server drives it -/

/-- How far an upload has come: taking writes; broken by an error; flushed;
asked for its metadata; dropped. -/
inductive Stage where
  | writing
  | failed
  | flushed
  | closed
  | dropped
deriving DecidableEq

/-- An upload in progress. The last three fields are history: the inode of the
temp file, the body sent so far, and the tree right after `open`. -/
structure Upload where
  af : AtomicFile
  stage : Stage
  ino : Nat
  sent : Bytes
  born : FileTree Nat

/-- What is done to an upload once it is open. -/
inductive Act where
  | write (call : AtomicFile.WriteCall)
  | flush (fault : AtomicFile.CommitFault)
  | metadata (fault : AtomicFile.CommitFault)
  | drop

namespace Upload

/-- The upload `open` has just handed out. -/
def start (d : Disk) (af : AtomicFile) : Upload where
  af := af
  stage := .writing
  ino := (af.file.map Handle.ino).getD 0
  sent := []
  born := d.tree

/-- The stage after an operation: an error ends the upload. -/
def outcome {β : Type} (ok : Stage) : Except FsError β → Stage
  | .ok _ => ok
  | .error _ => .failed

/-- One step of an upload: writes until the first error, then `flush`, then
`metadata`, and `drop` whenever the client goes away. -/
def step (k : Kernel) (c : Crates) (d : Disk) (u : Upload) : Act → Option (Disk × Upload)
  | .write call =>
    if u.stage = .writing then
      let r := u.af.write d call
      some (r.2.1, { u with
        af := r.1, stage := outcome .writing r.2.2, sent := u.sent ++ call.body })
    else none
  | .flush fault =>
    if u.stage = .writing then
      let r := u.af.flush k c d fault
      some (r.2.1, { u with af := r.1, stage := outcome .flushed r.2.2 })
    else none
  | .metadata fault =>
    if u.stage = .flushed then
      let r := u.af.metadata k c d fault
      some (r.2.1, { u with af := r.1, stage := outcome .closed r.2.2 })
    else none
  | .drop =>
    if u.stage = .dropped then none
    else some (u.af.drop k d, { u with stage := .dropped })

/-- The temp file is this upload's to clean up. -/
def Live (u : Upload) : Prop := u.af.committed = false ∧ u.stage ≠ .dropped

/-! ## The temp file stays where it was made -/

/-- A live upload's temp file is at the spot `open` made it, the only entry with
its inode, and no directory or link that `open` saw has become anything but a
file. -/
structure Held (k : Kernel) (o : Spot) (d : Disk) (u : Upload) : Prop where
  temp : u.af.temp_path = o.dir.child o.temp_name
  target : ∀ m, u.af.target_path.file_name = some m →
    u.af.target_path = o.dir.child m ∧ o.temp_name ≠ m
  stat : k.stat u.born o.dir = some o.base
  dir : u.born.get o.base = some .dir
  not_dir : k.is_dir u.born u.af.target_path = false
  made : u.born.get o.loc = some (.file u.ino)
  fades : Fades u.born d.tree
  only : ∀ l, d.tree.get l = some (.file u.ino) ↔ l = o.loc
  old : u.ino < d.next

theorem held_start {k : Kernel} {dm d : Disk} {o : Spot} {af : AtomicFile}
    (h : Opening k dm d o af) : Held k o d (start d af) := by
  have hino : (start d af).ino = dm.next := by simp [start, h.file]
  have hx : d.tree.get o.loc = some (.file dm.next) := by rw [h.get, if_pos rfl]
  have hext : Extends dm.tree d.tree := by
    intro l e he
    rw [h.get]
    split
    · rename_i hl
      rw [hl, h.free] at he
      cases he
    · exact he
  have hrest : ∀ l, l ≠ o.loc → d.tree.get l = dm.tree.get l := by
    intro l hl
    rw [h.get, if_neg hl]
  refine ⟨h.temp, h.target, Kernel.stat_extends hext h.stat, hext _ _ h.dir, ?_,
    by rw [hino]; exact hx, Fades.refl _, fun l => ?_, by rw [hino, h.next]; exact Nat.lt_succ_self _⟩
  · rw [Bool.eq_false_iff]
    intro hd
    obtain ⟨l, hs, hl⟩ := Kernel.is_dir_iff.mp hd
    have hlx : l ≠ o.loc := by
      rintro rfl
      rw [show (start d af).born = d.tree from rfl, hx] at hl
      cases hl
    have hs' := (Kernel.stat_of_leaf hx hrest hs).resolve_left hlx
    have : k.is_dir dm.tree af.target_path = true :=
      Kernel.is_dir_iff.mpr ⟨l, hs', by rw [← hrest l hlx]; exact hl⟩
    rw [h.not_dir] at this
    cases this
  · rw [hino, h.get]
    constructor
    · intro hl
      split at hl
      · assumption
      · exact absurd (dm.fresh hl) (Nat.lt_irrefl _)
    · rintro rfl
      rw [if_pos rfl]

/-- The temp path can only mean the upload's own temp file. -/
theorem Held.slot_temp {k : Kernel} {o : Spot} {d : Disk} {u : Upload} (h : Held k o d u)
    {s : Loc × String} (hs : k.slot d.tree u.af.temp_path = some s) :
    s = (o.base, o.temp_name) := by
  obtain ⟨D, n⟩ := s
  rw [h.temp] at hs
  obtain ⟨hst, hD, rfl⟩ := Kernel.slot_child_eq_some.mp hs
  obtain ⟨rfl, -⟩ := Kernel.stat_fades h.fades (fun _ _ _ => rfl) h.stat h.dir hst hD
  rfl

/-- No link that led to a directory when the upload was opened is its target. -/
theorem Held.target_leads {k : Kernel} {o : Spot} {d : Disk} {u : Upload} (h : Held k o d u)
    {m : String} (hm : u.af.target_path = o.dir.child m) :
    ¬ u.born.LeadsToDir k.links o.base m := by
  rintro ⟨l, hw, hl⟩
  have hd : k.is_dir u.born u.af.target_path = true := by
    rw [Kernel.is_dir_iff, hm]
    exact ⟨l, by rw [Kernel.stat_child, h.stat]; exact hw, hl⟩
  rw [h.not_dir] at hd
  cases hd

/-- **The rename of `commit`**, when it succeeds, puts the upload's own temp
file at the target, where the target path then leads, and changes nothing
else. -/
theorem Held.rename {k : Kernel} {o : Spot} {d d' : Disk} {u : Upload} {fault : Option Errno}
    (h : Held k o d u) (hr : d.rename k u.af.temp_path u.af.target_path fault = .ok d') :
    ∃ m, u.af.target_path = o.dir.child m ∧ o.temp_name ≠ m ∧
      k.slot d.tree u.af.target_path = some (o.base, m) ∧
      d.tree.get (o.base ++ [m]) ≠ some .dir ∧
      (∀ x, d'.tree.get x = if x = o.base ++ [m] then some (.file u.ino)
        else if x = o.loc then none else d.tree.get x) ∧
      k.stat d'.tree o.dir = some o.base ∧ d'.tree.get o.base = some .dir ∧
      k.stat d'.tree u.af.target_path = some (o.base ++ [m]) := by
  obtain ⟨-, ht, -, -⟩ := Disk.rename_ok hr
  obtain ⟨D, n, D', m, e, hs, hs', he, hD', -, -⟩ := Kernel.rename_spec ht
  obtain ⟨q, hq, -, -⟩ := Kernel.slot_spec hs'
  have hfn : u.af.target_path.file_name = some m := by rw [hq, Path.file_name_child]
  obtain ⟨hm, hne⟩ := h.target m hfn
  obtain ⟨rfl, rfl⟩ := Prod.mk.inj (h.slot_temp hs)
  -- the target has the parent of the temp file, which still leads where it led
  have hbase : D' = o.base := by
    rw [hm] at hs'
    obtain ⟨hst, hdir, -⟩ := Kernel.slot_child_eq_some.mp hs'
    exact (Kernel.stat_fades h.fades (fun _ _ _ => rfl) h.stat h.dir hst hdir).1
  subst hbase
  have hloc : d.tree.get o.loc = some (.file u.ino) := (h.only _).mpr rfl
  have hee : e = .file u.ino := by
    have : d.tree.get (o.base ++ [o.temp_name]) = some (.file u.ino) := hloc
    rw [he] at this
    exact Option.some.inj this
  subst hee
  have hdiff : o.loc ≠ o.base ++ [m] := fun heq => hne (by simpa [Spot.loc] using heq)
  obtain ⟨hnd, hget⟩ := Kernel.rename_leaf_spec ht hs hs' he (by simp) hdiff
  have hget' : ∀ x, d'.tree.get x = if x = o.base ++ [m] then some (.file u.ino)
      else if x = o.loc then none else d.tree.get x := hget
  -- the rename changes two names of this directory, and neither led to a directory
  have hkeep : ∀ D n, u.born.LeadsToDir k.links D n →
      d'.tree.get (D ++ [n]) = d.tree.get (D ++ [n]) := by
    intro D n hlead
    rw [hget']
    split
    · rename_i hx
      obtain ⟨rfl, hn⟩ := List.append_inj' hx rfl
      obtain rfl := List.singleton_inj.mp hn
      exact absurd hlead (h.target_leads hm)
    · split
      · rename_i hx
        obtain ⟨l, hw, hl⟩ := hlead
        rw [walk_normal, hx, h.made] at hw
        cases hw
        rw [h.made] at hl
        cases hl
      · rfl
  obtain ⟨hst, hdir, -⟩ := Kernel.slot_child_eq_some.mp (hm ▸ hs')
  obtain ⟨-, hst'⟩ := Kernel.stat_fades h.fades hkeep h.stat h.dir hst hdir
  have hdir' : d'.tree.get o.base = some .dir := by
    rw [hget', if_neg (by simp), if_neg (by simp [Spot.loc])]
    exact hdir
  refine ⟨m, hm, hne, hs', hnd, hget', hst', hdir', ?_⟩
  rw [hm]
  exact Kernel.stat_child_of_get hst' (e := .file u.ino) (by rw [hget', if_pos rfl]) (by simp)

/-- **`drop`** of an upload that did not commit takes away its own temp file or
nothing. -/
theorem Held.drop {k : Kernel} {o : Spot} {d : Disk} {u : Upload} (h : Held k o d u) :
    (u.af.drop k d).inode = d.inode ∧ (u.af.drop k d).next = d.next ∧
      ((u.af.drop k d).tree = d.tree ∨
        ∀ x, (u.af.drop k d).tree.get x = if x = o.loc then none else d.tree.get x) := by
  unfold AtomicFile.drop
  split
  · exact ⟨rfl, rfl, .inl rfl⟩
  · split
    · rename_i d' hd'
      obtain ⟨ht, hino, hnext⟩ := Disk.remove_file_ok hd'
      obtain ⟨D, n, e, hs, -, -, hget⟩ := Kernel.remove_file_spec ht
      have hs' := h.slot_temp hs
      cases hs'
      exact ⟨hino, hnext, .inr hget⟩
    · exact ⟨rfl, rfl, .inl rfl⟩

/-- While its directory is where it was, `drop` does find the temp file. -/
theorem Held.drop_removes {k : Kernel} {o : Spot} {d : Disk} {u : Upload} (h : Held k o d u)
    (hst : k.stat d.tree o.dir = some o.base) (hc : u.af.committed = false) (x : Loc) :
    (u.af.drop k d).tree.get x = if x = o.loc then none else d.tree.get x := by
  have hloc : d.tree.get (o.base ++ [o.temp_name]) = some (.file u.ino) := (h.only _).mpr rfl
  have hslot : k.slot d.tree u.af.temp_path = some (o.base, o.temp_name) := by
    rw [h.temp]
    exact Kernel.slot_child_eq_some.mpr ⟨hst, d.tree.get_parent hloc, rfl⟩
  have hrm : k.remove_file d.tree u.af.temp_path
      = .ok (d.tree.erase (o.base ++ [o.temp_name]) (by simp)) := by
    simp only [Kernel.remove_file, hslot, hloc]
  obtain ⟨d', hd'⟩ := Disk.remove_file_of_ok hrm
  obtain ⟨ht, -, -⟩ := Disk.remove_file_ok hd'
  obtain ⟨D, n, e, hs, -, -, hget⟩ := Kernel.remove_file_spec ht
  cases h.slot_temp hs
  simp only [AtomicFile.drop, hc, hd']
  exact hget x

/-! ## What one step does -/

/-- The three kinds of step. -/
inductive StepCase (k : Kernel) (c : Crates) (d : Disk) (u : Upload) : Act → Disk × Upload →
    Prop where
  | wrote (call : AtomicFile.WriteCall) (hs : u.stage = .writing) :
      StepCase k c d u (.write call) ((u.af.write d call).2.1, { u with
        af := (u.af.write d call).1
        stage := outcome .writing (u.af.write d call).2.2
        sent := u.sent ++ call.body })
  | committed (a : Act) (fault : AtomicFile.CommitFault) (st : Stage)
      (ha : a = .flush fault ∨ a = .metadata fault)
      (hs : u.stage = .writing ∨ u.stage = .flushed)
      (hst : st = .failed ∨ st = .flushed ∨ st = .closed) :
      StepCase k c d u a ((u.af.commit k c d fault).2.1, { u with
        af := (u.af.commit k c d fault).1
        stage := st })
  | dropped (hs : u.stage ≠ .dropped) :
      StepCase k c d u .drop (u.af.drop k d, { u with stage := .dropped })

theorem step_cases {k : Kernel} {c : Crates} {d : Disk} {u : Upload} {a : Act} {x : Disk × Upload}
    (h : u.step k c d a = some x) : StepCase k c d u a x := by
  cases a with
  | write call =>
      simp only [step] at h
      split at h
      · rename_i hs
        cases h
        exact .wrote call hs
      · cases h
  | flush fault =>
      simp only [step] at h
      split at h
      · rename_i hs
        cases h
        refine .committed _ fault _ (.inl rfl) (.inl hs) ?_
        cases (u.af.flush k c d fault).2.2 <;> simp [outcome]
      · cases h
  | metadata fault =>
      simp only [step] at h
      split at h
      · rename_i hs
        cases h
        rw [(AtomicFile.metadata_commit k c u.af d fault).1,
          (AtomicFile.metadata_commit k c u.af d fault).2]
        refine .committed _ fault _ (.inr rfl) (.inr hs) ?_
        cases (u.af.metadata k c d fault).2.2 <;> simp [outcome]
      · cases h
  | drop =>
      simp only [step] at h
      split at h
      · cases h
      · rename_i hs
        cases h
        exact .dropped hs

/-- No step changes what the upload was opened with. -/
theorem step_keeps {k : Kernel} {c : Crates} {d d' : Disk} {u u' : Upload} {a : Act}
    (h : u.step k c d a = some (d', u')) :
    u'.ino = u.ino ∧ u'.born = u.born ∧ u'.af.temp_path = u.af.temp_path ∧
      u'.af.target_path = u.af.target_path ∧ u'.af.expected_size = u.af.expected_size ∧
      u'.af.expected_checksum = u.af.expected_checksum := by
  cases step_cases h with
  | wrote call hs =>
      have hsame : AtomicFile.SameUpload u.af (u.af.write d call).1 := by
        cases call with
        | bytes buf fault =>
            simp only [AtomicFile.write, AtomicFile.write_bytes]
            split
            · exact ⟨rfl, rfl, rfl, rfl, rfl, rfl⟩
            · cases fault <;> exact ⟨rfl, rfl, rfl, rfl, rfl, rfl⟩
        | buf chunks sched =>
            simp only [AtomicFile.write, AtomicFile.write_buf]
            split <;> exact ⟨rfl, rfl, rfl, rfl, rfl, rfl⟩
      exact ⟨rfl, rfl, hsame.temp_path, hsame.target_path, hsame.expected_size,
        hsame.expected_checksum⟩
  | committed _ fault st ha hs hst =>
      obtain ⟨h1, h2, h3, h4, -⟩ := AtomicFile.commit_keeps k c u.af d fault
      exact ⟨rfl, rfl, h1, h2, h3, h4⟩
  | dropped hs => exact ⟨rfl, rfl, rfl, rfl, rfl, rfl⟩

/-- The body is all of what was promised: as long as announced, and with the
digest the client sent. -/
def Complete (c : Crates) (u : Upload) : Prop :=
  (∀ n, u.af.expected_size = some n → u.sent.length = n) ∧
    ∀ sum, u.af.expected_checksum.bind (parse_sha256_checksum c) = some sum →
      sum = c.sha256 u.sent

/-- The temp file, the hasher and the counter agree with what was sent, and
nothing incomplete was committed. -/
structure Books (c : Crates) (d : Disk) (u : Upload) : Prop where
  taking : u.stage = .writing → u.af.committed = false ∧
    ∃ f, u.af.file = some f ∧ f.ino = u.ino ∧ AtomicFile.AtEnd d f
  counted : u.stage = .writing ∨ u.stage = .flushed →
    (d.inode u.ino).content = u.sent ∧ u.af.hasher = u.sent ∧ u.af.written = u.sent.length
  sealed : u.af.committed = true → (d.inode u.ino).content = u.sent ∧ Complete c u

theorem books_start {k : Kernel} {c : Crates} {dm d : Disk} {o : Spot} {af : AtomicFile}
    (h : Opening k dm d o af) : Books c d (start d af) := by
  have hino : (start d af).ino = dm.next := by simp [start, h.file]
  have hcont : (d.inode dm.next).content = [] := by simp [h.inode]
  refine ⟨fun _ => ⟨h.committed, _, h.file, hino.symm, ?_⟩, fun _ => ⟨?_, h.hasher, ?_⟩,
    fun hc => ?_⟩
  · simp [AtomicFile.AtEnd, hcont]
  · rw [hino, hcont]
    rfl
  · simpa [start] using h.written
  · rw [show (start d af).af.committed = af.committed from rfl, h.committed] at hc
    cases hc

/-- A check that passed says the body is complete. -/
theorem complete_of_checks {c : Crates} {d : Disk} {u : Upload} (h : Books c d u)
    (hs : u.stage = .writing ∨ u.stage = .flushed) (hm : u.af.checksum_mismatch c = false)
    (hw : u.af.should_commit = true) : Complete c u := by
  obtain ⟨-, hhash, hlen⟩ := h.counted hs
  refine ⟨fun n hn => ?_, fun sum hsum => ?_⟩
  · simp only [AtomicFile.should_commit, hn, decide_eq_true_eq] at hw
    rw [← hlen, hw]
  · simp only [AtomicFile.checksum_mismatch, hsum, ne_eq, decide_not, Bool.not_eq_false',
      decide_eq_true_eq] at hm
    rw [hm, hhash]

/-- **Every step of an upload keeps its books.** -/
theorem books_step {k : Kernel} {c : Crates} {d d' : Disk} {u u' : Upload} {a : Act}
    (h : Books c d u) (hs : u.step k c d a = some (d', u')) : Books c d' u' := by
  cases step_cases hs with
  | wrote call hw =>
      obtain ⟨hnc, f, hf, hfi, hend⟩ := h.taking hw
      obtain ⟨hcont, hhash, hlen⟩ := h.counted (.inl hw)
      obtain ⟨f', bs, hf', happ, hsame, hok⟩ := AtomicFile.write_spec hf hend call
      have hnc' : (u.af.write d call).1.committed = false := hsame.committed.trans hnc
      refine ⟨fun _ => ⟨hnc', f', hf', happ.ino.trans hfi, happ.atEnd⟩, fun hst => ?_, fun hc => ?_⟩
      · -- the stage says that the write succeeded
        have hres : (u.af.write d call).2.2 = .ok () := by
          cases hr : (u.af.write d call).2.2 with
          | ok v => rfl
          | error e => simp [hr, outcome] at hst
        obtain ⟨rfl, hhash', hlen'⟩ := hok hres
        refine ⟨?_, ?_, ?_⟩
        · have := happ.content
          rw [hfi, hcont] at this
          exact this
        · rw [hhash', hhash]
        · rw [hlen', hlen, List.length_append]
      · simp only [hnc'] at hc
        cases hc
  | committed _ fault st ha hst hst' =>
      have hk := AtomicFile.commit_keeps k c u.af d fault
      obtain ⟨-, -, hsz, hck, -, hhash', hlen', -, hcont'⟩ := hk
      obtain ⟨hcont, hhash, hlen⟩ := h.counted hst
      refine ⟨fun hw => ?_, fun _ => ⟨(hcont' _).trans hcont, hhash'.trans hhash, hlen'.trans hlen⟩,
        fun hc => ⟨(hcont' _).trans hcont, ?_⟩⟩
      · rcases hst' with rfl | rfl | rfl <;> cases hw
      -- a file is committed by the rename, which comes after all the checks, or was before
      · have hcomp : Complete c u := by
          rcases AtomicFile.commit_committed hc with ⟨hcom, -⟩ | ⟨d', hcom, hm, hw, -, -⟩
          · exact (h.sealed hcom).2
          · exact complete_of_checks h hst hm hw
        exact ⟨fun n hn => hcomp.1 n (hsz ▸ hn), fun sum hsum => hcomp.2 sum (hck ▸ hsum)⟩
  | dropped hst =>
      -- a drop takes a name away and leaves the inodes alone
      have hino : ∀ i, ((u.af.drop k d).inode i) = d.inode i := by
        intro i
        unfold AtomicFile.drop
        split
        · rfl
        · split
          · rename_i d' hd'
            rw [(Disk.remove_file_ok hd').2.1]
          · rfl
      refine ⟨fun hw => by simp at hw, fun hw => by simp at hw, fun hc => ?_⟩
      have hs := h.sealed hc
      exact ⟨by simpa only [hino] using hs.1, hs.2⟩

end Upload

/-! ## A small server

Enough of one to run an upload on: a disk, a kernel, a request. -/

/-- The upload an `open` has handed out, if it has. -/
def atomic_of : Disk × Except FsError Opened → Option (Disk × AtomicFile)
  | (d, .ok (.atomic af)) => some (d, af)
  | _ => none

theorem atomic_of_eq_some {r : Disk × Except FsError Opened} {d : Disk} {af : AtomicFile}
    (h : atomic_of r = some (d, af)) : r = (d, .ok (.atomic af)) := by
  unfold atomic_of at h
  split at h
  · cases h
    rfl
  · cases h

/-- A disk whose inode numbers have been checked entry by entry. -/
def Disk.of (t : FileTree Nat) (inode : Nat → Inode) (next : Nat)
    (h : t.dom.all fun l => match t.get l with
      | some (.file i) => i < next
      | _ => true) : Disk where
  tree := t
  inode := inode
  next := next
  fresh := by
    intro l i hl
    have := List.all_eq_true.mp h l (t.mem_dom hl)
    simpa [hl] using this

/-- A kernel that follows forty links, on one device. -/
def host : Kernel where
  links := 40
  cwd := []
  dev _ := 0

/-- The server on `/`, with atomic writes. -/
def serving : AutoMkcolFs where
  root := Path.abs []
  create_parents := true
  atomic_writes := true
  fsync := false

/-- A `PUT` of a body of known or unknown length. -/
def putting (size : Option Nat) : OpenOptions where
  write := true
  create := true
  create_new := false
  truncate := true
  size := size
  checksum := none

/-- An `open` nothing interferes with. -/
def unhindered : OpenFault where
  parent := none
  free_space := none
  temp _ := none

/-- A disk with nothing on it. -/
def Disk.blank : Disk := Disk.of FileTree.empty (fun _ => ⟨[], none⟩) 0 (by decide)

/-- SHA-256 and hexadecimal, as far as the runs below ask for them. -/
def digests : Crates where
  sha256 b :=
    if b = [1, 2] then
      [0xa1, 0x28, 0x71, 0xfe, 0xe2, 0x10, 0xfb, 0x86, 0x19, 0x29, 0x1e, 0xae, 0xa1, 0x94, 0x58, 0x1c,
        0xbd, 0x25, 0x31, 0xe4, 0xb2, 0x37, 0x59, 0xd2, 0x25, 0xf6, 0x80, 0x69, 0x23, 0xf6, 0x32,
          0x22]
    else if b = [1] then
      [0x4b, 0xf5, 0x12, 0x2f, 0x34, 0x45, 0x54, 0xc5, 0x3b, 0xde, 0x2e, 0xbb, 0x8c, 0xd2, 0xb7, 0xe3,
        0xd1, 0x60, 0x0a, 0xd6, 0x31, 0xc3, 0x85, 0xa5, 0xd7, 0xcc, 0xe2, 0x3c, 0x77, 0x85, 0x45,
          0x9a]
    else []
  hex_encode b := String.ofList (b.flatMap fun x =>
    [Nat.digitChar (x.toNat / 16), Nat.digitChar (x.toNat % 16)])
  hex_decode _ := none
  base64_decode _ := none

end WebDavs.AutoFs
