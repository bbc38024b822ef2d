/-
The two ways a full body is written.

With `write`, `create` and `truncate` set, and atomic writes on, the body goes to
a temp file; without one of these `LocalFs` empties the target and writes to it
where it is. `Put` drives either through the same request. A reader of the target
can tell them apart while the body arrives, and afterwards wherever the target's
file has another name: the rename puts a new file at one name, the direct write
changes the file itself (`full_write_iff`).
-/
import WebDavs.Exclusive
import WebDavs.Refusal

set_option autoImplicit false

namespace WebDavs.AutoFs

open WebDavs.Posix WebDavs.Posix.FileTree WebDavs.Steps

/-! ## A file of `LocalFs` -/

/-- A file opened in place, how far the request has come with it, and what has
been sent to it. -/
structure Direct where
  file : Handle
  stage : Stage
  sent : Bytes

namespace Direct

/-- `write_bytes` and `write_buf` of `LocalFs`: in order, until an error. -/
def write (d : Disk) (h : Handle) : AtomicFile.WriteCall → Disk × Handle × Except FsError Unit
  | .bytes buf none =>
    let (d, h) := d.write_at h buf
    (d, h, .ok ())
  | .bytes buf (some (e, n)) =>
    let (d, h) := d.write_at h (buf.take n)
    (d, h, .error (.io e))
  | .buf chunks sched =>
    let (d, h, _, res) := AtomicFile.write_buf_loop d h [] sched chunks
    (d, h, res)

/-- The stage after a call that changes nothing. -/
def checked (ok : Stage) (fault : AtomicFile.CommitFault) : Stage :=
  match fault.sync with
  | none => ok
  | some _ => .failed

/-- One step of a direct write, in the order of `Upload.step`. -/
def step (d : Disk) (w : Direct) : Act → Option (Disk × Direct)
  | .write call =>
    if w.stage = .writing then
      let r := write d w.file call
      some (r.1, ⟨r.2.1, Upload.outcome .writing r.2.2, w.sent ++ call.body⟩)
    else none
  | .flush fault =>
    if w.stage = .writing then some (d, { w with stage := checked .flushed fault }) else none
  | .metadata fault =>
    if w.stage = .flushed then some (d, { w with stage := checked .closed fault }) else none
  | .drop => if w.stage = .dropped then none else some (d, { w with stage := .dropped })

/-- A write appends some part of what it carries, all of it when it succeeds. -/
theorem write_spec {d : Disk} {h : Handle} (hend : AtomicFile.AtEnd d h)
    (call : AtomicFile.WriteCall) :
    ∃ bs, AtomicFile.Appended d (write d h call).1 h (write d h call).2.1 bs ∧ bs <+: call.body ∧
      ((write d h call).2.2 = .ok () → bs = call.body) := by
  cases call with
  | bytes buf fault =>
    cases fault with
    | none => exact ⟨buf, AtomicFile.write_at_appended hend buf, List.prefix_rfl, fun _ => rfl⟩
    | some en =>
      refine ⟨buf.take en.2, AtomicFile.write_at_appended hend _, List.take_prefix _ _, ?_⟩
      intro hr
      cases hr
  | buf chunks sched =>
    obtain ⟨bs, happ, -, hpre, hok⟩ := AtomicFile.write_buf_loop_spec hend [] sched chunks
    exact ⟨bs, happ, hpre, hok⟩

end Direct

/-! ## A request that writes a whole body -/

/-- What the server writes to. -/
inductive Session where
  | atomic (u : Upload)
  | direct (w : Direct)

/-- How far the request has come. -/
def Session.stage : Session → Stage
  | .atomic u => u.stage
  | .direct w => w.stage

/-- A request in progress: the disk, what it writes to, and what is left of its
body. -/
structure Put where
  disk : Disk
  session : Session
  left : Bytes

namespace Put

/-- The request after `open`, if that succeeded. -/
def opened (k : Kernel) (fs : AutoMkcolFs) (d : Disk) (path : List String) (options : OpenOptions)
    (fault : OpenFault) (inner : Option Errno) (body : Bytes) : Option Put :=
  match fs.open_writer k (.in_place k) d path options fault inner with
  | (d, .ok (.atomic af)) => some ⟨d, .atomic (.start d af), body⟩
  | (d, .ok (.direct h)) => some ⟨d, .direct ⟨h, .writing, []⟩, body⟩
  | (_, .error _) => none

/-- What is left of the body after a call: the next piece goes with a write, and
`flush` comes after the last. -/
def rest (left : Bytes) : Act → Option Bytes
  | .write call => if call.body <+: left then some (left.drop call.body.length) else none
  | .flush _ => if left = [] then some [] else none
  | .metadata _ => some left
  | .drop => some left

/-- One call of the request. -/
def step (k : Kernel) (c : Crates) (s : Put) (a : Act) : Option Put :=
  (rest s.left a).bind fun left =>
    match s.session with
    | .atomic u => (u.step k c s.disk a).map fun r => ⟨r.1, .atomic r.2, left⟩
    | .direct w => (w.step s.disk a).map fun r => ⟨r.1, .direct r.2, left⟩

/-- `s` is what is left of the request when all its calls have succeeded and the
file has been closed. -/
def Succeeds (k : Kernel) (c : Crates) (s₀ s : Put) : Prop :=
  ∃ s₁, Reach (step k c) Any s₀ s₁ ∧ s₁.session.stage = .closed ∧ s₁.step k c .drop = some s

/-- The body is what has been sent and what is left. -/
theorem rest_spec {left left' : Bytes} {a : Act} (h : rest left a = some left') :
    (∀ call, a = .write call → left = call.body ++ left') ∧
      ((∀ call, a ≠ .write call) → left' = left) ∧ ∀ fault, a = .flush fault → left' = [] := by
  cases a with
  | write call =>
    simp only [rest] at h
    split at h
    · rename_i hp
      cases h
      obtain ⟨q, rfl⟩ := hp
      refine ⟨?_, fun hne => absurd rfl (hne call), ?_⟩
      · intro call' hc
        cases hc
        rw [List.drop_left]
      · intro fault hf
        cases hf
    · cases h
  | flush fault =>
    simp only [rest] at h
    split at h
    · rename_i hl
      cases h
      exact ⟨fun _ hc => (by cases hc), fun _ => hl.symm, fun _ _ => rfl⟩
    · cases h
  | metadata fault =>
    cases h
    exact ⟨fun _ hc => (by cases hc), fun _ => rfl, fun _ hc => (by cases hc)⟩
  | drop =>
    cases h
    exact ⟨fun _ hc => (by cases hc), fun _ => rfl, fun _ hc => (by cases hc)⟩

end Put

/-! ## Writing in place -/

namespace Direct

/-- The invariant of a direct write to the inode `i`: the disk is the one `open`
left but for the contents of `i`, which are some beginning of what was sent. -/
structure InPlace (d₀ : Disk) (i : Nat) (body : Bytes) (d : Disk) (w : Direct) (left : Bytes) :
    Prop where
  tree : d.tree = d₀.tree
  others : ∀ j, j ≠ i → (d.inode j).content = (d₀.inode j).content
  ino : w.file.ino = i
  atEnd : AtomicFile.AtEnd d w.file
  part : (d.inode i).content <+: body
  all : w.stage = .writing ∨ w.stage = .flushed ∨ w.stage = .closed → (d.inode i).content = w.sent
  spent : w.sent ++ left = body
  drained : w.stage = .flushed ∨ w.stage = .closed → left = []

variable {d₀ d d' : Disk} {i : Nat} {body left left' : Bytes} {w w' : Direct} {a : Act}

theorem in_place_start {h : Handle} (hc : (d₀.inode h.ino).content = []) (hp : h.pos = 0) :
    InPlace d₀ h.ino body d₀ ⟨h, .writing, []⟩ body where
  tree := rfl
  others _ _ := rfl
  ino := rfl
  atEnd := by
    simp only [AtomicFile.AtEnd, hp, hc]
    rfl
  part := by
    rw [hc]
    exact List.nil_prefix
  all _ := hc
  spent := rfl
  drained hs := by rcases hs with hs | hs <;> cases hs

theorem in_place_step (h : InPlace d₀ i body d w left) (hs : w.step d a = some (d', w'))
    (hr : Put.rest left a = some left') : InPlace d₀ i body d' w' left' := by
  obtain ⟨hwrote, hsame, hflush⟩ := Put.rest_spec hr
  cases a with
  | write call =>
    simp only [step] at hs
    split at hs
    · rename_i hw
      obtain rfl := hwrote call rfl
      obtain ⟨bs, happ, hpre, hok⟩ := write_spec h.atEnd call
      have hcont : ((write d w.file call).1.inode i).content = w.sent ++ bs := by
        have hgrown := happ.content
        rw [h.ino, h.all (.inl hw)] at hgrown
        exact hgrown
      have hall : w.sent ++ (call.body ++ left') = body := h.spent
      simp only [Option.some.injEq, Prod.mk.injEq] at hs
      obtain ⟨rfl, rfl⟩ := hs
      refine ⟨happ.tree.trans h.tree, fun j hj => ?_, happ.ino.trans h.ino, happ.atEnd, ?_,
        fun hst => ?_, by rw [List.append_assoc]; exact hall, fun hst => ?_⟩
      · rw [happ.others j (by rw [h.ino]; exact hj)]
        exact h.others j hj
      -- what was written is a part of this call, which is the next of the body
      · rw [hcont, ← hall]
        exact (List.prefix_append_right_inj _).mpr (hpre.trans (List.prefix_append _ _))
      · -- the stage says that the write succeeded
        have hres : (write d w.file call).2.2 = .ok () := by
          cases hr : (write d w.file call).2.2 with
          | ok v => rfl
          | error e => simp [hr, Upload.outcome] at hst
        rw [hcont, hok hres]
      · exfalso
        revert hst
        cases (write d w.file call).2.2 <;> simp [Upload.outcome]
    · cases hs
  | flush fault =>
    simp only [step] at hs
    split at hs
    · rename_i hw
      obtain rfl := hsame fun _ hc => by cases hc
      simp only [Option.some.injEq, Prod.mk.injEq] at hs
      obtain ⟨rfl, rfl⟩ := hs
      exact ⟨h.tree, h.others, h.ino, h.atEnd, h.part, fun _ => h.all (.inl hw), h.spent,
        fun _ => hflush fault rfl⟩
    · cases hs
  | metadata fault =>
    simp only [step] at hs
    split at hs
    · rename_i hw
      obtain rfl := hsame fun _ hc => by cases hc
      simp only [Option.some.injEq, Prod.mk.injEq] at hs
      obtain ⟨rfl, rfl⟩ := hs
      exact ⟨h.tree, h.others, h.ino, h.atEnd, h.part, fun _ => h.all (.inr (.inl hw)), h.spent,
        fun _ => h.drained (.inl hw)⟩
    · cases hs
  | drop =>
    simp only [step] at hs
    split at hs
    · cases hs
    · obtain rfl := hsame fun _ hc => by cases hc
      simp only [Option.some.injEq, Prod.mk.injEq] at hs
      obtain ⟨rfl, rfl⟩ := hs
      refine ⟨h.tree, h.others, h.ino, h.atEnd, h.part, fun hst => ?_, h.spent, fun hst => ?_⟩
      · rcases hst with hst | hst | hst <;> cases hst
      · rcases hst with hst | hst <;> cases hst

end Direct

/-! ## Opening a target -/

/-- Nothing is there, or a file is, perhaps through links. -/
def FileOrAbsent (k : Kernel) (t : FileTree Nat) (p : Path) : Prop :=
  k.lstat t p = none ∨ k.is_file t p = true

/-- A file of `LocalFs`, opened with truncation on the disk `dm`: the file that was
there, or a new one in the slot. -/
structure Emptied (k : Kernel) (p : Path) (dm d₀ : Disk) (i : Nat) : Prop where
  empty : (d₀.inode i).content = []
  others : ∀ j, j ≠ i → (d₀.inode j).content = (dm.inode j).content
  there : k.read dm.tree p = some i ∧ d₀.tree = dm.tree ∨
    i = dm.next ∧ ∃ D n, k.slot dm.tree p = some (D, n) ∧ dm.tree.get (D ++ [n]) = none ∧
      ∀ x, d₀.tree.get x = if x = D ++ [n] then some (.file dm.next) else dm.tree.get x

namespace Disk

variable {k : Kernel} {dm d₀ : Disk} {p : Path} {options : OpenOptions} {h : Handle}

/-- What can be created at a path with nothing at it is its slot. -/
theorem slot_of_place {D : Loc} {n : String} (hp : k.place dm.tree p = some (D, n))
    (hnone : k.lstat dm.tree p = none) :
    k.slot dm.tree p = some (D, n) ∧ dm.tree.get (D ++ [n]) = none := by
  obtain ⟨q, m, rfl, hq⟩ := Kernel.parent_of_place hp
  obtain ⟨x, hx, hd⟩ := Kernel.is_dir_iff.mp hq
  have hslot : k.slot dm.tree (q.child m) = some (x, m) :=
    Kernel.slot_child_eq_some.mpr ⟨hx, hd, rfl⟩
  have hget : dm.tree.get (x ++ [m]) = none := by
    rw [← lstat_of_slot hslot]
    exact hnone
  rw [Kernel.place_child hx hd (linkAt_of_none hget)] at hp
  cases hp
  exact ⟨hslot, hget⟩

theorem open_truncated_spec {inner : Option Errno} (hk : FileOrAbsent k dm.tree p)
    (ho : dm.open_truncated k p options inner = .ok (d₀, h)) :
    h.pos = 0 ∧ Emptied k p dm d₀ h.ino ∧
      (k.is_file dm.tree p = true → options.create_new = false) ∧
      (options.create = false → options.create_new = false → k.is_file dm.tree p = true) := by
  unfold open_truncated at ho
  split at ho
  · cases ho
  · split at ho
    · cases ho
    · rename_i d₁ i hip
      cases ho
      have hempty : ((d₁.truncate i).inode i).content = [] := by simp [truncate]
      have hothers : ∀ j, j ≠ i → ((d₁.truncate i).inode j).content = (d₁.inode j).content := by
        intro j hj
        simp only [truncate, if_neg hj]
      have hfile : ∀ j, k.read dm.tree p = some j → k.is_file dm.tree p = true := by
        intro j hj
        rw [Kernel.is_file, hj]
        rfl
      unfold open_in_place at hip
      split at hip
      · -- `create_new`: a new file in the slot
        rename_i hnew
        split at hip
        · cases hip
        · rename_i d₂ f hc
          cases hip
          obtain ⟨ht, rfl, -, hinode⟩ := create_new_ok hc
          obtain ⟨D, n, hslot, -, hfree, hg⟩ := Kernel.create_new_spec ht
          refine ⟨rfl, ⟨hempty, fun j hj => ?_, .inr ⟨rfl, D, n, hslot, hfree, hg⟩⟩, fun hf => ?_,
            fun _ hn => absurd hnew (by simp [hn])⟩
          · rw [hothers j hj, hinode]
            simp only [if_neg hj]
          · -- nothing in the slot, so no file there
            exfalso
            obtain ⟨q, rfl, hq, -⟩ := Kernel.slot_spec hslot
            rw [Kernel.is_file, Kernel.read, Kernel.stat_child_of_none hq hfree] at hf
            cases hf
      · rename_i hnew
        rw [Bool.not_eq_true] at hnew
        split at hip
        · unfold create at hip
          split at hip
          · rename_i hcr _ j hj
            cases hip
            exact ⟨rfl, ⟨hempty, fun x hx => hothers x hx, .inl ⟨hj, rfl⟩⟩, fun _ => hnew,
              fun hc => absurd hcr (by simp [hc])⟩
          · rename_i hcr _ hnone
            split at hip
            · cases hip
            · rename_i t ht
              cases hip
              -- `create` follows a dangling link, which is excluded here: what is no file is
              -- not there at all
              have hl : k.lstat dm.tree p = none := by
                rcases hk with hk | hk
                · exact hk
                · rw [Kernel.is_file, hnone] at hk
                  cases hk
              obtain ⟨D, n, hplace, -, hg⟩ := Kernel.write_spec ht
              obtain ⟨hslot, hfree⟩ := slot_of_place hplace hl
              refine ⟨rfl, ⟨hempty, fun j hj => ?_, .inr ⟨rfl, D, n, hslot, hfree, hg⟩⟩,
                fun _ => hnew, fun hc => absurd hcr (by simp [hc])⟩
              rw [hothers j hj]
              simp only [if_neg hj]
        · split at hip
          · rename_i j hj
            cases hip
            exact ⟨rfl, ⟨hempty, fun x hx => hothers x hx, .inl ⟨hj, rfl⟩⟩, fun _ => hnew,
              fun _ _ => hfile _ hj⟩
          · cases hip

end Disk

/-! ## Writing to a temp file -/

/-- A target that is a file or nothing does not lead to the temp file. -/
theorem Opening.not_led {k : Kernel} {dm d₁ : Disk} {o : Spot} {af : AtomicFile}
    (h : Opening k dm d₁ o af) (hk : FileOrAbsent k dm.tree af.target_path) :
    k.stat d₁.tree af.target_path ≠ some o.loc := by
  intro hst
  have hx : d₁.tree.get o.loc = some (.file dm.next) := by rw [h.get, if_pos rfl]
  have hrest : ∀ l, l ≠ o.loc → d₁.tree.get l = dm.tree.get l := by
    intro l hl
    rw [h.get, if_neg hl]
  have hplace : k.place dm.tree af.target_path = some (o.base, o.temp_name) :=
    Kernel.place_of_stat_leaf hx h.free hrest hst
  rcases hk with hk | hk
  · obtain ⟨hslot, -⟩ := Disk.slot_of_place hplace hk
    exact (h.target _ (file_name_of_slot hslot)).2 rfl
  · obtain ⟨i, hi⟩ := Option.isSome_iff_exists.mp hk
    obtain ⟨l, hl, hf⟩ := Kernel.read_eq_some.mp hi
    obtain ⟨-, -, hloc⟩ := Kernel.place_spec hplace
    rw [Kernel.locate_of_stat hl, Option.some.injEq] at hloc
    rw [hloc, show o.base ++ [o.temp_name] = o.loc from rfl, h.free] at hf
    cases hf

namespace Upload

/-- The length is as announced, if one was. -/
def SizeOk (size : Option Nat) (body : Bytes) : Prop := ∀ n, size = some n → n = body.length

/-- The invariant of an upload that is alone and hands over `body`: what `Alone`
says, the books of the body, and what the tree is once it has committed. -/
structure Whole (k : Kernel) (c : Crates) (dm d₁ : Disk) (o : Spot) (af : AtomicFile) (body : Bytes)
    (d : Disk) (u : Upload) (left : Bytes) : Prop where
  alone : Alone k c d₁ o (start d₁ af) (d, u)
  size : u.af.expected_size = af.expected_size
  spent : u.sent ++ left = body
  drained : u.stage = .flushed ∨ u.stage = .closed ∨ u.af.committed = true → left = []
  placed : u.af.committed = true → ∃ m, af.target_path = o.dir.child m ∧ o.temp_name ≠ m ∧
    k.slot dm.tree af.target_path = some (o.base, m) ∧
    ∀ x, d.tree.get x = if x = o.base ++ [m] then some (.file dm.next) else dm.tree.get x
  answered : u.stage = .flushed ∨ u.stage = .closed → SizeOk af.expected_size body →
    u.af.committed = true

variable {k : Kernel} {c : Crates} {dm d₁ d d' : Disk} {o : Spot} {af : AtomicFile} {u u' : Upload}
  {body left left' : Bytes} {a : Act}

theorem whole_start (h : Opening k dm d₁ o af) :
    Whole k c dm d₁ o af body d₁ (start d₁ af) body where
  alone := alone_start h
  size := rfl
  spent := rfl
  drained hs := by
    rcases hs with hs | hs | hs
    · cases hs
    · cases hs
    · rw [show (start d₁ af).af.committed = af.committed from rfl, h.committed] at hs
      cases hs
  placed hc := by
    rw [show (start d₁ af).af.committed = af.committed from rfl, h.committed] at hc
    cases hc
  answered hs := by rcases hs with hs | hs <;> cases hs

/-- What a commit that renames leaves, in terms of the tree before `open`. -/
theorem Alone.renamed (h : Opening k dm d₁ o af) (ha : Alone k c d₁ o (start d₁ af) (d, u))
    (hlive : u.Live) {fault : Option Errno}
    (hr : d.rename k u.af.temp_path u.af.target_path fault = .ok d') :
    ∃ m, af.target_path = o.dir.child m ∧ o.temp_name ≠ m ∧
      k.slot dm.tree af.target_path = some (o.base, m) ∧
      ∀ x, d'.tree.get x = if x = o.base ++ [m] then some (.file dm.next) else dm.tree.get x := by
  have hheld := ha.held (held_start h) hlive
  have htarget : u.af.target_path = af.target_path := ha.target
  have hino : u.ino = dm.next := by
    have hu : u.ino = (start d₁ af).ino := ha.ino
    rw [hu]
    simp [start, h.file]
  have ht : d.tree = d₁.tree := ha.waiting hlive.1 hlive.2
  obtain ⟨m, hm, hne, -, -, hget, -⟩ := hheld.rename hr
  rw [htarget] at hm
  refine ⟨m, hm, hne, ?_, fun x => ?_⟩
  · rw [hm]
    exact Kernel.slot_child_eq_some.mpr ⟨h.stat, h.dir, rfl⟩
  · rw [hget, hino, ht, h.get]
    by_cases hx : x = o.base ++ [m]
    · rw [if_pos hx, if_pos hx]
    · rw [if_neg hx, if_neg hx]
      by_cases hxl : x = o.loc
      · rw [if_pos hxl, hxl, h.free]
      · rw [if_neg hxl, if_neg hxl]

/-- A `commit` that answers `Ok` for a body of the announced length has
committed. -/
theorem committed_of_ok {af : AtomicFile} {fault : AtomicFile.CommitFault}
    (hok : (af.commit k c d fault).2.2 = .ok ()) (hs : af.should_commit = true) :
    (af.commit k c d fault).1.committed = true := by
  have hcase := AtomicFile.commit_cases k c af d fault
  revert hok hcase
  generalize af.commit k c d fault = r
  intro hok hcase
  cases hcase with
  | again h => exact h
  | mismatch h hm => cases hok
  | unsynced h hm e he => cases hok
  | incomplete h hm he hw =>
    rw [hs] at hw
    cases hw
  | unrenamed h hm he hw e hr => cases hok
  | renamed h hm he hw d' hr => rfl

theorem whole_commit (h₀ : Opening k dm d₁ o af) (h : Whole k c dm d₁ o af body d u [])
    (hst : u.stage = .writing ∨ u.stage = .flushed) {fault : AtomicFile.CommitFault} {st : Stage}
    (halone : Alone k c d₁ o (start d₁ af)
      ((u.af.commit k c d fault).2.1, { u with af := (u.af.commit k c d fault).1, stage := st }))
    (hok : st = .flushed ∨ st = .closed → (u.af.commit k c d fault).2.2 = .ok ()) :
    Whole k c dm d₁ o af body (u.af.commit k c d fault).2.1
      { u with af := (u.af.commit k c d fault).1, stage := st } [] := by
  have hlive : u.stage ≠ .dropped := by rcases hst with hst | hst <;> rw [hst] <;> decide
  obtain ⟨-, -, hsize, -⟩ := AtomicFile.commit_keeps k c u.af d fault
  obtain ⟨-, -, hlen⟩ := h.alone.books.counted hst
  have hsent : u.sent = body := by
    have hspent := h.spent
    rwa [List.append_nil] at hspent
  refine ⟨halone, hsize.trans h.size, h.spent, fun _ => rfl, fun hc => ?_, fun hans hso => ?_⟩
  · rcases AtomicFile.commit_committed hc with ⟨hcom, heq⟩ | ⟨d', hcom, -, -, hr, heq⟩
    · rw [heq]
      exact h.placed hcom
    · obtain ⟨htree, -⟩ := AtomicFile.set_xattr_sha256_spec k d' u.af.target_path
        (c.hex_encode (c.sha256 u.af.hasher))
      rw [heq]
      dsimp only
      rw [htree]
      exact h.alone.renamed h₀ ⟨hcom, hlive⟩ hr
  -- an `Ok` commits, since every byte announced has come
  · refine committed_of_ok (hok hans) ?_
    unfold AtomicFile.should_commit
    split
    · rfl
    · rename_i n hn
      rw [h.size] at hn
      have hn' : n = body.length := hso n hn
      rw [decide_eq_true_eq, hlen, hsent, hn']

theorem metadata_ok {af : AtomicFile} {fault : AtomicFile.CommitFault} {n : Nat}
    (h : (af.metadata k c d fault).2.2 = .ok n) : (af.commit k c d fault).2.2 = .ok () := by
  unfold AtomicFile.metadata at h
  split at h
  · cases h
  · rename_i hc
    rw [hc]

theorem whole_step (h₀ : Opening k dm d₁ o af) (h : Whole k c dm d₁ o af body d u left)
    (hs : u.step k c d a = some (d', u')) (hr : Put.rest left a = some left') :
    Whole k c dm d₁ o af body d' u' left' := by
  obtain ⟨hwrote, hsame, hflush⟩ := Put.rest_spec hr
  have halone : Alone k c d₁ o (start d₁ af) (d', u') :=
    alone_step (held_start h₀) rfl h.alone (show run k c (d, u) a = some (d', u') from hs)
  have hsize : u'.af.expected_size = af.expected_size := (step_keeps hs).2.2.2.2.1.trans h.size
  cases a with
  | write call =>
    simp only [step] at hs
    split at hs
    · rename_i hw
      simp only [Option.some.injEq, Prod.mk.injEq] at hs
      obtain ⟨rfl, rfl⟩ := hs
      obtain ⟨hnc, f, hf, -, hend⟩ := h.alone.books.taking hw
      obtain ⟨-, -, -, -, hkeep, -⟩ := AtomicFile.write_spec hf hend call
      have hnc' : (u.af.write d call).1.committed = false := hkeep.committed.trans hnc
      -- a write that fails leaves the upload where only a drop can follow
      have hstage : ∀ st, st = .flushed ∨ st = .closed →
          outcome .writing (u.af.write d call).2.2 ≠ st := by
        intro st hst
        rcases hst with rfl | rfl <;> cases (u.af.write d call).2.2 <;> simp [outcome]
      refine ⟨halone, hsize, ?_, ?_, ?_, ?_⟩
      · rw [List.append_assoc, ← hwrote call rfl]
        exact h.spent
      · rintro (hst | hst | hc)
        · exact absurd hst (hstage _ (.inl rfl))
        · exact absurd hst (hstage _ (.inr rfl))
        · rw [hnc'] at hc
          cases hc
      · intro hc
        rw [hnc'] at hc
        cases hc
      · rintro (hst | hst)
        · exact absurd hst (hstage _ (.inl rfl))
        · exact absurd hst (hstage _ (.inr rfl))
    · cases hs
  | flush fault =>
    simp only [step] at hs
    split at hs
    · rename_i hw
      simp only [Option.some.injEq, Prod.mk.injEq] at hs
      obtain ⟨rfl, rfl⟩ := hs
      obtain rfl := hflush fault rfl
      obtain rfl : [] = left := hsame fun _ hc => by cases hc
      -- the commit of a flush is its last act, so a flush that returns well has committed
      refine whole_commit h₀ h (.inl hw) halone fun hst => ?_
      cases hres : (u.af.commit k c d fault).2.2 with
      | ok v => rfl
      | error e => simp [AtomicFile.flush, hres, outcome] at hst
    · cases hs
  | metadata fault =>
    simp only [step] at hs
    split at hs
    · rename_i hw
      simp only [Option.some.injEq, Prod.mk.injEq] at hs
      obtain ⟨hd, hu⟩ := hs
      -- a length is asked for only when the whole body has been written
      obtain rfl := h.drained (.inl hw)
      obtain rfl : left' = [] := hsame fun _ hc => by cases hc
      obtain ⟨haf, hdisk⟩ := AtomicFile.metadata_commit k c u.af d fault
      rw [haf] at hu
      rw [hdisk] at hd
      subst hd
      subst hu
      refine whole_commit h₀ h (.inr hw) halone fun hst => ?_
      cases hres : (u.af.metadata k c d fault).2.2 with
      | ok n => exact metadata_ok hres
      | error e => simp [hres, outcome] at hst
    · cases hs
  | drop =>
    simp only [step] at hs
    split at hs
    · cases hs
    · simp only [Option.some.injEq, Prod.mk.injEq] at hs
      obtain ⟨rfl, rfl⟩ := hs
      obtain rfl : left' = left := hsame fun _ hc => by cases hc
      refine ⟨halone, hsize, h.spent, ?_, ?_, ?_⟩
      · rintro (hst | hst | hc)
        · cases hst
        · cases hst
        · exact h.drained (.inr (.inr hc))
      · intro hc
        -- a committed file has no temp left to remove
        have hdrop : u.af.drop k d = d := by
          rw [AtomicFile.drop, if_pos hc]
        rw [hdrop]
        exact h.placed hc
      · rintro (hst | hst) <;> cases hst

end Upload

/-! ## What the runs come to -/

namespace Put

variable {k : Kernel} {c : Crates} {dm d₁ d₀ : Disk} {o : Spot} {af : AtomicFile} {i : Nat}
  {body : Bytes} {s : Put}

/-- A request that writes to a temp file does so to the end. -/
theorem whole_of_reach (h₀ : Opening k dm d₁ o af)
    (h : Reach (step k c) Any ⟨d₁, .atomic (.start d₁ af), body⟩ s) :
    ∃ u, s.session = .atomic u ∧ Upload.Whole k c dm d₁ o af body s.disk u s.left := by
  refine h.inv (I := fun s => ∃ u, s.session = .atomic u ∧
    Upload.Whole k c dm d₁ o af body s.disk u s.left) ⟨_, rfl, Upload.whole_start h₀⟩ ?_
  rintro s a s' ⟨u, hu, hw⟩ - hs
  obtain ⟨left, hr, hs⟩ := Option.bind_eq_some_iff.mp hs
  rw [hu] at hs
  obtain ⟨⟨d', u'⟩, hstep, rfl⟩ := Option.map_eq_some_iff.mp hs
  exact ⟨u', rfl, Upload.whole_step h₀ hw hstep hr⟩

/-- And so does one that writes in place. -/
theorem in_place_of_reach {h : Handle} (hc : (d₀.inode h.ino).content = []) (hp : h.pos = 0)
    (hr : Reach (step k c) Any ⟨d₀, .direct ⟨h, .writing, []⟩, body⟩ s) :
    ∃ w, s.session = .direct w ∧ Direct.InPlace d₀ h.ino body s.disk w s.left := by
  refine hr.inv (I := fun s => ∃ w, s.session = .direct w ∧
    Direct.InPlace d₀ h.ino body s.disk w s.left) ⟨_, rfl, Direct.in_place_start hc hp⟩ ?_
  rintro s a s' ⟨w, hw, hi⟩ - hs
  obtain ⟨left, hr, hs⟩ := Option.bind_eq_some_iff.mp hs
  rw [hw] at hs
  obtain ⟨⟨d', w'⟩, hstep, rfl⟩ := Option.map_eq_some_iff.mp hs
  exact ⟨w', rfl, Direct.in_place_step hi hstep hr⟩

/-- **A request that succeeded through a temp file** has put a new file with the
whole body in the target's slot, or nothing anywhere if its length is not the one
announced. -/
theorem atomic_outcome (h₀ : Opening k dm d₁ o af)
    (h : Succeeds k c ⟨d₁, .atomic (.start d₁ af), body⟩ s) :
    (∀ j, j ≠ dm.next → (s.disk.inode j).content = (dm.inode j).content) ∧
      (Upload.SizeOk af.expected_size body → (s.disk.inode dm.next).content = body ∧
        ∃ m, k.slot dm.tree af.target_path = some (o.base, m) ∧
          ∀ x, s.disk.tree.get x
            = if x = o.base ++ [m] then some (.file dm.next) else dm.tree.get x) ∧
      (¬ Upload.SizeOk af.expected_size body → ∀ x, s.disk.tree.get x = dm.tree.get x) := by
  obtain ⟨s₁, hreach, hclosed, hdrop⟩ := h
  obtain ⟨u₁, hu₁, hw₁⟩ := whole_of_reach h₀ hreach
  obtain ⟨u, hu, hw⟩ := whole_of_reach h₀ (hreach.next trivial hdrop)
  have hclosed : u₁.stage = .closed := by rwa [hu₁] at hclosed
  -- the last step is `drop`, which does not touch `committed`
  have hlast : u.af = u₁.af ∧ u.stage = .dropped ∧ u.sent = u₁.sent := by
    obtain ⟨left, hr, hs⟩ := Option.bind_eq_some_iff.mp hdrop
    rw [hu₁] at hs
    obtain ⟨⟨d', u'⟩, hstep, rfl⟩ := Option.map_eq_some_iff.mp hs
    cases hu
    simp only [Upload.step] at hstep
    split at hstep
    · cases hstep
    · cases hstep
      exact ⟨rfl, rfl, rfl⟩
  obtain ⟨haf, hstage, hsent⟩ := hlast
  have hino : (Upload.start d₁ af).ino = dm.next := by simp [Upload.start, h₀.file]
  have huino : u.ino = dm.next := (show u.ino = _ from hw.alone.ino).trans hino
  have hbody : u₁.sent = body := by
    have hspent := hw₁.spent
    rwa [hw₁.drained (.inr (.inl hclosed)), List.append_nil] at hspent
  refine ⟨fun j hj => ?_, fun hso => ?_, fun hso => ?_⟩
  · rw [hw.alone.others j (by rw [hino]; exact hj), h₀.inode]
    simp only [if_neg hj]
  · have hcom : u.af.committed = true := by
      rw [haf]
      exact hw₁.answered (.inr hclosed) hso
    obtain ⟨m, -, -, hslot, hget⟩ := hw.placed hcom
    obtain ⟨hcont, -⟩ := hw.alone.books.sealed hcom
    refine ⟨?_, m, hslot, hget⟩
    rw [← huino]
    exact hcont.trans (hsent.trans hbody)
  · have hnc : u.af.committed = false := by
      rw [Bool.eq_false_iff]
      intro hcom
      obtain ⟨-, hcomplete, -⟩ := hw.alone.books.sealed hcom
      refine hso fun n hn => ?_
      rw [← hbody, ← hsent]
      exact (hcomplete n (hw.size.trans hn)).symm
    intro x
    rw [hw.alone.gone hnc hstage, h₀.get]
    by_cases hx : x = o.loc
    · rw [if_pos hx, hx, h₀.free]
    · rw [if_neg hx, if_neg hx]

/-- **A request that succeeded in place** has put the whole body in the file it
opened. -/
theorem direct_outcome {h : Handle} (hc : (d₀.inode h.ino).content = []) (hp : h.pos = 0)
    (hs : Succeeds k c ⟨d₀, .direct ⟨h, .writing, []⟩, body⟩ s) :
    s.disk.tree = d₀.tree ∧ (s.disk.inode h.ino).content = body ∧
      ∀ j, j ≠ h.ino → (s.disk.inode j).content = (d₀.inode j).content := by
  obtain ⟨s₁, hreach, hclosed, hdrop⟩ := hs
  obtain ⟨w₁, hw₁, hi₁⟩ := in_place_of_reach hc hp hreach
  have hclosed : w₁.stage = .closed := by rwa [hw₁] at hclosed
  have hsame : s.disk = s₁.disk := by
    obtain ⟨left, hr, hs⟩ := Option.bind_eq_some_iff.mp hdrop
    rw [hw₁] at hs
    obtain ⟨⟨d', w'⟩, hstep, rfl⟩ := Option.map_eq_some_iff.mp hs
    simp only [Direct.step] at hstep
    split at hstep
    · cases hstep
    · cases hstep
      rfl
  have hbody : w₁.sent = body := by
    have hspent := hi₁.spent
    rwa [hi₁.drained (.inr hclosed), List.append_nil] at hspent
  rw [hsame]
  exact ⟨hi₁.tree, (hi₁.all (.inr (.inr hclosed))).trans hbody, hi₁.others⟩

end Put

/-! ## Reading after one and after the other -/

/-- The slot of the target is the only name of the file it leads to. -/
def Unaliased (k : Kernel) (d : Disk) (p : Path) : Prop :=
  ∀ i x, k.read d.tree p = some i → d.tree.get x = some (.file i) →
    ∃ D n, k.slot d.tree p = some (D, n) ∧ x = D ++ [n]

/-- No path leads somewhere only once a file is in the slot of the target: none
meets a link in it with no links left to follow. -/
def NoNewWay (k : Kernel) (d : Disk) (p : Path) : Prop :=
  ∀ D n (t' : FileTree Nat), k.slot d.tree p = some (D, n) →
    (∀ x, t'.get x = if x = D ++ [n] then some (.file d.next) else d.tree.get x) →
    ∀ q, k.exists_ t' q = true → k.exists_ d.tree q = true

namespace Disk

/-- What a reader gets at the place a path leads to. -/
def shown (d : Disk) (l : Loc) : Option Bytes :=
  match d.tree.get l with
  | some (.file i) => some (d.inode i).content
  | _ => none

theorem view_eq (k : Kernel) (d : Disk) (p : Path) :
    d.view k p = (k.stat d.tree p).map d.shown := by
  unfold view shown
  cases k.stat d.tree p with
  | none => rfl
  | some l =>
    rw [Option.map_some]
    dsimp only
    rcases d.tree.get l with _ | _ | _ | _ <;> rfl

theorem shown_of_file {d : Disk} {l : Loc} {i : Nat} (h : d.tree.get l = some (.file i)) :
    d.shown l = some (d.inode i).content := by
  simp only [shown, h]

theorem view_of_read {k : Kernel} {d : Disk} {p : Path} {i : Nat} (h : k.read d.tree p = some i) :
    d.view k p = some (some (d.inode i).content) := by
  obtain ⟨l, hl, hg⟩ := Kernel.read_eq_some.mp h
  rw [view_eq, hl, Option.map_some, shown_of_file hg]

variable {k : Kernel} {dm a d : Disk} {p : Path} {i : Nat} {body : Bytes}

/-- Where the tree is the same, the two disks read alike exactly when the file
held the body already. -/
theorem same_views_untouched (hr : k.read dm.tree p = some i)
    (ha : ∀ x, a.tree.get x = dm.tree.get x) (hac : ∀ j, j ≠ dm.next →
      (a.inode j).content = (dm.inode j).content)
    (hd : d.tree = dm.tree) (hdi : (d.inode i).content = body)
    (hdc : ∀ j, j ≠ i → (d.inode j).content = (dm.inode j).content) :
    (∀ q, a.view k q = d.view k q) ↔ dm.view k p = some (some body) := by
  have hfresh : ∀ l j, dm.tree.get l = some (.file j) → j ≠ dm.next :=
    fun l j hj => Nat.ne_of_lt (dm.fresh hj)
  obtain ⟨l, hl, hg⟩ := Kernel.read_eq_some.mp hr
  constructor
  · intro h
    have hp := h p
    rw [view_eq, view_eq, Kernel.stat_of_get_eq ha, hd, hl, Option.map_some, Option.map_some,
      shown_of_file (d := a) (by rw [ha]; exact hg), shown_of_file (d := d) (by rw [hd]; exact hg),
      hac i (hfresh l i hg), hdi] at hp
    rw [view_of_read hr, Option.some.inj hp]
  · intro hold q
    rw [view_of_read hr] at hold
    have hold : (dm.inode i).content = body := Option.some.inj (Option.some.inj hold)
    rw [view_eq, view_eq, Kernel.stat_of_get_eq ha, hd]
    cases hq : k.stat dm.tree q with
    | none => rfl
    | some y =>
      rw [Option.map_some, Option.map_some]
      congr 1
      unfold shown
      rw [ha, hd]
      split
      · rename_i j hj
        rw [hac j (hfresh y j hj)]
        by_cases hji : j = i
        · rw [hji, hdi, hold]
        · rw [hdc j hji]
      · rfl

section Replaced

variable {D : Loc} {n : String}

/-- A file in place of a file leaves every path where it led. -/
theorem stat_of_refiled {t t' : FileTree Nat} {x : Loc} {i j : Nat} (hi : t.get x = some (.file i))
    (hj : t'.get x = some (.file j)) (hrest : ∀ l, l ≠ x → t'.get l = t.get l) (q : Path) :
    k.stat t' q = k.stat t q := by
  have h₁ : Builds t t' :=
    builds_of_leaf (by simp [hi]) (linkAt_of_file hi) hj hrest
  have h₂ : Builds t' t :=
    builds_of_leaf (by simp [hj]) (linkAt_of_file hj) hi fun l hl => (hrest l hl).symm
  refine Option.ext fun l => ⟨fun hl => ?_, fun hl => ?_⟩
  · exact Kernel.stat_builds h₂ hl
  · exact Kernel.stat_builds h₁ hl

/-- The slot of a file holds the file or a link. -/
theorem slot_of_file {L : Loc} (hr : k.read dm.tree p = some i)
    (hslot : k.slot dm.tree p = some (D, n)) (hL : k.stat dm.tree p = some L) :
    dm.tree.get (D ++ [n]) = some (.file i) ∧ L = D ++ [n] ∨
      ∃ tgt, dm.tree.get (D ++ [n]) = some (.symlink tgt) := by
  obtain ⟨L', hL', hg⟩ := Kernel.read_eq_some.mp hr
  rw [hL] at hL'
  cases hL'
  obtain ⟨q, rfl, hq, -⟩ := Kernel.slot_spec hslot
  cases he : dm.tree.get (D ++ [n]) with
  | none =>
    rw [Kernel.stat_child_of_none hq he] at hL
    cases hL
  | some e =>
    by_cases hlink : ∃ tgt, e = .symlink tgt
    · obtain ⟨tgt, rfl⟩ := hlink
      exact .inr ⟨tgt, rfl⟩
    · rw [Kernel.stat_child_of_get hq he fun tgt ht => hlink ⟨tgt, ht⟩] at hL
      cases hL
      rw [he] at hg
      cases hg
      exact .inl ⟨rfl, rfl⟩

/-- **A new file in the slot** reads like the old file rewritten exactly when the
slot was that file's only name, or the file held the body and no path is
short of links. -/
theorem same_views_replaced (hr : k.read dm.tree p = some i)
    (hslot : k.slot dm.tree p = some (D, n))
    (ha : ∀ x, a.tree.get x = if x = D ++ [n] then some (.file dm.next) else dm.tree.get x)
    (hai : (a.inode dm.next).content = body)
    (hac : ∀ j, j ≠ dm.next → (a.inode j).content = (dm.inode j).content)
    (hd : d.tree = dm.tree) (hdi : (d.inode i).content = body)
    (hdc : ∀ j, j ≠ i → (d.inode j).content = (dm.inode j).content) :
    (∀ q, a.view k q = d.view k q) ↔
      Unaliased k dm p ∨ dm.view k p = some (some body) ∧ NoNewWay k dm p := by
  have hfresh : ∀ l j, dm.tree.get l = some (.file j) → j ≠ dm.next :=
    fun l j hj => Nat.ne_of_lt (dm.fresh hj)
  obtain ⟨L, hL, hg⟩ := Kernel.read_eq_some.mp hr
  have hx : a.tree.get (D ++ [n]) = some (.file dm.next) := by rw [ha, if_pos rfl]
  have hrest : ∀ l, l ≠ D ++ [n] → a.tree.get l = dm.tree.get l := by
    intro l hl
    rw [ha, if_neg hl]
  -- away from the slot the two differ at other names of the old file at most
  have hoff : ∀ l, l ≠ D ++ [n] →
      (dm.tree.get l = some (.file i) → (dm.inode i).content = body) → a.shown l = d.shown l := by
    intro l hl hi
    unfold shown
    rw [hrest l hl, hd]
    split
    · rename_i j hj
      rw [hac j (hfresh l j hj)]
      by_cases hji : j = i
      · subst hji
        rw [hdi, hi hj]
      · rw [hdc j hji]
    · rfl
  constructor
  · intro h
    by_cases hu : Unaliased k dm p
    · exact .inl hu
    · -- another name shows whether the contents agree
      have hother : ∃ i' x, k.read dm.tree p = some i' ∧ dm.tree.get x = some (.file i') ∧
          ¬ ∃ D n, k.slot dm.tree p = some (D, n) ∧ x = D ++ [n] := by
        simpa only [Unaliased, not_forall, exists_prop] using hu
      obtain ⟨i', x, hi', hxi, hno⟩ := hother
      rw [hr] at hi'
      cases hi'
      have hxs : x ≠ D ++ [n] := fun he => hno ⟨D, n, hslot, he⟩
      have hstat : ∀ t : FileTree Nat, t.get x = some (.file i) →
          k.stat t (Path.abs x) = some x := by
        intro t ht
        refine Kernel.stat_eq_some.mpr ⟨t.get_root, ?_⟩
        rw [follow_eq]
        exact walk_names (l := []) ht (by simp)
      have hax : a.tree.get x = some (.file i) := by rw [hrest x hxs, hxi]
      have hsame := h (Path.abs x)
      rw [view_eq, view_eq, hstat _ hax, hd, hstat _ hxi, Option.map_some, Option.map_some,
        shown_of_file hax, shown_of_file (d := d) (by rw [hd]; exact hxi), hdi,
        hac i (hfresh x i hxi)] at hsame
      refine .inr ⟨by rw [view_of_read hr]; exact hsame, ?_⟩
      intro D' n' t' hslot' ht' q hq
      rw [hslot] at hslot'
      cases hslot'
      have hq' := h q
      rw [view_eq, view_eq, hd] at hq'
      have hstat' : k.stat a.tree q = k.stat t' q :=
        Kernel.stat_of_get_eq (fun l => by rw [ha, ht']) q
      by_contra hne
      rw [Kernel.exists_, Option.isSome_iff_exists] at hq
      obtain ⟨l, hl⟩ := hq
      rw [hstat', hl, Option.map_some] at hq'
      rw [Kernel.exists_, Option.not_isSome_iff_eq_none] at hne
      rw [hne] at hq'
      cases hq'
  · intro h q
    have hslotShown : a.shown (D ++ [n]) = some body := by rw [shown_of_file hx, hai]
    have hfileShown : d.shown L = some body := by
      rw [shown_of_file (d := d) (by rw [hd]; exact hg), hdi]
    have hbody : dm.view k p = some (some body) → (dm.inode i).content = body := by
      intro hold
      rw [view_of_read hr] at hold
      exact Option.some.inj (Option.some.inj hold)
    have hunaliased : Unaliased k dm p → ∀ x, dm.tree.get x = some (.file i) → x = D ++ [n] := by
      intro hu x hxi
      obtain ⟨D', n', hslot', rfl⟩ := hu i x hr hxi
      rw [hslot] at hslot'
      cases hslot'
      rfl
    rw [view_eq, view_eq, hd]
    rcases slot_of_file hr hslot hL with ⟨hfile, rfl⟩ | ⟨tgt, hlink⟩
    · -- a file in the slot: nothing leads elsewhere now
      rw [stat_of_refiled hfile hx hrest]
      cases hq : k.stat dm.tree q with
      | none => rfl
      | some y =>
        rw [Option.map_some, Option.map_some]
        by_cases hy : y = D ++ [n]
        · rw [hy, hslotShown, hfileShown]
        · rw [hoff y hy]
          intro hyi
          rcases h with hu | ⟨hold, -⟩
          · exact absurd (hunaliased hu y hyi) hy
          · exact hbody hold
    · -- a link in the slot: the file behind it is another name
      rcases h with hu | ⟨hold, hways⟩
      · have hL' := hunaliased hu L hg
        rw [hL', hlink] at hg
        cases hg
      · cases hq : k.stat dm.tree q with
        | none =>
          have hnone : k.stat a.tree q = none := by
            by_contra hne
            have hex := hways D n a.tree hslot ha q
              (by rw [Kernel.exists_]; exact Option.isSome_iff_ne_none.mpr hne)
            rw [Kernel.exists_, hq] at hex
            cases hex
          rw [hnone]
          rfl
        | some y =>
          rcases Kernel.stat_of_replaced hslot hL hlink (by simp [hg]) hx hrest hq with hs | ⟨hs, hy⟩
          · have hys : y ≠ D ++ [n] := by
              rintro rfl
              obtain ⟨e, he, hne⟩ := Kernel.stat_spec hq
              rw [hlink] at he
              cases he
              exact hne tgt rfl
            rw [hs, Option.map_some, Option.map_some, hoff y hys fun _ => hbody hold]
          · rw [hs, hy, Option.map_some, Option.map_some, hslotShown, hfileShown]

end Replaced

/-- Disks with the same entries and contents read alike. -/
theorem view_of_contents (ht : ∀ x, a.tree.get x = d.tree.get x)
    (hc : ∀ j, (a.inode j).content = (d.inode j).content) (q : Path) :
    a.view k q = d.view k q := by
  rw [view_eq, view_eq, Kernel.stat_of_get_eq ht]
  cases k.stat d.tree q with
  | none => rfl
  | some y =>
    rw [Option.map_some, Option.map_some]
    congr 1
    unfold shown
    rw [ht]
    split
    · rw [hc]
    · rfl

/-- Contents that agree on one inode and, with a third disk, on the others. -/
theorem contents_eq (hai : (a.inode i).content = body)
    (hac : ∀ j, j ≠ i → (a.inode j).content = (dm.inode j).content)
    (hdi : (d.inode i).content = body)
    (hdc : ∀ j, j ≠ i → (d.inode j).content = (dm.inode j).content) (j : Nat) :
    (a.inode j).content = (d.inode j).content := by
  by_cases hj : j = i
  · rw [hj, hai, hdi]
  · rw [hac j hj, hdc j hj]

end Disk

/-! ## The parents -/

namespace AutoMkcolFs

variable {k : Kernel} {fs : AutoMkcolFs} {d dm dm' : Disk} {path : List String}
  {f f' : Option (Errno × Nat)}

/-- Two calls of `ensure_parent` that succeed on one disk leave the same one. -/
theorem ensure_parent_det (h : fs.ensure_parent k d path f = (dm, none))
    (h' : fs.ensure_parent k d path f' = (dm', none)) : dm = dm' := by
  unfold ensure_parent at h h'
  split at h
  · rename_i hc
    rw [if_pos hc] at h'
    cases h
    cases h'
    rfl
  · rename_i hc
    rw [if_neg hc] at h'
    dsimp only at h h'
    split at h
    · rename_i hp
      rw [if_pos hp] at h'
      cases f with
      | some e => cases h
      | none =>
        cases f' with
        | some e => cases h'
        | none =>
          rw [h] at h'
          cases h'
          rfl
    · rename_i hp
      rw [if_neg hp] at h'
      cases h
      cases h'
      rfl

/-- What `ensure_parent` has something to make at is the root with some of the
names above the target. -/
theorem Makes.below (hroot : k.is_dir d.tree fs.root = true) (h : fs.Makes k d path f) :
    ∃ r s, path = r ++ s ∧ s ≠ [] ∧ k.Lacks d.tree (fs.root.down r) ∧
      (fs.ensure_parent k d path f).1.tree = (k.create_dir_all d.tree (fs.root.down r)).1 := by
  obtain ⟨hcreate, hpath, hl⟩ := h
  have hp : fs.root.down path.dropLast ≠ fs.root := by
    intro he
    have hdown : fs.root.down path.dropLast = fs.root.down [] := by rw [he, Path.down_nil]
    exact hpath (Path.down_injective _ hdown)
  -- every prefix of the path without its last name leaves something below
  have htake : ∀ m, ∃ s, path = path.dropLast.take m ++ s ∧ s ≠ [] := by
    intro m
    have hne : path ≠ [] := by
      rintro rfl
      exact hpath rfl
    refine ⟨path.dropLast.drop m ++ [path.getLast hne], ?_, by simp⟩
    rw [← List.append_assoc, List.take_append_drop, List.dropLast_append_getLast]
  cases f with
  | none =>
    obtain ⟨s, hs, hne⟩ := htake path.dropLast.length
    rw [List.take_length] at hs
    refine ⟨_, s, hs, hne, hl, ?_⟩
    simp only [ensure_parent, hcreate, Bool.not_true, Bool.false_eq_true, if_false, if_pos hp,
      Disk.create_dir_all]
  | some en =>
    have hl : k.Lacks d.tree ((fs.root.down path.dropLast).upto en.2) := hl
    rcases Path.upto_down fs.root path.dropLast en.2 with he | ⟨m, he⟩
    · -- the root is there
      exfalso
      rw [he] at hl
      have hstat := Kernel.stat_of_lacks (r := []) hl
      rw [Path.down_nil] at hstat
      obtain ⟨l, hroot', -⟩ := Kernel.is_dir_iff.mp hroot
      obtain ⟨x, hx⟩ := Kernel.stat_upto hroot' en.2
      rw [hstat] at hx
      cases hx
    · obtain ⟨s, hs, hne⟩ := htake m
      rw [he] at hl
      refine ⟨_, s, hs, hne, hl, ?_⟩
      rw [← he]
      simp only [ensure_parent, hcreate, Bool.not_true, Bool.false_eq_true, if_false, if_pos hp,
        Disk.create_dir_all, Path.upto]

/-- Whatever comes of `ensure_parent`, the target shows what it showed. -/
theorem ensure_parent_shows {r : Option FsError} (hroot : k.is_dir d.tree fs.root = true)
    (h : fs.ensure_parent k d path f = (dm, r)) :
    dm = d ∨ k.stat d.tree (fs.fspath path) = none ∧ k.stat dm.tree (fs.fspath path) = none := by
  by_cases hm : fs.Makes k d path f
  · obtain ⟨q, s, rfl, hs, hl, htree⟩ := hm.below hroot
    have htarget : fs.fspath (q ++ s) = (fs.root.down q).down s := by
      rw [fspath, Path.down_down]
    rw [h] at htree
    rw [htarget]
    refine .inr ⟨Kernel.stat_of_lacks hl, ?_⟩
    have hnd : k.is_dir d.tree (fs.root.down q) = false := by
      rw [Bool.eq_false_iff]
      intro hd
      exact Kernel.create_dir_all_same_iff.mp (by rw [Kernel.create_dir_all_of_is_dir hd]) hl
    obtain ⟨l, hst, -, -, hempty⟩ :=
      Kernel.create_dir_all_fresh hroot hnd (Kernel.create_dir_all_of_lacks hroot hl)
    rw [← htree] at hst hempty
    obtain ⟨n, s', rfl⟩ := List.exists_cons_of_ne_nil hs
    rw [Kernel.stat_down, hst, Option.bind_some, Path.names_cons, walk_normal, hempty [n] (by simp)]
  · have hsame := ensure_parent_same hm
    rw [h] at hsame
    exact .inl hsame

/-- A target that is a file or nothing still is once its parents are in place, and
they change nothing for a file. -/
theorem ensure_parent_target (hroot : k.is_dir d.tree fs.root = true)
    (hk : FileOrAbsent k d.tree (fs.fspath path)) (h : fs.ensure_parent k d path f = (dm, none)) :
    FileOrAbsent k dm.tree (fs.fspath path) ∧
      (dm = d ∨
        k.lstat d.tree (fs.fspath path) = none ∧ k.lstat dm.tree (fs.fspath path) = none) := by
  rcases ensure_parent_view hroot h with rfl | ⟨l, n, hnone, hchild, hs, hd, hempty⟩
  · exact ⟨hk, .inl rfl⟩
  · have hslot : k.slot dm.tree (fs.fspath path) = some (l, n) := by
      rw [hchild]
      exact Kernel.slot_child_eq_some.mpr ⟨hs, hd, rfl⟩
    have hlstat : k.lstat dm.tree (fs.fspath path) = none := by
      rw [lstat_of_slot hslot]
      exact hempty [n] (by simp)
    refine ⟨.inl hlstat, .inr ⟨?_, hlstat⟩⟩
    rcases hk with hk | hk
    · exact hk
    · rw [Kernel.is_file, Kernel.read, hnone] at hk
      cases hk

end AutoMkcolFs

/-! ## A full body -/

namespace Put

variable {k : Kernel} {c : Crates} {fs : AutoMkcolFs} {d : Disk} {path : List String}
  {options : OpenOptions} {fault : OpenFault} {inner : Option Errno} {body : Bytes} {s₀ s : Put}

/-- Whatever happens to the request, a reader of the target gets what was there or
the whole body. -/
def OldOrNew (k : Kernel) (c : Crates) (fs : AutoMkcolFs) (d : Disk) (path : List String)
    (options : OpenOptions) (body : Bytes) : Prop :=
  ∀ fault inner,
    (∀ d' e, fs.open_writer k (.in_place k) d path options fault inner = (d', .error e) →
      d'.view k (fs.fspath path) = d.view k (fs.fspath path)) ∧
    ∀ s₀ s, opened k fs d path options fault inner body = some s₀ → Reach (step k c) Any s₀ s →
      s.disk.view k (fs.fspath path) = d.view k (fs.fspath path) ∨
        s.disk.view k (fs.fspath path) = some (some body)

/-- The body goes to a temp file; or there is no telling a part of it from the
whole or from what was there; or nothing is opened. -/
def Seamless (k : Kernel) (d : Disk) (p : Path) (options : OpenOptions) (body : Bytes) : Prop :=
  options.create = true ∨ body = [] ∨
    if options.create_new then k.slot d.tree p = none ∨ k.is_file d.tree p = true
    else k.is_file d.tree p = true → d.view k p = some (some []) ∧ body.length = 1

/-- Writing through a temp file comes to the same as writing in place. -/
def AsDirect (k : Kernel) (d : Disk) (p : Path) (options : OpenOptions) (body : Bytes) : Prop :=
  options.create = false ∨ (Upload.SizeOk options.size body ∧ Unaliased k d p) ∨
    (d.view k p = some (some body) ∧ (Upload.SizeOk options.size body → NoNewWay k d p))

/-- The cases of a successful `open`. -/
theorem opened_cases (h : opened k fs d path options fault inner body = some s₀) :
    (∃ d₁ af, fs.open_ k d path options fault = (d₁, .ok (.atomic af)) ∧
      s₀ = ⟨d₁, .atomic (.start d₁ af), body⟩) ∨
    ∃ dm d₀ f, fs.open_ k d path options fault = (dm, .ok .inner) ∧
      dm.open_truncated k (fs.fspath path) options inner = .ok (d₀, f) ∧
      s₀ = ⟨d₀, .direct ⟨f, .writing, []⟩, body⟩ := by
  unfold opened AutoMkcolFs.open_writer at h
  cases ho : fs.open_ k d path options fault with
  | mk d' r =>
    rw [ho] at h
    rcases r with e | af | _
    · cases h
    · cases h
      exact .inl ⟨d', af, rfl, rfl⟩
    · dsimp only [LocalFs.in_place_open] at h
      cases ht : d'.open_truncated k (fs.fspath path) options inner with
      | error e =>
        rw [ht] at h
        cases e <;> cases h
      | ok r =>
        rw [ht] at h
        cases h
        exact .inr ⟨d', r.1, r.2, rfl, ht, rfl⟩

theorem opened_atomic (ha : fs.atomic_writes = true) (hw : options.write = true)
    (hc : options.create = true) (ht : options.truncate = true)
    (h : opened k fs d path options fault inner body = some s₀) :
    ∃ dm d₁ o af, fs.ensure_parent k d path fault.parent = (dm, none) ∧ Opening k dm d₁ o af ∧
      af.target_path = fs.fspath path ∧ af.expected_size = options.size ∧
      s₀ = ⟨d₁, .atomic (.start d₁ af), body⟩ := by
  rcases opened_cases h with ⟨d₁, af, ho, rfl⟩ | ⟨dm, d₀, f, ho, -, -⟩
  · obtain ⟨dm, o, hens, hop, htarget, hsize, -, -⟩ := AutoMkcolFs.open_spec ho
    exact ⟨dm, d₁, o, af, hens, hop, htarget, hsize, rfl⟩
  · -- the flags choose the atomic branch
    exfalso
    simp only [AutoMkcolFs.open_, hw, hc, ht, ha, Bool.and_self, if_true] at ho
    split at ho
    · cases ho
    · exact AutoMkcolFs.open_atomic_ne_inner ho

theorem opened_direct (hno : fs.atomic_writes = false ∨ options.create = false)
    (h : opened k fs d path options fault inner body = some s₀) :
    ∃ dm d₀ f, (options.write = true → options.create = true →
        fs.ensure_parent k d path fault.parent = (dm, none)) ∧
      (options.create = false → dm = d) ∧
      dm.open_truncated k (fs.fspath path) options inner = .ok (d₀, f) ∧
      s₀ = ⟨d₀, .direct ⟨f, .writing, []⟩, body⟩ := by
  have hflag : (fs.atomic_writes && options.write && options.create && options.truncate) = false := by
    rcases hno with hno | hno <;> simp [hno]
  rcases opened_cases h with ⟨d₁, af, ho, -⟩ | ⟨dm, d₀, f, ho, ht, rfl⟩
  · exfalso
    simp only [AutoMkcolFs.open_, hflag, Bool.false_eq_true, if_false] at ho
    split at ho <;> cases ho
  · simp only [AutoMkcolFs.open_, hflag, Bool.false_eq_true, if_false] at ho
    split at ho
    · cases ho
    · rename_i dm' hens
      cases ho
      refine ⟨dm, d₀, f, fun hw hc => ?_, fun hc => ?_, ht, rfl⟩
      · rw [if_pos (by simp [hw, hc])] at hens
        exact hens
      · rw [if_neg (by simp [hc])] at hens
        cases hens
        rfl

/-- A request refused at `open` shows nothing at the target. -/
theorem refused_shows (hroot : k.is_dir d.tree fs.root = true) (hw : options.write = true)
    (ht : options.truncate = true) {d' : Disk} {e : FsError}
    (h : fs.open_writer k (.in_place k) d path options fault inner = (d', .error e)) :
    d'.view k (fs.fspath path) = d.view k (fs.fspath path) := by
  have hshow : ∀ dm : Disk, (∃ r, fs.ensure_parent k d path fault.parent = (dm, r)) →
      dm.view k (fs.fspath path) = d.view k (fs.fspath path) := by
    rintro dm ⟨r, hr⟩
    rcases AutoMkcolFs.ensure_parent_shows hroot hr with rfl | ⟨hd, hdm⟩
    · rfl
    · rw [Disk.view_eq, Disk.view_eq, hd, hdm]
      rfl
  cases hc : options.create with
  | true =>
    refine hshow d' ?_
    cases hens : fs.ensure_parent k d path fault.parent with
    | mk dm o =>
      cases o with
      | some e' =>
        simp only [AutoMkcolFs.open_writer, AutoMkcolFs.open_, hw, hc, Bool.and_self, if_true,
          hens] at h
        cases h
        exact ⟨_, rfl⟩
      | none =>
        have hd := AutoMkcolFs.open_writer_error hw hc ht hens (congrArg Prod.snd h)
        rw [h] at hd
        obtain rfl : d' = dm := hd
        exact ⟨_, rfl⟩
  | false =>
    have hd : d' = d := by
      simp only [AutoMkcolFs.open_writer, AutoMkcolFs.open_, hc, Bool.and_false, Bool.false_and,
        Bool.false_eq_true, if_false] at h
      split at h <;> cases h <;> rfl
    rw [hd]

/-- The target leads to the file that was opened. -/
theorem read_emptied {p : Path} {dm d₀ : Disk} {i : Nat} (h : Emptied k p dm d₀ i) :
    k.read d₀.tree p = some i := by
  rcases h.there with ⟨hread, htree⟩ | ⟨rfl, D, n, hslot, hfree, hget⟩
  · rw [htree, hread]
  · obtain ⟨q, rfl, hq, -⟩ := Kernel.slot_spec hslot
    have hext : Extends dm.tree d₀.tree := by
      intro l e he
      rw [hget, if_neg, he]
      rintro rfl
      rw [hfree] at he
      cases he
    have hnew : d₀.tree.get (D ++ [n]) = some (.file dm.next) := by rw [hget, if_pos rfl]
    exact Kernel.read_eq_some.mpr
      ⟨_, Kernel.stat_child_of_get (Kernel.stat_extends hext hq) hnew (by simp), hnew⟩

/-- Without `create`, and with what it asks for there, `open` leaves the target
empty. -/
theorem opened_without_create (hc : options.create = false)
    {d₀ : Disk} {f : Handle} (h : d.open_truncated k (fs.fspath path) options none = .ok (d₀, f)) :
    opened k fs d path options unhindered none body
      = some ⟨d₀, .direct ⟨f, .writing, []⟩, body⟩ := by
  have hopen : fs.open_ k d path options unhindered = (d, .ok .inner) := by
    simp only [AutoMkcolFs.open_, hc, Bool.and_false, Bool.false_and, Bool.false_eq_true, if_false]
  rw [opened, AutoMkcolFs.open_writer, hopen]
  dsimp only [LocalFs.in_place_open]
  rw [h]

theorem seamless_of_old_or_new (hk : FileOrAbsent k d.tree (fs.fspath path))
    (h : OldOrNew k c fs d path options body) : Seamless k d (fs.fspath path) options body := by
  by_cases hc : options.create = true
  · exact .inl hc
  rw [Bool.not_eq_true] at hc
  by_cases hb : body = []
  · exact .inr (.inl hb)
  refine .inr (.inr ?_)
  -- the state right after a successful open, and what it shows
  have hstart : ∀ d₀ f, d.open_truncated k (fs.fspath path) options none = .ok (d₀, f) →
      d.view k (fs.fspath path) = some (some []) := by
    intro d₀ f htr
    obtain ⟨hpos, hem, -⟩ := Disk.open_truncated_spec hk htr
    have hview := (h unhindered none).2 _ _ (opened_without_create hc htr) .start
    have hempty : d₀.view k (fs.fspath path) = some (some []) := by
      rw [Disk.view_of_read (read_emptied hem), hem.empty]
    dsimp only at hview
    rw [hempty] at hview
    rcases hview with hview | hview
    · exact hview.symm
    · exact absurd (Option.some.inj (Option.some.inj hview)).symm hb
  by_cases hnew : options.create_new = true
  · rw [if_pos hnew]
    by_contra hno
    rw [not_or] at hno
    obtain ⟨⟨D, n⟩, hslot⟩ := Option.ne_none_iff_exists'.mp hno.1
    have hnone : k.lstat d.tree (fs.fspath path) = none := hk.resolve_right hno.2
    have hfree : d.tree.get (D ++ [n]) = none := by
      rw [← lstat_of_slot hslot]
      exact hnone
    obtain ⟨q, hq, hst, hd⟩ := Kernel.slot_spec hslot
    obtain ⟨d₀, f, htr⟩ := Disk.open_truncated_free hst hd hfree
      (.inl hnew : options.create_new = true ∨ options.create = true)
    rw [← hq] at htr
    have hview := hstart d₀ f htr
    rw [Disk.view_eq, Kernel.stat_of_lstat_none hnone] at hview
    cases hview
  · rw [if_neg hnew]
    intro hf
    obtain ⟨i, hi⟩ := Option.isSome_iff_exists.mp hf
    have htr : d.open_truncated k (fs.fspath path) options none = .ok (d.truncate i, ⟨i, 0⟩) := by
      simp only [Disk.open_truncated, Disk.open_in_place, if_neg hnew, hc, Bool.false_eq_true,
        if_false, hi]
    have hold := hstart _ _ htr
    refine ⟨hold, ?_⟩
    by_contra hlen
    -- two bytes or more: the first of them shows
    obtain ⟨b, bs, rfl⟩ := List.exists_cons_of_ne_nil hb
    have hbs : bs ≠ [] := by
      rintro rfl
      exact hlen rfl
    obtain ⟨hpos, hem, -⟩ := Disk.open_truncated_spec hk htr
    have hstep : ∃ s, step k c ⟨d.truncate i, .direct ⟨⟨i, 0⟩, .writing, []⟩, b :: bs⟩
        (.write (.bytes [b] none)) = some s ∧ ∀ w, s.session = .direct w →
          w.stage = .writing ∧ w.sent = [b] := by
      have hrest : rest (b :: bs) (.write (.bytes [b] none)) = some bs := by
        simp [rest, AtomicFile.WriteCall.body]
      refine ⟨_, by rw [step, hrest]; rfl, ?_⟩
      rintro w hw
      cases hw
      exact ⟨rfl, rfl⟩
    obtain ⟨s, hs, hsent⟩ := hstep
    have hreach := Reach.start.next (C := Any) trivial hs
    obtain ⟨w, hw, hin⟩ := in_place_of_reach hem.empty hpos hreach
    obtain ⟨hwriting, hsent⟩ := hsent w hw
    have hview : s.disk.view k (fs.fspath path) = some (some [b]) := by
      rw [Disk.view_of_read (i := i) (by rw [hin.tree]; exact read_emptied hem),
        hin.all (.inl hwriting), hsent]
    have hseen := (h unhindered none).2 _ s (opened_without_create hc htr) hreach
    rw [hview, hold] at hseen
    rcases hseen with hseen | hseen
    · cases hseen
    · have hone := Option.some.inj (Option.some.inj hseen)
      rw [List.cons.injEq] at hone
      exact hbs hone.2.symm

/-- **What a reader sees** while a full body is written is the old state or the
whole, exactly when it goes to a temp file or there is no part of it to see. -/
theorem old_or_new_iff (k : Kernel) (c : Crates) (fs : AutoMkcolFs) (d : Disk) (path : List String)
    (options : OpenOptions) (body : Bytes) (ha : fs.atomic_writes = true)
    (hroot : k.is_dir d.tree fs.root = true) (hw : options.write = true)
    (ht : options.truncate = true) (hk : FileOrAbsent k d.tree (fs.fspath path)) :
    OldOrNew k c fs d path options body ↔ Seamless k d (fs.fspath path) options body := by
  refine ⟨seamless_of_old_or_new hk, fun hs fault inner => ⟨?_, ?_⟩⟩
  · intro d' e he
    exact refused_shows hroot hw ht he
  · intro s₀ s h₀ hreach
    by_cases hc : options.create = true
    · -- through a temp file
      obtain ⟨dm, d₁, o, af, hens, hop, htarget, -, rfl⟩ := opened_atomic ha hw hc ht h₀
      obtain ⟨hkm, -⟩ := AutoMkcolFs.ensure_parent_target hroot hk hens
      obtain ⟨u, -, hwhole⟩ := whole_of_reach hop hreach
      rw [← htarget] at hkm
      have hprom := Upload.promised_of_alone hop (hop.not_led hkm) hwhole.alone
      have hreads := hprom.reads
      have hut : u.af.target_path = fs.fspath path := hwhole.alone.target.trans htarget
      have hold : dm.view k (fs.fspath path) = d.view k (fs.fspath path) := by
        rcases AutoMkcolFs.ensure_parent_shows hroot hens with rfl | ⟨hd, hdm⟩
        · rfl
        · rw [Disk.view_eq, Disk.view_eq, hd, hdm]
          rfl
      dsimp only at hreads
      rw [hut, htarget, hold] at hreads
      rw [hreads]
      split
      · rename_i hcom
        have hsent := hwhole.spent
        rw [hwhole.drained (.inr (.inr hcom)), List.append_nil] at hsent
        exact .inr (by rw [hsent])
      · exact .inl rfl
    -- without `create` the file itself is written, and its content is always a part of the
    -- body
    · rw [Bool.not_eq_true] at hc
      obtain ⟨dm, d₀, f, -, hdm, htr, rfl⟩ := opened_direct (.inr hc) h₀
      rw [hdm hc] at htr
      obtain ⟨hpos, hem, hfile, hopened⟩ := Disk.open_truncated_spec hk htr
      obtain ⟨w, -, hin⟩ := in_place_of_reach hem.empty hpos hreach
      have hview : s.disk.view k (fs.fspath path) = some (some (s.disk.inode f.ino).content) := by
        refine Disk.view_of_read ?_
        rw [hin.tree]
        exact read_emptied hem
      rw [hview]
      rcases hs with hs | hs | hs
      · rw [hc] at hs
        cases hs
      · have hpart := hin.part
        rw [hs, List.prefix_nil] at hpart
        exact .inr (by rw [hpart, hs])
      · split at hs
        · rename_i hnew
          exfalso
          rcases hs with hs | hs
          · rcases hem.there with ⟨hread, -⟩ | ⟨-, D, n, hslot, -⟩
            · rw [hfile (by rw [Kernel.is_file, hread]; rfl)] at hnew
              cases hnew
            · rw [hs] at hslot
              cases hslot
          · rw [hfile hs] at hnew
            cases hnew
        · rename_i hnew
          rw [Bool.not_eq_true] at hnew
          obtain ⟨hold, hlen⟩ := hs (hopened hc hnew)
          rw [hold]
          cases hcont : (s.disk.inode f.ino).content with
          | nil => exact .inl rfl
          | cons b bs =>
            have hpart := hin.part
            rw [hcont] at hpart
            have hle := hpart.length_le
            rw [List.length_cons] at hle
            refine .inr ?_
            rw [hpart.eq_of_length (by rw [List.length_cons]; omega)]

/-- `LocalFs` opens a file in one way only. -/
theorem open_truncated_det {dm : Disk} {p : Path} {inner' : Option Errno} {r r' : Disk × Handle}
    (h : dm.open_truncated k p options inner = .ok r)
    (h' : dm.open_truncated k p options inner' = .ok r') : r = r' := by
  cases inner with
  | some e => cases h
  | none =>
    cases inner' with
    | some e => cases h'
    | none =>
      rw [h] at h'
      exact Except.ok.inj h'

/-- **After two requests that succeeded**, through a temp file and in place, every
path reads the same exactly when ... -/
theorem same_after_iff (k : Kernel) (c : Crates) (fs : AutoMkcolFs) (d : Disk) (path : List String)
    (options : OpenOptions) (body : Bytes) (ha : fs.atomic_writes = true)
    (hroot : k.is_dir d.tree fs.root = true) (hw : options.write = true)
    (ht : options.truncate = true) (hk : FileOrAbsent k d.tree (fs.fspath path))
    {fault fault' : OpenFault} {inner inner' : Option Errno} {s₀ s₀' s s' : Put}
    (h₀ : opened k fs d path options fault inner body = some s₀) (h : Succeeds k c s₀ s)
    (h₀' : opened k { fs with atomic_writes := false } d path options fault' inner' body = some s₀')
    (h' : Succeeds k c s₀' s') :
    (∀ q, s.disk.view k q = s'.disk.view k q) ↔ AsDirect k d (fs.fspath path) options body := by
  obtain ⟨dm', d₀', f', hens', hdm', htr', rfl⟩ := opened_direct (.inl rfl) h₀'
  cases hc : options.create with
  | false =>
    -- both are in place
    obtain ⟨dm, d₀, f, -, hdm, htr, rfl⟩ := opened_direct (.inr hc) h₀
    rw [hdm hc] at htr
    rw [hdm' hc] at htr'
    cases open_truncated_det htr htr'
    obtain ⟨hpos, hem, -⟩ := Disk.open_truncated_spec hk htr
    obtain ⟨htree, hbody, hothers⟩ := direct_outcome hem.empty hpos h
    obtain ⟨htree', hbody', hothers'⟩ := direct_outcome hem.empty hpos h'
    refine iff_of_true (fun q => ?_) (.inl hc)
    refine Disk.view_of_contents (fun x => by rw [htree, htree']) ?_ q
    exact Disk.contents_eq hbody hothers hbody' hothers'
  | true =>
    obtain ⟨dm, d₁, o, af, hens, hop, htarget, hsize, rfl⟩ := opened_atomic ha hw hc ht h₀
    obtain rfl : dm = dm' := AutoMkcolFs.ensure_parent_det hens (hens' hw hc)
    obtain ⟨hkm, hsame⟩ := AutoMkcolFs.ensure_parent_target hroot hk hens
    obtain ⟨hpos, hem, -⟩ := Disk.open_truncated_spec hkm htr'
    obtain ⟨hothers, hput, hkept⟩ := atomic_outcome hop h
    obtain ⟨htree', hbody', hothers'⟩ := direct_outcome hem.empty hpos h'
    rw [htarget] at hput
    rw [hsize] at hput hkept
    have hcontents : ∀ j, j ≠ f'.ino → (s'.disk.inode j).content = (dm.inode j).content :=
      fun j hj => (hothers' j hj).trans (hem.others j hj)
    rcases hem.there with ⟨hread, hd₀⟩ | ⟨hino, D, n, hslot, hfree, hget⟩
    · -- the file was there, so its parents were
      have hdm : dm = d := by
        rcases hsame with hsame | ⟨-, hnone⟩
        · exact hsame
        · rw [Kernel.read, Kernel.stat_of_lstat_none hnone] at hread
          cases hread
      subst hdm
      by_cases hso : Upload.SizeOk options.size body
      · obtain ⟨hcont, m, hslot, htree⟩ := hput hso
        rw [Disk.same_views_replaced hread hslot htree hcont hothers (htree'.trans hd₀) hbody'
          hcontents]
        simp only [AsDirect, hc, hso, Bool.true_eq_false, false_or, true_and, true_implies]
      · rw [Disk.same_views_untouched hread (hkept hso) hothers (htree'.trans hd₀) hbody' hcontents]
        simp only [AsDirect, hc, hso, Bool.true_eq_false, false_or, false_and, false_implies,
          and_true]
    · -- nothing was there
      have hnone : k.lstat dm.tree (fs.fspath path) = none := by
        rw [lstat_of_slot hslot]
        exact hfree
      have hdnone : k.stat d.tree (fs.fspath path) = none := by
        rcases hsame with rfl | ⟨hd, -⟩
        · exact Kernel.stat_of_lstat_none hnone
        · exact Kernel.stat_of_lstat_none hd
      rw [hino] at hbody' hcontents
      have hget' : ∀ x, s'.disk.tree.get x
          = if x = D ++ [n] then some (.file dm.next) else dm.tree.get x := by
        intro x
        rw [htree', hget]
      by_cases hso : Upload.SizeOk options.size body
      · obtain ⟨hcont, m, hslot', htree⟩ := hput hso
        rw [hslot] at hslot'
        cases hslot'
        refine iff_of_true (Disk.view_of_contents (fun x => by rw [htree, hget'])
          (Disk.contents_eq hcont hothers hbody' hcontents)) ?_
        refine .inr (.inl ⟨hso, fun i x hi => ?_⟩)
        rw [Kernel.read, hdnone] at hi
        cases hi
      · -- announced wrong: the direct write made the file, the other nothing
        refine iff_of_false (fun hall => ?_) ?_
        · have hq := hall (fs.fspath path)
          obtain ⟨q, hq', hst, -⟩ := Kernel.slot_spec hslot
          have hnew : k.stat s'.disk.tree (fs.fspath path) = some (D ++ [n]) := by
            rw [hq']
            have hext : Extends dm.tree s'.disk.tree := by
              intro l e he
              rw [hget', if_neg, he]
              rintro rfl
              rw [hfree] at he
              cases he
            exact Kernel.stat_child_of_get (Kernel.stat_extends hext hst)
              (e := .file dm.next) (by rw [hget', if_pos rfl]) (by simp)
          rw [Disk.view_eq, Disk.view_eq, Kernel.stat_of_get_eq (hkept hso), hnew,
            Kernel.stat_of_lstat_none hnone] at hq
          cases hq
        · rintro (h | ⟨h, -⟩ | ⟨h, -⟩)
          · rw [hc] at h
            cases h
          · exact hso h
          · rw [Disk.view_eq, hdnone] at h
            cases h

/-- **A full body**, written to a target that is a file, a link to one, or nothing.
No reader of the target sees anything but the old state and the whole body
exactly when it is `Seamless`; and of two requests that succeeded, one of them
with atomic writes off, every path reads the same exactly when writing is
`AsDirect`. -/
theorem full_write_iff (k : Kernel) (c : Crates) (fs : AutoMkcolFs) (d : Disk) (path : List String)
    (options : OpenOptions) (body : Bytes) (ha : fs.atomic_writes = true)
    (hroot : k.is_dir d.tree fs.root = true) (hw : options.write = true)
    (ht : options.truncate = true) (hk : FileOrAbsent k d.tree (fs.fspath path)) :
    (OldOrNew k c fs d path options body ↔ Seamless k d (fs.fspath path) options body) ∧
      ∀ fault fault' inner inner' s₀ s₀' s s',
        opened k fs d path options fault inner body = some s₀ → Succeeds k c s₀ s →
        opened k { fs with atomic_writes := false } d path options fault' inner' body = some s₀' →
        Succeeds k c s₀' s' →
        ((∀ q, s.disk.view k q = s'.disk.view k q) ↔ AsDirect k d (fs.fspath path) options body) := by
  refine ⟨old_or_new_iff k c fs d path options body ha hroot hw ht hk, ?_⟩
  intro fault fault' inner inner' s₀ s₀' s s' h₀ h h₀' h'
  exact same_after_iff k c fs d path options body ha hroot hw ht hk h₀ h h₀' h'

/-! ## Two requests -/

/-- A disk with one file of one byte, `/a`. -/
def one_file : Disk :=
  Disk.of (FileTree.empty.with_ [] "a" (.file 0)) (fun _ => ⟨[9], none⟩) 1 (by decide)

/-- A `PUT` with `If-Match`: the file has to be there, so it is not created. -/
def replacing : OpenOptions := { putting none with create := false }

/-- Right after such a request has opened `/a`, a reader finds it empty. -/
theorem if_match_truncates : ¬ ∀ (k : Kernel) (c : Crates) (fs : AutoMkcolFs) (d : Disk)
    (path : List String) (options : OpenOptions) (body : Bytes), fs.atomic_writes = true →
    k.is_dir d.tree fs.root = true → options.write = true → options.truncate = true →
    FileOrAbsent k d.tree (fs.fspath path) → OldOrNew k c fs d path options body := by
  intro hall
  have hopen : (opened host serving one_file ["a"] replacing unhindered none [1]).map
      (fun s => s.disk.view host (serving.fspath ["a"])) = some (some (some [])) := by decide
  obtain ⟨s, hs, hview⟩ := Option.map_eq_some_iff.mp hopen
  have hseen := (hall host digests serving one_file ["a"] replacing [1] rfl (by decide) rfl rfl
    (.inr (by decide)) unhindered none).2 s s hs .start
  rw [hview] at hseen
  revert hseen
  decide

/-- The body of two bytes, all the way. -/
def two_bytes : List Act :=
  [.write (.bytes [1, 2] none), .flush ⟨none, none⟩, .metadata ⟨none, none⟩]

/-- A request whose calls all succeed. -/
theorem succeeds_of_exec {es : List Act}
    (h : ((opened k fs d path options fault inner body).bind fun s₀ =>
      (exec (step k c) s₀ es).bind fun s₁ =>
        (s₁.step k c .drop).map fun _ => s₁.session.stage) = some .closed) :
    ∃ s₀ s, opened k fs d path options fault inner body = some s₀ ∧ Succeeds k c s₀ s := by
  obtain ⟨s₀, h₀, h⟩ := Option.bind_eq_some_iff.mp h
  obtain ⟨s₁, h₁, h⟩ := Option.bind_eq_some_iff.mp h
  obtain ⟨s, hs, hclosed⟩ := Option.map_eq_some_iff.mp h
  exact ⟨s₀, s, h₀, s₁, reach_of_exec h₁, hclosed, hs⟩

/-- Two bytes to an empty server, through a temp file and in place. -/
theorem full_write_iff_two_bytes :
    OldOrNew host digests serving .blank ["a"] (putting (some 2)) [1, 2] ∧
      ∃ s₀ s s₀' s', opened host serving .blank ["a"] (putting (some 2)) unhindered none [1, 2] =
        some s₀ ∧
        Succeeds host digests s₀ s ∧
        opened host { serving with atomic_writes := false } .blank ["a"] (putting (some 2)) unhindered
          none [1, 2] = some s₀' ∧
        Succeeds host digests s₀' s' ∧ ∀ q, s.disk.view host q = s'.disk.view host q := by
  have hfull := full_write_iff host digests serving .blank ["a"] (putting (some 2)) [1, 2] rfl
    (by decide) rfl rfl (.inl (by decide))
  have hatomic : ((opened host serving .blank ["a"] (putting (some 2)) unhindered none [1, 2]).bind
      fun s₀ => (exec (step host digests) s₀ two_bytes).bind fun s₁ =>
        (s₁.step host digests .drop).map fun _ => s₁.session.stage) = some .closed := by decide
  have hdirect : ((opened host { serving with atomic_writes := false } .blank ["a"]
      (putting (some 2)) unhindered none [1, 2]).bind
      fun s₀ => (exec (step host digests) s₀ two_bytes).bind fun s₁ =>
        (s₁.step host digests .drop).map fun _ => s₁.session.stage) = some .closed := by decide
  obtain ⟨s₀, s, h₀, h⟩ := succeeds_of_exec hatomic
  obtain ⟨s₀', s', h₀', h'⟩ := succeeds_of_exec hdirect
  refine ⟨hfull.1.mpr (.inl rfl), s₀, s, s₀', s', h₀, h, h₀', h', ?_⟩
  refine (hfull.2 _ _ _ _ _ _ _ _ h₀ h h₀' h').mpr (.inr (.inl ⟨?_, ?_⟩))
  · intro n hn
    cases hn
    rfl
  · intro i x hi
    have hnone : host.read Disk.blank.tree (serving.fspath ["a"]) = none := by decide
    rw [hnone] at hi
    cases hi

end Put

end WebDavs.AutoFs
