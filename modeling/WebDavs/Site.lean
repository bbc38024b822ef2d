/-
Uploads, and files that are written in place.

An `open` that is no full upload is left to `LocalFs`, which writes to whatever
file is there, the temp file of an upload included. `Site.Apart` is the condition
that nobody does, nor has such a file for the target of a commit, and under it
the uploads do not touch each other (`uploads_isolated`).
-/
import WebDavs.Uploads

set_option autoImplicit false

namespace WebDavs.AutoFs

open WebDavs.Posix WebDavs.Posix.FileTree WebDavs.Steps

/-! ## Opening in place -/

namespace Disk

/-- `open` with `create` and without `create_new`: the file the path leads to,
or a new one. -/
def create (k : Kernel) (d : Disk) (p : Path) : Except Errno (Disk × Nat) :=
  match k.read d.tree p with
  | some i => .ok (d, i)
  | none =>
    match h : k.write d.tree p d.next with
    | .error e => .error e
    | .ok t =>
      .ok ({ tree := t
             inode := fun i => if i = d.next then ⟨[], none⟩ else d.inode i
             next := d.next + 1
             fresh := by
               intro l i hl
               obtain ⟨dl, n, -, -, hg⟩ := Kernel.write_spec h
               rw [hg] at hl
               split at hl
               · cases hl
                 exact Nat.lt_succ_self _
               · exact Nat.lt_succ_of_lt (d.fresh hl) }, d.next)

/-- `open` for writing as the flags say, less `O_TRUNC`: the inode that is written to. -/
def open_in_place (k : Kernel) (d : Disk) (p : Path) (options : OpenOptions) :
    Except Errno (Disk × Nat) :=
  if options.create_new then
    match d.create_new k p with
    | .error e => .error e
    | .ok (d, f) => .ok (d, f.ino)
  else if options.create then d.create k p
  else
    match k.read d.tree p with
    | some i => .ok (d, i)
    | none => .error (k.unnamed d.tree p .eisdir)

/-- `O_TRUNC`. -/
def truncate (d : Disk) (i : Nat) : Disk :=
  { d with inode := fun j => if j = i then { d.inode j with content := [] } else d.inode j }

/-- `LocalFs::open` for writing: the inode that is written to, or `fault` when the
environment says so. -/
def open_local (k : Kernel) (d : Disk) (p : Path) (options : OpenOptions) (fault : Option Errno) :
    Except Errno (Disk × Nat) :=
  match fault with
  | some e => .error e
  | none =>
    match d.open_in_place k p options with
    | .error e => .error e
    | .ok (d, i) => .ok (if options.truncate then d.truncate i else d, i)

end Disk

/-! ## The server with these files -/

/-- The server, and the files that `LocalFs` has opened for writing. -/
structure Site where
  server : Server
  inners : List Nat

namespace Site

/-- A client opens a file or goes on with an upload, as before, or writes in place to a file
that `LocalFs` has opened for it. `inner` is what the environment does to the `open` of
`LocalFs`, where that is asked. -/
inductive Event where
  | open_ (path : List String) (options : OpenOptions) (fault : OpenFault) (inner : Option Errno)
  | act (i : Nat) (a : Act)
  | write_in_place (i pos : Nat) (bs : Bytes)

/-- One step. What is opened without `write` is only read. -/
def step (k : Kernel) (c : Crates) (fs : AutoMkcolFs) (s : Site) : Event → Option Site
  | .open_ path options fault inner =>
    match fs.open_ k s.server.disk path options fault with
    | (d, .ok (.atomic af)) =>
      some { s with server := ⟨d, s.server.uploads ++ [Upload.start d af]⟩ }
    | (d, .error _) => some { s with server := ⟨d, s.server.uploads⟩ }
    | (d, .ok .inner) =>
      if options.write then
        match d.open_local k (fs.fspath path) options inner with
        | .ok (d, ino) => some ⟨⟨d, s.server.uploads⟩, s.inners ++ [ino]⟩
        | .error _ => some { s with server := ⟨d, s.server.uploads⟩ }
      else some { s with server := ⟨d, s.server.uploads⟩ }
  | .act i a => (s.server.step k c fs (.act i a)).map fun s' => { s with server := s' }
  | .write_in_place i pos bs =>
    (s.inners[i]?).map fun ino =>
      { s with server := ⟨(s.server.disk.write_at ⟨ino, pos⟩ bs).1, s.server.uploads⟩ }

/-- No upload in flight writes to this file. -/
def Spare (s : Site) (ino : Nat) : Prop := ∀ v ∈ s.server.uploads, v.Live → v.ino ≠ ino

/-- **Nobody meets the temp file of another**: an upload that is about to commit has not got
it for its target, and no file that is emptied or written in place is one. -/
def Apart (k : Kernel) (c : Crates) (fs : AutoMkcolFs) (s : Site) : Event → Prop
  | .open_ path options _ inner =>
    options.write = true → options.truncate = true → options.create = false →
      options.create_new = false → inner = none → ∀ ino,
        k.read s.server.disk.tree (fs.fspath path) = some ino → s.Spare ino
  | .act i a => AutoFs.Apart k c s.server (.act i a)
  | .write_in_place i _ _ => ∀ ino, s.inners[i]? = some ino → s.Spare ino

/-! ### What an `open` comes to -/

end Site

namespace AutoMkcolFs

theorem open_atomic_ne_inner {k : Kernel} {fs : AutoMkcolFs} {d d' : Disk} {path : List String}
    {options : OpenOptions} {fault : OpenFault} :
    fs.open_atomic k d path options fault ≠ (d', .ok .inner) := by
  unfold open_atomic
  dsimp only
  intro h
  split at h
  · cases h
  · split at h
    · cases h
    · split at h
      · cases h
      · split at h <;> cases h

/-- An `open` that is left to `LocalFs` has at most made directories. -/
theorem open_inner {k : Kernel} {fs : AutoMkcolFs} {d d' : Disk} {path : List String}
    {options : OpenOptions} {fault : OpenFault}
    (h : fs.open_ k d path options fault = (d', .ok .inner)) :
    Grows d.tree d'.tree ∧ d'.inode = d.inode ∧ d'.next = d.next := by
  unfold open_ at h
  dsimp only at h
  split at h
  · cases h
  · rename_i dm hens
    split at h
    · exact absurd h open_atomic_ne_inner
    · cases h
      split at hens
      · have hgrows := ensure_parent_grows k fs d path fault.parent
        rw [hens] at hgrows
        exact hgrows
      · cases hens
        exact ⟨.refl _, rfl, rfl⟩

/-- A whole body that is written over what is there, or to a new file, is a full upload. -/
theorem not_create_of_inner {k : Kernel} {fs : AutoMkcolFs} {d d' : Disk} {path : List String}
    {options : OpenOptions} {fault : OpenFault} (ha : fs.atomic_writes = true)
    (hw : options.write = true) (ht : options.truncate = true)
    (h : fs.open_ k d path options fault = (d', .ok .inner)) : options.create = false := by
  by_contra hc
  rw [Bool.not_eq_false] at hc
  unfold open_ at h
  dsimp only at h
  split at h
  · cases h
  · rw [ha, hw, hc, ht, Bool.and_self, Bool.and_self, Bool.and_self, if_pos rfl] at h
    exact open_atomic_ne_inner h

/-- Without `create` no directory is made. -/
theorem open_inner_same {k : Kernel} {fs : AutoMkcolFs} {d d' : Disk} {path : List String}
    {options : OpenOptions} {fault : OpenFault} (hc : options.create = false)
    (h : fs.open_ k d path options fault = (d', .ok .inner)) : d' = d := by
  unfold open_ at h
  rw [hc, Bool.and_false, Bool.and_false, Bool.false_and, if_neg Bool.false_ne_true] at h
  dsimp only at h
  rw [if_neg Bool.false_ne_true] at h
  cases h
  rfl

end AutoMkcolFs

namespace Disk

theorem create_gains {k : Kernel} {d d' : Disk} {p : Path} {i : Nat}
    (h : d.create k p = .ok (d', i)) :
    (d' = d ∧ k.read d.tree p = some i) ∨ ((∃ x, Gains d d' x) ∧ i = d.next) := by
  unfold create at h
  split at h
  · rename_i j hj
    cases h
    exact .inl ⟨rfl, hj⟩
  · rename_i hread
    split at h
    · cases h
    · rename_i t ht
      cases h
      obtain ⟨D, n, -, hfree, hg⟩ := Kernel.write_new hread ht
      exact .inr ⟨⟨_, hfree, hg, rfl, rfl⟩, rfl⟩

/-- The file that is opened was there, or is new. -/
theorem open_in_place_gains {k : Kernel} {d d' : Disk} {p : Path} {options : OpenOptions} {i : Nat}
    (h : d.open_in_place k p options = .ok (d', i)) :
    (d' = d ∧ k.read d.tree p = some i ∧ options.create_new = false) ∨
      ((∃ x, Gains d d' x) ∧ i = d.next) := by
  unfold open_in_place at h
  split at h
  · split at h
    · cases h
    · rename_i d₁ f hc
      cases h
      obtain ⟨ht, rfl, hnext, hinode⟩ := create_new_ok hc
      obtain ⟨D, n, -, -, hfree, hg⟩ := Kernel.create_new_spec ht
      exact .inr ⟨⟨_, hfree, hg, hinode, hnext⟩, rfl⟩
  · rename_i hnew
    have hnew' : options.create_new = false := Bool.eq_false_iff.mpr hnew
    split at h
    · exact (create_gains h).imp (fun hc => ⟨hc.1, hc.2, hnew'⟩) fun hc => hc
    · split at h
      · rename_i j hj
        cases h
        exact .inl ⟨rfl, hj, hnew'⟩
      · cases h

end Disk

namespace Site

/-- Everything is in its place, and of what has not been committed the books are right. -/
structure BookedUntilCommit (k : Kernel) (c : Crates) (s : Site) : Prop where
  placed : Placed k s.server
  books : ∀ (i : Nat) u, s.server.uploads[i]? = some u → u.af.committed = false →
    Upload.Books c s.server.disk u

variable {k : Kernel} {c : Crates} {fs : AutoMkcolFs} {s : Site} {d : Disk}

theorem booked_start (k : Kernel) (c : Crates) (d : Disk) : BookedUntilCommit k c ⟨⟨d, []⟩, []⟩ :=
  ⟨Server.placed_start k d, fun _ _ h => (by simp at h)⟩

/-- Whatever leaves the files alone. -/
theorem booked_left (h : BookedUntilCommit k c s) (hd : Leaves s.server.disk d) (is : List Nat) :
    BookedUntilCommit k c ⟨⟨d, s.server.uploads⟩, is⟩ where
  placed := Server.placed_left h.placed hd
  books i u hu hc := (h.books i u hu hc).frame (hd.inode _ (h.placed.old i u hu))

theorem untouched_left (h : BookedUntilCommit k c s) (hd : Leaves s.server.disk d) {j : Nat}
    {v : Upload}
    (hv : s.server.uploads[j]? = some v) : Untouched s.server.disk d v :=
  ⟨hd.files _ (h.placed.old j v hv), hd.inode _ (h.placed.old j v hv)⟩

/-- A new upload. -/
theorem booked_add {dm : Disk} {o : Spot} {af : AtomicFile} (h : BookedUntilCommit k c s)
    (hd : Leaves s.server.disk dm) (hop : Opening k dm d o af) (is : List Nat) :
    BookedUntilCommit k c ⟨⟨d, s.server.uploads ++ [Upload.start d af]⟩, is⟩ where
  placed := Server.placed_add (Server.placed_left h.placed hd) hop
  books i u hu hc := by
    rcases Server.upload_cases hu with hu | ⟨-, rfl⟩
    · have hold := h.placed.old i u hu
      exact (h.books i u hu hc).frame ((hd.trans (Server.leaves_of_opening hop)).inode _ hold)
    · exact Upload.books_start hop

/-- The contents of a file change to which no upload in flight writes. -/
theorem booked_touched (h : BookedUntilCommit k c s) {ino : Nat} (htree : d.tree = s.server.disk.tree)
    (hnext : d.next = s.server.disk.next) (hrest : ∀ j, j ≠ ino → d.inode j = s.server.disk.inode j)
    (hspare : s.Spare ino) (is : List Nat) :
    BookedUntilCommit k c ⟨⟨d, s.server.uploads⟩, is⟩ ∧
      ∀ (j : Nat) v, s.server.uploads[j]? = some v → v.Live →
      Untouched s.server.disk d v := by
  have hsame : ∀ (j : Nat) v, s.server.uploads[j]? = some v → v.Live →
      d.inode v.ino = s.server.disk.inode v.ino := fun j v hv hl =>
    hrest v.ino (hspare v (List.mem_of_getElem? hv) hl)
  refine ⟨⟨Server.placed_same h.placed htree hnext, fun i u hu hc => ?_⟩,
    fun j v hv hl => ⟨fun l => ?_, ?_⟩⟩
  · by_cases hdrop : u.stage = .dropped
    · -- what has been dropped keeps no books
      refine ⟨fun hw => ?_, fun hw => ?_, fun hcom => ?_⟩
      · rw [hdrop] at hw
        cases hw
      · rw [hdrop] at hw
        rcases hw with hw | hw <;> cases hw
      · rw [hc] at hcom
        cases hcom
    · exact (h.books i u hu hc).frame (hsame i u hu ⟨hc, hdrop⟩)
  · rw [htree]
  · exact hsame j v hv hl

/-- A step of one upload. -/
theorem booked_act (h : BookedUntilCommit k c s) {i : Nat} {a : Act} {u u' : Upload}
    (ha : AutoFs.Apart k c s.server (.act i a)) (hu : s.server.uploads[i]? = some u)
    (hs : u.step k c s.server.disk a = some (d, u')) (is : List Nat) :
    BookedUntilCommit k c ⟨⟨d, s.server.uploads.set i u'⟩, is⟩ where
  placed := (Server.placed_act h.placed ha hu hs).1
  books j v hv hc := by
    obtain ⟨-, hinode, -, -⟩ :=
      Upload.step_effect (h.placed.grips i u hu) (h.placed.held i u hu) hs
    rw [List.getElem?_set] at hv
    split at hv
    · split at hv
      · cases hv
        -- it had not committed before either
        have hc₀ : u.af.committed = false := by
          by_contra hcom
          rw [Upload.committed_stays hs (Bool.not_eq_false _ ▸ hcom)] at hc
          cases hc
        exact Upload.books_step (h.books i u hu hc₀) hs
      · cases hv
    · rename_i hij
      exact (h.books j v hv hc).frame
        (hinode _ (h.placed.distinct j i v u (fun he => hij he.symm) hv hu))

/-- The ways a step can go: the files that are there are left alone, which may be those of
more uploads then; contents are written in place; or an upload takes a step. -/
inductive StepCase (k : Kernel) (c : Crates) (fs : AutoMkcolFs) (s : Site) : Event → Site → Prop where
  | opened (path : List String) (options : OpenOptions) (fault : OpenFault)
      (inner : Option Errno) (d : Disk) (af : AtomicFile)
      (hop : fs.open_ k s.server.disk path options fault = (d, .ok (.atomic af))) :
      StepCase k c fs s (.open_ path options fault inner)
        { s with server := ⟨d, s.server.uploads ++ [Upload.start d af]⟩ }
  | idle (path : List String) (options : OpenOptions) (fault : OpenFault)
      (inner : Option Errno) (d : Disk) (hg : Grows s.server.disk.tree d.tree)
      (hi : d.inode = s.server.disk.inode) (hn : d.next = s.server.disk.next) :
      StepCase k c fs s (.open_ path options fault inner)
        { s with server := ⟨d, s.server.uploads⟩ }
  | inside (path : List String) (options : OpenOptions) (fault : OpenFault)
      (inner : Option Errno) (dm d : Disk) (ino : Nat)
      (hop : fs.open_ k s.server.disk path options fault = (dm, .ok .inner))
      (hw : options.write = true)
      (hin : dm.open_local k (fs.fspath path) options inner = .ok (d, ino)) :
      StepCase k c fs s (.open_ path options fault inner)
        ⟨⟨d, s.server.uploads⟩, s.inners ++ [ino]⟩
  | acted (i : Nat) (a : Act) (u u' : Upload) (d : Disk) (hu : s.server.uploads[i]? = some u)
      (hs : u.step k c s.server.disk a = some (d, u')) :
      StepCase k c fs s (.act i a) { s with server := ⟨d, s.server.uploads.set i u'⟩ }
  | wrote (i pos : Nat) (bs : Bytes) (ino : Nat) (hi : s.inners[i]? = some ino) :
      StepCase k c fs s (.write_in_place i pos bs)
        { s with server := ⟨(s.server.disk.write_at ⟨ino, pos⟩ bs).1, s.server.uploads⟩ }

theorem step_cases {s' : Site} {e : Event} (h : s.step k c fs e = some s') :
    StepCase k c fs s e s' := by
  cases e with
  | open_ path options fault inner =>
      simp only [step] at h
      split at h
      · rename_i d af hop
        cases h
        exact .opened path options fault inner d af hop
      · rename_i d e hop
        cases h
        obtain ⟨hg, hi, hn⟩ := Server.open_error hop
        exact .idle path options fault inner d hg hi hn
      · rename_i d hop
        obtain ⟨hg, hi, hn⟩ := AutoMkcolFs.open_inner hop
        split at h
        · rename_i hw
          split at h
          · rename_i d' ino hin
            cases h
            exact .inside path options fault inner d d' ino hop hw hin
          · cases h
            exact .idle path options fault inner d hg hi hn
        · cases h
          exact .idle path options fault inner d hg hi hn
  | act i a =>
      simp only [step, Server.step] at h
      split at h
      · cases h
      · rename_i u hu
        obtain ⟨s₁, hs₁, rfl⟩ := Option.map_eq_some_iff.mp h
        obtain ⟨⟨d, u'⟩, hact, rfl⟩ := Option.map_eq_some_iff.mp hs₁
        exact .acted i a u u' d hu hact
  | write_in_place i pos bs =>
      obtain ⟨ino, hi, rfl⟩ := Option.map_eq_some_iff.mp h
      exact .wrote i pos bs ino hi

/-- `O_TRUNC` of a new file, which is empty. -/
theorem gains_truncated {d' : Disk} {x : Loc} (h : Gains d d' x) :
    Gains d (d'.truncate d.next) x := by
  refine ⟨h.free, h.get, ?_, h.next⟩
  funext i
  simp only [Disk.truncate, h.inode]
  split <;> rfl

/-- A file that `LocalFs` opens: a new one, or one that was there and is emptied at most,
which `create_new` does not let happen. -/
theorem open_local_cases {d' : Disk} {p : Path} {options : OpenOptions} {inner : Option Errno}
    {ino : Nat} (h : d.open_local k p options inner = .ok (d', ino)) :
    (∃ x, Gains d d' x) ∨ d' = d ∨ (options.truncate = true ∧ options.create_new = false ∧
      inner = none ∧ k.read d.tree p = some ino ∧ d' = d.truncate ino) := by
  unfold Disk.open_local at h
  split at h
  · cases h
  · split at h
    · cases h
    · rename_i d₁ i hip
      cases h
      rcases Disk.open_in_place_gains hip with ⟨rfl, hread, hnew⟩ | ⟨⟨x, hx⟩, rfl⟩
      · split
        · rename_i ht
          exact .inr (.inr ⟨ht, hnew, rfl, hread, rfl⟩)
        · exact .inr (.inl rfl)
      · refine .inl ⟨x, ?_⟩
        split
        · exact gains_truncated hx
        · exact hx

/-- **One step keeps everything in its place and the books right** and leaves every live
upload it is not about alone. -/
theorem booked_step {s' : Site} {e : Event} (haw : fs.atomic_writes = true)
    (h : BookedUntilCommit k c s)
    (ha : s.Apart k c fs e) (hs : s.step k c fs e = some s') :
    BookedUntilCommit k c s' ∧ ∀ (j : Nat) v, s.server.uploads[j]? = some v → v.Live →
      (∀ a, e ≠ .act j a) →
      s'.server.uploads[j]? = some v ∧ Untouched s.server.disk s'.server.disk v := by
  cases step_cases hs with
  | opened path options fault inner d af hop =>
      obtain ⟨dm, o, hens, hopening, -⟩ := AutoMkcolFs.open_spec hop
      have hgrows := AutoMkcolFs.ensure_parent_grows k fs s.server.disk path fault.parent
      rw [hens] at hgrows
      have hleft := leaves_of_grows hgrows
      refine ⟨booked_add h hleft hopening _, fun j v hv _ _ => ⟨?_, ?_⟩⟩
      · exact List.getElem?_append_left (List.getElem?_eq_some_iff.mp hv).1 ▸ hv
      · exact untouched_left h (hleft.trans (Server.leaves_of_opening hopening)) hv
  | idle path options fault inner d hg hi hn =>
      have hleft := leaves_of_grows ⟨hg, hi, hn⟩
      exact ⟨booked_left h hleft _, fun j v hv _ _ => ⟨hv, untouched_left h hleft hv⟩⟩
  | inside path options fault inner dm d ino hop hw hin =>
      have hleft := leaves_of_grows (AutoMkcolFs.open_inner hop)
      rcases open_local_cases hin with ⟨x, hx⟩ | rfl | ⟨ht, hnew, hinner, hread, rfl⟩
      · exact ⟨booked_left h (hleft.trans hx.leaves) _,
          fun j v hv _ _ => ⟨hv, untouched_left h (hleft.trans hx.leaves) hv⟩⟩
      · exact ⟨booked_left h hleft _, fun j v hv _ _ => ⟨hv, untouched_left h hleft hv⟩⟩
      · -- a whole body over what is there, but not to be made: it is emptied in place
        have hcr := AutoMkcolFs.not_create_of_inner haw hw ht hop
        obtain rfl := AutoMkcolFs.open_inner_same hcr hop
        obtain ⟨hsound, hrest⟩ := booked_touched (d := s.server.disk.truncate ino) h rfl rfl
          (fun j hj => by simp only [Disk.truncate, if_neg hj])
          (ha hw ht hcr hnew hinner ino hread) (s.inners ++ [ino])
        exact ⟨hsound, fun j v hv hl _ => ⟨hv, hrest j v hv hl⟩⟩
  | acted i a u u' d hu hact =>
      refine ⟨booked_act h ha hu hact _, fun j v hv hl hne => ?_⟩
      have hj : j ≠ i := fun he => hne a (by rw [he])
      refine ⟨?_, (Server.placed_act h.placed ha hu hact).2 j v hj hv hl⟩
      rw [List.getElem?_set_ne hj.symm]
      exact hv
  | wrote i pos bs ino hi =>
      obtain ⟨hsound, hrest⟩ := booked_touched (d := (s.server.disk.write_at ⟨ino, pos⟩ bs).1) h rfl
        rfl (fun j hj => by simp only [Disk.write_at, if_neg hj]) (ha ino hi) s.inners
      exact ⟨hsound, fun j v hv hl _ => ⟨hv, hrest j v hv hl⟩⟩

/-- What is promised of one step of the server: a live upload that it is not
about keeps its temp file, where it was and as it was; and if the step commits
an upload, what its target then reads as is what this very upload sent. -/
structure Isolated (k : Kernel) (s : Site) (e : Event) (s' : Site) : Prop where
  others : ∀ (j : Nat) v, s.server.uploads[j]? = some v → v.Live → (∀ a, e ≠ .act j a) →
    s'.server.uploads[j]? = some v ∧ Untouched s.server.disk s'.server.disk v
  committed : ∀ (i : Nat) u u', s.server.uploads[i]? = some u → s'.server.uploads[i]? = some u' →
    u.af.committed = false → u'.af.committed = true →
    s'.server.disk.view k u'.af.target_path = some (some u'.sent)

/-- An upload commits in a step of its own. -/
theorem act_of_commit {s' : Site} {e : Event} (hs : s.step k c fs e = some s') {i : Nat}
    {u u' : Upload} (hu : s.server.uploads[i]? = some u) (hu' : s'.server.uploads[i]? = some u')
    (hc : u.af.committed = false) (hc' : u'.af.committed = true) :
    ∃ a, e = .act i a ∧ u.step k c s.server.disk a = some (s'.server.disk, u') := by
  have hlt := (List.getElem?_eq_some_iff.mp hu).1
  have hsame : s.server.uploads[i]? ≠ some u' := by
    intro h
    rw [hu, Option.some.injEq] at h
    rw [← h, hc] at hc'
    cases hc'
  cases step_cases hs with
  | opened path options fault inner d af hop =>
      refine absurd ?_ hsame
      rwa [List.getElem?_append_left hlt] at hu'
  | idle path options fault inner d hg hi hn => exact absurd hu' hsame
  | inside path options fault inner dm d ino hop hw hin => exact absurd hu' hsame
  | acted j a w w' d hw hact =>
      by_cases hij : j = i
      · subst hij
        obtain rfl : w = u := Option.some.inj (hw.symm.trans hu)
        rw [List.getElem?_set_self hlt] at hu'
        cases hu'
        exact ⟨a, rfl, hact⟩
      · refine absurd ?_ hsame
        rwa [List.getElem?_set_ne hij] at hu'
  | wrote i pos bs ino hi => exact absurd hu' hsame

end Site

open Site in
/-- **Uploads do not touch each other**, in any run in which no commit has the
temp file of an upload in flight for its target, and none is written in place. -/
theorem uploads_isolated (k : Kernel) (c : Crates) (fs : AutoMkcolFs)
    (haw : fs.atomic_writes = true) (d : Disk) {s : Site}
    (h : Reach (Site.step k c fs) (Site.Apart k c fs) ⟨⟨d, []⟩, []⟩ s) :
    (∀ u ∈ s.server.uploads, u.Live →
      ∃ l, ∀ x, s.server.disk.tree.get x = some (.file u.ino) ↔ x = l) ∧
      ∀ e s', s.step k c fs e = some s' → s.Apart k c fs e → Isolated k s e s' := by
  have hsound : Site.BookedUntilCommit k c s := h.inv (Site.booked_start k c d) fun _ _ _ hi hc hst =>
    (Site.booked_step haw hi hc hst).1
  refine ⟨fun u hu hl => ?_, fun e s' hst hap => ⟨(booked_step haw hsound hap hst).2, ?_⟩⟩
  · obtain ⟨i, hi⟩ := List.mem_iff_getElem?.mp hu
    obtain ⟨o, ho⟩ := hsound.placed.held i u hi hl
    exact ⟨o.loc, ho.only⟩
  · intro i u u' hu hu' hc hc'
    obtain ⟨a, rfl, hact⟩ := act_of_commit hst hu hu' hc hc'
    obtain ⟨hino, -, -, htarget, -⟩ := Upload.step_keeps hact
    obtain ⟨heff, -, -, -⟩ :=
      Upload.step_effect (hsound.placed.grips i u hu) (hsound.placed.held i u hu) hact
    cases heff with
    | quiet htree hlive hcom =>
        rw [hcom hc'] at hc
        cases hc
    | renamed o m hlive hheld hcom hslot hnd hget hlands =>
        have hbooks := Upload.books_step (hsound.books i u hu hc) hact
        rw [htarget, Disk.view_eq_file hlands (by rw [hget, if_pos rfl]), ← hino]
        exact congrArg (some ∘ some) (hbooks.sealed hc').1
    | removed o hlive hheld hgone hcom hget =>
        rw [hcom hc'] at hc
        cases hc

/-- Two uploads side by side, one of them committing. -/
theorem uploads_isolated_two : ∃ s e s', Reach (Site.step host digests serving)
      (Site.Apart host digests serving) ⟨⟨.blank, []⟩, []⟩ s ∧
      s.step host digests serving e = some s' ∧
      s.server.uploads.length = 2 ∧ Site.Isolated host s e s' := by
  have hrun : ((exec (Site.step host digests serving) ⟨⟨.blank, []⟩, []⟩
      [.open_ ["a"] (putting none) unhindered none, .open_ ["a"] (putting none) unhindered none,
        .act 0 (.write (.bytes [1] none)), .act 1 (.write (.bytes [2] none))]).bind fun s =>
      (s.step host digests serving (.act 0 (.flush ⟨none, none⟩))).map fun _ =>
        (s.server.uploads.length, s.server.uploads.map fun u =>
          (host.slot s.server.disk.tree u.af.target_path).map fun x =>
            s.server.disk.tree.get (x.1 ++ [x.2])))
      = some (2, [some none, some none]) := by decide
  obtain ⟨s, hs, hrun⟩ := Option.bind_eq_some_iff.mp hrun
  obtain ⟨s', hs', hout⟩ := Option.map_eq_some_iff.mp hrun
  obtain ⟨hlen, hfree⟩ := Prod.mk.inj hout
  -- only the last step is one that `Apart` speaks of
  have hquiet : ∀ (s₀ : Site) i bs,
      s₀.Apart host digests serving (.act i (.write (.bytes bs none))) := by
    intro s₀ i bs j u f hef
    rcases hef with he | he <;> cases he
  have hput : ∀ (s₀ : Site) path,
      s₀.Apart host digests serving (.open_ path (putting none) unhindered none) := by
    intro s₀ path _ _ hc
    cases hc
  have hreach : Reach (Site.step host digests serving) (Site.Apart host digests serving)
      ⟨⟨.blank, []⟩, []⟩ s := by
    simp only [exec] at hs
    obtain ⟨s₁, h₁, hs⟩ := Option.bind_eq_some_iff.mp hs
    obtain ⟨s₂, h₂, hs⟩ := Option.bind_eq_some_iff.mp hs
    obtain ⟨s₃, h₃, hs⟩ := Option.bind_eq_some_iff.mp hs
    obtain ⟨s₄, h₄, hs⟩ := Option.bind_eq_some_iff.mp hs
    cases hs
    exact (((Reach.start.next (hput _ _) h₁).next (hput _ _) h₂).next (hquiet _ _ _) h₃).next
      (hquiet _ _ _) h₄
  refine ⟨s, _, s', hreach, hs', hlen,
    (uploads_isolated host digests serving rfl .blank hreach).2 _ s' hs' ?_⟩
  intro i u f _ hu _ d n hslot j v _ _ _ hget
  have hmem : (host.slot s.server.disk.tree u.af.target_path).map
      (fun x => s.server.disk.tree.get (x.1 ++ [x.2])) ∈ ([some none, some none] :
        List (Option (Option (Entry Nat)))) := by
    rw [← hfree]
    exact List.mem_map_of_mem (List.mem_of_getElem? hu)
  rw [hslot, Option.map_some, hget] at hmem
  simp at hmem

/-- With a target that looks like a temp name, one client's upload is published
under another client's name. -/
theorem upload_of_another : ¬ ∀ (k : Kernel) (c : Crates) (fs : AutoMkcolFs) (d : Disk) s,
    fs.atomic_writes = true → Reach (Site.step k c fs) Any ⟨⟨d, []⟩, []⟩ s →
      ∀ e s', s.step k c fs e = some s' → Site.Isolated k s e s' := by
  intro hall
  have hrun : ((exec (Site.step host digests serving) ⟨⟨.blank, []⟩, []⟩
      [.open_ ["a"] (putting none) unhindered none,
        .open_ ["a.uploading.nzk_webdavs"] (putting none) unhindered none,
        .act 0 (.write (.bytes [1] none)), .act 1 (.write (.bytes [2] none)),
        .act 1 (.flush ⟨none, none⟩)]).bind fun s =>
      (s.step host digests serving (.act 0 (.flush ⟨none, none⟩))).bind fun s' =>
        (s.server.uploads[0]?).bind fun u => (s'.server.uploads[0]?).map fun u' =>
          (u.af.committed, u'.af.committed, u'.sent, s'.server.disk.view host u'.af.target_path))
      = some (false, true, [1], some (some [2])) := by decide
  obtain ⟨s, hs, hrun⟩ := Option.bind_eq_some_iff.mp hrun
  obtain ⟨s', hs', hrun⟩ := Option.bind_eq_some_iff.mp hrun
  obtain ⟨u, hu, hrun⟩ := Option.bind_eq_some_iff.mp hrun
  obtain ⟨u', hu', hout⟩ := Option.map_eq_some_iff.mp hrun
  simp only [Prod.mk.injEq] at hout
  obtain ⟨hc, hc', hsent, hview⟩ := hout
  have hiso := (hall host digests serving .blank s rfl (reach_of_exec hs) _ s' hs').committed 0 u u'
    hu hu' hc hc'
  rw [hview, hsent] at hiso
  exact absurd hiso (by decide)

end WebDavs.AutoFs
