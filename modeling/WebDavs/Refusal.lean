/-
What a refused `open` leaves behind.

`AutoMkcolFs::open` makes the missing parents before it looks at anything else.
If the target's directory had to be made, the target and every temp name are
free in it, so neither `Exists` nor `Forbidden` comes of what the tree holds. What
still refuses the request then is the size that does not fit and an error of one
of the calls (`EACCES`, say, which the client sees as `Forbidden`), and the
directories stay. The tree is as it was exactly when one of the two does not
happen (`open_unchanged_iff`). `LocalFs` is a crate's; what is relied on of it is
`LocalFs.Documented`.
-/
import WebDavs.Digest
import WebDavs.Recursive
import WebDavs.Posix.Making

set_option autoImplicit false

namespace WebDavs.AutoFs

open WebDavs.Posix WebDavs.Posix.FileTree

/-! ## `open`, down to the file it opens -/

namespace Disk

/-- `LocalFs::open` for writing with `truncate`: the file the path leads to, in
place, unless the environment says no. -/
def open_truncated (k : Kernel) (d : Disk) (p : Path) (options : OpenOptions)
    (fault : Option Errno) : Except Errno (Disk × Handle) :=
  match fault with
  | some e => .error e
  | none =>
    match d.open_in_place k p options with
    | .error e => .error e
    | .ok (d, i) => .ok (d.truncate i, ⟨i, 0⟩)

/-- Where nothing is in the slot, the file that is asked for is made. -/
theorem open_truncated_free {k : Kernel} {dm : Disk} {q : Path} {l : Loc} {n : String}
    {options : OpenOptions} (hs : k.stat dm.tree q = some l)
    (hd : dm.tree.get l = some .dir) (hn : dm.tree.get (l ++ [n]) = none)
    (hc : options.create_new = true ∨ options.create = true) :
    ∃ d' h, dm.open_truncated k (q.child n) options none = .ok (d', h) := by
  have hslot : k.slot dm.tree (q.child n) = some (l, n) :=
    Kernel.slot_child_eq_some.mpr ⟨hs, hd, rfl⟩
  unfold open_truncated open_in_place
  dsimp only
  by_cases hnew : options.create_new = true
  · have hmade : ∃ t, k.create_new dm.tree (q.child n) dm.next = .ok t := by
      simp only [Kernel.create_new, hslot]
      rw [dif_pos ⟨hd, hn⟩]
      exact ⟨_, rfl⟩
    obtain ⟨t, ht⟩ := hmade
    obtain ⟨d', f, hf⟩ := create_new_of_ok ht
    rw [if_pos hnew, hf]
    exact ⟨_, _, rfl⟩
  -- nothing is read there, and the place the path names is free
  · have hread : k.read dm.tree (q.child n) = none := by
      rw [Kernel.read, Kernel.stat_child_of_none hs hn]
    have hplace : k.place dm.tree (q.child n) = some (l, n) :=
      Kernel.place_child hs hd (linkAt_of_none hn)
    have hmade : ∃ t, k.write dm.tree (q.child n) dm.next = .ok t := by
      simp only [Kernel.write, hplace]
      rw [dif_pos ⟨hd, by simp [hn]⟩]
      exact ⟨_, rfl⟩
    obtain ⟨t, ht⟩ := hmade
    have hcreate : ∃ d' i, dm.create k (q.child n) = .ok (d', i) := by
      unfold create
      split
      · exact ⟨_, _, rfl⟩
      · split
        · rename_i he
          rw [ht] at he
          cases he
        · exact ⟨_, _, rfl⟩
    obtain ⟨d', i, hi⟩ := hcreate
    rw [if_neg hnew, if_pos (hc.resolve_left hnew), hi]
    exact ⟨_, _, rfl⟩

end Disk

/-- `LocalFs`, as far as `open` asks it: what its own `open` does with a path when
the environment lets it, or fails it. An error leaves the disk alone. -/
structure LocalFs where
  open_ : Disk → Path → OpenOptions → Option Errno → Except Errno (Disk × Handle)

namespace LocalFs

/-- What a refused request relies on: an `open` that the environment fails is
failed, and a file that may be created is, where nothing is in its slot. -/
structure Documented (k : Kernel) (lf : LocalFs) : Prop where
  refused : ∀ (d : Disk) (p : Path) (options : OpenOptions) (e : Errno),
    lf.open_ d p options (some e) = .error e
  created : ∀ (d : Disk) (q : Path) (l : Loc) (n : String) (options : OpenOptions),
    k.stat d.tree q = some l → d.tree.get l = some .dir → d.tree.get (l ++ [n]) = none →
    options.create_new = true ∨ options.create = true →
    ∃ r, lf.open_ d (q.child n) options none = .ok r

/-- A `LocalFs` that opens the file in place. -/
def in_place (k : Kernel) : LocalFs where
  open_ d p options fault := d.open_truncated k p options fault

@[simp]
theorem in_place_open {k : Kernel} {d : Disk} {p : Path} {options : OpenOptions}
    {fault : Option Errno} :
    (in_place k).open_ d p options fault = d.open_truncated k p options fault := rfl

theorem in_place_documented {k : Kernel} : (in_place k).Documented k where
  refused _ _ _ _ := rfl
  created d q l n options hs hd hn hc := by
    obtain ⟨d', h, ho⟩ := Disk.open_truncated_free hs hd hn hc
    exact ⟨(d', h), ho⟩

end LocalFs

/-- What a body is written to: a temp file, or the target itself. -/
inductive Writer where
  | atomic (af : AtomicFile)
  | direct (h : Handle)

namespace AutoMkcolFs

/-- `AutoMkcolFs::open` with `write` and `truncate`, the `open` of `LocalFs`
included, on which `inner` is what the environment does. -/
def open_writer (k : Kernel) (lf : LocalFs) (fs : AutoMkcolFs) (d : Disk) (path : List String)
    (options : OpenOptions) (fault : OpenFault) (inner : Option Errno) :
    Disk × Except FsError Writer :=
  match fs.open_ k d path options fault with
  | (d, .error e) => (d, .error e)
  | (d, .ok (.atomic af)) => (d, .ok (.atomic af))
  | (d, .ok .inner) =>
    match lf.open_ d (fs.fspath path) options inner with
    | .ok (d, h) => (d, .ok (.direct h))
    | .error .eexist => (d, .error .exists_)
    | .error e => (d, .error (.io e))

/-! ## When the tree changes, and when the request is refused -/

/-- `ensure_parent` makes a directory: a name above the target is free, and the
environment lets `create_dir_all` get that far. -/
def Makes (k : Kernel) (fs : AutoMkcolFs) (d : Disk) (path : List String)
    (fault : Option (Errno × Nat)) : Prop :=
  fs.create_parents = true ∧ path.dropLast ≠ [] ∧
    match fault with
    | none => k.Lacks d.tree (fs.root.down path.dropLast)
    | some (_, n) => k.Lacks d.tree ((fs.root.down path.dropLast).upto n)

/-- What refuses a request whose parent had to be made: an error on the way, too
little space, or an error of the call that opens the file. -/
def Hindered (fs : AutoMkcolFs) (path : List String) (options : OpenOptions) (fault : OpenFault)
    (inner : Option Errno) : Prop :=
  fault.parent ≠ none ∨
    if fs.atomic_writes then
      lacks_space options.size fault.free_space = true ∨
        ∃ temp,
          (temp_paths ((fs.fspath path).parent.getD fs.root) (fs.fspath path)).head? = some temp ∧
          fault.temp temp ≠ none
    else inner ≠ none

variable {k : Kernel} {lf : LocalFs} {fs : AutoMkcolFs} {d : Disk} {path : List String}
  {options : OpenOptions} {fault : OpenFault} {inner : Option Errno}

theorem ensure_parent_same {f : Option (Errno × Nat)} (h : ¬ fs.Makes k d path f) :
    (fs.ensure_parent k d path f).1 = d := by
  have hsame : ∀ q : Path, ¬ k.Lacks d.tree q → (k.create_dir_all d.tree q).1 = d.tree :=
    fun q hq => Kernel.create_dir_all_same_iff.mpr hq
  unfold ensure_parent
  split
  · rfl
  · rename_i hc
    dsimp only
    split
    · rename_i hp
      have hpath : path.dropLast ≠ [] := fun he => hp (by rw [he, Path.down_nil])
      have hcreate : fs.create_parents = true := by simpa using hc
      cases f with
      | none =>
        have ht := hsame _ fun hl => h ⟨hcreate, hpath, hl⟩
        simp only [Disk.create_dir_all, ht]
      | some en =>
        have ht := hsame _ fun hl => h ⟨hcreate, hpath, hl⟩
        simp only [Path.upto] at ht
        simp only [Disk.create_dir_all, ht]
    · rfl

theorem ensure_parent_makes {f : Option (Errno × Nat)} (h : fs.Makes k d path f) :
    (fs.ensure_parent k d path f).1 ≠ d := by
  obtain ⟨hc, hpath, hl⟩ := h
  have hp : fs.root.down path.dropLast ≠ fs.root := by
    intro he
    have hdown : fs.root.down path.dropLast = fs.root.down [] := by rw [he, Path.down_nil]
    exact hpath (Path.down_injective _ hdown)
  intro he
  have ht : (fs.ensure_parent k d path f).1.tree = d.tree := by rw [he]
  unfold ensure_parent at ht
  rw [hc] at ht
  simp only [Bool.not_true, Bool.false_eq_true, if_false, if_pos hp] at ht
  cases f with
  | none => exact Kernel.create_dir_all_same_iff.mp ht hl
  | some en => exact Kernel.create_dir_all_same_iff.mp ht hl

/-- Parents that had to be made are made, and the target's directory is
empty. -/
theorem ensure_parent_fresh (hroot : k.is_dir d.tree fs.root = true)
    (h : fs.Makes k d path none) :
    ∃ dm l n, fs.ensure_parent k d path none = (dm, none) ∧ dm ≠ d ∧
      fs.fspath path = (fs.root.down path.dropLast).child n ∧
      k.stat dm.tree (fs.root.down path.dropLast) = some l ∧ dm.tree.get l = some .dir ∧
      ∀ s, s ≠ [] → dm.tree.get (l ++ s) = none := by
  have hne := ensure_parent_makes h
  have hok : (fs.ensure_parent k d path none).2 = none := by
    unfold ensure_parent
    split
    · rfl
    · dsimp only
      split
      · simp only [Disk.create_dir_all, Kernel.create_dir_all_of_lacks hroot h.2.2, Option.map_none]
      · rfl
  cases hens : fs.ensure_parent k d path none with
  | mk dm o =>
    rw [hens] at hok hne
    obtain rfl : o = none := hok
    rcases ensure_parent_view hroot hens with he | ⟨l, n, -, hchild, hs, hd, hempty⟩
    · exact absurd he hne
    · exact ⟨dm, l, n, rfl, hne, hchild, hs, hd, hempty⟩

/-! ## Opening the file -/

theorem open_atomic_error {e : FsError} (h : (fs.open_atomic k d path options fault).2 = .error e) :
    (fs.open_atomic k d path options fault).1 = d := by
  unfold open_atomic at h ⊢
  dsimp only at h ⊢
  split at h
  · rename_i hc
    rw [if_pos hc]
  · rename_i hc
    rw [if_neg hc]
    split at h
    · rename_i hd
      rw [if_pos hd]
    · rename_i hd
      rw [if_neg hd]
      split at h
      · rename_i hl
        rw [if_pos hl]
      · rename_i hl
        rw [if_neg hl]
        split at h
        · rfl
        · cases h

/-- With the parents in place and atomic writes on, `open` is its atomic
branch. -/
theorem open_writer_atomic {dm : Disk} (hw : options.write = true) (hc : options.create = true)
    (ht : options.truncate = true) (ha : fs.atomic_writes = true)
    (h : fs.ensure_parent k d path fault.parent = (dm, none)) :
    (fs.open_writer k lf d path options fault inner).1 = (fs.open_atomic k dm path options fault).1 ∧
      ∀ e, (fs.open_writer k lf d path options fault inner).2 = .error e ↔
        (fs.open_atomic k dm path options fault).2 = .error e := by
  have hopen : fs.open_ k d path options fault = fs.open_atomic k dm path options fault := by
    simp only [open_, hw, hc, ht, ha, Bool.and_self, if_true, h]
  unfold open_writer
  rw [hopen]
  cases ho : fs.open_atomic k dm path options fault with
  | mk d' r =>
    rcases r with e | af | _
    · exact ⟨rfl, fun e' => by simp⟩
    · exact ⟨rfl, fun e' => by simp⟩
    · exact absurd ho open_atomic_ne_inner

/-- With atomic writes off it is that of `LocalFs`. -/
theorem open_writer_direct {dm : Disk} (hw : options.write = true) (hc : options.create = true)
    (ha : fs.atomic_writes = false) (h : fs.ensure_parent k d path fault.parent = (dm, none)) :
    fs.open_writer k lf d path options fault inner =
      match lf.open_ dm (fs.fspath path) options inner with
      | .ok (d, h) => (d, .ok (.direct h))
      | .error .eexist => (dm, .error .exists_)
      | .error e => (dm, .error (.io e)) := by
  have hopen : fs.open_ k d path options fault = (dm, .ok .inner) := by
    simp only [open_, hw, hc, ha, Bool.and_self, if_true, h, Bool.false_and, Bool.false_eq_true,
      if_false]
  rw [open_writer, hopen]

theorem open_writer_error {dm : Disk} (hw : options.write = true) (hc : options.create = true)
    (ht : options.truncate = true) (h : fs.ensure_parent k d path fault.parent = (dm, none))
    {e : FsError} (he : (fs.open_writer k lf d path options fault inner).2 = .error e) :
    (fs.open_writer k lf d path options fault inner).1 = dm := by
  cases ha : fs.atomic_writes with
  | true =>
    have hatomic : (fs.open_writer k lf d path options fault inner).1
          = (fs.open_atomic k dm path options fault).1 ∧
        ∀ e, (fs.open_writer k lf d path options fault inner).2 = .error e ↔
          (fs.open_atomic k dm path options fault).2 = .error e :=
      open_writer_atomic hw hc ht ha h
    obtain ⟨hd, herr⟩ := hatomic
    rw [hd]
    exact open_atomic_error ((herr e).mp he)
  | false =>
    rw [open_writer_direct hw hc ha h] at he ⊢
    split at he
    · cases he
    · rfl
    · rfl

section Fresh

variable {dm : Disk} {l : Loc} {n : String}

/-- In a directory that has just been made only space and the environment
refuse a temp file. -/
theorem open_atomic_fresh (htarget : fs.fspath path = (fs.root.down path.dropLast).child n)
    (hs : k.stat dm.tree (fs.root.down path.dropLast) = some l) (hd : dm.tree.get l = some .dir)
    (hempty : ∀ s, s ≠ [] → dm.tree.get (l ++ s) = none) :
    ((∃ e, (fs.open_atomic k dm path options fault).2 = .error e) ↔
      lacks_space options.size fault.free_space = true ∨
        ∃ temp,
          (temp_paths ((fs.fspath path).parent.getD fs.root) (fs.fspath path)).head? = some temp ∧
          fault.temp temp ≠ none) := by
  have hnone : k.stat dm.tree (fs.fspath path) = none := by
    rw [htarget]
    exact Kernel.stat_child_of_none hs (hempty [n] (by simp))
  have hex : k.exists_ dm.tree (fs.fspath path) = false := by
    rw [Kernel.exists_, hnone]
    rfl
  have hdir : k.is_dir dm.tree (fs.fspath path) = false := by
    rw [Kernel.is_dir, hnone]
  have hpar : (fs.fspath path).parent.getD fs.root = fs.root.down path.dropLast := by
    rw [htarget, Path.parent_child]
    rfl
  have hname : (fs.fspath path).file_name = some n := by
    rw [htarget, Path.file_name_child]
  have hfirst : ∃ rest, temp_paths (fs.root.down path.dropLast) (fs.fspath path) =
      (fs.root.down path.dropLast).child (temp_name n) :: rest := by
    simp only [temp_paths, hname, Option.getD_some]
    exact ⟨_, rfl⟩
  -- the first name is free, so the others are never tried
  obtain ⟨rest, hrest⟩ := hfirst
  have hmade : ∃ t, k.create_new dm.tree ((fs.root.down path.dropLast).child (temp_name n)) dm.next
      = .ok t := by
    simp only [Kernel.create_new, Kernel.slot_child_eq_some.mpr ⟨hs, hd, rfl⟩]
    rw [dif_pos ⟨hd, hempty [temp_name n] (by simp)⟩]
    exact ⟨_, rfl⟩
  obtain ⟨t, ht⟩ := hmade
  obtain ⟨d', f, hf⟩ := Disk.create_new_of_ok ht
  unfold open_atomic
  simp only [hex, Bool.and_false, Bool.false_eq_true, if_false, hdir, hpar, hrest, List.head?_cons,
    Option.some.injEq, exists_eq_left']
  by_cases hl : lacks_space options.size fault.free_space = true
  · rw [if_pos hl]
    exact ⟨fun _ => .inl hl, fun _ => ⟨_, rfl⟩⟩
  · rw [if_neg hl]
    cases hft : fault.temp ((fs.root.down path.dropLast).child (temp_name n)) with
    | some e =>
      simp only [create_temp, hrest, create_temp_from, hft]
      exact ⟨fun _ => .inr (by simp), fun _ => ⟨_, rfl⟩⟩
    | none =>
      simp only [create_temp, hrest, create_temp_from, hft, hf]
      refine ⟨?_, ?_⟩
      · rintro ⟨e, he⟩
        cases he
      · rintro (h | h)
        · exact absurd h hl
        · exact absurd rfl h

end Fresh

/-- **A refused `open`** leaves the disk as it was, unless it had to make parents
and then met too little space or an error of one of its calls. -/
theorem open_unchanged_iff (k : Kernel) (lf : LocalFs) (hlf : lf.Documented k) (fs : AutoMkcolFs)
    (d : Disk) (path : List String) (options : OpenOptions) (fault : OpenFault)
    (inner : Option Errno) (hroot : k.is_dir d.tree fs.root = true) (hw : options.write = true)
    (hc : options.create = true) (ht : options.truncate = true) :
    (∀ e, (fs.open_writer k lf d path options fault inner).2 = .error e →
        (fs.open_writer k lf d path options fault inner).1 = d) ↔
      ¬ (fs.Makes k d path fault.parent ∧ fs.Hindered path options fault inner) := by
  by_cases hm : fs.Makes k d path fault.parent
  · have hne := ensure_parent_makes hm
    simp only [hm, true_and]
    cases hf : fault.parent with
    | some f =>
      -- `create_dir_all` itself gave up half way
      have hp : fs.root.down path.dropLast ≠ fs.root := by
        intro he
        have hdown : fs.root.down path.dropLast = fs.root.down [] := by rw [he, Path.down_nil]
        exact hm.2.1 (Path.down_injective _ hdown)
      have hens : fs.ensure_parent k d path fault.parent
          = ((fs.ensure_parent k d path fault.parent).1, some (.io f.1)) := by
        simp only [ensure_parent, hm.1, hf, Bool.not_true, Bool.false_eq_true, if_false, if_pos hp,
          Disk.create_dir_all, Option.map_some]
      have hopen : fs.open_writer k lf d path options fault inner
          = ((fs.ensure_parent k d path fault.parent).1, .error (.io f.1)) := by
        simp only [open_writer, open_, hw, hc, Bool.and_self, if_true]
        rw [hens]
      rw [hopen]
      refine iff_of_false (fun h => hne (h _ rfl)) (not_not.mpr (.inl ?_))
      simp [hf]
    | none =>
      rw [hf] at hm
      obtain ⟨dm, l, n, hens, hdm, htarget, hs, hd, hempty⟩ := ensure_parent_fresh hroot hm
      rw [← hf] at hens
      have hrefused : (∃ e, (fs.open_writer k lf d path options fault inner).2 = .error e) ↔
          fs.Hindered path options fault inner := by
        simp only [Hindered, hf, ne_eq, not_true_eq_false, false_or]
        cases ha : fs.atomic_writes with
        | true =>
          rw [if_pos rfl, exists_congr (open_writer_atomic hw hc ht ha hens).2]
          exact open_atomic_fresh htarget hs hd hempty
        | false =>
          rw [if_neg (by simp), open_writer_direct hw hc ha hens]
          cases inner with
          | some e =>
            refine iff_of_true ?_ (by simp)
            rw [hlf.refused]
            cases e <;> exact ⟨_, rfl⟩
          | none =>
            obtain ⟨r, ho⟩ := hlf.created dm _ l n options hs hd (hempty [n] (by simp)) (.inr hc)
            rw [htarget, ho]
            simp
      rw [← hrefused]
      constructor
      · rintro h ⟨e, he⟩
        refine hdm ((open_writer_error hw hc ht hens he).symm.trans (h e he))
      · intro h e he
        exact absurd ⟨e, he⟩ h
  · -- nothing made: every error leaves what it found
    have hsame := ensure_parent_same hm
    simp only [hm, false_and, not_false_eq_true, iff_true]
    intro e he
    cases hens : fs.ensure_parent k d path fault.parent with
    | mk dm o =>
      rw [hens] at hsame
      obtain rfl : dm = d := hsame
      cases o with
      | none => exact open_writer_error hw hc ht hens he
      | some e' => simp only [open_writer, open_, hw, hc, Bool.and_self, if_true, hens]

/-- A disk with no room for a byte. -/
def full : OpenFault := { unhindered with free_space := some 0 }

/-- A `PUT` of one byte to `/a/b` on a full disk is refused and leaves `/a`
there. -/
theorem full_disk_directory_left : ¬ ∀ (k : Kernel) (lf : LocalFs) (fs : AutoMkcolFs) (d : Disk)
    (path : List String) (options : OpenOptions) (fault : OpenFault) (inner : Option Errno),
    lf.Documented k → k.is_dir d.tree fs.root = true → options.write = true → options.create = true →
      options.truncate = true → ∀ e, (fs.open_writer k lf d path options fault inner).2 = .error e →
        (fs.open_writer k lf d path options fault inner).1 = d := by
  intro hall
  have hsame := hall host (.in_place host) serving .blank ["a", "b"] (putting (some 1)) full none
    LocalFs.in_place_documented (by decide) rfl rfl rfl .insufficient_storage (by rfl)
  have hdir : (serving.open_writer host (.in_place host) .blank ["a", "b"] (putting (some 1))
      full none).1.tree.get ["a"] = some .dir := by decide
  have hfree : Disk.blank.tree.get ["a"] = none := by decide
  rw [hsame, hfree] at hdir
  cases hdir

/-- A `PUT` of one byte to `/b` on a full disk is refused and leaves nothing. -/
theorem open_unchanged_iff_root :
    (serving.open_writer host (.in_place host) .blank ["b"] (putting (some 1)) full none).2
        = .error .insufficient_storage ∧
      (serving.open_writer host (.in_place host) .blank ["b"] (putting (some 1)) full none).1 =
        .blank := by
  have hrefused : (serving.open_writer host (.in_place host) .blank ["b"] (putting (some 1))
      full none).2 = .error .insufficient_storage := rfl
  refine ⟨hrefused, ?_⟩
  refine (open_unchanged_iff host (.in_place host) LocalFs.in_place_documented serving .blank
    ["b"] (putting (some 1)) full none (by decide) rfl rfl rfl).mpr ?_ _ hrefused
  rintro ⟨⟨-, h, -⟩, -⟩
  exact h rfl

end AutoMkcolFs

end WebDavs.AutoFs
