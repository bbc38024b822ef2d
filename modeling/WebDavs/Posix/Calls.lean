/-
The file-system calls, as functions on trees.

Each call resolves its paths in the tree it is given and either refuses or
changes the tree in one of the four ways of `FileTree`. The rules are those of the
Linux calls behind `std::fs`: `rename` replaces a file or an empty directory but
neither a full directory nor an entry of the other kind; `unlink` and `rmdir`
act on the entry itself and never through a link; opening for writing follows a
link to the end and may create what a dangling link names.

A call here fails only for the reasons the tree gives, in the order in which the
kernel comes to them: what is in the way on a path (`why`) before what the call
itself finds at its end. Failures that come from outside -- a full disk, a flaky
mount -- are chosen by whoever runs the call.
-/
import WebDavs.Posix.Resolve

set_option autoImplicit false

namespace WebDavs.Posix

variable {α : Type}

/-- The error numbers the callers of this library tell apart, and the ones the
calls below return. -/
inductive Errno where
  | enoent
  | eexist
  | enotdir
  | eisdir
  | enotempty
  | einval
  | ebusy
  | eloop
  | exdev
  | eio
  | eacces
  | enospc
deriving DecidableEq, Repr

/-- What path resolution depends on besides the tree: how deeply links may
nest, the working directory, and the device each directory sits on. -/
structure Kernel where
  links : Nat
  cwd : Loc
  dev : Loc → Nat

namespace FileTree

/-! ## Why a path leads nowhere -/

/-- Why `walk` gives up, where it does: a name that is missing, or an entry that would
have to be gone through and is no directory. `blame` says it for a link that is met. -/
def stop (t : FileTree α) (link : Loc → Path → Option Loc) (blame : Loc → Path → Errno) :
    Loc → List Component → Errno
  | _, [] => .enoent
  | pos, .curDir :: cs => if t.get pos = some .dir then stop t link blame pos cs else .enotdir
  | pos, .parentDir :: cs =>
    if t.get pos = some .dir then stop t link blame pos.dropLast cs else .enotdir
  | pos, .normal n :: cs =>
    match t.get (pos ++ [n]) with
    | none => if t.get pos = some .dir then .enoent else .enotdir
    | some (.symlink tgt) =>
      match link pos tgt with
      | none => blame pos tgt
      | some l => stop t link blame l cs
    | some _ => stop t link blame (pos ++ [n]) cs

/-- Why `follow` gives up. -/
def why (t : FileTree α) : Nat → Loc → Path → Errno
  | 0, pos, p => t.stop (fun _ _ => none) (fun _ _ => .eloop) (if p.root then [] else pos) p.comps
  | k + 1, pos, p => t.stop (t.follow k) (t.why k) (if p.root then [] else pos) p.comps

/-- What `why k` says of the links it meets. -/
def blame (t : FileTree α) : Nat → Loc → Path → Errno
  | 0 => fun _ _ => .eloop
  | k + 1 => t.why k

theorem why_eq (t : FileTree α) (k : Nat) (pos : Loc) (p : Path) :
    t.why k pos p = t.stop (t.viaLink k) (t.blame k) (if p.root then [] else pos) p.comps := by
  cases k <;> rfl

/-- There is no other reason than a name that is missing, an entry that is no directory,
and links without an end. -/
theorem stop_cases {t : FileTree α} {link : Loc → Path → Option Loc} {blame : Loc → Path → Errno}
    (hb : ∀ d p, blame d p = .enoent ∨ blame d p = .enotdir ∨ blame d p = .eloop)
    (pos : Loc) (cs : List Component) : t.stop link blame pos cs = .enoent ∨
      t.stop link blame pos cs = .enotdir ∨ t.stop link blame pos cs = .eloop := by
  induction cs generalizing pos with
  | nil => exact .inl rfl
  | cons c cs ih =>
      cases c with
      | curDir =>
          simp only [stop]
          split
          · exact ih pos
          · exact .inr (.inl rfl)
      | parentDir =>
          simp only [stop]
          split
          · exact ih _
          · exact .inr (.inl rfl)
      | normal n =>
          simp only [stop]
          split
          · split
            · exact .inl rfl
            · exact .inr (.inl rfl)
          · split
            · exact hb _ _
            · exact ih _
          · exact ih _

theorem why_cases (t : FileTree α) (k : Nat) (pos : Loc) (p : Path) :
    t.why k pos p = .enoent ∨ t.why k pos p = .enotdir ∨ t.why k pos p = .eloop := by
  induction k generalizing pos p with
  | zero => exact stop_cases (fun _ _ => .inr (.inr rfl)) _ _
  | succ k ih => exact stop_cases ih _ _

theorem stop_append (t : FileTree α) (link : Loc → Path → Option Loc) (blame : Loc → Path → Errno)
    (pos : Loc) (cs ds : List Component) : t.stop link blame pos (cs ++ ds) =
      match t.walk link pos cs with
      | none => t.stop link blame pos cs
      | some l => t.stop link blame l ds := by
  induction cs generalizing pos with
  | nil => rfl
  | cons c cs ih =>
      cases c with
      | curDir =>
          simp only [List.cons_append, stop, walk]
          split
          · exact ih pos
          · rfl
      | parentDir =>
          simp only [List.cons_append, stop, walk]
          split
          · exact ih _
          · rfl
      | normal n =>
          simp only [List.cons_append, stop, walk_normal]
          cases t.get (pos ++ [n]) with
          | none => rfl
          | some e =>
              cases e with
              | dir => exact ih _
              | file a => exact ih _
              | symlink tgt =>
                  cases hl : link pos tgt with
                  | none => simp only [Option.bind_none, hl]
                  | some l => simpa only [Option.bind_some, hl] using ih l

end FileTree

namespace Kernel

/-! ## Looking at paths -/

/-- Where the resolution of `p` starts. -/
def start (k : Kernel) (p : Path) : Loc := if p.root then [] else k.cwd

/-- What `p` leads to, every link followed. -/
def stat (k : Kernel) (t : FileTree α) (p : Path) : Option Loc :=
  if t.get (k.start p) = some .dir then t.follow k.links k.cwd p else none

/-- Why `p` leads nowhere. -/
def why (k : Kernel) (t : FileTree α) (p : Path) : Errno :=
  if t.get (k.start p) = some .dir then t.why k.links k.cwd p else .enoent

/-- The error of a call that needs a name in a directory and gets none of `p`: why `p`
leads nowhere, or `e` where it leads to something. -/
def unnamed (k : Kernel) (t : FileTree α) (p : Path) (e : Errno) : Errno :=
  if (k.stat t p).isSome then e else k.why t p

theorem why_cases (k : Kernel) (t : FileTree α) (p : Path) :
    k.why t p = .enoent ∨ k.why t p = .enotdir ∨ k.why t p = .eloop := by
  unfold why
  split
  · exact FileTree.why_cases t _ _ p
  · exact .inl rfl

/-- Behind what `p` leads to, that is where the reason lies. -/
theorem why_append {k : Kernel} {t : FileTree α} {p : Path} {l : Loc} (h : k.stat t p = some l)
    (cs : List Component) : k.why t ⟨p.root, p.comps ++ cs⟩ =
      t.stop (t.viaLink k.links) (t.blame k.links) l cs := by
  unfold stat at h
  split at h
  · rename_i hs
    have hs' : t.get (k.start ⟨p.root, p.comps ++ cs⟩) = some .dir := hs
    rw [FileTree.follow_eq] at h
    rw [why, if_pos hs', FileTree.why_eq, FileTree.stop_append, h]
  · cases h

theorem unnamed_of_stat {k : Kernel} {t : FileTree α} {p : Path} {e : Errno} {l : Loc}
    (h : k.stat t p = some l) : k.unnamed t p e = e := by
  rw [unnamed, h]
  rfl

theorem unnamed_of_none {k : Kernel} {t : FileTree α} {p : Path} {e : Errno}
    (h : k.stat t p = none) : k.unnamed t p e = k.why t p := by
  rw [unnamed, h]
  rfl

/-- The place `p` names, whether or not anything is there. -/
def locate (k : Kernel) (t : FileTree α) (p : Path) : Option Loc := t.locate k.links k.cwd p

/-- The directory and the name under which the entry `p` itself lives, or
would. -/
def slot (k : Kernel) (t : FileTree α) (p : Path) : Option (Loc × String) :=
  match p.comps.getLast? with
  | some (.normal n) =>
    (k.stat t ⟨p.root, p.comps.dropLast⟩).bind fun d =>
      if t.get d = some .dir then some (d, n) else none
  | _ => none

/-- The place of the entry `p` names, a final link not followed. -/
def entry_at (k : Kernel) (t : FileTree α) (p : Path) : Option Loc :=
  match p.comps.getLast? with
  | some (.normal _) => (k.slot t p).map fun s => s.1 ++ [s.2]
  | _ => k.stat t p

/-- `symlink_metadata`: the entry at `p`, a final link not followed. -/
def lstat (k : Kernel) (t : FileTree α) (p : Path) : Option (Entry α) :=
  match p.comps.getLast? with
  | some (.normal _) => (k.slot t p).bind fun s => t.get (s.1 ++ [s.2])
  | _ => (k.stat t p).bind t.get

/-- `Path::exists`. -/
def exists_ (k : Kernel) (t : FileTree α) (p : Path) : Bool := (k.stat t p).isSome

/-- `std::fs::canonicalize`: the path by which the entry itself is reached, with
no link on the way. -/
def canonicalize (k : Kernel) (t : FileTree α) (p : Path) : Option Path :=
  if p.root = false ∧ p.comps = [] then none else (k.stat t p).map Path.abs

/-- `Path::is_dir`. -/
def is_dir (k : Kernel) (t : FileTree α) (p : Path) : Bool :=
  match k.stat t p with
  | some l => decide (t.get l = some .dir)
  | none => false

/-- The payload of the file `p` leads to. -/
def read (k : Kernel) (t : FileTree α) (p : Path) : Option α :=
  match k.stat t p with
  | some l =>
    match t.get l with
    | some (.file a) => some a
    | _ => none
  | none => none

/-- `Path::is_file`. -/
def is_file (k : Kernel) (t : FileTree α) (p : Path) : Bool := (k.read t p).isSome

/-- `Path::is_symlink`. -/
def is_symlink (k : Kernel) (t : FileTree α) (p : Path) : Bool :=
  match k.lstat t p with
  | some (.symlink _) => true
  | _ => false

@[simp] theorem start_down (k : Kernel) (p : Path) (r : List String) :
    k.start (p.down r) = k.start p := rfl

@[simp] theorem start_child (k : Kernel) (p : Path) (n : String) :
    k.start (p.child n) = k.start p := rfl

theorem stat_eq_some {k : Kernel} {t : FileTree α} {p : Path} {l : Loc} :
    k.stat t p = some l ↔
      t.get (k.start p) = some .dir ∧ t.follow k.links k.cwd p = some l := by
  unfold stat
  split <;> simp_all

theorem stat_spec {k : Kernel} {t : FileTree α} {p : Path} {l : Loc} (h : k.stat t p = some l) :
    ∃ e, t.get l = some e ∧ ∀ tgt, e ≠ .symlink tgt := by
  obtain ⟨hs, hf⟩ := stat_eq_some.mp h
  rw [FileTree.follow_eq] at hf
  exact FileTree.walk_spec (fun d p l hd hl => by
    cases hk : k.links with
    | zero => rw [hk] at hl; cases hl
    | succ j => rw [hk] at hl; exact FileTree.follow_spec hd hl) hs (by simp) hf

theorem locate_of_stat {k : Kernel} {t : FileTree α} {p : Path} {l : Loc}
    (h : k.stat t p = some l) : k.locate t p = some l :=
  FileTree.locate_of_follow (stat_eq_some.mp h).2

theorem stat_down (k : Kernel) (t : FileTree α) (p : Path) (r : List String) :
    k.stat t (p.down r)
      = (k.stat t p).bind fun l => t.walk (t.viaLink k.links) l (Path.names r) := by
  unfold stat
  rw [start_down]
  split
  · exact FileTree.follow_down t _ _ _ _
  · rfl

theorem stat_child (k : Kernel) (t : FileTree α) (p : Path) (n : String) :
    k.stat t (p.child n)
      = (k.stat t p).bind fun l => t.walk (t.viaLink k.links) l [.normal n] :=
  k.stat_down t p [n]

/-- Below a resolved path, names through real directories lead straight
down. -/
theorem stat_down_of_get {k : Kernel} {t : FileTree α} {p : Path} {l : Loc} {r : List String}
    {e : Entry α} (hp : k.stat t p = some l) (he : t.get (l ++ r) = some e)
    (hs : ∀ tgt, e ≠ .symlink tgt) : k.stat t (p.down r) = some (l ++ r) := by
  rw [stat_down, hp]
  exact FileTree.walk_names he hs

theorem is_dir_iff {k : Kernel} {t : FileTree α} {p : Path} :
    k.is_dir t p = true ↔ ∃ l, k.stat t p = some l ∧ t.get l = some .dir := by
  unfold is_dir
  cases k.stat t p <;> simp

theorem read_eq_some {k : Kernel} {t : FileTree α} {p : Path} {a : α} :
    k.read t p = some a ↔ ∃ l, k.stat t p = some l ∧ t.get l = some (.file a) := by
  unfold read
  cases k.stat t p with
  | none => simp
  | some l =>
      simp only [Option.some.injEq, exists_eq_left']
      split <;> simp_all

theorem slot_child (k : Kernel) (t : FileTree α) (p : Path) (n : String) :
    k.slot t (p.child n)
      = (k.stat t p).bind fun d => if t.get d = some .dir then some (d, n) else none := by
  simp [slot, Path.child]

/-- A name in no directory leads nowhere. -/
theorem stat_child_of_no_slot {k : Kernel} {t : FileTree α} {p : Path} {n : String}
    (h : k.slot t (p.child n) = none) : k.stat t (p.child n) = none := by
  rw [slot_child] at h
  rw [stat_child]
  cases hs : k.stat t p with
  | none => rfl
  | some d =>
      have hd : t.get d ≠ some .dir := by
        intro hd
        rw [hs, Option.bind_some, if_pos hd] at h
        cases h
      rw [Option.bind_some, FileTree.walk_normal, t.get_below (List.cons_ne_nil n []) hd]

theorem slot_child_eq_some {k : Kernel} {t : FileTree α} {p : Path} {n m : String} {d : Loc} :
    k.slot t (p.child n) = some (d, m)
      ↔ k.stat t p = some d ∧ t.get d = some .dir ∧ n = m := by
  rw [slot_child, Option.bind_eq_some_iff]
  constructor
  · rintro ⟨d', hs, h⟩
    split at h
    · cases h
      exact ⟨hs, by assumption, rfl⟩
    · cases h
  · rintro ⟨hs, hd, rfl⟩
    exact ⟨d, hs, by simp [hd]⟩

/-- A path with a slot is a name in a directory that resolves. -/
theorem slot_spec {k : Kernel} {t : FileTree α} {p : Path} {d : Loc} {n : String}
    (h : k.slot t p = some (d, n)) :
    ∃ q : Path, p = q.child n ∧ k.stat t q = some d ∧ t.get d = some .dir := by
  have hfn : p.file_name = some n := by
    unfold slot at h
    unfold Path.file_name
    split at h
    · obtain ⟨d', -, hd'⟩ := Option.bind_eq_some_iff.mp h
      split at hd'
      · cases hd'
        simp_all
      · cases hd'
    · cases h
  have hp := Path.eq_child_of_file_name hfn
  rw [hp] at h
  obtain ⟨hs, hd, -⟩ := slot_child_eq_some.mp h
  exact ⟨_, hp, hs, hd⟩

theorem lstat_child (k : Kernel) (t : FileTree α) (p : Path) (n : String) :
    k.lstat t (p.child n) = (k.slot t (p.child n)).bind fun s => t.get (s.1 ++ [s.2]) := by
  simp [lstat, Path.child]

theorem entry_at_of_slot {k : Kernel} {t : FileTree α} {p : Path} {d : Loc} {n : String}
    (h : k.slot t p = some (d, n)) : k.entry_at t p = some (d ++ [n]) := by
  unfold entry_at
  split
  · rw [h]
    rfl
  · rename_i hlast
    obtain ⟨q, rfl, -⟩ := slot_spec h
    exact absurd (by simp [Path.child]) (hlast n)

theorem entry_at_of_no_slot {k : Kernel} {t : FileTree α} {p : Path} {l : Loc}
    (h : k.entry_at t p = some l) (hs : k.slot t p = none) : k.stat t p = some l := by
  unfold entry_at at h
  split at h
  · rw [hs] at h
    cases h
  · exact h

theorem entry_at_of_stat {k : Kernel} {t : FileTree α} {p : Path} {l : Loc}
    (h : k.stat t p = some l) (hs : k.slot t p = none) : k.entry_at t p = some l := by
  unfold entry_at
  split
  · rename_i n hlast
    -- a name that leads somewhere is a name in a directory
    rw [Path.eq_child_of_getLast hlast] at h hs
    rw [stat_child] at h
    obtain ⟨d, hq, hw⟩ := Option.bind_eq_some_iff.mp h
    by_cases hd : t.get d = some .dir
    · rw [slot_child_eq_some.mpr ⟨hq, hd, rfl⟩] at hs
      cases hs
    · rw [FileTree.walk_normal, t.get_below (List.cons_ne_nil n []) hd] at hw
      cases hw
  · exact h

theorem entry_at_of_exists {k : Kernel} {t : FileTree α} {p : Path} (h : k.exists_ t p = true) :
    ∃ x, k.entry_at t p = some x := by
  obtain ⟨l, hl⟩ := Option.isSome_iff_exists.mp h
  cases hs : k.slot t p with
  | none => exact ⟨l, entry_at_of_stat hl hs⟩
  | some s => exact ⟨_, entry_at_of_slot (n := s.2) (d := s.1) hs⟩

theorem lstat_eq (k : Kernel) (t : FileTree α) (p : Path) :
    k.lstat t p = (k.entry_at t p).bind t.get := by
  unfold lstat entry_at
  split
  · cases k.slot t p <;> rfl
  · rfl

/-! ### Behind the last name -/

@[simp] theorem start_dotted (k : Kernel) (p : Path) : k.start p.dotted = k.start p := rfl

@[simp] theorem start_tailed (k : Kernel) (p : Path) (b : Path.Tail) :
    k.start (p.tailed b) = k.start p := by
  unfold Path.tailed
  split <;> rfl

/-- `p/.` leads where `p` does, to a directory. -/
theorem stat_dotted (k : Kernel) (t : FileTree α) (p : Path) :
    k.stat t p.dotted = (k.stat t p).bind fun l => if t.get l = some .dir then some l else none := by
  unfold stat
  rw [start_dotted]
  split
  · rw [FileTree.follow_eq, FileTree.follow_eq]
    exact FileTree.walk_append t _ _ _ _
  · rfl

theorem stat_dotted_eq_some {k : Kernel} {t : FileTree α} {p : Path} {l : Loc} :
    k.stat t p.dotted = some l ↔ k.stat t p = some l ∧ t.get l = some .dir := by
  rw [stat_dotted, Option.bind_eq_some_iff]
  constructor
  · rintro ⟨x, hx, h⟩
    split at h
    · cases h
      exact ⟨hx, by assumption⟩
    · cases h
  · rintro ⟨hs, hl⟩
    exact ⟨l, hs, if_pos hl⟩

@[simp] theorem slot_dotted (k : Kernel) (t : FileTree α) (p : Path) : k.slot t p.dotted = none := by
  simp [slot, Path.dotted]

theorem entry_at_dotted (k : Kernel) (t : FileTree α) (p : Path) :
    k.entry_at t p.dotted = k.stat t p.dotted := by
  simp [entry_at, Path.dotted]

theorem lstat_dotted (k : Kernel) (t : FileTree α) (p : Path) :
    k.lstat t p.dotted = (k.stat t p.dotted).bind t.get := by
  rw [lstat_eq, entry_at_dotted]

@[simp] theorem is_dir_dotted (k : Kernel) (t : FileTree α) (p : Path) :
    k.is_dir t p.dotted = k.is_dir t p := by
  rw [Bool.eq_iff_iff, is_dir_iff, is_dir_iff]
  simp only [stat_dotted_eq_some, and_assoc, and_self]

@[simp] theorem exists_dotted (k : Kernel) (t : FileTree α) (p : Path) :
    k.exists_ t p.dotted = k.is_dir t p := by
  rw [Bool.eq_iff_iff, is_dir_iff, exists_, Option.isSome_iff_exists]
  simp only [stat_dotted_eq_some]

@[simp] theorem read_dotted (k : Kernel) (t : FileTree α) (p : Path) : k.read t p.dotted = none := by
  rw [Option.eq_none_iff_forall_ne_some]
  intro a h
  obtain ⟨l, hl, ha⟩ := read_eq_some.mp h
  rw [(stat_dotted_eq_some.mp hl).2] at ha
  cases ha

@[simp] theorem is_file_dotted (k : Kernel) (t : FileTree α) (p : Path) :
    k.is_file t p.dotted = false := by
  rw [is_file, read_dotted]
  rfl

@[simp] theorem is_symlink_dotted (k : Kernel) (t : FileTree α) (p : Path) :
    k.is_symlink t p.dotted = false := by
  unfold is_symlink
  rw [lstat_dotted]
  cases hs : k.stat t p.dotted with
  | none => rfl
  | some l => rw [Option.bind_some, (stat_dotted_eq_some.mp hs).2]

/-- What is there with a tail is there without. -/
theorem stat_of_tailed {k : Kernel} {t : FileTree α} {p : Path} {b : Path.Tail} {l : Loc}
    (h : k.stat t (p.tailed b) = some l) : k.stat t p = some l := by
  unfold Path.tailed at h
  split at h
  · exact h
  · exact (stat_dotted_eq_some.mp h).1

theorem exists_of_tailed {k : Kernel} {t : FileTree α} {p : Path} {b : Path.Tail}
    (h : k.exists_ t (p.tailed b) = true) : k.exists_ t p = true := by
  obtain ⟨l, hl⟩ := Option.isSome_iff_exists.mp h
  exact Option.isSome_iff_exists.mpr ⟨l, stat_of_tailed hl⟩

@[simp] theorem is_dir_tailed (k : Kernel) (t : FileTree α) (p : Path) (b : Path.Tail) :
    k.is_dir t (p.tailed b) = k.is_dir t p := by
  unfold Path.tailed
  split
  · rfl
  · exact is_dir_dotted k t p

/-- Unless a link sits in the slot, the slot is the place named. -/
theorem locate_of_slot {k : Kernel} {t : FileTree α} {p : Path} {d : Loc} {n : String}
    (h : k.slot t p = some (d, n)) (hl : t.linkAt (d ++ [n]) = none) :
    k.locate t p = some (d ++ [n]) := by
  obtain ⟨q, rfl, hs, -⟩ := slot_spec h
  exact FileTree.locate_down_names (locate_of_stat hs) fun s hs0 hsn => by
    rcases List.prefix_concat_iff.mp (show s <+: [] ++ [n] from hsn) with rfl | hnil
    · exact hl
    · exact absurd (List.prefix_nil.mp hnil) hs0

/-! ## Making directories -/

/-- `mkdir(2)`. -/
def mkdir (k : Kernel) (t : FileTree α) (p : Path) : Except Errno (FileTree α) :=
  match k.slot t p with
  | some (d, n) =>
    if h : t.get d = some .dir ∧ t.get (d ++ [n]) = none then
      .ok (t.put d n .dir h.1 (by simp [h.2]))
    else .error .eexist
  | none => .error (k.unnamed t p .eexist)

/-- `create_dir_all` on the first `i` components of `p`. What it made before it
gave up stays made, so the tree comes back with the error. -/
def create_dirs (k : Kernel) (t : FileTree α) (p : Path) : Nat → FileTree α × Option Errno
  | 0 => (t, none)
  | i + 1 =>
    let q : Path := ⟨p.root, p.comps.take (i + 1)⟩
    match k.mkdir t q with
    | .ok t' => (t', none)
    | .error .enoent =>
      match create_dirs k t p i with
      | (t₁, some e) => (t₁, some e)
      | (t₁, none) =>
        match k.mkdir t₁ q with
        | .ok t' => (t', none)
        | .error e => (t₁, if k.is_dir t₁ q then none else some e)
    | .error e => (t, if k.is_dir t q then none else some e)

/-- `std::fs::create_dir_all`. -/
def create_dir_all (k : Kernel) (t : FileTree α) (p : Path) : FileTree α × Option Errno :=
  k.create_dirs t p p.comps.length

/-- `create_dirs` looks no further than the components it is given. -/
theorem create_dirs_take (k : Kernel) (t : FileTree α) {p q : Path} (hr : p.root = q.root) {i : Nat}
    (hc : p.comps.take i = q.comps.take i) : k.create_dirs t p i = k.create_dirs t q i := by
  induction i with
  | zero => rfl
  | succ i ih =>
      have hc' : p.comps.take i = q.comps.take i := by
        have := congrArg (List.take i) hc
        simpa [List.take_take] using this
      unfold create_dirs
      simp only [hr, hc, ih hc']

/-- `create_dir_all` of a name in a directory, in terms of the directory. -/
theorem create_dir_all_child (k : Kernel) (t : FileTree α) (p : Path) (n : String) :
    k.create_dir_all t (p.child n) =
      match k.mkdir t (p.child n) with
      | .ok t' => (t', none)
      | .error .enoent =>
        match k.create_dir_all t p with
        | (t₁, some e) => (t₁, some e)
        | (t₁, none) =>
          match k.mkdir t₁ (p.child n) with
          | .ok t' => (t', none)
          | .error e => (t₁, if k.is_dir t₁ (p.child n) then none else some e)
      | .error e => (t, if k.is_dir t (p.child n) then none else some e) := by
  have hlen : (p.child n).comps.length = p.comps.length + 1 := by simp [Path.child]
  have hall : (p.child n).comps.take (p.comps.length + 1) = (p.child n).comps := by
    rw [← hlen, List.take_length]
  have htake : (p.child n).comps.take p.comps.length = p.comps.take p.comps.length := by
    simp [Path.child]
  have hpre : k.create_dirs t (p.child n) p.comps.length = k.create_dir_all t p := by
    rw [create_dir_all]
    refine create_dirs_take k t ?_ htake
    rfl
  have hstep : k.create_dir_all t (p.child n)
      = k.create_dirs t (p.child n) (p.comps.length + 1) := by
    rw [create_dir_all, hlen]
  rw [hstep, create_dirs]
  simp only [hall, hpre]

/-! ## Removing -/

/-- `unlink(2)`. -/
def remove_file (k : Kernel) (t : FileTree α) (p : Path) : Except Errno (FileTree α) :=
  match k.slot t p with
  | none => .error (k.unnamed t p .eisdir)
  | some (d, n) =>
    match t.get (d ++ [n]) with
    | none => .error .enoent
    | some .dir => .error .eisdir
    | some _ => .ok (t.erase (d ++ [n]) (by simp))

/-- The error of `rmdir(2)` for a path that ends in no name. -/
def rmdir_unnamed (p : Path) : Errno :=
  match p.comps.getLast? with
  | some .parentDir => .enotempty
  | some .curDir => .einval
  | _ => .ebusy

/-- `rmdir(2)`. -/
def remove_dir (k : Kernel) (t : FileTree α) (p : Path) : Except Errno (FileTree α) :=
  match k.slot t p with
  | none => .error (k.unnamed t p (rmdir_unnamed p))
  | some (d, n) =>
    match t.get (d ++ [n]) with
    | none => .error .enoent
    | some .dir =>
      if t.children (d ++ [n]) = [] then .ok (t.erase (d ++ [n]) (by simp)) else .error .enotempty
    | some _ => .error .enotdir

/-- `std::fs::remove_dir_all`: a link is unlinked, a directory goes with all it
holds, a file is refused. A directory named without a file name loses what it
holds and stays. -/
def remove_dir_all (k : Kernel) (t : FileTree α) (p : Path) : FileTree α × Option Errno :=
  match k.slot t p with
  | some (d, n) =>
    match t.get (d ++ [n]) with
    | none => (t, some .enoent)
    | some (.file _) => (t, some .enotdir)
    | some _ => (t.erase (d ++ [n]) (by simp), none)
  | none =>
    match k.stat t p with
    | none => (t, some (k.why t p))
    | some l =>
      if t.get l = some .dir then
        (t.eraseAll ((t.children l).map fun n => l ++ [n]), some (rmdir_unnamed p))
      else (t, some .enotdir)

/-! ## Renaming -/

/-- Why `rename(2)` refuses to put an entry that is there, at `a`, in place of what is
at `b`, when neither is above the other. -/
def kindCheck (t : FileTree α) (a b : Loc) : Option Errno :=
  match t.get a, t.get b with
  | some .dir, none => none
  | some .dir, some .dir => if t.children b = [] then none else some .enotempty
  | some .dir, some _ => some .enotdir
  | _, some .dir => some .eisdir
  | _, _ => none

/-- Why `rename(2)` refuses to put what is at `a` in place of what is at `b`. -/
def renameCheck (t : FileTree α) (a b : Loc) : Option Errno :=
  if t.get a = none then some .enoent
  else if a <+: b.dropLast then some .einval
  else if b <+: a.dropLast then some .enotempty
  else kindCheck t a b

theorem renameCheck_none {t : FileTree α} {a b : Loc} (h : renameCheck t a b = none) :
    t.get a ≠ none ∧ kindCheck t a b = none := by
  unfold renameCheck at h
  split at h
  · cases h
  · rename_i ha
    refine ⟨ha, ?_⟩
    split at h
    · cases h
    · split at h
      · cases h
      · exact h

/-- Of two entries neither of which is above the other only the kinds count. -/
theorem renameCheck_of_apart {t : FileTree α} {a b : Loc} (ha : t.get a ≠ none)
    (hab : ¬ a <+: b.dropLast) (hba : ¬ b <+: a.dropLast) :
    renameCheck t a b = kindCheck t a b := by
  rw [renameCheck, if_neg ha, if_neg hab, if_neg hba]

/-- The error of `rename(2)` where one of the paths is no name in a directory: the first
that leads nowhere says why. -/
def renameUnnamed (k : Kernel) (t : FileTree α) (p q : Path) : Errno :=
  if (k.slot t p).isNone ∧ (k.stat t p).isNone then k.why t p
  else if (k.slot t q).isNone ∧ (k.stat t q).isNone then k.why t q
  else .ebusy

/-- No check says "across devices". -/
theorem renameCheck_ne_exdev {t : FileTree α} {a b : Loc} : renameCheck t a b ≠ some .exdev := by
  have hkind : kindCheck t a b ≠ some .exdev := by
    unfold kindCheck
    split
    · simp
    · split <;> simp
    · simp
    · simp
    · simp
  unfold renameCheck
  split
  · simp
  · split
    · simp
    · split
      · simp
      · exact hkind

theorem renameUnnamed_ne_exdev {k : Kernel} {t : FileTree α} {p q : Path} :
    k.renameUnnamed t p q ≠ .exdev := by
  have hwhy : ∀ x, k.why t x ≠ .exdev := by
    intro x hx
    rcases why_cases k t x with h | h | h <;> rw [h] at hx <;> cases hx
  unfold renameUnnamed
  split
  · exact hwhy p
  · split
    · exact hwhy q
    · simp

/-- `rename(2)`. -/
def rename (k : Kernel) (t : FileTree α) (p q : Path) : Except Errno (FileTree α) :=
  match k.slot t p, k.slot t q with
  | some (d, n), some (d', n') =>
    if k.dev d ≠ k.dev d' then .error .exdev
    else if t.get (d ++ [n]) ≠ none ∧ d ++ [n] = d' ++ [n'] then .ok t
    else
      match renameCheck t (d ++ [n]) (d' ++ [n']) with
      | some e => .error e
      | none =>
        if h : t.get d' = some .dir ∧ ¬ d ++ [n] <+: d' then
          .ok (t.graft (d ++ [n]) d' n' (by simp) h.1 h.2)
        else .error .einval
  | _, _ => .error (k.renameUnnamed t p q)

/-! ## Opening for writing -/

end Kernel

namespace FileTree

/-- The slot in which `open(2)` with `O_CREAT` finds or makes the file: a final
link is followed, dangling or not. -/
def place (t : FileTree α) : Nat → Loc → Path → Option (Loc × String)
  | 0, pos, p =>
    match p.comps.getLast? with
    | some (.normal n) =>
      (t.follow 0 pos ⟨p.root, p.comps.dropLast⟩).bind fun d =>
        if t.get d = some .dir ∧ t.linkAt (d ++ [n]) = none then some (d, n) else none
    | _ => none
  | k + 1, pos, p =>
    match p.comps.getLast? with
    | some (.normal n) =>
      (t.follow (k + 1) pos ⟨p.root, p.comps.dropLast⟩).bind fun d =>
        if t.get d = some .dir then
          match t.linkAt (d ++ [n]) with
          | some tgt => t.place k d tgt
          | none => some (d, n)
        else none
    | _ => none

/-- Naming an entry in a directory that resolves. -/
theorem locate_child_of_follow {t : FileTree α} {k : Nat} {pos d : Loc} {p : Path}
    (h : t.follow k pos p = some d) (n : String) :
    t.locate k pos (p.child n) = t.aim (t.aimLink k) d [.normal n] := by
  rw [Path.child_eq_down, t.locate_down k pos p [n], locate_of_follow h]
  rfl

/-- A place to write is a directory and a name in it that is not a link, and is
what the path names. -/
theorem place_spec {t : FileTree α} {k : Nat} {pos d : Loc} {p : Path} {n : String}
    (h : t.place k pos p = some (d, n)) :
    t.get d = some .dir ∧ t.linkAt (d ++ [n]) = none ∧ t.locate k pos p = some (d ++ [n]) := by
  induction k generalizing pos p with
  | zero =>
      unfold place at h
      split at h
      · rename_i m hm
        obtain ⟨x, hx, hif⟩ := Option.bind_eq_some_iff.mp h
        split at hif
        · rename_i hc
          cases hif
          refine ⟨hc.1, hc.2, ?_⟩
          rw [Path.eq_child_of_getLast hm, locate_child_of_follow hx]
          simp only [aim, hc.2]
        · cases hif
      · cases h
  | succ k ih =>
      unfold place at h
      split at h
      · rename_i m hm
        obtain ⟨x, hx, hif⟩ := Option.bind_eq_some_iff.mp h
        split at hif
        · rename_i hd
          rw [Path.eq_child_of_getLast hm, locate_child_of_follow hx]
          cases hl : t.linkAt (x ++ [m]) with
          | none =>
              rw [hl] at hif
              cases hif
              exact ⟨hd, hl, by simp only [aim, hl]⟩
          | some tgt =>
              rw [hl] at hif
              obtain ⟨h1, h2, h3⟩ := ih hif
              refine ⟨h1, h2, ?_⟩
              simp only [aim, hl, aimLink, h3, Option.bind_some]
        · cases hif
      · cases h

end FileTree

namespace Kernel

/-- `FileTree.place`, from the working directory. -/
def place (k : Kernel) (t : FileTree α) (p : Path) : Option (Loc × String) :=
  if t.get (k.start p) = some .dir then t.place k.links k.cwd p else none

/-- `File::create` and what is then written: the file `p` leads to, made if it
is missing, holds `a`. -/
def write (k : Kernel) (t : FileTree α) (p : Path) (a : α) : Except Errno (FileTree α) :=
  match k.place t p with
  | none => .error (k.unnamed t p .eisdir)
  | some (d, n) =>
    if h : t.get d = some .dir ∧ t.get (d ++ [n]) ≠ some .dir then
      .ok (t.put d n (.file a) h.1 h.2)
    else .error .eisdir

/-- `open(2)` with `O_CREAT | O_EXCL`: a new file, or `EEXIST`. A link in the
slot counts as taken. -/
def create_new (k : Kernel) (t : FileTree α) (p : Path) (a : α) : Except Errno (FileTree α) :=
  match k.slot t p with
  | none => .error (k.unnamed t p .eexist)
  | some (d, n) =>
    if h : t.get d = some .dir ∧ t.get (d ++ [n]) = none then
      .ok (t.put d n (.file a) h.1 (by simp [h.2]))
    else .error .eexist

end Kernel

end WebDavs.Posix
