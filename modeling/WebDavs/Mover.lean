/-
`src/bin/file-mover.rs`: the helpers of the file mover.

Path arithmetic (`dest_for`, `free_dst`, `target_path`, `path_drive`), the two
recursive walks and the plain copy loop, function by function and under the
source's names. Files carry their contents here: the mover opens a file, copies
it and closes it, and nothing of it outlives the call.

The two walks visit the same entries in the same order and differ in what they
write down, so there is one `walk` and two readings of it. It follows symbolic
links to directories, as `Path::is_dir` does, and need not end; `fuel` bounds how
deep it goes and `none` means that it was not enough.
-/
import Mathlib.Algebra.GroupWithZero.Nat
import WebDavs.Posix.Effects

set_option autoImplicit false

namespace WebDavs.Mover

open WebDavs.Posix

/-! ## Paths -/

/-- A `PathBuf`: a path, the way it is spelled, and how its spelling ends. Spelling
is what the job registry compares; its end is what the kernel goes by. -/
structure PathBuf where
  path : Path
  text : String
  tail : Path.Tail
deriving DecidableEq

/-- What is looked at when the path is looked at. -/
def PathBuf.full (p : PathBuf) : Path := p.path.tailed p.tail

/-- `join` for a file name, which adds a separator unless there is one. -/
def PathBuf.join (p : PathBuf) (name : String) : PathBuf where
  path := p.path.child name
  text :=
    if p.text = "" ∨ p.text.toList.getLast? = some '/' then p.text ++ name
    else p.text ++ "/" ++ name
  tail := .none

@[simp] theorem PathBuf.full_join (p : PathBuf) (name : String) :
    (p.join name).full = p.path.child name := rfl

/-- A spelling, read from its end, without the separators and the single dots there. -/
def cut_tail : List Char → List Char
  | '/' :: cs => cut_tail cs
  | '.' :: '/' :: cs => cut_tail cs
  | cs => cs

/-- The spelling of `parent`: without the last name and what is around it. -/
def parent_text (s : List Char) : List Char :=
  let up := (cut_tail s.reverse).dropWhile (· ≠ '/')
  if cut_tail up = [] then up.reverse.take 1 else (cut_tail up).reverse

/-- `parent().unwrap_or(Path::new(""))`. -/
def PathBuf.parent_or_empty (p : PathBuf) : PathBuf :=
  match p.path.parent with
  | some q => ⟨q, String.ofList (parent_text p.text.toList), .none⟩
  | none => ⟨⟨false, []⟩, "", .none⟩

/-- `join(name.unwrap_or_default())`: an empty name adds the separator alone. -/
def PathBuf.join_or_default (p : PathBuf) (name : Option String) : PathBuf :=
  match name with
  | some n => p.join n
  | none => ⟨p.path, (p.join "").text, if p.path.file_name = none then .none else .slash⟩

/-- `dest_for`: into a directory, under the source's name; else as given. -/
def dest_for (k : Kernel) (t : FileTree Bytes) (src dst : PathBuf) : PathBuf :=
  if k.is_dir t dst.path then dst.join_or_default src.path.file_name else dst

/-- The names `free_dst` tries, in order: `stem_2.ext`, `stem_3.ext`, ... -/
def numbered (dst : PathBuf) : List PathBuf :=
  let stem := dst.path.file_stem
  let ext := match dst.path.extension with
    | some e => "." ++ e
    | none => ""
  (List.range' 2 998).map fun i => dst.parent_or_empty.join (stem ++ "_" ++ toString i ++ ext)

/-- `free_dst`: the first of them that does not exist, or the last one. -/
def free_dst (k : Kernel) (t : FileTree Bytes) (dst : PathBuf) : PathBuf :=
  if k.exists_ t dst.full then
    match (numbered dst).find? fun cand => !k.exists_ t cand.full with
    | some cand => cand
    | none => (numbered dst).getLast?.getD dst
  else dst

/-- `target_path`: where the file at `rel` below the source goes. -/
def target_path (dst : Path) (rel : List String) : Path :=
  if rel = [] then dst else dst.down rel

@[simp] theorem target_path_eq (dst : Path) (rel : List String) :
    target_path dst rel = dst.down rel := by
  unfold target_path
  split
  · rename_i h
    rw [h, Path.down_nil]
  · rfl

/-- `path_drive`: the first component below the first mount that holds the
path. -/
def path_drive (mounts : List Path) (p : Path) : Option Component :=
  match mounts with
  | [] => none
  | m :: ms =>
    match Path.strip_prefix m p with
    | some rest => rest.comps.head?
    | none => path_drive ms p

/-! ## Walking a tree -/

/-- The length of a path written out, as `readlink` gives it. -/
def text_len (p : Path) : Nat :=
  let comps := p.comps.map fun c =>
    match c with
    | .curDir => 1
    | .parentDir => 2
    | .normal n => n.utf8ByteSize
  (if p.root then 1 else 0) + comps.sum + (comps.length - 1)

/-- `symlink_metadata(..).len()`. -/
def size : Entry Bytes → Nat
  | .dir => 0
  | .file bs => bs.length
  | .symlink tgt => text_len tgt

/-- One entry met on a walk: its path, the path relative to where the walk began,
and, unless the path leads to a directory, the entry itself. -/
structure Visit where
  path : Path
  rel : List String
  leaf : Option (Entry Bytes)

/-- Put the results of walks together; the first error ends it. -/
def collect {β : Type} : List (Option (Except Errno (List β))) → Option (Except Errno (List β))
  | [] => some (.ok [])
  | none :: _ => none
  | some (.error e) :: _ => some (.error e)
  | some (.ok vs) :: ws => (collect ws).map fun r => r.map fun us => vs ++ us

/-- The walk of `walk_files` and `walk_delete`: depth first, a directory before
what is in it. -/
def walk (k : Kernel) (t : FileTree Bytes) :
    Nat → Path → List String → Option (Except Errno (List Visit))
  | 0, _, _ => none
  | fuel + 1, src, rel =>
    match k.stat t src with
    | some l =>
      if t.get l = some .dir then
        (collect ((t.children l).map fun n => walk k t fuel (src.child n) (rel ++ [n]))).map
          fun r => r.map fun vs => ⟨src, rel, none⟩ :: vs
      else
        match k.lstat t src with
        | some e => some (.ok [⟨src, rel, some e⟩])
        | none => some (.error (k.why t src))
    | none =>
      match k.lstat t src with
      | some e => some (.ok [⟨src, rel, some e⟩])
      | none => some (.error (k.why t src))

/-- What a walk comes to that starts at a path with something behind its last name:
only a directory can be walked by it. -/
def walk_from {α : Type} (k : Kernel) (t : FileTree Bytes) (src : Path) (b : Path.Tail)
    (walked : Option (Except Errno α)) : Option (Except Errno α) :=
  if b = .none ∨ k.is_dir t src = true then walked
  else some (.error (k.why t src.dotted))

/-- What `walk_files` writes down: the files with their relative paths, the
relative paths of the directories, the total size (of which the `u64` of the source has
the last 64 bits). -/
structure Listing where
  files : List (Path × List String)
  dirs : List (List String)
  bytes : Nat
deriving DecidableEq

/-- The listing of a walk. -/
def Listing.of (vs : List Visit) : Listing where
  files := vs.filterMap fun v => v.leaf.map fun _ => (v.path, v.rel)
  dirs := vs.filterMap fun v => if v.leaf.isNone then some v.rel else none
  bytes := (vs.filterMap fun v => v.leaf.map size).sum

/-- `walk_files`. -/
def walk_files (k : Kernel) (t : FileTree Bytes) (fuel : Nat) (src : Path) :
    Option (Except Errno Listing) :=
  (walk k t fuel src []).map fun r => r.map Listing.of

/-- What `walk_delete` writes down. Links count no bytes. -/
structure Removals where
  files : List Path
  dirs : List Path
  bytes : Nat
deriving DecidableEq

/-- The removals of a walk. -/
def Removals.of (vs : List Visit) : Removals where
  files := vs.filterMap fun v => v.leaf.map fun _ => v.path
  dirs := vs.filterMap fun v => if v.leaf.isNone then some v.path else none
  bytes := (vs.filterMap fun v => v.leaf.map fun e =>
    match e with
    | .symlink _ => 0
    | e => size e).sum

/-- `walk_delete`. -/
def walk_delete (k : Kernel) (t : FileTree Bytes) (fuel : Nat) (src : Path) :
    Option (Except Errno Removals) :=
  (walk k t fuel src []).map fun r => r.map Removals.of

/-! ## Calls that may fail half way -/

/-- What the environment does to one call: nothing, an error before anything is
done, an error after part of it is done (components made, bytes copied), an error
after some entries are gone. -/
inductive Fault where
  | none
  | error (e : Errno)
  | part (e : Errno) (n : Nat)
  | lost (e : Errno) (gone : List Loc)
deriving DecidableEq

/-- The error of a call that does all or nothing. -/
def Fault.errno : Fault → Option Errno
  | .none => Option.none
  | .error e => some e
  | .part e _ => some e
  | .lost e _ => some e

/-- `std::fs::rename`. -/
def rename (k : Kernel) (t : FileTree Bytes) (p q : Path) (f : Fault) :
    Except Errno (FileTree Bytes) :=
  match f.errno with
  | some e => .error e
  | none => k.rename t p q

/-- `std::fs::remove_file`. -/
def remove_file (k : Kernel) (t : FileTree Bytes) (p : Path) (f : Fault) :
    Except Errno (FileTree Bytes) :=
  match f.errno with
  | some e => .error e
  | none => k.remove_file t p

/-- `std::fs::remove_dir`. -/
def remove_dir (k : Kernel) (t : FileTree Bytes) (p : Path) (f : Fault) :
    Except Errno (FileTree Bytes) :=
  match f.errno with
  | some e => .error e
  | none => k.remove_dir t p

/-- `std::fs::create_dir_all`. -/
def create_dir_all (k : Kernel) (t : FileTree Bytes) (p : Path) (f : Fault) :
    FileTree Bytes × Option Errno :=
  match f with
  | .none => k.create_dir_all t p
  | .part e n => ((k.create_dir_all t ⟨p.root, p.comps.take n⟩).1, some e)
  | .error e => (t, some e)
  | .lost e _ => (t, some e)

/-- `std::fs::remove_dir_all`. It may give up after any of the entries below the
directory are gone. -/
def remove_dir_all (k : Kernel) (t : FileTree Bytes) (p : Path) (f : Fault) :
    FileTree Bytes × Option Errno :=
  match f with
  | .none => k.remove_dir_all t p
  | .error e => (t, some e)
  | .part e _ => (t, some e)
  | .lost e gone =>
    match k.lstat t p, k.stat t p with
    | some .dir, some l => (t.eraseAll (gone.filter fun x => l <+: x), some e)
    | _, _ => (t, some e)

/-- `copy_file`: the source is opened, the destination created or emptied, and
then the bytes go over, as many as the environment lets. A file copied onto
itself is empty by then. -/
def copy_file (k : Kernel) (t : FileTree Bytes) (src dst : Path) (f : Fault) :
    FileTree Bytes × Except Errno Nat :=
  match f with
  | .error e => (t, .error e)
  | .lost e _ => (t, .error e)
  | _ =>
    match k.stat t src, k.place t dst with
    | none, _ => (t, .error (k.why t src))
    | some _, none => (t, .error (k.unnamed t dst .eisdir))
    | some l, some (d, n) =>
      if h : t.get d = some .dir ∧ t.get (d ++ [n]) ≠ some .dir then
        let make := fun bs : Bytes => t.put d n (.file bs) h.1 h.2
        match t.get l with
        | some (.file bs) =>
          let bs := if l = d ++ [n] then [] else bs
          match f with
          | .part e m => (make (bs.take m), .error e)
          | _ => (make bs, .ok bs.length)
        | _ => (make [], .error .eisdir)
      else (t, .error .eisdir)

/-! ## Calls on paths that ask for a directory

What is written behind the last name makes a call fail that is not about a directory.
Such a call is the plain one with that failure for its fault, unless the environment
has one of its own. -/

/-- The error of a call that will not have a `.` for a name, given the one for a
directory. -/
def dot_errno (k : Kernel) (t : FileTree Bytes) (p : Path) (e : Errno) : Errno :=
  if k.is_dir t p then e else k.why t p.dotted

/-- `rename`: only a directory is renamed by such a path, and none by a `.`. That a path
leads nowhere, or to another device, is noticed before. -/
def Fault.rename_at (k : Kernel) (t : FileTree Bytes) (p : Path) (b : Path.Tail) (q : Path)
    (c : Path.Tail) (f : Fault) : Fault :=
  if b = .none ∧ c = .none then f
  else
    match f.errno, k.rename t p q with
    | some _, _ => f
    | Option.none, .error .exdev => f
    | Option.none, _ =>
      if k.slot t p = Option.none ∨ k.slot t q = Option.none then f
      else if b = .dot then .error (dot_errno k t p .ebusy)
      else if c = .dot then .error (dot_errno k t q .ebusy)
      else if k.lstat t p = Option.none ∨ k.lstat t p = some .dir then f
      else .error .enotdir

/-- `remove_file`: nothing is removed by such a path. -/
def Fault.remove_file_at (k : Kernel) (t : FileTree Bytes) (p : Path) (b : Path.Tail) (f : Fault) :
    Fault :=
  if b = .none then f
  else
    match f.errno with
    | some _ => f
    | Option.none =>
      if b = .dot then .error (dot_errno k t p .eisdir)
      else if k.lstat t p = Option.none then f
      else .error (if k.lstat t p = some .dir then .eisdir else .enotdir)

/-- `remove_dir`: not by a `.`. -/
def Fault.remove_dir_at (k : Kernel) (t : FileTree Bytes) (p : Path) (b : Path.Tail) (f : Fault) :
    Fault :=
  if b = .dot then
    match f.errno with
    | some _ => f
    | Option.none => .error (dot_errno k t p .einval)
  else f

/-- `create_dir_all`: a `.` is not made, but what is above the name in front of it is. -/
def Fault.create_dir_all_at (k : Kernel) (t : FileTree Bytes) (p : Path) (b : Path.Tail) (f : Fault) :
    Fault :=
  if b = .dot ∧ k.is_dir t p = false then
    match f with
    | .none => .part (dot_errno k t p .enoent) (p.comps.length - 1)
    | .part e n => .part e (min n (p.comps.length - 1))
    | f => f
  else f

/-- `copy_file`: such a path is no file to read, nor one to be made. The source is
opened first. -/
def Fault.copy_file_at (k : Kernel) (t : FileTree Bytes) (src : Path) (b : Path.Tail) (dst : Path)
    (c : Path.Tail) (f : Fault) : Fault :=
  match f, k.stat t src with
  | .error e, _ => .error e
  | .lost e gone, _ => .lost e gone
  | f, Option.none => f
  | f, some l =>
    if b ≠ .none ∧ t.get l ≠ some .dir then .error .enotdir
    else
      match c with
      | .none => f
      | .slash => if k.place t dst = Option.none then f else .error .eisdir
      | .dot => .error (dot_errno k t dst .eisdir)

/-- `remove_dir_all`: a link is taken for the directory it leads to, which loses what it
holds and stays, as does one that is named by a `.`. The link is no directory to the call
that is to remove it. -/
def remove_dir_all_at (k : Kernel) (t : FileTree Bytes) (p : Path) (b : Path.Tail) (f : Fault) :
    FileTree Bytes × Option Errno :=
  if b = .none ∨ b = .slash ∧ k.lstat t p = some .dir then remove_dir_all k t p f
  else
    ((remove_dir_all k t p.dotted f).1,
      if b = .slash ∧ f = .none then some (dot_errno k t p .enotdir)
      else (remove_dir_all k t p.dotted f).2)

section Tails

variable {k : Kernel} {t t' : FileTree Bytes} {p q : Path} {b c : Path.Tail} {f : Fault}

@[simp] theorem walk_from_none {α : Type} {w : Option (Except Errno α)} :
    walk_from k t p .none w = w := if_pos (.inl rfl)

theorem walk_from_ne_none {α : Type} {w : Option (Except Errno α)} (h : w ≠ none) :
    walk_from k t p b w ≠ none := by
  unfold walk_from
  split
  · exact h
  · simp

@[simp] theorem Fault.rename_at_none : f.rename_at k t p .none q .none = f := if_pos ⟨rfl, rfl⟩

@[simp] theorem Fault.remove_file_at_none : f.remove_file_at k t p .none = f := if_pos rfl

@[simp] theorem Fault.remove_dir_at_none : f.remove_dir_at k t p .none = f := if_neg (by simp)

@[simp] theorem Fault.create_dir_all_at_none : f.create_dir_all_at k t p .none = f :=
  if_neg (by simp)

@[simp] theorem Fault.copy_file_at_none : f.copy_file_at k t p .none q .none = f := by
  unfold Fault.copy_file_at
  split <;> simp

@[simp] theorem remove_dir_all_at_none :
    remove_dir_all_at k t p .none f = remove_dir_all k t p f := if_pos (.inl rfl)

end Tails

/-! ## What they do -/

theorem rename_ok {k : Kernel} {t t' : FileTree Bytes} {p q : Path} {f : Fault}
    (h : rename k t p q f = .ok t') : k.rename t p q = .ok t' := by
  unfold rename at h
  split at h
  · cases h
  · exact h

theorem remove_file_ok {k : Kernel} {t t' : FileTree Bytes} {p : Path} {f : Fault}
    (h : remove_file k t p f = .ok t') : k.remove_file t p = .ok t' := by
  unfold remove_file at h
  split at h
  · cases h
  · exact h

theorem remove_dir_ok {k : Kernel} {t t' : FileTree Bytes} {p : Path} {f : Fault}
    (h : remove_dir k t p f = .ok t') : k.remove_dir t p = .ok t' := by
  unfold remove_dir at h
  split at h
  · cases h
  · exact h

theorem create_dir_all_grows (k : Kernel) (t : FileTree Bytes) (p : Path) (f : Fault) :
    FileTree.Grows t (create_dir_all k t p f).1 := by
  cases f with
  | none => exact Kernel.create_dir_all_grows k t p
  | error e => exact FileTree.Grows.refl t
  | part e n => exact Kernel.create_dir_all_grows k t _
  | lost e gone => exact FileTree.Grows.refl t

theorem create_dir_all_ok {k : Kernel} {t : FileTree Bytes} {p : Path} {f : Fault}
    (h : (create_dir_all k t p f).2 = none) : f = .none := by
  cases f with
  | none => rfl
  | error e => cases h
  | part e n => cases h
  | lost e gone => cases h

/-- A `create_dir_all` that reports success has made its path a directory. -/
theorem create_dir_all_is_dir {k : Kernel} {t : FileTree Bytes} {p : Path} {f : Fault}
    (hs : t.get (k.start p) = some .dir) (h : (create_dir_all k t p f).2 = none) :
    k.is_dir (create_dir_all k t p f).1 p = true := by
  obtain rfl := create_dir_all_ok h
  by_cases hp : p.comps = []
  · -- nothing to make: the path is where its resolution starts
    have hst : k.stat t p = some (k.start p) := by
      refine Kernel.stat_eq_some.mpr ⟨hs, ?_⟩
      rw [FileTree.follow_eq, hp, FileTree.walk_nil]
      rfl
    exact Kernel.is_dir_extends (Kernel.create_dir_all_grows k t p).extends
      (Kernel.is_dir_iff.mpr ⟨_, hst, hs⟩)
  · exact Kernel.create_dir_all_is_dir hp h

/-- `remove_dir_all` forgets some of what is at or below the entry its path
names, and nothing else. -/
theorem remove_dir_all_get (k : Kernel) (t : FileTree Bytes) (p : Path) (f : Fault) (x : Loc) :
    (remove_dir_all k t p f).1.get x = t.get x ∨
      ((remove_dir_all k t p f).1.get x = none ∧ ∃ l, k.entry_at t p = some l ∧ l <+: x) := by
  cases f with
  | none => exact Kernel.remove_dir_all_get k t p x
  | error e => exact .inl rfl
  | part e n => exact .inl rfl
  | lost e gone =>
      unfold remove_dir_all
      dsimp only
      split
      · rename_i l hl hs
        rcases t.get_eraseAll (gone.filter fun x => l <+: x) x with h | ⟨h, y, hy, -, hyx⟩
        · exact .inl h
        · have hly : l <+: y := by simpa using (List.mem_filter.mp hy).2
          refine .inr ⟨h, l, ?_, hly.trans hyx⟩
          cases hslot : k.slot t p with
          | none => exact Kernel.entry_at_of_stat hs hslot
          | some s =>
              -- a directory in the slot is where the path leads
              obtain ⟨d, n⟩ := s
              rw [Kernel.lstat_eq, Kernel.entry_at_of_slot hslot, Option.bind_some] at hl
              obtain ⟨q, rfl, hq, -⟩ := Kernel.slot_spec hslot
              rw [Kernel.stat_child_of_get hq hl (by simp)] at hs
              rw [Kernel.entry_at_of_slot hslot, hs]
      · exact .inl rfl

/-- **`copy_file`** leaves the tree alone and fails, or has put one file where
its destination leads; and when it succeeds that file holds what the source
held, unless the two are one file. -/
theorem copy_file_spec {k : Kernel} {t t' : FileTree Bytes} {src dst : Path} {f : Fault}
    {r : Except Errno Nat} (h : copy_file k t src dst f = (t', r)) :
    (t' = t ∧ ∃ e, r = .error e) ∨
      ∃ l d n bs, k.stat t src = some l ∧ k.place t dst = some (d, n) ∧
        t.get d = some .dir ∧ t.get (d ++ [n]) ≠ some .dir ∧
        (∀ x, t'.get x = if x = d ++ [n] then some (.file bs) else t.get x) ∧
        ∀ m, r = .ok m → ∃ c, t.get l = some (.file c) ∧ bs = if l = d ++ [n] then [] else c := by
  have hmain : ∀ (g : Fault), (match k.stat t src, k.place t dst with
      | none, _ => (t, (.error (k.why t src) : Except Errno Nat))
      | some _, none => (t, .error (k.unnamed t dst .eisdir))
      | some l, some (d, n) =>
        if h : t.get d = some .dir ∧ t.get (d ++ [n]) ≠ some .dir then
          match t.get l with
          | some (.file bs) =>
            match g with
            | .part e m => (t.put d n (.file ((if l = d ++ [n] then [] else bs).take m)) h.1 h.2,
                .error e)
            | _ => (t.put d n (.file (if l = d ++ [n] then [] else bs)) h.1 h.2,
                .ok (if l = d ++ [n] then [] else bs).length)
          | _ => (t.put d n (.file []) h.1 h.2, .error .eisdir)
        else (t, .error .eisdir)) = (t', r) →
      (t' = t ∧ ∃ e, r = .error e) ∨
        ∃ l d n bs, k.stat t src = some l ∧ k.place t dst = some (d, n) ∧
          t.get d = some .dir ∧ t.get (d ++ [n]) ≠ some .dir ∧
          (∀ x, t'.get x = if x = d ++ [n] then some (.file bs) else t.get x) ∧
          ∀ m, r = .ok m →
            ∃ c, t.get l = some (.file c) ∧ bs = if l = d ++ [n] then [] else c := by
    -- a fault that lets the call run at all decides only how much is written
    intro g hg
    split at hg
    · cases hg
      exact .inl ⟨rfl, _, rfl⟩
    · cases hg
      exact .inl ⟨rfl, _, rfl⟩
    · rename_i l d n hs hp
      split at hg
      · rename_i hc
        split at hg
        · rename_i c hl
          split at hg
          · cases hg
            exact .inr ⟨l, d, n, _, hs, hp, hc.1, hc.2, fun _ => rfl, fun _ hr => by cases hr⟩
          · cases hg
            exact .inr ⟨l, d, n, _, hs, hp, hc.1, hc.2, fun _ => rfl, fun _ _ => ⟨c, hl, rfl⟩⟩
        · cases hg
          exact .inr ⟨l, d, n, _, hs, hp, hc.1, hc.2, fun _ => rfl, fun _ hr => by cases hr⟩
      · cases hg
        exact .inl ⟨rfl, _, rfl⟩
  -- the other two faults come before anything is opened
  cases f with
  | none => exact hmain .none h
  | part e m => exact hmain (.part e m) h
  | error e =>
      cases h
      exact .inl ⟨rfl, _, rfl⟩
  | lost e gone =>
      cases h
      exact .inl ⟨rfl, _, rfl⟩

/-! ### With something behind the last name -/

section Tails

variable {k : Kernel} {t t' : FileTree Bytes} {p q : Path} {b c : Path.Tail} {f : Fault}

theorem walk_from_ok {α : Type} {w : Option (Except Errno α)} {a : α}
    (h : walk_from k t p b w = some (.ok a)) :
    w = some (.ok a) ∧ (b = .none ∨ k.is_dir t p = true) := by
  unfold walk_from at h
  split at h
  · rename_i hc
    exact ⟨h, hc⟩
  · cases h

/-- What is renamed by such a path is a directory. -/
theorem rename_at_ok (h : rename k t p q (f.rename_at k t p b q c) = .ok t') :
    (b = .none ∧ c = .none) ∨ b ≠ .dot ∧ c ≠ .dot ∧ k.lstat t p = some .dir := by
  by_cases hbc : b = .none ∧ c = .none
  · exact .inl hbc
  refine .inr ?_
  have hr := rename_ok h
  unfold rename Fault.rename_at at h
  rw [if_neg hbc] at h
  split at h
  · cases h
  · rename_i hf
    split at hf
    · rename_i he
      rw [he] at hf
      cases hf
    · rename_i he
      rw [he] at hr
      cases hr
    · obtain ⟨d, n, d', n', e, hs, hs', he, -⟩ := Kernel.rename_spec hr
      rw [if_neg (by simp [hs, hs'])] at hf
      split at hf
      · cases hf
      · rename_i hb
        split at hf
        · cases hf
        · rename_i hc
          split at hf
          · rename_i hl
            -- what was renamed was there
            refine ⟨hb, hc, hl.resolve_left fun hn => ?_⟩
            rw [Kernel.lstat_eq, Kernel.entry_at_of_slot hs, Option.bind_some, he] at hn
            cases hn
          · cases hf

theorem errno_of_rename_at (h : rename k t p q (f.rename_at k t p b q c) = .ok t') :
    f.errno = none := by
  by_contra hf
  obtain ⟨e, he⟩ := Option.ne_none_iff_exists'.mp hf
  have hsame : f.rename_at k t p b q c = f := by
    unfold Fault.rename_at
    split
    · rfl
    · rw [he]
  rw [hsame, rename, he] at h
  cases h

theorem remove_file_at_ok (h : remove_file k t p (f.remove_file_at k t p b) = .ok t') :
    b = .none := by
  by_contra hb
  have hr := remove_file_ok h
  unfold remove_file Fault.remove_file_at at h
  rw [if_neg hb] at h
  split at h
  · cases h
  · rename_i hf
    split at hf
    · rename_i he
      rw [he] at hf
      cases hf
    · split at hf
      · cases hf
      · split at hf
        · rename_i hl
          obtain ⟨d, n, e, hs, he, -⟩ := Kernel.remove_file_spec hr
          rw [Kernel.lstat_eq, Kernel.entry_at_of_slot hs, Option.bind_some, he] at hl
          cases hl
        · cases hf

theorem remove_dir_at_ok (h : remove_dir k t p (f.remove_dir_at k t p b) = .ok t') : b ≠ .dot := by
  intro hb
  unfold remove_dir Fault.remove_dir_at at h
  rw [if_pos hb] at h
  split at h
  · cases h
  · rename_i hf
    split at hf
    · rename_i he
      rw [he] at hf
      cases hf
    · cases hf

/-- What is copied to such a path is not copied. -/
theorem copy_file_at_ok {m : Nat}
    (h : copy_file k t p q (f.copy_file_at k t p b q c) = (t', .ok m)) : b = .none ∧ c = .none := by
  rcases copy_file_spec h with ⟨-, e, he⟩ | ⟨l, d, n, bs, hs, hp, -, -, -, hok⟩
  · cases he
  obtain ⟨x, hx, -⟩ := hok m rfl
  have herr : ∀ e, copy_file k t p q (.error e) ≠ (t', .ok m) := fun e he => by cases he
  unfold Fault.copy_file_at at h
  split at h
  · exact absurd h (herr _)
  · cases h
  · rename_i hn
    rw [hs] at hn
    cases hn
  · rename_i y _ _ hy
    obtain rfl : l = y := Option.some.inj (hs.symm.trans hy)
    split at h
    · exact absurd h (herr _)
    · rename_i hb
      split at h
      · refine ⟨?_, rfl⟩
        by_contra hne
        exact hb ⟨hne, by simp [hx]⟩
      · rw [if_neg (by rw [hp]; exact Option.some_ne_none _)] at h
        exact absurd h (herr _)
      · exact absurd h (herr _)

/-- With a tail the entry is what the path leads to. -/
theorem entry_at_tailed (hl : k.lstat t p = some .dir) :
    k.entry_at t (p.tailed b) = k.entry_at t p := by
  by_cases hb : b = .none
  · rw [hb, Path.tailed_none]
  · obtain ⟨l, he, hg⟩ := Option.bind_eq_some_iff.mp ((k.lstat_eq t p).symm.trans hl)
    have hs : k.stat t p = some l := by
      cases hslot : k.slot t p with
      | none => exact Kernel.entry_at_of_no_slot he hslot
      | some s =>
          obtain ⟨d, n⟩ := s
          rw [Kernel.entry_at_of_slot hslot] at he
          cases he
          obtain ⟨q, rfl, hq, -⟩ := Kernel.slot_spec hslot
          exact Kernel.stat_child_of_get hq hg (by simp)
    rw [Path.tailed_of_ne hb, Kernel.entry_at_dotted, he]
    exact Kernel.stat_dotted_eq_some.mpr ⟨hs, hg⟩

/-- Where a rename goes through, what is behind the last name of the destination makes no
difference to whether something was there. -/
theorem not_exists_of_rename_at (hx : k.exists_ t (q.tailed c) = false)
    (h : rename k t p q (f.rename_at k t p b q c) = .ok t') : k.exists_ t q = false := by
  rcases rename_at_ok h with ⟨-, rfl⟩ | ⟨-, -, hdir⟩
  · rwa [Path.tailed_none] at hx
  obtain ⟨d, n, d', n', e, hs, hs', he, -, -, hcase⟩ := Kernel.rename_spec (rename_ok h)
  rw [Kernel.lstat_eq, Kernel.entry_at_of_slot hs, Option.bind_some, he] at hdir
  obtain rfl := Option.some.inj hdir
  obtain ⟨q', rfl, hq, -⟩ := Kernel.slot_spec hs'
  have hfree : t.get (d' ++ [n']) ≠ some .dir := by
    intro hg
    have hst := Kernel.stat_child_of_get hq hg (by simp)
    have : k.is_dir t ((q'.child n').tailed c) = true :=
      (Kernel.is_dir_tailed k t _ c).trans (Kernel.is_dir_iff.mpr ⟨_, hst, hg⟩)
    obtain ⟨x, hst', -⟩ := Kernel.is_dir_iff.mp this
    rw [Kernel.exists_, hst'] at hx
    cases hx
  -- a directory takes the place of nothing, or of an empty directory
  have hnone : t.get (d' ++ [n']) = none := by
    rcases hcase with ⟨hsame, -⟩ | ⟨-, -, hto, -⟩
    · rw [hsame] at he
      exact absurd he hfree
    · exact (hto rfl).resolve_right fun hd => hfree hd.1
  rw [Kernel.exists_, Kernel.stat_child, hq, Option.bind_some, FileTree.walk_normal, hnone]
  rfl

/-- `remove_dir_all` forgets some of what is at or below the entry that is looked at,
and nothing else. -/
theorem remove_dir_all_at_get (k : Kernel) (t : FileTree Bytes) (p : Path) (b : Path.Tail)
    (f : Fault) (x : Loc) :
    (remove_dir_all_at k t p b f).1.get x = t.get x ∨
      ((remove_dir_all_at k t p b f).1.get x = none ∧
        ∃ l, k.entry_at t (p.tailed b) = some l ∧ l <+: x) := by
  unfold remove_dir_all_at
  split
  · rename_i hc
    rcases remove_dir_all_get k t p f x with h | ⟨h, l, hl, hlx⟩
    · exact .inl h
    · refine .inr ⟨h, l, ?_, hlx⟩
      rcases hc with rfl | ⟨-, hd⟩
      · exact hl
      · rwa [entry_at_tailed hd]
  · rename_i hc
    have hb : b ≠ .none := fun hb => hc (.inl hb)
    rw [Path.tailed_of_ne hb]
    exact remove_dir_all_get k t p.dotted f x

end Tails

end WebDavs.Mover
