/-
Paths as `std::path::Path` sees them: lists of components.

Rust compares, joins and splits paths by their components, so that is the level
of this file: a path is what its `components()` iterator yields, with the root
component kept as a flag of its own. Repeated separators, `.` in the middle and
a trailing separator are gone by then; `..` and a leading `.` are not. Nothing
here looks at a file system; what a path *leads to* is `Resolve`.
-/
import Mathlib.Data.List.Infix

set_option autoImplicit false

namespace WebDavs.Posix

/-- `std::path::Component`, less the root (see `Path.root`) and the Windows
prefixes. -/
inductive Component where
  | curDir
  | parentDir
  | normal (name : String)
deriving DecidableEq, Repr

/-- A path, up to the equality `std::path::Path` itself uses. -/
structure Path where
  root : Bool
  comps : List Component
deriving DecidableEq, Repr

/-- A physical place in a tree: the names on the way down from the root. -/
abbrev Loc := List String

namespace Path

/-! ## Plain names -/

/-- The components of a path of plain names. -/
def names (r : List String) : List Component := r.map Component.normal

@[simp] theorem names_nil : names [] = [] := rfl

@[simp] theorem names_cons (n : String) (r : List String) :
    names (n :: r) = Component.normal n :: names r := rfl

@[simp] theorem names_append (r s : List String) : names (r ++ s) = names r ++ names s := by
  simp only [names, List.map_append]

theorem names_injective : Function.Injective names :=
  List.map_injective_iff.mpr fun _ _ h => Component.normal.inj h

/-- The absolute path of plain names: `/a/b/c`. -/
def abs (r : List String) : Path := ⟨true, names r⟩

/-! ## Joining

The second argument of a `join` in this development is a file name or a path of
file names, so the two cases that need care in general -- an absolute second
path, a leading `.` in it -- do not come up. -/

/-- `p.join(name)` for a file name. -/
def child (p : Path) (n : String) : Path := ⟨p.root, p.comps ++ [.normal n]⟩

/-- `p.join(rel)` for a relative path of file names. -/
def down (p : Path) (r : List String) : Path := ⟨p.root, p.comps ++ names r⟩

@[simp] theorem down_nil (p : Path) : p.down [] = p := by
  simp only [down, names_nil, List.append_nil]

@[simp] theorem down_down (p : Path) (r s : List String) : (p.down r).down s = p.down (r ++ s) := by
  simp only [down, names_append, List.append_assoc]

theorem child_eq_down (p : Path) (n : String) : p.child n = p.down [n] := rfl

@[simp] theorem down_child (p : Path) (r : List String) (n : String) :
    (p.down r).child n = p.down (r ++ [n]) := by
  rw [child_eq_down, down_down]

@[simp] theorem child_down (p : Path) (n : String) (r : List String) :
    (p.child n).down r = p.down (n :: r) := by
  rw [child_eq_down, down_down, List.singleton_append]

theorem down_injective (p : Path) : Function.Injective p.down := by
  intro r s h
  have hc : p.comps ++ names r = p.comps ++ names s := congrArg Path.comps h
  exact names_injective (List.append_cancel_left hc)

/-! ## What is written behind the last name

Two paths that differ in it alone are equal to `std::path::Path`, but not to the
kernel: a `/` or a `/.` at the end asks for a directory, and a link in front of it
is followed. -/

/-- What is written behind the last name of a path: nothing, separators, or a `.`
between them. -/
inductive Tail where
  | none
  | slash
  | dot
deriving DecidableEq, Repr

/-- `p/.`, with the `.` as a component of its own. -/
def dotted (p : Path) : Path := ⟨p.root, p.comps ++ [.curDir]⟩

/-- What is looked at when `p` is looked at, with what is written behind it. -/
def tailed (p : Path) (b : Tail) : Path := if b = .none then p else p.dotted

@[simp] theorem tailed_none (p : Path) : p.tailed .none = p := rfl

theorem tailed_of_ne {p : Path} {b : Tail} (h : b ≠ .none) : p.tailed b = p.dotted := if_neg h

/-! ## Splitting -/

/-- `Path::parent`: nothing above the root, nothing above the empty path. -/
def parent (p : Path) : Option Path :=
  if p.comps = [] then none else some ⟨p.root, p.comps.dropLast⟩

/-- `Path::file_name`: the last component when it is a plain name. -/
def file_name (p : Path) : Option String :=
  match p.comps.getLast? with
  | some (.normal n) => some n
  | _ => none

@[simp] theorem parent_child (p : Path) (n : String) : (p.child n).parent = some p := by
  simp [parent, child]

@[simp] theorem file_name_child (p : Path) (n : String) : (p.child n).file_name = some n := by
  simp [file_name, child]

theorem parent_down_concat (p : Path) (r : List String) (n : String) :
    (p.down (r ++ [n])).parent = some (p.down r) := by
  rw [← down_child, parent_child]

theorem file_name_down_concat (p : Path) (r : List String) (n : String) :
    (p.down (r ++ [n])).file_name = some n := by
  rw [← down_child, file_name_child]

/-- A path whose last component is a name is its parent joined with that
name. -/
theorem eq_child_of_getLast {p : Path} {n : String} (h : p.comps.getLast? = some (.normal n)) :
    p = Path.child ⟨p.root, p.comps.dropLast⟩ n := by
  obtain ⟨b, cs⟩ := p
  rcases List.eq_nil_or_concat cs with rfl | ⟨cs, c, rfl⟩
  · simp at h
  · simp_all [child]

theorem eq_child_of_file_name {p : Path} {n : String} (h : p.file_name = some n) :
    p = Path.child ⟨p.root, p.comps.dropLast⟩ n := by
  refine eq_child_of_getLast ?_
  unfold file_name at h
  split at h <;> simp_all

/-- Split a file name at its last dot, as `rsplit_file_at_dot`: the part before
it, and the part after it unless there is no dot or only a leading one. -/
def splitDot (cs : List Char) : List Char × Option (List Char) :=
  let after := (cs.reverse.takeWhile (· ≠ '.')).reverse
  let before := (cs.reverse.dropWhile (· ≠ '.')).reverse.dropLast
  if before = [] then (cs, none) else (before, some after)

/-- `Path::file_stem().unwrap_or_default()`. -/
def file_stem (p : Path) : String :=
  match p.file_name with
  | some n => String.ofList (splitDot n.toList).1
  | none => ""

/-- `Path::extension()`. -/
def extension (p : Path) : Option String :=
  match p.file_name with
  | some n => (splitDot n.toList).2.map String.ofList
  | none => none

example : (abs ["a.tar.gz"]).file_stem = "a.tar" ∧ (abs [".bashrc"]).extension = none := by
  decide

/-- `Path::strip_prefix`, by components. -/
def strip_prefix (base p : Path) : Option Path :=
  if base.root = p.root ∧ base.comps <+: p.comps then
    some ⟨false, p.comps.drop base.comps.length⟩
  else none

/-- `p.starts_with(base)`, by components. -/
def starts_with (p base : Path) : Bool := decide (base.root = p.root ∧ base.comps <+: p.comps)

theorem starts_with_abs {l r : Loc} : (abs l).starts_with (abs r) = true ↔ r <+: l := by
  simp only [starts_with, abs, true_and, decide_eq_true_eq]
  constructor
  · intro h
    obtain ⟨s, hs, he⟩ := List.prefix_map_iff.mp h
    rwa [names_injective he]
  · intro h
    exact h.map Component.normal

end Path

end WebDavs.Posix
