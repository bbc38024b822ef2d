/-
`src/bin/file-mover.rs`: what the handlers decide before any work starts.

`handle_move_copy` works out the destination, refuses what it refuses, and
registers a job unless one for the same work is already there. `handle_rename`
works out its destination and renames on the spot. Both look at the tree as it is
when the request is handled; what they decide may be acted on much later.
-/
import WebDavs.Job

set_option autoImplicit false

namespace WebDavs.Mover

open WebDavs.Posix

/-- The `strategy` of a request. Any text but these three counts as none. -/
inductive Strategy where
  | none
  | merge
  | overwrite
  | rename
deriving DecidableEq, Repr

/-- Why `handle_move_copy` turns a request away. -/
inductive Refusal where
  | bad_path
  | same
  | missing
  | conflict (dst : PathBuf)
deriving DecidableEq

/-- The first half of `handle_move_copy`: the destination it settles on. -/
def resolve (k : Kernel) (t : FileTree Bytes) (src dst : PathBuf) (strategy : Strategy) :
    Except Refusal PathBuf :=
  if src.text = "" ∨ dst.text = "" then .error .bad_path
  else
    let final_dst := dest_for k t src dst
    if src.path = final_dst.path then .error .same
    else if k.exists_ t src.full = false then .error .missing
    else if k.exists_ t final_dst.full then
      match strategy with
      | .rename => .ok (free_dst k t final_dst)
      | .merge => .ok final_dst
      | .overwrite => .ok final_dst
      | .none => .error (.conflict final_dst)
    else .ok final_dst

/-- Whether a registered job is already doing the work: a move of the same
source, or a copy of it to the same destination. -/
def duplicates (op : Op) (src dst : String) (j : Job) : Bool :=
  (j.status = .queued || j.status = .running) && j.op = op && j.src = src &&
    (op = .move || j.dst = dst)

/-- The job that `handle_move_copy` registers and spawns. -/
def spawn (h : Host) (op : Op) (src final_dst : PathBuf) : Runner :=
  .start h op src final_dst (.queued op src.text final_dst.text)

/-- Whether `handle_rename` takes `name` for a file name. -/
def valid_name (name : String) : Bool :=
  name ≠ "" && !name.toList.contains '/' && name ≠ "." && name ≠ ".."

/-- The destination of `handle_rename`, when it is free. -/
def rename_dst (k : Kernel) (t : FileTree Bytes) (src : Path) (name : String) : Option Path :=
  if valid_name name then
    match src.parent with
    | some parent => if k.exists_ t (parent.child name) then none else some (parent.child name)
    | none => none
  else none

/-- What is accepted without a strategy for existing files goes where nothing
is. -/
theorem resolve_free {k : Kernel} {t : FileTree Bytes} {src dst final_dst : PathBuf}
    (h : resolve k t src dst .none = .ok final_dst) :
    k.exists_ t src.full = true ∧ k.exists_ t final_dst.full = false := by
  unfold resolve at h
  split at h
  · cases h
  · dsimp only at h
    split at h
    · cases h
    · split at h
      · cases h
      · rename_i hsrc
        split at h
        · cases h
        · rename_i hdst
          cases h
          exact ⟨by simpa using hsrc, by simpa using hdst⟩

/-! ## A small machine

Enough of one to run a job on. -/

/-- A kernel that follows forty links, on one device. -/
def box : Kernel where
  links := 40
  cwd := []
  dev _ := 0

/-- One processor, and no mounts. -/
def box_host : Host where
  mounts := []
  cpus := some 1

/-- An absolute path of plain names, spelled the plain way. -/
def PathBuf.abs (r : List String) : PathBuf where
  path := .abs r
  text := "/" ++ String.intercalate "/" r
  tail := .none

end WebDavs.Mover
