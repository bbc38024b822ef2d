/-
`src/bin/file-mover-sudo.rs`: the helper that does an operation as root.

The helper reads one request, carries it out and prints one JSON value, an error
as `{"error": ..}`; it exits with code 0 either way. `dest_for`, `free_dst` and
`copy_file` are the mover's, line for line, and are not written down twice.

The calls of a run meet the faults of a list, one each and in order, and none once
the list is used up. `copy_recursive` reads directories that it may be writing to,
and need not end; `fuel` bounds how deep it goes and `none` means that it was not
enough.
-/
import WebDavs.Handlers
import WebDavs.Posix.Lasting

set_option autoImplicit false

namespace WebDavs.Sudo

open WebDavs.Posix WebDavs.Mover

/-! ## What is printed -/

/-- `serde_json::Value`, with numbers that are never negative. -/
inductive Json where
  | null
  | bool (b : Bool)
  | num (n : Nat)
  | str (s : String)
  | arr (items : List Json)
  | obj (fields : List (String × Json))

namespace Json

/-- `Value::get`. -/
def get (v : Json) (key : String) : Option Json :=
  match v with
  | obj fields => (fields.find? fun f => f.1 = key).map Prod.snd
  | _ => none

/-- `v[key]`: null where there is nothing. -/
def index (v : Json) (key : String) : Json := (v.get key).getD null

/-- `Value::as_str`. -/
def as_str : Json → Option String
  | str s => some s
  | _ => none

end Json

/-- `io::Error` as it is displayed. -/
def message : Errno → String
  | .enoent => "No such file or directory (os error 2)"
  | .eexist => "File exists (os error 17)"
  | .enotdir => "Not a directory (os error 20)"
  | .eisdir => "Is a directory (os error 21)"
  | .enotempty => "Directory not empty (os error 39)"
  | .einval => "Invalid argument (os error 22)"
  | .ebusy => "Device or resource busy (os error 16)"
  | .exdev => "Invalid cross-device link (os error 18)"
  | .eloop => "Too many levels of symbolic links (os error 40)"
  | .eio => "Input/output error (os error 5)"
  | .eacces => "Permission denied (os error 13)"
  | .enospc => "No space left on device (os error 28)"

/-! ## Looking at a directory -/

/-- `std::fs::read_dir`: the names in a directory. -/
def read_dir (k : Kernel) (t : FileTree Bytes) (p : Path) (f : Fault) : Except Errno (List String) :=
  match f.errno with
  | some e => .error e
  | none =>
    match k.stat t p with
    | none => .error (k.why t p)
    | some l => if t.get l = some .dir then .ok (t.children l) else .error .enotdir

/-- One entry of a listing. -/
def entry_json (name : String) (e : Entry Bytes) : Json :=
  .obj [("name", .str name), ("is_dir", .bool (e = .dir)), ("size", .num (size e)),
    ("mtime", .num 0), ("link", .bool (match e with | .symlink _ => true | _ => false))]

/-- The entries of a listing, by name. -/
def entries (k : Kernel) (t : FileTree Bytes) (p : Path) (names : List String) : List Json :=
  (names.mergeSort fun a b => decide (a ≤ b)).filterMap fun name =>
    (k.lstat t (p.child name)).map (entry_json name)

/-- `list_entries`. -/
def list_entries (k : Kernel) (t : FileTree Bytes) (p : Path) (f : Fault) : Except Errno Json :=
  (read_dir k t p f).map fun names => .obj [("entries", .arr (entries k t p names))]

/-! ## Copying and removing trees -/

/-- The fault the next call meets. -/
def now (fs : List Fault) : Fault := fs.headD .none

/-- What part of a run comes to: the tree, the faults that are left, and the
result. -/
abbrev Outcome := FileTree Bytes × List Fault × Except Errno Unit

/-- The loop over a directory: each name read may be an error, and the first
error ends it. -/
def copy_each (copy : String → FileTree Bytes → List Fault → Option Outcome) :
    List String → FileTree Bytes → List Fault → Option Outcome
  | [], t, fs => some (t, fs, .ok ())
  | n :: ns, t, fs =>
    match (now fs).errno with
    | some e => some (t, fs.tail, .error e)
    | none =>
      match copy n t fs.tail with
      | none => none
      | some (t', fs', .error e) => some (t', fs', .error e)
      | some (t', fs', .ok _) => copy_each copy ns t' fs'

/-- `copy_recursive`. -/
def copy_recursive (k : Kernel) :
    Nat → Path → Path → FileTree Bytes → List Fault → Option Outcome
  | 0, _, _, _, _ => none
  | fuel + 1, src, dst, t, fs =>
    if k.is_dir t src then
      match create_dir_all k t dst (now fs) with
      | (t₁, some e) => some (t₁, fs.tail, .error e)
      | (t₁, none) =>
        match read_dir k t₁ src (now fs.tail) with
        | .error e => some (t₁, fs.tail.tail, .error e)
        | .ok names =>
          copy_each (fun n => copy_recursive k fuel (src.child n) (dst.child n)) names t₁
            fs.tail.tail
    else
      match copy_file k t src dst (now fs) with
      | (t', .error e) => some (t', fs.tail, .error e)
      | (t', .ok _) => some (t', fs.tail, .ok ())

/-- The faults of a `copy_recursive` between two paths with what is behind their last
names: its first call is the one that is about them. -/
def copy_faults (k : Kernel) (t : FileTree Bytes) (src dst : PathBuf) (fs : List Fault) :
    List Fault :=
  (if k.is_dir t src.path then (now fs).create_dir_all_at k t dst.path dst.tail
    else (now fs).copy_file_at k t src.path src.tail dst.path dst.tail) :: fs.tail

/-- `remove_recursive`. -/
def remove_recursive (k : Kernel) (t : FileTree Bytes) (p : PathBuf) (f : Fault) :
    FileTree Bytes × Option Errno :=
  if k.is_dir t p.path then remove_dir_all_at k t p.path p.tail f
  else
    match remove_file k t p.path (f.remove_file_at k t p.path p.tail) with
    | .ok t' => (t', none)
    | .error e => (t, some e)

/-! ## The operations -/

/-- What the helper is asked to do. -/
inductive Request where
  | ls (p : PathBuf)
  | transfer (is_move : Bool) (src dst : PathBuf) (strategy : Strategy)
  | rename (src : PathBuf) (name : String)
  | mkdir (dst : PathBuf)
  | delete (src : PathBuf)
  | put (dst tmp : PathBuf)

/-- Where a move or a copy goes, or the destination that is in the way. -/
def settle (k : Kernel) (t : FileTree Bytes) (src dst : PathBuf) (strategy : Strategy) :
    Except PathBuf PathBuf :=
  let dst := dest_for k t src dst
  if k.exists_ t dst.full then
    match strategy with
    | .rename => .ok (free_dst k t dst)
    | .merge => .ok dst
    | .overwrite => .ok dst
    | .none => .error dst
  else .ok dst

/-- `{"dst": ..}`. -/
def done (dst : String) : Json := .obj [("dst", .str dst)]

/-- The report that a destination is taken. -/
def conflict (dst : PathBuf) : Json :=
  .obj [("conflict", .bool true), ("dst", .str dst.text),
    ("error", .str ("destination exists: " ++ dst.text))]

/-- The work of `"move"` once the destination is settled. -/
def carry_move (k : Kernel) (fuel : Nat) (src dst : PathBuf) (t : FileTree Bytes) (fs : List Fault) :
    Option (FileTree Bytes × Option Errno) :=
  match Mover.rename k t src.path dst.path
      ((now fs).rename_at k t src.path src.tail dst.path dst.tail) with
  | .ok t' => some (t', none)
  | .error .exdev =>
    match copy_recursive k fuel src.path dst.path t (copy_faults k t src dst fs.tail) with
    | none => none
    | some (t', _, .error e) => some (t', some e)
    | some (t', fs', .ok _) => some (remove_recursive k t' src (now fs'))
  | .error e => some (t, some e)

/-- The work of `"copy"`. -/
def carry_copy (k : Kernel) (fuel : Nat) (src dst : PathBuf) (t : FileTree Bytes) (fs : List Fault) :
    Option (FileTree Bytes × Option Errno) :=
  (copy_recursive k fuel src.path dst.path t (copy_faults k t src dst fs)).map fun o =>
    (o.1, match o.2.2 with | .ok _ => none | .error e => some e)

/-- The directories above the destination of `"put"`. -/
def make_parent (k : Kernel) (t : FileTree Bytes) (dst : Path) (f : Fault) :
    FileTree Bytes × Option Errno :=
  match dst.parent with
  | some parent => create_dir_all k t parent f
  | none => (t, none)

/-- The result of the last call of an operation. -/
def report (v : Json) (o : FileTree Bytes × Option Errno) :
    FileTree Bytes × Except String Json :=
  match o with
  | (t, none) => (t, .ok v)
  | (t, some e) => (t, .error (message e))

/-- `run`. -/
def run (k : Kernel) (fuel : Nat) (t : FileTree Bytes) (fs : List Fault) :
    Request → Option (FileTree Bytes × Except String Json)
  | .ls p => some (t, (list_entries k t p.path (now fs)).mapError message)
  | .transfer is_move src dst strategy =>
    match settle k t src dst strategy with
    | .error dst => some (t, .ok (conflict dst))
    | .ok dst =>
      if is_move then (carry_move k fuel src dst t fs).map (report (done dst.text))
      else (carry_copy k fuel src dst t fs).map (report (done dst.text))
  | .rename src name =>
    match src.path.parent with
    | none => some (t, .error "no parent")
    | some _ =>
      let dst := src.parent_or_empty.join name
      if k.exists_ t dst.full then some (t, .error ("destination exists: " ++ dst.text))
      else
        match Mover.rename k t src.path dst.path
            ((now fs).rename_at k t src.path src.tail dst.path dst.tail) with
        | .ok t' => some (t', .ok (done dst.text))
        | .error e => some (t, .error (message e))
  | .mkdir dst =>
    some (report (done dst.text)
      (create_dir_all k t dst.path ((now fs).create_dir_all_at k t dst.path dst.tail)))
  | .delete src =>
    match k.lstat t src.full with
    | none => some (t, .error (message (k.why t src.full)))
    | some .dir =>
      some (report (.obj [("ok", .bool true)]) (remove_dir_all_at k t src.path src.tail (now fs)))
    | some _ =>
      match remove_file k t src.path ((now fs).remove_file_at k t src.path src.tail) with
      | .ok t' => some (t', .ok (.obj [("ok", .bool true)]))
      | .error e => some (t, .error (message e))
  | .put dst tmp =>
    match make_parent k t dst.path (now fs) with
    | (t₁, some e) => some (t₁, .error (message e))
    | (t₁, none) =>
      match copy_file k t₁ tmp.path dst.path
          ((now fs.tail).copy_file_at k t₁ tmp.path tmp.tail dst.path dst.tail) with
      | (t₂, .error e) => some (t₂, .error (message e))
      | (t₂, .ok _) =>
        -- `let _ = remove_file(tmp)`
        let t₃ := match remove_file k t₂ tmp.path
            ((now fs.tail.tail).remove_file_at k t₂ tmp.path tmp.tail) with
          | .ok t' => t'
          | .error _ => t₂
        some (t₃, .ok (done dst.text))

/-- What `main` prints. -/
def printed : Except String Json → Json
  | .ok v => v
  | .error e => .obj [("error", .str e)]

theorem read_dir_ok {k : Kernel} {t : FileTree Bytes} {p : Path} {f : Fault} {names : List String}
    (h : read_dir k t p f = .ok names) :
    ∃ l, k.stat t p = some l ∧ t.get l = some .dir ∧ names = t.children l := by
  unfold read_dir at h
  split at h
  · cases h
  · split at h
    · cases h
    · rename_i l hs
      split at h
      · rename_i hl
        cases h
        exact ⟨l, hs, hl, rfl⟩
      · cases h

end WebDavs.Sudo
