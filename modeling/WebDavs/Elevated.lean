/-
The requests that the mover passes to its helper, and what it says about them.

A handler tries an operation itself, or does not even try when it has a password
for `sudo`, and then runs the helper. What it makes of the exit code and of the
JSON the helper prints differs from handler to handler. `sudo` runs the helper and
hands its exit code and its output through.

The handlers look at the tree as their own user sees it (`seen`), which is not the
tree that root sees: what lies behind a closed directory is not there for them.
What the environment does to the calls of a handler is a list of faults (`gs`),
refused permissions among them; what it does to those of the helper is another
(`fs`).
-/
import WebDavs.Replica

set_option autoImplicit false

namespace WebDavs.Sudo

open WebDavs.Posix WebDavs.Mover

/-! ## Running the helper -/

/-- That the helper was run: with which request, on which tree, and what its `run`
returned. -/
structure Elevation where
  req : Request
  before : FileTree Bytes
  result : Except String Json

/-- What comes back from `sudo`, and the tree as the helper left it. -/
structure Finished where
  rc : Int
  out : Json
  tree : FileTree Bytes
  ran : Elevation

/-- `sudo_run`: the helper's `main` prints what `run` returned, error or not, and
exits with 0. -/
def sudo_run (k : Kernel) (fuel : Nat) (t : FileTree Bytes) (fs : List Fault) (req : Request) :
    Option Finished :=
  (run k fuel t fs req).map fun o =>
    { rc := 0, out := printed o.2, tree := o.1, ran := ⟨req, t, o.2⟩ }

/-! ## Answers -/

/-- `json_resp`. -/
structure Reply where
  status : Nat
  body : Json

/-- The answer to a request, the tree after it, and the run of the helper if there
was one. -/
structure Answer where
  tree : FileTree Bytes
  reply : Reply
  ran : Option Elevation

/-- `{"ok": true, "dst": ..}`. -/
def ok_reply (dst : String) : Reply := ⟨200, .obj [("ok", .bool true), ("dst", .str dst)]⟩

/-- `sudo` did not do it. -/
def denied : Reply := ⟨403, .obj [("error", .str "permission denied / bad password")]⟩

/-- The mover may not, and has no password. -/
def wants_elevation : Reply :=
  ⟨403, .obj [("error", .str "permission denied"), ("elevation", .bool true)]⟩

/-- An error that a password does not help against. -/
def io_reply (e : Errno) : Reply := ⟨500, .obj [("error", .str (message e))]⟩

/-- A refusal of the handler itself. -/
def refused (status : Nat) (error : String) : Reply := ⟨status, .obj [("error", .str error)]⟩

/-- The answer to a request that `resolve` turns away. -/
def refusal : Refusal → Reply
  | .bad_path => refused 400 "bad path"
  | .same => refused 400 "source and destination are the same"
  | .missing => refused 404 "source missing"
  | .conflict dst =>
    ⟨409, .obj [("error", .str ("destination exists: " ++ dst.text)), ("conflict", .bool true),
      ("dst", .str dst.text)]⟩

/-! ## Handlers -/

/-- `handle_ls`, for a path that is already resolved. -/
def handle_ls (k : Kernel) (fuel : Nat) (t : FileTree Bytes) (sp : String) (gs fs : List Fault)
    (p : PathBuf) : Option Answer :=
  let listed := fun v : Json =>
    (⟨200, .obj [("path", .str p.text), ("entries", v.index "entries")]⟩ : Reply)
  match list_entries k t p.path (now gs) with
  | .ok v => some ⟨t, listed v, none⟩
  | .error .eacces =>
    if sp ≠ "" then
      (sudo_run k fuel t fs (.ls p)).map fun s =>
        ⟨s.tree, if s.rc = 0 then listed s.out else denied, some s.ran⟩
    else some ⟨t, wants_elevation, none⟩
  | .error e => some ⟨t, io_reply e, none⟩

/-- `handle_mkdir`. -/
def handle_mkdir (k : Kernel) (fuel : Nat) (t : FileTree Bytes) (sp : String)
    (gs fs : List Fault) (dst : PathBuf) : Option Answer :=
  match create_dir_all k t dst.path ((now gs).create_dir_all_at k t dst.path dst.tail) with
  | (t₁, none) => some ⟨t₁, ok_reply dst.text, none⟩
  | (t₁, some .eacces) =>
    if sp ≠ "" then
      (sudo_run k fuel t₁ fs (.mkdir dst)).map fun s =>
        ⟨s.tree, if s.rc = 0 then ok_reply dst.text else denied, some s.ran⟩
    else some ⟨t₁, wants_elevation, none⟩
  | (t₁, some e) => some ⟨t₁, io_reply e, none⟩

/-- `let _ = remove_file(..)`. -/
def discard (k : Kernel) (t : FileTree Bytes) (p : PathBuf) (f : Fault) : FileTree Bytes :=
  match remove_file k t p.path (f.remove_file_at k t p.path p.tail) with
  | .ok t' => t'
  | .error _ => t

/-- The end of `handle_put`, where the mover may not write to `dst`. -/
def put_elevated (k : Kernel) (fuel : Nat) (t : FileTree Bytes) (sp : String) (f : Fault)
    (fs : List Fault) (dst tmp : PathBuf) : Option Answer :=
  if sp ≠ "" then
    (sudo_run k fuel t fs (.put dst tmp)).map fun s =>
      if s.rc = 0 then ⟨s.tree, ok_reply dst.text, some s.ran⟩
      else ⟨discard k s.tree tmp f, denied, some s.ran⟩
  else some ⟨discard k t tmp f, wants_elevation, none⟩

/-- `handle_put`, from where the body is in the temporary file `tmp`. -/
def handle_put (k : Kernel) (fuel : Nat) (t : FileTree Bytes) (sp : String) (gs fs : List Fault)
    (dst tmp : PathBuf) : Option Answer :=
  let t₁ := (make_parent k t dst.path (now gs)).1
  let last := now gs.tail.tail.tail
  match Mover.rename k t₁ tmp.path dst.path
      ((now gs.tail).rename_at k t₁ tmp.path tmp.tail dst.path dst.tail) with
  | .ok t' => some ⟨t', ok_reply dst.text, none⟩
  | .error .exdev =>
    match copy_file k t₁ tmp.path dst.path
        ((now gs.tail.tail).copy_file_at k t₁ tmp.path tmp.tail dst.path dst.tail) with
    | (t₂, .ok _) => some ⟨discard k t₂ tmp last, ok_reply dst.text, none⟩
    | (t₂, .error .eacces) => put_elevated k fuel t₂ sp last fs dst tmp
    | (t₂, .error e) => some ⟨discard k t₂ tmp last, io_reply e, none⟩
  | .error .eacces => put_elevated k fuel t₁ sp last fs dst tmp
  | .error e => some ⟨discard k t₁ tmp last, io_reply e, none⟩

/-- What `handle_move_copy` makes of the helper's output: a destination in it is
looked for before a conflict is. -/
def transfer_reply (is_move : Bool) (rc : Int) (out : Json) : Reply :=
  if rc = 0 then
    match (out.get "dst").bind Json.as_str with
    | some d =>
      ⟨200, .obj [("ok", .bool true), ("op", .str (if is_move then "move" else "copy")),
        ("dst", .str d)]⟩
    | none =>
      if (out.get "conflict").isSome then
        ⟨409, .obj [("error", .str "destination exists"), ("conflict", .bool true),
          ("dst", .str (((out.get "dst").bind Json.as_str).getD ""))]⟩
      else denied
  else denied

/-- `handle_move_copy` with a password. -/
def handle_move_copy (k : Kernel) (fuel : Nat) (seen t : FileTree Bytes) (fs : List Fault)
    (is_move : Bool) (src dst : PathBuf) (strategy : Strategy) : Option Answer :=
  match resolve k seen src dst strategy with
  | .error r => some ⟨t, refusal r, none⟩
  | .ok final_dst =>
    (sudo_run k fuel t fs (.transfer is_move src final_dst strategy)).map fun s =>
      ⟨s.tree, transfer_reply is_move s.rc s.out, some s.ran⟩

/-- What `handle_rename` makes of the helper's output. -/
def rename_reply (rc : Int) (out : Json) : Reply :=
  if rc = 0 then
    match (out.get "dst").bind Json.as_str with
    | some d => ok_reply d
    | none => denied
  else denied

/-- `handle_rename`, for a source that is already resolved. -/
def handle_rename (k : Kernel) (fuel : Nat) (seen t : FileTree Bytes) (sp : String)
    (gs fs : List Fault) (src : PathBuf) (name : String) : Option Answer :=
  if src.text = "" ∨ valid_name name = false then some ⟨t, refused 400 "invalid name", none⟩
  else
    match src.path.parent with
    | none => some ⟨t, refused 400 "no parent", none⟩
    | some _ =>
      let dst := src.parent_or_empty.join name
      if k.exists_ seen dst.full then
        some ⟨t, refused 409 ("destination exists: " ++ dst.text), none⟩
      else
        match Mover.rename k t src.path dst.path
            ((now gs).rename_at k t src.path src.tail dst.path dst.tail) with
        | .ok t' => some ⟨t', ok_reply dst.text, none⟩
        | .error .eacces =>
          if sp ≠ "" then
            (sudo_run k fuel t fs (.rename src name)).map fun s =>
              ⟨s.tree, rename_reply s.rc s.out, some s.ran⟩
          else some ⟨t, wants_elevation, none⟩
        | .error e => some ⟨t, io_reply e, none⟩

/-- What `handle_delete` makes of the helper's output. -/
def delete_reply (rc : Int) (out : Json) : Reply :=
  if rc = 0 ∧ (out.get "ok").isSome then ⟨200, .obj [("ok", .bool true)]⟩ else denied

/-- `handle_delete` with a password, for a path that is already resolved. -/
def handle_delete (k : Kernel) (fuel : Nat) (seen t : FileTree Bytes) (fs : List Fault)
    (src : PathBuf) : Option Answer :=
  if src.text = "" then some ⟨t, refused 400 "bad request", none⟩
  else if k.lstat seen src.full = none then some ⟨t, refused 404 (message (k.why seen src.full)), none⟩
  else
    (sudo_run k fuel t fs (.delete src)).map fun s =>
      ⟨s.tree, delete_reply s.rc s.out, some s.ran⟩

/-- The handler of a request. -/
def handle (k : Kernel) (fuel : Nat) (seen t : FileTree Bytes) (sp : String)
    (gs fs : List Fault) : Request → Option Answer
  | .ls p => handle_ls k fuel t sp gs fs p
  | .transfer is_move src dst strategy => handle_move_copy k fuel seen t fs is_move src dst strategy
  | .rename src name => handle_rename k fuel seen t sp gs fs src name
  | .mkdir dst => handle_mkdir k fuel t sp gs fs dst
  | .delete src => handle_delete k fuel seen t fs src
  | .put dst tmp => handle_put k fuel t sp gs fs dst tmp

/-! ## Truthful answers -/

/-- **A truthful answer** to a request that was passed to the helper: 200 only if
`run` returned `Ok` and the operation took effect, and an error status whenever
`run` returned `Err`. -/
def Truthful (k : Kernel) (a : Answer) : Prop :=
  ∀ e, a.ran = some e →
    (a.reply.status = 200 →
      (∃ v, e.result = .ok v) ∧ TookEffect k e.before a.tree a.reply.body e.req) ∧
    ∀ m, e.result = .error m → 400 ≤ a.reply.status

/-- A directory that only root can enter, with a file in it. -/
def vault : FileTree Bytes := (FileTree.empty.with_ [] "d" .dir).with_ ["d"] "f" (.file [1])

-- a file that is copied onto a link to itself is empty then, and the answer is 200
example : ∃ a, handle box 9 (FileTree.empty.with_ [] "s" (.file [2]))
        ((vault.with_ [] "s" (.file [2])).with_ ["d"] "l" (.symlink (.abs ["s"]))) "secret" [] []
        (.transfer false (.abs ["s"]) (.abs ["d", "l"]) .overwrite) = some a ∧
      a.reply.status = 200 ∧ a.tree.get ["s"] = some (.file []) :=
  ⟨_, rfl, rfl, rfl⟩

-- a destination that only the helper can see is left alone, and the answer is 200 too
example : ∃ a, handle box 9 (FileTree.empty.with_ [] "s" (.file [2])) (vault.with_ [] "s" (.file [2]))
        "secret" [] [] (.transfer true (.abs ["s"]) (.abs ["d", "f"]) .none) = some a ∧
      a.reply.status = 200 ∧ a.tree.get ["s"] = some (.file [2]) ∧
      a.tree.get ["d", "f"] = some (.file [1]) :=
  ⟨_, rfl, rfl, rfl, rfl⟩

end WebDavs.Sudo
