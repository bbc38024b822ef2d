/-
The mover as a whole: its request handlers, the registry of jobs, the jobs.

A handler of `/api/move` and `/api/copy` settles on a destination, takes a number
from `NEXT_ID`, then looks for a job that does the same work and registers a new
one, both under the lock of `JOBS`, and starts a thread. A handler of
`/api/delete` does the same without the look. A handler of `/api/rename` checks
its destination and then renames. Each event below is one call of one handler or
of one thread, so that requests and jobs interleave in every way they can.

A job's record is in the registry, under the job's number, and a thread works on
the record it finds there (`job_update`).
-/
import WebDavs.Delete

set_option autoImplicit false

namespace WebDavs.Mover

open WebDavs.Posix

/-! ## The registry -/

/-- `JOBS`: the records and their numbers. -/
abbrev Registry := List (Nat × Job)

/-- `HashMap::get`. -/
def Registry.get (m : Registry) (id : Nat) : Option Job :=
  (m.find? fun x => x.1 = id).map Prod.snd

/-- `job_update`: a record that is not there is not updated. -/
def Registry.job_update (m : Registry) (id : Nat) (f : Job → Job) : Registry :=
  m.map fun x => if x.1 = id then (id, f x.2) else x

/-- `HashMap::insert`. -/
def Registry.insert (m : Registry) (id : Nat) (j : Job) : Registry :=
  if (m.get id).isSome then m.job_update id fun _ => j else m ++ [(id, j)]

/-! ## Threads -/

/-- What `run_job` and `run_delete_job` are at. -/
inductive Machine where
  | run (r : Runner)
  | erase (d : Deleter)
deriving DecidableEq

namespace Machine

/-- The record a thread works on. -/
def job : Machine → Job
  | run r => r.job
  | erase d => d.job

/-- The thread finds `j` in the registry. -/
def with_job (j : Job) : Machine → Machine
  | run r => run { r with job := j }
  | erase d => erase { d with job := j }

/-- One call of a thread. -/
def step (k : Kernel) (t : FileTree Bytes) (e : Event) : Machine → Option (FileTree Bytes × Machine)
  | run r => (r.step k t e).map fun x => (x.1, run x.2)
  | erase d => (d.step k t e).map fun x => (x.1, erase x.2)

end Machine

/-! ## Handlers -/

/-- What a handler answers in the end. -/
inductive Reply where
  | accepted (id : Nat)
  | deduped (id : Nat)
  | renamed (dst : Path)
  | failed (e : Errno)
deriving DecidableEq

/-- What a handler is about to do: take a number, register its job, start it; or
rename. -/
inductive Handler where
  | number (op : Op) (src dst : PathBuf)
  | register (op : Op) (src dst : PathBuf) (id : Nat)
  | launch (op : Op) (src dst : PathBuf) (id : Nat)
  | rename (src : PathBuf) (dst : Path)
  | replied (r : Reply)
deriving DecidableEq

/-- The mover: the tree it works on, `NEXT_ID`, `JOBS`, the handlers and the
threads with the numbers of their jobs. -/
structure Server where
  tree : FileTree Bytes
  next_id : Nat
  jobs : Registry
  handlers : List Handler
  threads : List (Nat × Machine)

/-- One call in the mover. `request` is a move or a copy that is not turned away;
where several jobs do the work asked for, `handler` says which of them the look
into the registry meets. -/
inductive Act where
  | request (op : Op) (src dst : PathBuf) (strategy : Strategy)
  | delete (src : PathBuf)
  | rename (src : PathBuf) (name : String)
  | handler (i : Nat) (found : Option Nat) (f : Fault)
  | thread (i : Nat) (e : Event)

namespace Server

/-- Before the first request. -/
def init (t : FileTree Bytes) : Server where
  tree := t
  next_id := 1
  jobs := []
  handlers := []
  threads := []

/-- A handler comes in. -/
def enter (s : Server) (c : Handler) : Server := { s with handlers := s.handlers ++ [c] }

/-- A handler has got further. -/
def goes (s : Server) (i : Nat) (c : Handler) : Server :=
  { s with handlers := s.handlers.set i c }

/-- The thread that does the work of a job. -/
def thread (h : Host) (op : Op) (src dst : PathBuf) : Machine :=
  if op = .delete then .erase (.start h src) else .run (spawn h op src dst)

/-- A thread goes on with the record that is in the registry. -/
def load (s : Server) (id : Nat) (m : Machine) : Machine :=
  match s.jobs.get id with
  | some j => m.with_job j
  | none => m

/-- One call of the handler `i`. -/
def handle (k : Kernel) (h : Host) (s : Server) (i : Nat) (found : Option Nat) (f : Fault) :
    Handler → Option Server
  | .number op src dst =>
    some ({ s with next_id := s.next_id + 1 }.goes i (.register op src dst s.next_id))
  | .register op src dst id =>
    let fresh := ({ s with
      jobs := s.jobs.insert id (.queued op src.text dst.text) }.goes i (.launch op src dst id))
    if op = .delete then some fresh
    else
      match found with
      | some eid =>
        match s.jobs.get eid with
        | some j =>
          if duplicates op src.text dst.text j then some (s.goes i (.replied (.deduped eid)))
          else none
        | none => none
      | none =>
        if s.jobs.any fun x => duplicates op src.text dst.text x.2 then none else some fresh
  | .launch op src dst id =>
    some ({ s with threads := s.threads ++ [(id, thread h op src dst)] }.goes i
      (.replied (.accepted id)))
  | .rename src dst =>
    match Mover.rename k s.tree src.path dst (f.rename_at k s.tree src.path src.tail dst .none) with
    | .ok t => some ({ s with tree := t }.goes i (.replied (.renamed dst)))
    | .error e => some (s.goes i (.replied (.failed e)))
  | .replied _ => none

/-- One call in the mover. -/
def step (k : Kernel) (h : Host) (s : Server) : Act → Option Server
  | .request op src dst strategy =>
    if op = .delete then none
    else
      match resolve k s.tree src dst strategy with
      | .ok final_dst => some (s.enter (.number op src final_dst))
      | .error _ => none
  | .delete src =>
    if (k.lstat s.tree src.full).isSome then
      some (s.enter (.number .delete src ⟨⟨false, []⟩, "", .none⟩))
    else none
  | .rename src name =>
    match rename_dst k s.tree src.path name with
    | some dst => some (s.enter (.rename src dst))
    | none => none
  | .handler i found f =>
    match s.handlers[i]? with
    | some c => handle k h s i found f c
    | none => none
  | .thread i e =>
    match s.threads[i]? with
    | some (id, m) =>
      ((s.load id m).step k s.tree e).map fun x => { s with
        tree := x.1
        jobs := s.jobs.job_update id fun _ => x.2.job
        threads := s.threads.set i (id, x.2) }
    | none => none

/-! ## The cases of a step -/

/-- What a call in the mover can come to. -/
inductive StepCase (k : Kernel) (h : Host) (s : Server) : Act → Server → Prop where
  | requested (op : Op) (src dst : PathBuf) (strategy : Strategy) (final_dst : PathBuf)
      (hop : op ≠ .delete) (hr : resolve k s.tree src dst strategy = .ok final_dst) :
      StepCase k h s (.request op src dst strategy) (s.enter (.number op src final_dst))
  | deleted (src : PathBuf) (hx : k.lstat s.tree src.full ≠ none) :
      StepCase k h s (.delete src) (s.enter (.number .delete src ⟨⟨false, []⟩, "", .none⟩))
  | rename_checked (src : PathBuf) (name : String) (dst : Path)
      (hr : rename_dst k s.tree src.path name = some dst) :
      StepCase k h s (.rename src name) (s.enter (.rename src dst))
  | numbered (i : Nat) (found : Option Nat) (f : Fault) (op : Op) (src dst : PathBuf)
      (hi : s.handlers[i]? = some (.number op src dst)) :
      StepCase k h s (.handler i found f)
        ({ s with next_id := s.next_id + 1 }.goes i (.register op src dst s.next_id))
  | registered (i : Nat) (found : Option Nat) (f : Fault) (op : Op) (src dst : PathBuf) (id : Nat)
      (hi : s.handlers[i]? = some (.register op src dst id))
      (hno : op = .delete ∨ ∀ x ∈ s.jobs, duplicates op src.text dst.text x.2 = false) :
      StepCase k h s (.handler i found f)
        ({ s with jobs := s.jobs.insert id (.queued op src.text dst.text) }.goes i
          (.launch op src dst id))
  | deduped (i : Nat) (f : Fault) (op : Op) (src dst : PathBuf) (id eid : Nat) (j : Job)
      (hi : s.handlers[i]? = some (.register op src dst id)) (hj : s.jobs.get eid = some j)
      (hd : duplicates op src.text dst.text j = true) :
      StepCase k h s (.handler i (some eid) f) (s.goes i (.replied (.deduped eid)))
  | launched (i : Nat) (found : Option Nat) (f : Fault) (op : Op) (src dst : PathBuf) (id : Nat)
      (hi : s.handlers[i]? = some (.launch op src dst id)) :
      StepCase k h s (.handler i found f)
        ({ s with threads := s.threads ++ [(id, thread h op src dst)] }.goes i
          (.replied (.accepted id)))
  | renamed (i : Nat) (found : Option Nat) (f : Fault) (src : PathBuf) (dst : Path)
      (t : FileTree Bytes) (hi : s.handlers[i]? = some (.rename src dst))
      (hr : k.rename s.tree src.path dst = .ok t) :
      StepCase k h s (.handler i found f) ({ s with tree := t }.goes i (.replied (.renamed dst)))
  | unrenamed (i : Nat) (found : Option Nat) (f : Fault) (src : PathBuf) (dst : Path) (e : Errno)
      (hi : s.handlers[i]? = some (.rename src dst)) :
      StepCase k h s (.handler i found f) (s.goes i (.replied (.failed e)))
  | worked (i : Nat) (e : Event) (id : Nat) (m : Machine) (x : FileTree Bytes × Machine)
      (hi : s.threads[i]? = some (id, m)) (hx : (s.load id m).step k s.tree e = some x) :
      StepCase k h s (.thread i e) { s with
        tree := x.1
        jobs := s.jobs.job_update id fun _ => x.2.job
        threads := s.threads.set i (id, x.2) }

theorem step_cases {k : Kernel} {h : Host} {s s' : Server} {a : Act}
    (hs : step k h s a = some s') : StepCase k h s a s' := by
  cases a with
  | request op src dst strategy =>
      simp only [step] at hs
      split at hs
      · cases hs
      · rename_i hop
        split at hs
        · rename_i final_dst hr
          cases hs
          exact .requested op src dst strategy final_dst hop hr
        · cases hs
  | delete src =>
      simp only [step] at hs
      split at hs
      · rename_i hx
        cases hs
        refine .deleted src fun h => ?_
        rw [h] at hx
        cases hx
      · cases hs
  | rename src name =>
      simp only [step] at hs
      split at hs
      · rename_i dst hr
        cases hs
        exact .rename_checked src name dst hr
      · cases hs
  | handler i found f =>
      simp only [step] at hs
      split at hs
      · rename_i c hi
        cases c with
        | number op src dst =>
            cases hs
            exact .numbered i found f op src dst hi
        | register op src dst id =>
            simp only [handle] at hs
            -- a deletion is registered at once; a move or a copy takes the job it was told
            -- of, or registers its own when none will do
            split at hs
            · rename_i hop
              cases hs
              exact .registered i found f op src dst id hi (.inl hop)
            · split at hs
              · split at hs
                · rename_i j hj
                  split at hs
                  · rename_i hd
                    cases hs
                    exact .deduped i f op src dst id _ j hi hj hd
                  · cases hs
                · cases hs
              · split at hs
                · cases hs
                · rename_i hno
                  cases hs
                  refine .registered i none f op src dst id hi (.inr fun x hx => ?_)
                  rw [Bool.eq_false_iff]
                  exact fun hd => hno (List.any_eq_true.mpr ⟨x, hx, hd⟩)
        | launch op src dst id =>
            cases hs
            exact .launched i found f op src dst id hi
        | rename src dst =>
            simp only [handle] at hs
            split at hs
            · rename_i t hr
              cases hs
              exact .renamed i found f src dst t hi (rename_ok hr)
            · rename_i e _
              cases hs
              exact .unrenamed i found f src dst e hi
        | replied r => cases hs
      · cases hs
  | thread i e =>
      simp only [step] at hs
      split at hs
      · rename_i id m hi
        obtain ⟨x, hx, rfl⟩ := Option.map_eq_some_iff.mp hs
        exact .worked i e id m x hi hx
      · cases hs

end Server

end WebDavs.Mover
