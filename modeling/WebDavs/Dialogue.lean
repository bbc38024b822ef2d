/-
What the page and the mover say to each other about one wish of the user: `doOp`,
`deletePath` and `renamePath`, with `askPassword` and `askConflict`.

A wish is a request, and after an answer that asks for a password or says that the
destination exists, a question to the user and a request more. Neither function counts
its rounds. That there are two at most, that a move, a copy or a deletion is never sent
with a password, and that at most one of its requests is taken on, whatever happens to
the answers, lies in what the handlers answer: `handle_move_copy` and `handle_delete`
never say `elevation`, `handle_rename` says it to a request without a password only, and
a conflict is no answer to a request with a strategy.

The mover does not take requests of this page alone: `Event.server` is any step of it.
-/
import WebDavs.Accord
import WebDavs.Interleave
import WebDavs.Registry

set_option autoImplicit false

namespace WebDavs.Dialogue

open WebDavs.Posix WebDavs.Steps WebDavs.Mover WebDavs.Interleave
open WebDavs.Sudo hiding handle_move_copy handle_rename handle_delete handle

/-! ## The page -/

/-- What the user wants done. -/
inductive Wish where
  | transfer (is_move : Bool) (src dst : PathBuf)
  | delete (src : PathBuf)
  | rename (src : PathBuf) (name : String)

/-- What a request says besides: `sudopass` and `strategy`, empty where they are not
given. -/
structure Ask where
  sudopass : String
  strategy : Strategy
deriving DecidableEq

/-- The first request. -/
def plain : Ask := ⟨"", .none⟩

/-- What `askConflict` can be answered, besides being closed. -/
inductive Choice where
  | merge
  | rename
deriving DecidableEq

def Choice.strategy : Choice → Strategy
  | .merge => .merge
  | .rename => .rename

/-- What `api` throws. -/
structure Thrown where
  elevation : Bool
  conflict : Bool
  dst : String

/-- `!!v`. -/
def truthy : Json → Bool
  | .null => false
  | .bool b => b
  | .num n => n ≠ 0
  | .str s => s ≠ ""
  | .arr _ => true
  | .obj _ => true

/-- `api`, from the answer on. -/
def api (r : Sudo.Reply) : Except Thrown Json :=
  if 200 ≤ r.status ∧ r.status < 300 then .ok r.body
  else .error
    { elevation := truthy (r.body.index "elevation")
      conflict := truthy (r.body.index "conflict")
      dst := ((r.body.get "dst").bind Json.as_str).getD "" }

/-- Where a request is: on its way, with a handler, before the helper, or answered. -/
inductive Stage where
  | sent
  | taken
  | elevated (req : Sudo.Request)
  | answered (r : Sudo.Reply)

/-- A request, and the handler of the mover that has taken it on. -/
structure Round where
  ask : Ask
  handler : Option Nat
  stage : Stage

/-- What the page waits for: an answer, one of the two questions, or nothing more. -/
inductive Now where
  | waiting
  | password (ask : Ask) (err : Thrown)
  | conflict (ask : Ask)
  | closed (done : Bool)

/-- A wish, and all that has been said about it. -/
structure Talk where
  wish : Wish
  rounds : List Round
  now : Now

namespace Talk

/-- `api(..)`, up to the answer. -/
def send (τ : Talk) (ask : Ask) : Talk :=
  { τ with rounds := τ.rounds ++ [⟨ask, none, .sent⟩], now := .waiting }

/-- The user wants something. -/
def start (w : Wish) : Talk := send ⟨w, [], .waiting⟩ plain

/-- The rest of `catch`, when there is no password to go on with. -/
def refused (τ : Talk) (ask : Ask) (err : Thrown) : Talk :=
  match τ.wish with
  | .transfer _ _ _ => { τ with now := if err.conflict then .conflict ask else .closed false }
  | .delete _ => { τ with now := .closed false }
  | .rename _ _ => { τ with now := .closed false }

/-- `doOp`, `deletePath` and `renamePath`, from the answer on. -/
def received (τ : Talk) (ask : Ask) (r : Sudo.Reply) : Talk :=
  match api r with
  | .ok _ => { τ with now := .closed true }
  | .error err => if err.elevation then { τ with now := .password ask err } else τ.refused ask err

/-- `askPassword` is answered. What is typed goes into a request without the strategy. -/
def typed (τ : Talk) (ask : Ask) (err : Thrown) : Option String → Talk
  | some pw => if pw = "" then τ.refused ask err else τ.send ⟨pw, .none⟩
  | none => τ.refused ask err

/-- `askConflict` is answered. -/
def chosen (τ : Talk) (ask : Ask) : Option Choice → Talk
  | some c => τ.send ⟨ask.sudopass, c.strategy⟩
  | none => { τ with now := .closed false }

/-- The round `m` is at another stage. -/
def put (τ : Talk) (m : Nat) (x : Round) : Talk := { τ with rounds := τ.rounds.set m x }

end Talk

/-! ## The mover -/

/-- A request comes in: the mover then, the handler that has taken it on, if one has, and
the stage of the request. -/
def arrive (k : Kernel) (s : Server) (ask : Ask) : Wish → Server × Option Nat × Stage
  | .transfer is_move src dst =>
    match resolve k s.tree src dst ask.strategy with
    | .error r => (s, none, .answered (refusal r))
    | .ok final_dst =>
      if ask.sudopass ≠ "" then (s, none, .elevated (.transfer is_move src final_dst ask.strategy))
      else (s.enter (.number (op_of is_move) src final_dst), some s.handlers.length, .taken)
  | .delete src =>
    if src.text = "" then (s, none, .answered (Sudo.refused 400 "bad request"))
    else if k.lstat s.tree src.full = none then
      (s, none, .answered (Sudo.refused 404 (message (k.why s.tree src.full))))
    else if ask.sudopass ≠ "" then (s, none, .elevated (.delete src))
    else (s.enter (.number .delete src ⟨⟨false, []⟩, "", .none⟩), some s.handlers.length, .taken)
  | .rename src name =>
    if src.text = "" ∨ valid_name name = false then
      (s, none, .answered (Sudo.refused 400 "invalid name"))
    else
      match src.path.parent with
      | none => (s, none, .answered (Sudo.refused 400 "no parent"))
      | some _ =>
        let dst := src.parent_or_empty.join name
        if k.exists_ s.tree dst.path then
          (s, none, .answered (Sudo.refused 409 ("destination exists: " ++ dst.text)))
        else (s.enter (.rename src dst.path), some s.handlers.length, .taken)

/-- `"op"` in the answer. -/
def Wish.op_name : Wish → String
  | .transfer is_move _ _ => if is_move then "move" else "copy"
  | .delete _ => "delete"
  | .rename _ _ => "rename"

/-- The answer to a wish that a job has been registered for. -/
def accepted_reply (w : Wish) (id : Nat) : Sudo.Reply :=
  ⟨202, .obj [("ok", .bool true), ("job_id", .num id), ("op", .str w.op_name)]⟩

/-- The answer to a wish that a job is at work on. -/
def deduped_reply (w : Wish) (id : Nat) : Sudo.Reply :=
  ⟨202, .obj [("ok", .bool true), ("job_id", .num id), ("op", .str w.op_name),
    ("deduped", .bool true)]⟩

/-- What a handler makes of what it has come to. A rename that is not permitted is tried
once more by the helper, if there is a password. -/
def replied (w : Wish) (ask : Ask) : Mover.Reply → Option Stage
  | .accepted id => some (.answered (accepted_reply w id))
  | .deduped id => some (.answered (deduped_reply w id))
  | .renamed _ =>
    match w with
    | .rename src name => some (.answered (ok_reply (src.parent_or_empty.join name).text))
    | .transfer _ _ _ => none
    | .delete _ => none
  | .failed e =>
    match w with
    | .rename src name =>
      if e = .eacces then
        if ask.sudopass ≠ "" then some (.elevated (.rename src name))
        else some (.answered wants_elevation)
      else some (.answered (io_reply e))
    | .transfer _ _ _ => none
    | .delete _ => none

/-- What a handler makes of the exit code and the output of `sudo`. -/
def helper_reply (w : Wish) (rc : Int) (out : Json) : Sudo.Reply :=
  match w with
  | .transfer is_move _ _ => transfer_reply is_move rc out
  | .delete _ => delete_reply rc out
  | .rename _ _ => rename_reply rc out

/-! ## Both -/

/-- What happens in a talk: to its round `m`, a request comes in, its handler is done, the
helper is run for it, or `sudo` refuses the password; the page gets an answer, or an error
instead of it; the user answers a question. -/
inductive TalkEvent where
  | arrive (m : Nat)
  | reply (m : Nat)
  | helper (m : Nat) (fuel : Nat) (fs : List Fault)
  | denied (m : Nat)
  | receive
  | lose
  | password (typed : Option String)
  | choose (c : Option Choice)

/-- One event of a talk. -/
def Talk.step (k : Kernel) (s : Server) (τ : Talk) : TalkEvent → Option (Server × Talk)
  | .arrive m =>
    match τ.rounds[m]? with
    | some ⟨ask, none, .sent⟩ =>
      let (u, n, stage) := WebDavs.Dialogue.arrive k s ask τ.wish
      some (u, τ.put m ⟨ask, n, stage⟩)
    | _ => none
  | .reply m =>
    match τ.rounds[m]? with
    | some ⟨ask, some n, .taken⟩ =>
      match s.handlers[n]? with
      | some (.replied q) => (replied τ.wish ask q).map fun stage => (s, τ.put m ⟨ask, some n, stage⟩)
      | _ => none
    | _ => none
  | .helper m fuel fs =>
    match τ.rounds[m]? with
    | some ⟨ask, n, .elevated req⟩ =>
      (sudo_run k fuel s.tree fs req).map fun o =>
        ({ s with tree := o.tree }, τ.put m ⟨ask, n, .answered (helper_reply τ.wish o.rc o.out)⟩)
    | _ => none
  | .denied m =>
    match τ.rounds[m]? with
    | some ⟨ask, n, .elevated _⟩ =>
      some (s, τ.put m ⟨ask, n, .answered (helper_reply τ.wish 1 .null)⟩)
    | _ => none
  | .receive =>
    match τ.now, τ.rounds.getLast? with
    | .waiting, some ⟨ask, _, .answered r⟩ => some (s, τ.received ask r)
    | _, _ => none
  | .lose =>
    match τ.now with
    | .waiting => some (s, { τ with now := .closed false })
    | _ => none
  | .password typed =>
    match τ.now with
    | .password ask err => some (s, τ.typed ask err typed)
    | _ => none
  | .choose c =>
    match τ.now with
    | .conflict ask => some (s, τ.chosen ask c)
    | _ => none

/-- What an event of a talk can come to. -/
inductive Talk.StepCase (k : Kernel) (s : Server) (τ : Talk) : TalkEvent → Server × Talk → Prop where
  | arrived (m : Nat) (ask : Ask) (u : Server) (n : Option Nat) (stage : Stage)
      (hm : τ.rounds[m]? = some ⟨ask, none, .sent⟩)
      (harr : WebDavs.Dialogue.arrive k s ask τ.wish = (u, n, stage)) :
      StepCase k s τ (.arrive m) (u, τ.put m ⟨ask, n, stage⟩)
  | replied (m : Nat) (ask : Ask) (n : Nat) (q : Mover.Reply) (stage : Stage)
      (hm : τ.rounds[m]? = some ⟨ask, some n, .taken⟩) (hn : s.handlers[n]? = some (.replied q))
      (hq : WebDavs.Dialogue.replied τ.wish ask q = some stage) :
      StepCase k s τ (.reply m) (s, τ.put m ⟨ask, some n, stage⟩)
  | helped (e : TalkEvent) (m : Nat) (ask : Ask) (n : Option Nat) (req : Sudo.Request) (rc : Int)
      (out : Json) (t : FileTree Bytes) (hm : τ.rounds[m]? = some ⟨ask, n, .elevated req⟩) :
      StepCase k s τ e
        ({ s with tree := t }, τ.put m ⟨ask, n, .answered (helper_reply τ.wish rc out)⟩)
  | received (x : Round) (q : Sudo.Reply) (hnow : τ.now = .waiting)
      (hlast : τ.rounds.getLast? = some x) (hq : x.stage = .answered q) :
      StepCase k s τ .receive (s, τ.received x.ask q)
  | lost (hnow : τ.now = .waiting) : StepCase k s τ .lose (s, { τ with now := .closed false })
  | typed (ask : Ask) (err : Thrown) (pw : Option String) (hnow : τ.now = .password ask err) :
      StepCase k s τ (.password pw) (s, τ.typed ask err pw)
  | chosen (ask : Ask) (c : Option Choice) (hnow : τ.now = .conflict ask) :
      StepCase k s τ (.choose c) (s, τ.chosen ask c)

theorem Talk.step_cases {k : Kernel} {s : Server} {τ : Talk} {e : TalkEvent} {x : Server × Talk}
    (hs : τ.step k s e = some x) : Talk.StepCase k s τ e x := by
  cases e with
  | arrive m =>
      simp only [Talk.step] at hs
      split at hs
      · rename_i ask hm
        cases hs
        exact .arrived m ask _ _ _ hm rfl
      · cases hs
  | reply m =>
      simp only [Talk.step] at hs
      split at hs
      · rename_i ask n hm
        split at hs
        · rename_i q hn
          obtain ⟨stage, hq, he⟩ := Option.map_eq_some_iff.mp hs
          cases he
          exact .replied m ask n q stage hm hn hq
        · cases hs
      · cases hs
  -- whether the helper ran or was denied, the round has its answer
  | helper m fuel fs =>
      simp only [Talk.step] at hs
      split at hs
      · rename_i ask n req hm
        obtain ⟨o, -, he⟩ := Option.map_eq_some_iff.mp hs
        cases he
        exact .helped _ m ask n req o.rc o.out o.tree hm
      · cases hs
  | denied m =>
      simp only [Talk.step] at hs
      split at hs
      · rename_i ask n req hm
        cases hs
        exact .helped _ m ask n req 1 .null s.tree hm
      · cases hs
  | receive =>
      simp only [Talk.step] at hs
      split at hs
      · rename_i ask n r hnow hlast
        cases hs
        exact .received _ r hnow hlast rfl
      · cases hs
  | lose =>
      simp only [Talk.step] at hs
      split at hs
      · rename_i hnow
        cases hs
        exact .lost hnow
      · cases hs
  | password typed =>
      simp only [Talk.step] at hs
      split at hs
      · rename_i ask err hnow
        cases hs
        exact .typed ask err typed hnow
      · cases hs
  | choose c =>
      simp only [Talk.step] at hs
      split at hs
      · rename_i ask hnow
        cases hs
        exact .chosen ask c hnow
      · cases hs

/-- The mover and all that is said to it by this page. -/
structure System where
  server : Server
  talks : List Talk

/-- One event: the user wants something; any step of the mover; a step of a talk. -/
inductive Event where
  | wish (w : Wish)
  | server (a : Act)
  | talk (i : Nat) (e : TalkEvent)

namespace System

/-- Before the first wish. -/
def init (t : FileTree Bytes) : System := ⟨.init t, []⟩

/-- One event. -/
def step (k : Kernel) (h : Host) (s : System) : Event → Option System
  | .wish w => some { s with talks := s.talks ++ [.start w] }
  | .server a => (s.server.step k h a).map fun u => { s with server := u }
  | .talk i e =>
    match s.talks[i]? with
    | some τ => (τ.step k s.server e).map fun x => ⟨x.1, s.talks.set i x.2⟩
    | none => none

end System

/-! ## What the mover does for a wish -/

namespace Wish

/-- The operation and the source of a job that is wished for. -/
def Asks : Wish → Op → PathBuf → Prop
  | .transfer is_move src _, op, p => op = op_of is_move ∧ p = src
  | .delete src, op, p => op = .delete ∧ p = src
  | .rename _ _, _, _ => False

/-- The job does what is wished for. -/
def Is (w : Wish) (j : Job) : Prop := ∃ src, w.Asks j.op src ∧ j.src = src.text

def Transfers : Wish → Prop
  | .transfer _ _ _ => True
  | .delete _ => False
  | .rename _ _ => False

def Renames : Wish → Prop
  | .transfer _ _ _ => False
  | .delete _ => False
  | .rename _ _ => True

end Wish

/-- A handler that is at work on a wish, or has done what was to be done. -/
def Suits (m : Registry) (w : Wish) : Handler → Prop
  | .number op src _ => w.Asks op src
  | .register op src _ _ => w.Asks op src
  | .launch op src _ _ => w.Asks op src
  | .rename _ _ => w.Renames
  | .replied (.accepted id) => ∃ j, m.get id = some j ∧ w.Is j
  | .replied (.deduped id) => ∃ j, m.get id = some j ∧ w.Is j
  | .replied (.renamed _) => w.Renames
  | .replied (.failed _) => w.Renames

/-- A handler goes on being at work on the wish that it was at work on, and what it has
answered stays. -/
structure Follows (s u : Server) : Prop where
  suits : ∀ {n : Nat} {c w}, s.handlers[n]? = some c → Suits s.jobs w c →
    ∃ c', u.handlers[n]? = some c' ∧ Suits u.jobs w c'
  replied : ∀ {n : Nat} {r}, s.handlers[n]? = some (.replied r) →
    u.handlers[n]? = some (.replied r)

section

variable {k : Kernel} {h : Host} {s u : Server} {a : Act} {w : Wish} {c : Handler}

theorem Wish.is_of_same {j j' : Job} (hw : w.Is j) (hj : j.Same j') : w.Is j' := by
  obtain ⟨src, hask, hsrc⟩ := hw
  exact ⟨src, hj.1 ▸ hask, hj.2.1.trans hsrc⟩

theorem suits_mono {m m' : Registry}
    (hm : ∀ id j, m.get id = some j → ∃ j', m'.get id = some j' ∧ j.Same j') (hc : Suits m w c) :
    Suits m' w c := by
  have hjob : ∀ id, (∃ j, m.get id = some j ∧ w.Is j) → ∃ j, m'.get id = some j ∧ w.Is j := by
    rintro id ⟨j, hj, hw⟩
    obtain ⟨j', hj', hsame⟩ := hm id j hj
    exact ⟨j', hj', Wish.is_of_same hw hsame⟩
  cases c with
  | replied r =>
      cases r with
      | accepted id => exact hjob id hc
      | deduped id => exact hjob id hc
      | renamed dst => exact hc
      | failed e => exact hc
  | number op src dst => exact hc
  | register op src dst id => exact hc
  | launch op src dst id => exact hc
  | rename src dst => exact hc

/-- A record stays, and goes on being about the same work. -/
theorem record_stays (hI : s.Inv) (hs : s.step k h a = some u) {id : Nat} {j : Job}
    (hj : s.jobs.get id = some j) : ∃ j', u.jobs.get id = some j' ∧ j.Same j' := by
  rcases hI.record hs hj with hj' | ⟨i, e, m, x, -, hfit, hx, hj'⟩
  · exact ⟨j, hj', rfl, rfl, rfl⟩
  · exact ⟨_, hj', (Machine.step_has_status hfit hx).2.1⟩

theorem Follows.refl (s : Server) : Follows s s := ⟨fun hn hc => ⟨_, hn, hc⟩, fun hn => hn⟩

theorem Follows.tree (s : Server) (t : FileTree Bytes) : Follows s { s with tree := t } :=
  ⟨fun hn hc => ⟨_, hn, hc⟩, fun hn => hn⟩

/-- A handler comes in. -/
theorem Follows.enter (s : Server) (c : Handler) : Follows s (s.enter c) := by
  have hold : ∀ {n : Nat} {c'}, s.handlers[n]? = some c' → (s.enter c).handlers[n]? = some c' := by
    intro n c' hn
    show (s.handlers ++ [c])[n]? = some c'
    rw [List.getElem?_append_left (List.getElem?_eq_some_iff.mp hn).1]
    exact hn
  exact ⟨fun hn hc => ⟨_, hold hn, hc⟩, hold⟩

/-- The handler `i` has got further with its wish. -/
theorem follows_of_goes {i : Nat} {c c' : Handler} (hi : s.handlers[i]? = some c)
    (hh : u.handlers = s.handlers.set i c')
    (hm : ∀ id j, s.jobs.get id = some j → ∃ j', u.jobs.get id = some j' ∧ j.Same j')
    (hc : ∀ w, Suits s.jobs w c → Suits u.jobs w c') (hnot : ∀ r, c ≠ .replied r) : Follows s u := by
  obtain ⟨hlt, -⟩ := List.getElem?_eq_some_iff.mp hi
  constructor
  · intro n x w hn hx
    by_cases hni : n = i
    · subst hni
      rw [hi] at hn
      cases hn
      exact ⟨c', by rw [hh, List.getElem?_set_self hlt], hc w hx⟩
    · exact ⟨x, by rw [hh, List.getElem?_set_ne fun he => hni he.symm, hn], suits_mono hm hx⟩
  · intro n r hn
    rw [hh, List.getElem?_set_ne, hn]
    rintro rfl
    rw [hi] at hn
    exact hnot r (Option.some.inj hn)

/-- **Every step of the mover** leaves the handlers at work on what they were at work
on. -/
theorem follows_step (hI : s.Inv) (hs : s.step k h a = some u) : Follows s u := by
  have hm : ∀ id j, s.jobs.get id = some j → ∃ j', u.jobs.get id = some j' ∧ j.Same j' :=
    fun _ _ hj => record_stays hI hs hj
  cases Server.step_cases hs with
  | requested op src dst strategy final_dst hop hr => exact .enter s _
  | deleted src hx => exact .enter s _
  | rename_checked src name dst hr => exact .enter s _
  | numbered i found f op src dst hi => exact follows_of_goes hi rfl hm (fun _ hx => hx) (by simp)
  | registered i found f op src dst id hi hno =>
      exact follows_of_goes hi rfl hm (fun _ hx => hx) (by simp)
  | deduped i f op src dst id eid j hi hj hd =>
      refine follows_of_goes hi rfl hm (fun w hx => ⟨j, hj, src, ?_, ?_⟩) (by simp)
      · have hop : j.op = op := by
          simp only [duplicates, Bool.and_eq_true, decide_eq_true_eq] at hd
          exact hd.1.1.2
        rw [hop]
        exact hx
      · simp only [duplicates, Bool.and_eq_true, decide_eq_true_eq] at hd
        exact hd.1.2
  | launched i found f op src dst id hi =>
      exact follows_of_goes hi rfl hm
        (fun w hx => ⟨_, (hI.launch i op src dst id hi).1, src, hx, rfl⟩) (by simp)
  | renamed i found f src dst t hi hr => exact follows_of_goes hi rfl hm (fun _ hx => hx) (by simp)
  | unrenamed i found f src dst e hi => exact follows_of_goes hi rfl hm (fun _ hx => hx) (by simp)
  | worked i e id m x hi hx => exact ⟨fun hn hc => ⟨_, hn, suits_mono hm hc⟩, fun hn => hn⟩

end

/-! ## What an answer asks for -/

/-- An answer that asks for nothing. -/
def AsksNothing (q : Sudo.Reply) : Prop :=
  ∀ err, api q = .error err → err.elevation = false ∧ err.conflict = false

/-- The error has the fields that say so or it has not. -/
theorem api_error {status : Nat} {fields : List (String × Json)} {err : Thrown}
    (h : api ⟨status, .obj fields⟩ = .error err) :
    err.elevation = truthy ((Json.obj fields).index "elevation") ∧
      err.conflict = truthy ((Json.obj fields).index "conflict") := by
  unfold api at h
  split at h
  · cases h
  · cases h
    exact ⟨rfl, rfl⟩

theorem asks_nothing_refused (status : Nat) (error : String) :
    AsksNothing (Sudo.refused status error) := by
  intro err h
  obtain ⟨he, hc⟩ := api_error h
  exact ⟨he.trans rfl, hc.trans rfl⟩

theorem asks_nothing_io (e : Errno) : AsksNothing (io_reply e) := by
  intro err h
  obtain ⟨he, hc⟩ := api_error h
  exact ⟨he.trans rfl, hc.trans rfl⟩

/-- `handle_move_copy` finds a conflict only where no strategy is given. -/
theorem resolve_conflict {k : Kernel} {t : FileTree Bytes} {src dst d : PathBuf} {st : Strategy}
    (h : resolve k t src dst st = .error (.conflict d)) : st = .none := by
  unfold resolve at h
  split at h
  · cases h
  · dsimp only at h
    split at h
    · cases h
    · split at h
      · cases h
      · split at h
        · cases st with
          | none => rfl
          | merge => cases h
          | overwrite => cases h
          | rename => cases h
        · cases h

/-- What an answer may ask for: a password where one was not given, for a rename; a
strategy where one was not given, for a transfer that no handler has taken on. -/
structure Mild (w : Wish) (x : Round) (q : Sudo.Reply) : Prop where
  elevation : ∀ err, api q = .error err → err.elevation = true →
    w.Renames ∧ x.ask.sudopass = ""
  conflict : ∀ err, api q = .error err → err.conflict = true →
    w.Transfers ∧ x.ask.strategy = .none ∧ x.handler = none

theorem AsksNothing.mild {w : Wish} {x : Round} {q : Sudo.Reply} (h : AsksNothing q) :
    Mild w x q := by
  constructor
  · intro err he htrue
    rw [(h err he).1] at htrue
    cases htrue
  · intro err he htrue
    rw [(h err he).2] at htrue
    cases htrue

/-- A job is there for the wish. -/
def Begun (s : Server) (w : Wish) (x : Round) : Prop :=
  ∃ n id, x.handler = some n ∧ (s.handlers[n]? = some (.replied (.accepted id)) ∨
    s.handlers[n]? = some (.replied (.deduped id))) ∧ ∃ j, s.jobs.get id = some j ∧ w.Is j

/-- What holds of a request: it has a handler when it is with one, and none while it is on
its way; it has a password only in a rename; its handler is at work on the wish; the helper
is run only for a rename; an answer asks for no more than it may; and good news of anything
but a rename means that there is a job. -/
structure Round.Inv (s : Server) (w : Wish) (x : Round) : Prop where
  sent : x.stage = .sent → x.handler = none
  taken : x.stage = .taken → x.handler ≠ none
  password : x.ask.sudopass ≠ "" → w.Renames
  handler : ∀ n, x.handler = some n → ∃ c, s.handlers[n]? = some c ∧ Suits s.jobs w c
  elevated : ∀ req, x.stage = .elevated req → w.Renames
  mild : ∀ q, x.stage = .answered q → Mild w x q
  done : ∀ q v, x.stage = .answered q → api q = .ok v → w.Renames ∨ Begun s w x

section

variable {k : Kernel} {h : Host} {s u : Server} {w : Wish} {x : Round}

theorem Begun.mono (hf : Follows s u) (hx : Begun s w x) : Begun u w x := by
  obtain ⟨n, id, hn, hrep, j, hj, hw⟩ := hx
  refine ⟨n, id, hn, hrep.imp (fun h => hf.replied h) (fun h => hf.replied h), ?_⟩
  -- the record is where the answer says
  rcases hrep with hrep | hrep
  · obtain ⟨c, hc, hsuits⟩ := hf.suits (w := w) hrep ⟨j, hj, hw⟩
    rw [hf.replied hrep] at hc
    cases hc
    exact hsuits
  · obtain ⟨c, hc, hsuits⟩ := hf.suits (w := w) hrep ⟨j, hj, hw⟩
    rw [hf.replied hrep] at hc
    cases hc
    exact hsuits

theorem Round.Inv.mono (hf : Follows s u) (hx : x.Inv s w) : x.Inv u w := by
  refine ⟨hx.sent, hx.taken, hx.password, fun n hn => ?_, hx.elevated, hx.mild, fun q v hq hv => ?_⟩
  · obtain ⟨c, hc, hsuits⟩ := hx.handler n hn
    exact hf.suits hc hsuits
  · exact (hx.done q v hq hv).imp_right (Begun.mono hf)

/-- A request that is sent is fine, if it has no password that it must not have. -/
theorem Round.Inv.of_sent {ask : Ask} (hp : ask.sudopass ≠ "" → w.Renames) :
    Round.Inv s w ⟨ask, none, .sent⟩ :=
  ⟨fun _ => rfl, fun hq => (by cases hq), hp, fun _ hn => (by cases hn), fun _ hq => (by cases hq),
    fun _ hq => (by cases hq),
    fun _ _ hq => (by cases hq)⟩

/-- A request that is refused on the spot. -/
theorem Round.Inv.of_answered {ask : Ask} {q : Sudo.Reply} (hp : ask.sudopass ≠ "" → w.Renames)
    (hs : Mild w ⟨ask, none, .answered q⟩ q) (hno : ∀ v, api q ≠ .ok v) :
    Round.Inv s w ⟨ask, none, .answered q⟩ := by
  refine ⟨fun hq => (by cases hq), fun hq => (by cases hq), hp, fun _ hn => (by cases hn),
    fun _ hq => (by cases hq), ?_, ?_⟩
  · intro q' hq
    cases hq
    exact hs
  · intro q' v hq hv
    cases hq
    exact absurd hv (hno v)

/-- A request that a new handler has taken on. -/
theorem Round.Inv.of_taken {ask : Ask} {c : Handler} (hp : ask.sudopass ≠ "" → w.Renames)
    (hc : Suits s.jobs w c) :
    Round.Inv (s.enter c) w ⟨ask, some s.handlers.length, .taken⟩ := by
  refine ⟨fun hq => (by cases hq), fun _ hno => (by cases hno), hp, fun n hn => ⟨c, ?_, hc⟩,
    fun _ hq => (by cases hq), fun _ hq => (by cases hq), fun _ _ hq => (by cases hq)⟩
  obtain rfl := Option.some.inj hn
  exact List.getElem?_concat_length

/-- What `arrive` can come to. -/
theorem arrive_inv (hI : s.Inv) {ask : Ask} {n : Option Nat} {stage : Stage}
    (hp : ask.sudopass ≠ "" → w.Renames) (h : arrive k s ask w = (u, n, stage)) :
    u.Inv ∧ Follows s u ∧ Round.Inv u w ⟨ask, n, stage⟩ := by
  -- a refusal asks for nothing and has no value
  have hrefused : ∀ (status : Nat) error, (status < 200 ∨ 300 ≤ status) →
      Round.Inv s w ⟨ask, none, .answered (Sudo.refused status error)⟩ := by
    intro status error hst
    refine .of_answered hp (asks_nothing_refused status error).mild fun v hv => ?_
    unfold api at hv
    split at hv
    · rename_i h200
      have hle : 200 ≤ status ∧ status < 300 := h200
      omega
    · cases hv
  cases w with
  | transfer is_move src dst =>
      -- with a password the request would be one the mover passes on
      have hnone : ask.sudopass = "" := by
        by_contra hne
        exact hp hne
      simp only [arrive, hnone, ne_eq, not_true, if_false] at h
      split at h
      · rename_i r hr
        cases h
        refine ⟨hI, .refl s, .of_answered hp ?_ ?_⟩
        · cases r with
          | conflict d =>
              constructor
              · intro err he htrue
                rw [(api_error he).1] at htrue
                cases htrue
              · exact fun _ _ _ => ⟨trivial, resolve_conflict hr, rfl⟩
          | bad_path => exact (asks_nothing_refused _ _).mild
          | same => exact (asks_nothing_refused _ _).mild
          | missing => exact (asks_nothing_refused _ _).mild
        · intro v hv
          cases r <;> cases hv
      · cases h
        exact ⟨hI.enter rfl, .enter s _, .of_taken hp ⟨rfl, rfl⟩⟩
  | delete src =>
      have hnone : ask.sudopass = "" := by
        by_contra hne
        exact hp hne
      simp only [arrive, hnone, ne_eq, not_true, if_false] at h
      split at h
      · cases h
        exact ⟨hI, .refl s, hrefused 400 _ (by omega)⟩
      · split at h
        · cases h
          exact ⟨hI, .refl s, hrefused 404 _ (by omega)⟩
        · cases h
          exact ⟨hI.enter rfl, .enter s _, .of_taken hp ⟨rfl, rfl⟩⟩
  | rename src name =>
      simp only [arrive] at h
      split at h
      · cases h
        exact ⟨hI, .refl s, hrefused 400 _ (by omega)⟩
      · split at h
        · cases h
          exact ⟨hI, .refl s, hrefused 400 _ (by omega)⟩
        · split at h
          · cases h
            exact ⟨hI, .refl s, hrefused 409 _ (by omega)⟩
          · cases h
            exact ⟨hI.enter rfl, .enter s _, .of_taken hp trivial⟩

/-- What `arrive` can come to: the answer, a request for the helper, or a handler that
takes the request on. -/
inductive ArriveCase (s : Server) : Server × Option Nat × Stage → Prop where
  | answered (r : Sudo.Reply) : ArriveCase s (s, none, .answered r)
  | elevated (req : Sudo.Request) : ArriveCase s (s, none, .elevated req)
  | numbered (op : Op) (src dst : PathBuf) :
      ArriveCase s (s.enter (.number op src dst), some s.handlers.length, .taken)
  | checked (src : PathBuf) (dst : Path) :
      ArriveCase s (s.enter (.rename src dst), some s.handlers.length, .taken)

theorem arrive_cases (k : Kernel) (s : Server) (ask : Ask) (w : Wish) :
    ArriveCase s (arrive k s ask w) := by
  cases w with
  | transfer is_move src dst =>
      simp only [arrive]
      split
      · exact .answered _
      · split
        · exact .elevated _
        · exact .numbered _ _ _
  | delete src =>
      simp only [arrive]
      split
      · exact .answered _
      · split
        · exact .answered _
        · split
          · exact .elevated _
          · exact .numbered _ _ _
  | rename src name =>
      simp only [arrive]
      split
      · exact .answered _
      · split
        · exact .answered _
        · split
          · exact .answered _
          · exact .checked _ _

/-- Whoever takes a request on is new. -/
theorem arrive_handler {ask : Ask} {n : Nat} {o : Option Nat} {stage : Stage}
    (h : arrive k s ask w = (u, o, stage)) (ho : o = some n) : n = s.handlers.length := by
  subst ho
  have hcase := arrive_cases k s ask w
  rw [h] at hcase
  cases hcase with
  | numbered op src dst => rfl
  | checked src dst => rfl

/-- A handler that has answered. -/
theorem replied_inv {ask : Ask} {n : Nat} {q : Mover.Reply} {stage : Stage}
    (hx : Round.Inv s w ⟨ask, some n, .taken⟩) (hn : s.handlers[n]? = some (.replied q))
    (h : replied w ask q = some stage) : Round.Inv s w ⟨ask, some n, stage⟩ := by
  obtain ⟨c, hc, hsuits⟩ := hx.handler n rfl
  rw [hn] at hc
  cases hc
  -- a job has been started, or was there
  have hjob : ∀ id r, (q = .accepted id ∨ q = .deduped id) →
      (∀ err, api r ≠ .error err) → (∃ j, s.jobs.get id = some j ∧ w.Is j) →
      Round.Inv s w ⟨ask, some n, .answered r⟩ := by
    intro id r hq hr hj
    refine ⟨fun hq => (by cases hq), fun hq => (by cases hq), hx.password, hx.handler,
      fun _ he => (by cases he), ?_, ?_⟩
    · intro q' hq'
      cases hq'
      exact AsksNothing.mild fun err he => absurd he (hr err)
    · intro q' v hq' hv
      cases hq'
      refine .inr ⟨n, id, rfl, ?_, hj⟩
      rcases hq with rfl | rfl
      · exact .inl hn
      · exact .inr hn
  have hrename : w.Renames → ∀ r, (∀ err, api r = .error err →
      (err.elevation = true → ask.sudopass = "") ∧ err.conflict = false) →
      Round.Inv s w ⟨ask, some n, .answered r⟩ := by
    intro hw r hr
    refine ⟨fun hq => (by cases hq), fun hq => (by cases hq), hx.password, hx.handler,
      fun _ he => (by cases he), ?_, fun _ _ _ _ => .inl hw⟩
    intro q' hq'
    cases hq'
    constructor
    · exact fun err he htrue => ⟨hw, (hr err he).1 htrue⟩
    · intro err he htrue
      rw [(hr err he).2] at htrue
      cases htrue
  have hnothing : ∀ r, AsksNothing r → ∀ err, api r = .error err →
      (err.elevation = true → ask.sudopass = "") ∧ err.conflict = false := by
    intro r hr err he
    refine ⟨fun htrue => ?_, (hr err he).2⟩
    rw [(hr err he).1] at htrue
    cases htrue
  cases q with
  | accepted id =>
      cases h
      exact hjob id _ (.inl rfl) (fun err he => by cases he) hsuits
  | deduped id =>
      cases h
      exact hjob id _ (.inr rfl) (fun err he => by cases he) hsuits
  | renamed dst =>
      cases w with
      | transfer is_move src dst => exact hsuits.elim
      | delete src => exact hsuits.elim
      | rename src name =>
          cases h
          exact hrename trivial _ fun err he => by cases he
  | failed e =>
      cases w with
      | transfer is_move src dst => exact hsuits.elim
      | delete src => exact hsuits.elim
      | rename src name =>
          simp only [replied] at h
          split at h
          · split at h
            · cases h
              exact ⟨fun hq => (by cases hq), fun hq => (by cases hq), hx.password, hx.handler,
                fun _ _ => trivial, fun _ hq => (by cases hq), fun _ _ hq => (by cases hq)⟩
            · rename_i hpw
              cases h
              refine hrename trivial _ fun err he => ⟨fun _ => by simpa using hpw, ?_⟩
              rw [(api_error he).2]
              rfl
          · cases h
            exact hrename trivial _ (hnothing _ (asks_nothing_io e))

/-- What `sudo` has come to. -/
theorem helped_inv {ask : Ask} {n : Option Nat} {req : Sudo.Request} (rc : Int) (out : Json)
    (hx : Round.Inv s w ⟨ask, n, .elevated req⟩) :
    Round.Inv s w ⟨ask, n, .answered (helper_reply w rc out)⟩ := by
  have hw : w.Renames := hx.elevated req rfl
  refine ⟨fun hq => (by cases hq), fun hq => (by cases hq), hx.password, hx.handler,
    fun _ he => (by cases he), ?_, fun _ _ _ _ => .inl hw⟩
  intro q hq
  cases hq
  cases w with
  | transfer is_move src dst => exact hw.elim
  | delete src => exact hw.elim
  | rename src name =>
      apply AsksNothing.mild
      simp only [helper_reply, rename_reply]
      split
      · split
        · intro err he
          cases he
        · exact asks_nothing_refused 403 _
      · exact asks_nothing_refused 403 _

end

/-! ## How a talk goes -/

/-- What is asked for a wish: once plainly, and perhaps once more, for a transfer with what
the user has chosen, for a rename with a password. -/
inductive Plan : Wish → List Ask → Prop where
  | once (w : Wish) : Plan w [plain]
  | choice (w : Wish) (c : Choice) (hw : w.Transfers) : Plan w [plain, ⟨"", c.strategy⟩]
  | password (w : Wish) (pw : String) (hw : w.Renames) (hpw : pw ≠ "") :
      Plan w [plain, ⟨pw, .none⟩]

/-- The first request has been refused on the spot. -/
def Talk.Refused (τ : Talk) : Prop :=
  ∃ ask r, τ.rounds[0]? = some ⟨ask, none, .answered r⟩

/-- The requests so far. -/
def Talk.asks (τ : Talk) : List Ask := τ.rounds.map Round.ask

/-- What holds of a talk. -/
structure Talk.Inv (s : Server) (τ : Talk) : Prop where
  rounds : ∀ x ∈ τ.rounds, x.Inv s τ.wish
  plan : Plan τ.wish τ.asks
  again : τ.wish.Transfers → 1 < τ.rounds.length → τ.Refused
  password : ∀ ask err, τ.now = .password ask err → τ.wish.Renames ∧ τ.asks = [plain]
  conflict : ∀ ask, τ.now = .conflict ask →
    τ.wish.Transfers ∧ ask = plain ∧ τ.asks = [plain] ∧ τ.Refused
  closed : τ.now = .closed true → τ.wish.Renames ∨ ∃ x ∈ τ.rounds, Begun s τ.wish x

section

variable {k : Kernel} {h : Host} {s u : Server} {w : Wish} {x : Round} {τ : Talk} {m : Nat}

theorem Wish.not_both (ht : w.Transfers) (hr : w.Renames) : False := by
  cases w with
  | transfer is_move src dst => exact hr
  | delete src => exact hr
  | rename src name => exact ht

/-- Where the last request has neither the password of a rename nor the strategy of a
transfer, it is the first. -/
theorem Plan.once_of_last {asks : List Ask} {ask : Ask} (h : Plan w asks)
    (hlast : asks.getLast? = some ask) (hpw : w.Renames → ask.sudopass = "")
    (hst : w.Transfers → ask.strategy = .none) : asks = [plain] := by
  cases h with
  | once => rfl
  | choice c hw =>
      obtain rfl : ask = ⟨"", c.strategy⟩ := by simpa using hlast.symm
      have hnone : c.strategy = .none := hst hw
      cases c <;> cases hnone
  | password pw hw hne =>
      obtain rfl : ask = ⟨pw, .none⟩ := by simpa using hlast.symm
      exact absurd (hpw hw) hne

theorem Talk.Inv.mono (hf : Follows s u) (hτ : τ.Inv s) : τ.Inv u := by
  refine ⟨fun x hx => (hτ.rounds x hx).mono hf, hτ.plan, hτ.again, hτ.password, hτ.conflict,
    fun hc => ?_⟩
  rcases hτ.closed hc with hr | ⟨x, hx, hb⟩
  · exact .inl hr
  · exact .inr ⟨x, hx, hb.mono hf⟩

theorem Talk.Inv.start (s : Server) (w : Wish) : (Talk.start w).Inv s := by
  refine ⟨fun x hx => ?_, .once w, fun _ hlt => absurd hlt (Nat.lt_irrefl 1), fun _ _ hn =>
    (by cases hn),
    fun _ hn => (by cases hn), fun hn => (by cases hn)⟩
  obtain rfl := List.mem_singleton.mp hx
  exact .of_sent fun hne => absurd rfl hne

/-- What has been refused stays so while other requests go on. -/
theorem Talk.Refused.put {x' : Round} (hr : τ.Refused) (hx : τ.rounds[m]? = some x)
    (hno : ∀ q, x.stage ≠ .answered q) : (τ.put m x').Refused := by
  obtain ⟨ask, r, h₀⟩ := hr
  refine ⟨ask, r, ?_⟩
  show (τ.rounds.set m x')[0]? = _
  rw [List.getElem?_set_ne, h₀]
  rintro rfl
  rw [h₀] at hx
  cases hx
  exact hno r rfl

/-- A request goes on. -/
theorem Talk.Inv.put {x' : Round} (hτ : τ.Inv s) (hf : Follows s u) (hx : τ.rounds[m]? = some x)
    (hask : x'.ask = x.ask) (hkeep : ∀ n, x.handler = some n → x'.handler = some n)
    (hno : ∀ q, x.stage ≠ .answered q) (hx' : x'.Inv u τ.wish) :
    (τ.put m x').Inv u := by
  -- what was asked for stays, whatever becomes of it
  have hasks : (τ.put m x').asks = τ.asks := by
    show (τ.rounds.set m x').map Round.ask = τ.rounds.map Round.ask
    rw [List.map_set, hask]
    apply List.ext_getElem?
    intro j
    by_cases hj : j = m
    · subst hj
      obtain ⟨hlt, -⟩ := List.getElem?_eq_some_iff.mp hx
      rw [List.getElem?_set_self (by simpa using hlt), List.getElem?_map, hx, Option.map_some]
    · rw [List.getElem?_set_ne fun he => hj he.symm]
  have hlen : (τ.put m x').rounds.length = τ.rounds.length := List.length_set ..
  have hmono := hτ.mono hf
  refine ⟨?_, hasks ▸ hτ.plan, fun ht hlt => ?_, fun ask err hn => ?_, fun ask hn => ?_, fun hn => ?_⟩
  · exact all_set (P := fun y : Round => y.Inv u τ.wish) hmono.rounds hx'
  · exact (hτ.again ht (hlen ▸ hlt)).put hx hno
  · rw [hasks]
    exact hτ.password ask err hn
  · obtain ⟨ht, hplain, h₁, hr⟩ := hτ.conflict ask hn
    exact ⟨ht, hplain, hasks.trans h₁, hr.put hx hno⟩
  · rcases hmono.closed hn with hr | ⟨y, hy, hb⟩
    · exact .inl hr
    · rcases mem_set_of_mem hx hy with rfl | hy'
      -- the round that did the work goes on being about it
      · obtain ⟨n, id, hn, hrep, hj⟩ := hb
        exact .inr ⟨x', mem_set_self hx, n, id, hkeep n hn, hrep, hj⟩
      · exact .inr ⟨y, hy', hb⟩

/-- One more request, after the first. -/
theorem Talk.Inv.send {ask : Ask} (hτ : τ.Inv s) (hplan : Plan τ.wish [plain, ask])
    (h₁ : τ.asks = [plain]) (hp : ask.sudopass ≠ "" → τ.wish.Renames)
    (hr : τ.wish.Transfers → τ.Refused) : (τ.send ask).Inv s := by
  refine ⟨fun x hx => ?_, ?_, fun ht _ => ?_, fun _ _ hn => (by cases hn), fun _ hn => (by cases hn),
    fun hn => (by cases hn)⟩
  · rcases List.mem_append.mp hx with hx | hx
    · exact hτ.rounds x hx
    · obtain rfl := List.mem_singleton.mp hx
      exact .of_sent hp
  · have hasks : (τ.send ask).asks = τ.asks ++ [ask] := List.map_append ..
    rw [hasks, h₁]
    exact hplan
  · obtain ⟨ask₀, r, h₀⟩ := hr ht
    refine ⟨ask₀, r, ?_⟩
    show (τ.rounds ++ [_])[0]? = _
    rw [List.getElem?_append_left (List.getElem?_eq_some_iff.mp h₀).1]
    exact h₀

/-- The page waits for nothing more. -/
theorem Talk.Inv.close (hτ : τ.Inv s) {done : Bool}
    (hd : done = true → τ.wish.Renames ∨ ∃ x ∈ τ.rounds, Begun s τ.wish x) :
    ({ τ with now := .closed done } : Talk).Inv s :=
  ⟨hτ.rounds, hτ.plan, hτ.again, fun _ _ hn => (by cases hn), fun _ hn => (by cases hn),
    fun hn => hd (by cases hn; rfl)⟩

/-- The page gives up, or asks what to do about what exists. -/
theorem Talk.refused_cases (τ : Talk) (ask : Ask) (err : Thrown) :
    τ.refused ask err = { τ with now := .closed false } ∨
      (τ.wish.Transfers ∧ err.conflict = true ∧
        τ.refused ask err = { τ with now := .conflict ask }) := by
  obtain ⟨w, rounds, now⟩ := τ
  cases w with
  | transfer is_move src dst =>
      cases hc : err.conflict with
      | false => exact .inl (by simp [Talk.refused, hc])
      | true => exact .inr ⟨trivial, rfl, by simp [Talk.refused, hc]⟩
  | delete src => exact .inl rfl
  | rename src name => exact .inl rfl

theorem Talk.Inv.refused {ask : Ask} {err : Thrown} (hτ : τ.Inv s)
    (hc : err.conflict = true → τ.wish.Transfers →
      ask = plain ∧ τ.asks = [plain] ∧ τ.Refused) : (τ.refused ask err).Inv s := by
  rcases τ.refused_cases ask err with he | ⟨ht, hconf, he⟩
  · rw [he]
    exact hτ.close fun hd => by cases hd
  · rw [he]
    obtain ⟨hask, h₁, hr⟩ := hc hconf ht
    refine ⟨hτ.rounds, hτ.plan, hτ.again, fun _ _ hn => (by cases hn), fun ask' hn => ?_,
      fun hn => (by cases hn)⟩
    obtain rfl : ask = ask' := by
      cases hn
      rfl
    exact ⟨ht, hask, h₁, hr⟩

/-- An answer arrives. -/
theorem Talk.Inv.received {q : Sudo.Reply} (hτ : τ.Inv s) (hlast : τ.rounds.getLast? = some x)
    (hq : x.stage = .answered q) : (τ.received x.ask q).Inv s := by
  have hmem : x ∈ τ.rounds := List.mem_of_getLast? hlast
  have hx := hτ.rounds x hmem
  have hask : τ.asks.getLast? = some x.ask := by
    show (τ.rounds.map Round.ask).getLast? = _
    rw [List.getLast?_map, hlast, Option.map_some]
  -- what the first answer may ask for is asked for once
  have honce : τ.asks = [plain] → τ.rounds = [x] ∧ x.ask = plain := by
    intro h₁
    have hlen : τ.rounds.length = 1 := by
      have := congrArg List.length h₁
      simpa [Talk.asks] using this
    obtain ⟨y, hy⟩ := List.length_eq_one_iff.mp hlen
    rw [hy] at hlast
    obtain rfl : y = x := by simpa using hlast
    rw [h₁] at hask
    exact ⟨hy, by simpa using hask.symm⟩
  unfold Talk.received
  cases hapi : api q with
  | ok v =>
      exact hτ.close fun _ => (hx.done q v hq hapi).imp_right fun hb => ⟨x, hmem, hb⟩
  | error err =>
      dsimp only
      split
      · rename_i helev
        obtain ⟨hren, hnone⟩ := (hx.mild q hq).elevation err hapi helev
        have h₁ : τ.asks = [plain] :=
          hτ.plan.once_of_last hask (fun _ => hnone) fun ht => (Wish.not_both ht hren).elim
        exact ⟨hτ.rounds, hτ.plan, hτ.again, fun _ _ _ => ⟨hren, h₁⟩, fun _ hn => (by cases hn),
          fun hn => (by cases hn)⟩
      · refine hτ.refused fun hconf htrans => ?_
        obtain ⟨-, hst, hhand⟩ := (hx.mild q hq).conflict err hapi hconf
        have h₁ : τ.asks = [plain] :=
          hτ.plan.once_of_last hask (fun hr => (Wish.not_both htrans hr).elim) fun _ => hst
        obtain ⟨hrounds, hplain⟩ := honce h₁
        refine ⟨hplain, h₁, x.ask, q, ?_⟩
        rw [hrounds, ← hhand, ← hq]
        rfl

/-- **One step of a talk.** -/
theorem Talk.Inv.step (hI : s.Inv) (hτ : τ.Inv s) {e : TalkEvent} {τ' : Talk}
    (hs : τ.step k s e = some (u, τ')) : u.Inv ∧ Follows s u ∧ τ'.Inv u := by
  cases Talk.step_cases hs with
  | arrived m ask u n stage hm harr =>
      have hx := hτ.rounds _ (List.mem_of_getElem? hm)
      obtain ⟨hIu, hf, hround⟩ := arrive_inv hI hx.password harr
      exact ⟨hIu, hf, hτ.put hf hm rfl (fun _ hn => by cases hn) (fun _ hq => by cases hq) hround⟩
  | replied m ask n q stage hm hn hq =>
      have hx := hτ.rounds _ (List.mem_of_getElem? hm)
      exact ⟨hI, .refl _, hτ.put (.refl _) hm rfl (fun _ hn => hn) (fun _ hq => by cases hq)
        (replied_inv hx hn hq)⟩
  | helped e m ask n req rc out t hm =>
      -- the helper changes the tree and no record, so what was known of the round stays
      have hx := (hτ.rounds _ (List.mem_of_getElem? hm)).mono (Follows.tree s t)
      exact ⟨hI.tree t, .tree s t, hτ.put (.tree s t) hm rfl (fun _ hn => hn)
        (fun _ hq => by cases hq) (helped_inv rc out hx)⟩
  | received x q hnow hlast hq => exact ⟨hI, .refl _, hτ.received hlast hq⟩
  | lost hnow => exact ⟨hI, .refl _, hτ.close fun hd => by cases hd⟩
  | typed ask err pw hnow =>
      obtain ⟨hren, h₁⟩ := hτ.password ask err hnow
      -- a prompt that is not answered closes the talk: no rename is refused with a conflict
      have hgive : (τ.refused ask err).Inv s :=
        hτ.refused fun _ ht => (Wish.not_both ht hren).elim
      refine ⟨hI, .refl _, ?_⟩
      cases pw with
      | none => exact hgive
      | some pw =>
          simp only [Talk.typed]
          split
          · exact hgive
          · rename_i hpw
            exact hτ.send (.password _ pw hren hpw) h₁ (fun _ => hren)
              fun ht => (Wish.not_both ht hren).elim
  | chosen ask c hnow =>
      obtain ⟨ht, rfl, h₁, hr⟩ := hτ.conflict ask hnow
      refine ⟨hI, .refl _, ?_⟩
      cases c with
      | none => exact hτ.close fun hd => by cases hd
      | some c => exact hτ.send (.choice _ c ht) h₁ (fun hne => absurd rfl hne) fun _ => hr

/-- A handler that a round has after a step of its talk it had before, or the request has
just come in and the handler is new. -/
theorem Talk.step_handler {e : TalkEvent} {τ' : Talk} (hs : τ.step k s e = some (u, τ')) {x' : Round}
    {n : Nat} (hx' : τ'.rounds[m]? = some x') (hn : x'.handler = some n) :
    (∃ x, τ.rounds[m]? = some x ∧ x.handler = some n) ∨
      e = .arrive m ∧ n = s.handlers.length := by
  -- a round that is put for one whose handler it has
  have hput : ∀ {m₀ : Nat} {x₀ y : Round}, τ.rounds[m₀]? = some x₀ →
      (τ.put m₀ y).rounds[m]? = some x' → (y.handler = some n → x₀.handler = some n) →
      (∃ x, τ.rounds[m]? = some x ∧ x.handler = some n) ∨
        e = .arrive m ∧ n = s.handlers.length := by
    intro m₀ x₀ y h₀ hm hy
    rcases set_cases hm with ⟨rfl, rfl⟩ | ⟨-, hm⟩
    · exact .inl ⟨x₀, h₀, hy hn⟩
    · exact .inl ⟨x', hm, hn⟩
  have hsend : ∀ ask, (τ.send ask).rounds[m]? = some x' →
      (∃ x, τ.rounds[m]? = some x ∧ x.handler = some n) ∨
        e = .arrive m ∧ n = s.handlers.length := by
    intro ask hm
    rcases append_cases hm with ⟨-, rfl⟩ | hm
    · cases hn
    · exact .inl ⟨x', hm, hn⟩
  have hsame : τ'.rounds = τ.rounds →
      (∃ x, τ.rounds[m]? = some x ∧ x.handler = some n) ∨
        e = .arrive m ∧ n = s.handlers.length :=
    fun he => .inl ⟨x', he ▸ hx', hn⟩
  have hrefused : ∀ ask err, (τ.refused ask err).rounds = τ.rounds := by
    intro ask err
    rcases τ.refused_cases ask err with he | ⟨-, -, he⟩ <;> rw [he]
  cases Talk.step_cases hs with
  | arrived m₀ ask u n' stage hm₀ harr =>
      rcases set_cases hx' with ⟨rfl, rfl⟩ | ⟨-, hm⟩
      · exact .inr ⟨rfl, arrive_handler harr hn⟩
      · exact .inl ⟨x', hm, hn⟩
  | replied m₀ ask n₀ q stage hm₀ hn₀ hq => exact hput hm₀ hx' fun hy => hy
  | helped e m₀ ask n₀ req rc out t hm₀ => exact hput hm₀ hx' fun hy => hy
  | received x q hnow hlast hq =>
      apply hsame
      unfold Talk.received
      split
      · rfl
      · split
        · rfl
        · exact hrefused _ _
  | lost hnow => exact hsame rfl
  | typed ask err pw hnow =>
      cases pw with
      | none => exact hsame (hrefused ask err)
      | some pw =>
          simp only [Talk.typed] at hx'
          split at hx'
          · rw [hrefused] at hx'
            exact .inl ⟨x', hx', hn⟩
          · exact hsend _ hx'
  | chosen ask c hnow =>
      cases c with
      | none => exact hsame rfl
      | some c => exact hsend _ hx'

end

/-! ## Every wish is kept -/

/-- What holds of the mover and of all talks: the registry is in order, each talk is fine,
and no two requests have one handler. -/
structure System.Inv (s : System) : Prop where
  server : s.server.Inv
  talks : ∀ τ ∈ s.talks, τ.Inv s.server
  apart : ∀ (i i' : Nat) τ τ' (m m' : Nat) x x' n, s.talks[i]? = some τ → s.talks[i']? = some τ' →
    τ.rounds[m]? = some x → τ'.rounds[m']? = some x' → x.handler = some n → x'.handler = some n →
    i = i' ∧ m = m'

section

variable {k : Kernel} {h : Host} {s s' : System}

theorem System.Inv.init (t : FileTree Bytes) : (System.init t).Inv :=
  ⟨.init t, by simp [System.init], by simp [System.init]⟩

/-- **One event.** -/
theorem System.Inv.step (hI : s.Inv) {e : Event} (hs : s.step k h e = some s') : s'.Inv := by
  cases e with
  | wish w =>
      cases hs
      refine ⟨hI.server, fun τ hτ => ?_, fun i i' τ τ' m m' x x' n hi hi' hm hm' hn hn' => ?_⟩
      · rcases List.mem_append.mp hτ with hτ | hτ
        · exact hI.talks τ hτ
        · obtain rfl := List.mem_singleton.mp hτ
          exact .start s.server w
      · -- the new wish has no handler yet
        have hold : ∀ (j : Nat) τ (m : Nat) x, (s.talks ++ [Talk.start w])[j]? = some τ →
            τ.rounds[m]? = some x → x.handler = some n → s.talks[j]? = some τ := by
          intro j τ m x hj hm hn
          rcases append_cases hj with ⟨-, rfl⟩ | hj
          · obtain rfl := List.mem_singleton.mp (List.mem_of_getElem? hm)
            cases hn
          · exact hj
        exact hI.apart i i' τ τ' m m' x x' n (hold i τ m x hi hm hn) (hold i' τ' m' x' hi' hm' hn')
          hm hm' hn hn'
  | server a =>
      obtain ⟨u, hu, rfl⟩ := Option.map_eq_some_iff.mp hs
      exact ⟨(hI.server.step hu).1, fun τ hτ => (hI.talks τ hτ).mono (follows_step hI.server hu),
        hI.apart⟩
  | talk i₀ e =>
      simp only [System.step] at hs
      split at hs
      · rename_i τ₀ hi₀
        obtain ⟨⟨u, τ₁⟩, hu, rfl⟩ := Option.map_eq_some_iff.mp hs
        obtain ⟨hIu, hf, hround⟩ :=
          (hI.talks τ₀ (List.mem_of_getElem? hi₀)).step hI.server hu
        refine ⟨hIu, all_set (P := fun τ => τ.Inv u) (fun τ hτ => (hI.talks τ hτ).mono hf) hround, ?_⟩
        -- a request has the handler that it had, or a new one that no other has
        have hcase : ∀ (j : Nat) τ (m : Nat) x n, (s.talks.set i₀ τ₁)[j]? = some τ →
            τ.rounds[m]? = some x → x.handler = some n →
            (∃ τ' x', s.talks[j]? = some τ' ∧ τ'.rounds[m]? = some x' ∧ x'.handler = some n) ∨
              (j = i₀ ∧ e = .arrive m ∧ n = s.server.handlers.length) := by
          intro j τ m x n hj hm hn
          rcases set_cases hj with ⟨rfl, rfl⟩ | ⟨-, hj⟩
          · rcases Talk.step_handler hu hm hn with ⟨x', hx', hn'⟩ | ⟨he, hnew⟩
            · exact .inl ⟨τ₀, x', hi₀, hx', hn'⟩
            · exact .inr ⟨rfl, he, hnew⟩
          · exact .inl ⟨τ, x, hj, hm, hn⟩
        have hlt : ∀ (j : Nat) τ (m : Nat) x n, s.talks[j]? = some τ → τ.rounds[m]? = some x →
            x.handler = some n → n < s.server.handlers.length := by
          intro j τ m x n hj hm hn
          obtain ⟨c, hc, -⟩ := ((hI.talks τ (List.mem_of_getElem? hj)).rounds x
            (List.mem_of_getElem? hm)).handler n hn
          exact (List.getElem?_eq_some_iff.mp hc).1
        intro i i' τ τ' m m' x x' n hi hi' hm hm' hn hn'
        rcases hcase i τ m x n hi hm hn with ⟨τa, xa, ha, hma, hna⟩ | ⟨rfl, he, hnew⟩
        · rcases hcase i' τ' m' x' n hi' hm' hn' with ⟨τb, xb, hb, hmb, hnb⟩ | ⟨-, -, hnew⟩
          · exact hI.apart i i' τa τb m m' xa xb n ha hb hma hmb hna hnb
          · have := hlt i τa m xa n ha hma hna
            omega
        · rcases hcase i' τ' m' x' n hi' hm' hn' with ⟨τb, xb, hb, hmb, hnb⟩ | ⟨rfl, he', -⟩
          · have := hlt i' τb m' xb n hb hmb hnb
            omega
          · rw [he] at he'
            cases he'
            exact ⟨rfl, rfl⟩
      · cases hs

end

/-- **Every wish is kept.** However the requests of the page, the answers to them, other
requests to the mover and its jobs interleave, and whichever answers are lost: a wish is
asked for once plainly, and once more at most, a transfer with what the user has chosen
and a rename with a password, and nothing else ever has a password; of the requests for a
transfer or a deletion one at most is taken on, by a handler of its own; when the page
reports success there is a job that does what was wished for; and where the mover starts a
transfer on a destination that exists, the user has been asked about it. -/
theorem wishes_kept (k : Kernel) (h : Host) (t : FileTree Bytes) (s : System)
    (hs : Reach (System.step k h) Any (.init t) s) :
    (∀ (i : Nat) τ, s.talks[i]? = some τ → Plan τ.wish τ.asks ∧
      (¬ τ.wish.Renames → ∀ (m m' : Nat) x x', τ.rounds[m]? = some x → τ.rounds[m']? = some x' →
        x.handler ≠ none → x'.handler ≠ none → m = m') ∧
      (τ.now = .closed true → ¬ τ.wish.Renames →
        ∃ id j, s.server.jobs.get id = some j ∧ τ.wish.Is j)) ∧
    (∀ (i i' : Nat) τ τ' (m m' : Nat) x x' n, s.talks[i]? = some τ → s.talks[i']? = some τ' →
      τ.rounds[m]? = some x → τ'.rounds[m']? = some x' → x.handler = some n →
      x'.handler = some n → i = i' ∧ m = m') ∧
    ∀ (i m : Nat) s' τ is_move src dst final_dst, s.talks[i]? = some τ →
      τ.wish = .transfer is_move src dst → s.step k h (.talk i (.arrive m)) = some s' →
      s'.server.handlers[s.server.handlers.length]?
        = some (.number (op_of is_move) src final_dst) →
      k.exists_ s.server.tree final_dst.full = true →
      ∃ c : Choice, τ.asks = [plain, ⟨"", c.strategy⟩] := by
  have hI : s.Inv := hs.inv (System.Inv.init t) fun _ _ _ hI _ hstep => hI.step hstep
  have hround : ∀ {i : Nat} {τ}, s.talks[i]? = some τ → τ.Inv s.server :=
    fun hτ => hI.talks _ (List.mem_of_getElem? hτ)
  refine ⟨fun i τ hτ => ⟨(hround hτ).plan, ?_, ?_⟩, hI.apart, ?_⟩
  · -- with two requests for a transfer, the first has been refused
    intro hnr m m' x x' hm hm' hx hx'
    have hsecond : ∀ (m : Nat) x, τ.rounds[m]? = some x → x.handler ≠ none →
        m = τ.rounds.length - 1 := by
      intro m x hm hx
      obtain ⟨hlt, -⟩ := List.getElem?_eq_some_iff.mp hm
      have hlen : τ.rounds.length = τ.asks.length := (List.length_map ..).symm
      have hplan := (hround hτ).plan
      by_cases h₁ : τ.rounds.length ≤ 1
      · omega
      · have ht : τ.wish.Transfers ∧ τ.asks.length = 2 := by
          revert hplan hlen
          generalize τ.asks = asks
          intro hlen hplan
          cases hplan with
          | once => exact absurd (le_of_eq hlen) h₁
          | choice c hw => exact ⟨hw, rfl⟩
          | password pw hw hpw => exact absurd hw hnr
        obtain ⟨ask, r, h₀⟩ := (hround hτ).again ht.1 (by omega)
        have hm₀ : m ≠ 0 := by
          rintro rfl
          rw [h₀] at hm
          cases hm
          exact hx rfl
        omega
    rw [hsecond m x hm hx, hsecond m' x' hm' hx']
  · intro hdone hnr
    rcases (hround hτ).closed hdone with hr | ⟨x, -, n, id, -, -, hjob⟩
    · exact absurd hr hnr
    · exact ⟨id, hjob⟩
  · intro i m s' τ is_move src dst final_dst hτ hw hstep hnew hx
    have hplan := (hround hτ).plan
    simp only [System.step, hτ] at hstep
    obtain ⟨⟨u, τ'⟩, hu, rfl⟩ := Option.map_eq_some_iff.mp hstep
    simp only [Talk.step] at hu
    split at hu
    · rename_i ask hm
      have hmem : ask ∈ τ.asks := List.mem_map.mpr ⟨_, List.mem_of_getElem? hm, rfl⟩
      rw [hw] at hu hplan
      simp only [arrive] at hu
      -- only a request that is accepted adds a handler
      have hold : ∀ c, s.server.handlers[s.server.handlers.length]? ≠ some c := by simp
      split at hu
      · cases hu
        exact absurd hnew (hold _)
      · rename_i final hr
        split at hu
        · cases hu
          exact absurd hnew (hold _)
        · cases hu
          obtain rfl : final = final_dst := by
            have hget : (s.server.handlers ++ [Handler.number (op_of is_move) src final])[
                s.server.handlers.length]? = some (.number (op_of is_move) src final) :=
              List.getElem?_concat_length
            have := hget.symm.trans hnew
            simpa using this
          have hst : ask ≠ plain := by
            rintro rfl
            rw [(resolve_free hr).2] at hx
            cases hx
          revert hplan hmem
          generalize τ.asks = asks
          intro hplan hmem
          cases hplan with
          | once => exact absurd (List.mem_singleton.mp hmem) hst
          | choice c hw => exact ⟨c, rfl⟩
          | password pw hw hpw => exact hw.elim
    · cases hu

/-- Two files. -/
def tree_two_files : FileTree Bytes :=
  (FileTree.empty.with_ [] "a" (.file [1])).with_ [] "b" (.file [2])

/-- The first is to be copied onto the second: there is a conflict, the user says to merge,
and the page is told of the job. -/
theorem wishes_kept_merge : ∃ s, Reach (System.step box box_host) Any (.init tree_two_files) s ∧
    s.talks.map Talk.asks = [[plain, ⟨"", .merge⟩]] ∧
    ∀ τ, s.talks[0]? = some τ → τ.now = .closed true → ¬ τ.wish.Renames →
      ∃ id j, s.server.jobs.get id = some j ∧ τ.wish.Is j := by
  have hrun : (exec (System.step box box_host) (.init tree_two_files)
      [.wish (.transfer false (.abs ["a"]) (.abs ["b"])), .talk 0 (.arrive 0), .talk 0 .receive,
        .talk 0 (.choose (some .merge)), .talk 0 (.arrive 1), .server (.handler 0 none .none),
        .server (.handler 0 none .none), .server (.handler 0 none .none), .talk 0 (.reply 1),
        .talk 0 .receive]).map (fun s => s.talks.map Talk.asks)
      = some [[plain, ⟨"", .merge⟩]] := by decide
  obtain ⟨s, hs, hout⟩ := Option.map_eq_some_iff.mp hrun
  have hreach := reach_of_exec hs
  exact ⟨s, hreach, hout, fun τ hτ =>
    ((wishes_kept box box_host tree_two_files s hreach).1 0 τ hτ).2.2⟩

end WebDavs.Dialogue
