/-
Every wish comes to an end.

The dialogues of the page and the mover together, when the user wishes for nothing more
and no other requests come in: whatever the answers, the questions and the jobs come to,
in whatever order, each wish is closed in the end, and each job says how it has ended.

In `Dialogue` each question can be answered as long as it is open. On the page there is one
window for each kind of question (`Page`), and a question that finds its window taken takes
it over: the question before it is not answered any more, and its wish is never closed.

A talk is a party like a handler or a thread. It weighs more than any handler, since a
request that comes in may bring one along; and it gets lighter with each of its steps,
since after the second request there is no third (`Talk.Inv.plan`).
-/
import WebDavs.Dialogue
import WebDavs.Ending

set_option autoImplicit false

namespace WebDavs.Dialogue

open WebDavs.Posix WebDavs.Steps WebDavs.Mover WebDavs.Interleave Relation
open WebDavs.Sudo hiding handle_move_copy handle_rename handle_delete handle

/-! ## Work left -/

/-- How far a request is from its answer. -/
def Stage.left : Stage → Nat
  | .sent => 4
  | .taken => 3
  | .elevated _ => 2
  | .answered _ => 1

/-- How far a talk of so many requests is from its end, apart from the requests. -/
def Now.left (rounds : Nat) : Now → Nat
  | .waiting => if rounds ≤ 1 then 20 else 2
  | .password _ _ => 10
  | .conflict _ => 10
  | .closed _ => 0

/-- What a talk has left. -/
def Talk.left (τ : Talk) : Nat × Nat :=
  (12, (τ.rounds.map fun x => x.stage.left).sum + τ.now.left τ.rounds.length)

/-- What all have left. -/
def System.left (s : System) : Multiset (Nat × Nat) :=
  (s.talks.map Talk.left : List (Nat × Nat)) + s.server.left

/-- Nothing new: no wish, and no request of anyone else. -/
def Event.Working : Event → Prop
  | .wish _ => False
  | .server a => a.Working
  | .talk _ _ => True

/-- What is sure to be possible in a talk: no answer is lost, and `sudo` is not counted
on. -/
def TalkEvent.Clean : TalkEvent → Prop
  | .helper _ _ _ => False
  | .lose => False
  | _ => True

/-- What is sure to be possible: no call of the mover fails of itself. -/
def Event.Clean : Event → Prop
  | .wish _ => False
  | .server a => a.Clean
  | .talk _ e => e.Clean

theorem Event.Clean.working {e : Event} (h : e.Clean) : e.Working := by
  cases e with
  | wish w => exact h
  | server a => exact Act.Clean.working h
  | talk i e => trivial

section

variable {k : Kernel} {h : Host} {s u : Server} {w : Wish} {τ τ' : Talk}

theorem left_enter (s : Server) (c : Handler) : (s.enter c).left = s.left + {c.left} := by
  simp only [Server.left, Server.enter, List.map_append, ← Multiset.coe_add]
  exact add_right_comm _ _ _

/-- A request that comes in is lighter then, and what it brings along is lighter than a
talk. -/
theorem arrive_left {ask : Ask} {n : Option Nat} {stage : Stage}
    (h : arrive k s ask w = (u, n, stage)) :
    stage.left ≤ 3 ∧ (u = s ∨ ∃ c, u = s.enter c ∧ c.left.1 ≤ 11) := by
  have hcase := arrive_cases k s ask w
  rw [h] at hcase
  cases hcase with
  | answered r => exact ⟨by simp [Stage.left], .inl rfl⟩
  | elevated req => exact ⟨by simp [Stage.left], .inl rfl⟩
  | numbered op src dst => exact ⟨by simp [Stage.left], .inr ⟨_, rfl, by simp [Handler.left]⟩⟩
  | checked src dst => exact ⟨by simp [Stage.left], .inr ⟨_, rfl, by simp [Handler.left]⟩⟩

theorem replied_left {ask : Ask} {q : Mover.Reply} {stage : Stage}
    (h : replied w ask q = some stage) : stage.left ≤ 2 := by
  cases q with
  | accepted id =>
      cases h
      simp [Stage.left]
  | deduped id =>
      cases h
      simp [Stage.left]
  | renamed dst =>
      cases w with
      | transfer is_move src dst => cases h
      | delete src => cases h
      | rename src name =>
          cases h
          simp [Stage.left]
  | failed e =>
      cases w with
      | transfer is_move src dst => cases h
      | delete src => cases h
      | rename src name =>
          simp only [replied] at h
          split at h
          · split at h
            · cases h
              simp [Stage.left]
            · cases h
              simp [Stage.left]
          · cases h
            simp [Stage.left]

/-- A request of a talk has got further. -/
theorem Talk.put_left {m : Nat} {x y : Round} (hm : τ.rounds[m]? = some x)
    (hless : y.stage.left < x.stage.left) : (τ.put m y).left.2 < τ.left.2 := by
  have hsum := Pool.sum_set (fun x : Round => x.stage.left) y hm
  show ((τ.rounds.set m y).map fun x => x.stage.left).sum
      + τ.now.left (τ.rounds.set m y).length < (τ.rounds.map fun x => x.stage.left).sum
      + τ.now.left τ.rounds.length
  rw [List.length_set]
  omega

/-- The page asks once more, after the first request. -/
theorem Talk.send_left (ask : Ask) (hlen : τ.rounds.length = 1) (hnow : 10 ≤ τ.now.left 1) :
    (τ.send ask).left.2 < τ.left.2 := by
  have hlen' : (τ.rounds ++ [(⟨ask, none, .sent⟩ : Round)]).length = 2 := by
    rw [List.length_append, hlen]
    rfl
  simp only [Talk.left, Talk.send, hlen, hlen', List.map_append, List.sum_append, List.map_cons,
    List.map_nil, List.sum_cons, List.sum_nil, Stage.left]
  have hwait : Now.left 2 .waiting = 2 := rfl
  omega

/-- A talk that waits for the user has made one request. -/
theorem Talk.Inv.one_round (hτ : τ.Inv s) {ask : Ask}
    (h : (∃ err, τ.now = .password ask err) ∨ τ.now = .conflict ask) : τ.rounds.length = 1 := by
  have h₁ : τ.asks = [plain] := by
    rcases h with ⟨err, hn⟩ | hn
    · exact (hτ.password ask err hn).2
    · exact (hτ.conflict ask hn).2.2.1
  rw [← List.length_map (f := Round.ask)]
  exact congrArg List.length h₁

/-- When an answer arrives the page closes the talk, or asks the user after the first
request. -/
theorem Talk.received_left {x : Round} {q : Sudo.Reply} (hτ : (τ.received x.ask q).Inv s)
    (hnow : τ.now = .waiting) : (τ.received x.ask q).left.2 < τ.left.2 := by
  have hrounds : (τ.received x.ask q).rounds = τ.rounds := by
    unfold Talk.received
    split
    · rfl
    · split
      · rfl
      · rcases τ.refused_cases x.ask _ with he | ⟨-, -, he⟩ <;> rw [he]
  -- an answer always ends the waiting
  have hnot : (τ.received x.ask q).now ≠ .waiting := by
    unfold Talk.received
    split
    · simp
    · split
      · simp
      · rename_i err _ _
        rcases τ.refused_cases x.ask err with he | ⟨-, -, he⟩
        · simp [he]
        · simp [he]
  -- the user is asked after the first request only, so the rounds that are left are known
  have hone : ∀ ask, ((∃ err, (τ.received x.ask q).now = .password ask err) ∨
      (τ.received x.ask q).now = .conflict ask) → (τ.received x.ask q).rounds.length = 1 :=
    fun _ h => hτ.one_round h
  rw [hrounds] at hone
  simp only [Talk.left, hrounds, hnow]
  generalize (τ.received x.ask q).now = now at hone hnot ⊢
  cases now with
  | waiting => exact absurd rfl hnot
  | password ask err =>
      rw [hone ask (.inl ⟨err, rfl⟩)]
      simp [Now.left]
  | conflict ask =>
      rw [hone ask (.inr rfl)]
      simp [Now.left]
  | closed done =>
      simp only [Now.left]
      split <;> omega

/-- A step of a talk leaves the mover as it is but for the tree, or a handler comes in. -/
theorem Talk.step_server {e : TalkEvent} (hs : τ.step k s e = some (u, τ')) :
    (∃ t, u = { s with tree := t }) ∨ ∃ c, u = s.enter c ∧ c.left.1 ≤ 11 := by
  cases Talk.step_cases hs with
  | arrived m ask u n stage hm harr => exact (arrive_left harr).2.imp_left fun he => ⟨s.tree, he⟩
  | helped e m ask n req rc out t hm => exact .inl ⟨t, rfl⟩
  | _ => exact .inl ⟨s.tree, rfl⟩

/-- **Each step of a talk brings it on.** -/
theorem Talk.step_left {e : TalkEvent} (hI : s.Inv) (hτ : τ.Inv s)
    (hs : τ.step k s e = some (u, τ')) :
    τ'.left.2 < τ.left.2 := by
  have htalk := (hτ.step hI hs).2.2
  cases Talk.step_cases hs with
  | arrived m ask u n stage hm harr =>
      have := (arrive_left harr).1
      apply Talk.put_left hm
      show stage.left < 4
      omega
  | replied m ask n q stage hm hn hq =>
      have := replied_left hq
      apply Talk.put_left hm
      show stage.left < 3
      omega
  | helped e m ask n req rc out t hm =>
      exact Talk.put_left hm (by simp [Stage.left])
  | received x q hnow hlast hq => exact Talk.received_left htalk hnow
  | lost hnow =>
      simp only [Talk.left, hnow, Now.left]
      split <;> omega
  | typed ask err pw hnow =>
      have hlen := hτ.one_round (.inl ⟨err, hnow⟩)
      -- a refusal ends the talk of a rename or a deletion, which cannot ask what to do on a
      -- conflict
      have hclose : (τ.refused ask err).left.2 < τ.left.2 := by
        have hren := (hτ.password ask err hnow).1
        rcases τ.refused_cases ask err with he | ⟨ht, -, -⟩
        · rw [he]
          simp [Talk.left, hnow, Now.left]
        · exact (Wish.not_both ht hren).elim
      cases pw with
      | none => exact hclose
      | some pw =>
          simp only [Talk.typed]
          split
          · exact hclose
          · exact Talk.send_left _ hlen (by simp [hnow, Now.left])
  | chosen ask c hnow =>
      cases c with
      | none => simp [Talk.chosen, Talk.left, hnow, Now.left]
      | some c => exact Talk.send_left _ (hτ.one_round (.inr hnow)) (by simp [hnow, Now.left])

/-- **Every event leaves less to do.** -/
theorem System.left_less {s s' : System} {e : Event} (hI : s.Inv) (hs : s.step k h e = some s')
    (he : e.Working) : CutExpand (Prod.Lex (· < ·) (· < ·)) s'.left s.left := by
  cases e with
  | wish w => exact he.elim
  | server a =>
      obtain ⟨u, hu, rfl⟩ := Option.map_eq_some_iff.mp hs
      exact (cutExpand_add_left _).mpr (Server.left_less hu he)
  | talk i e =>
      simp only [System.step] at hs
      split at hs
      · rename_i τ hi
        obtain ⟨⟨u, τ'⟩, hu, rfl⟩ := Option.map_eq_some_iff.mp hs
        have hless := Talk.step_left hI.server (hI.talks τ (List.mem_of_getElem? hi)) hu
        have hget : (s.talks.map Talk.left)[i]? = some τ.left := by
          rw [List.getElem?_map, hi, Option.map_some]
        have hlex : Prod.Lex (· < ·) (· < ·) τ'.left τ.left := .right _ hless
        simp only [System.left, List.map_set]
        rcases Talk.step_server hu with ⟨t, rfl⟩ | ⟨c, rfl, hc⟩
        · have hcut := cut_set (s := 0) hget hlex (by simp) s.server.left
          rwa [add_zero] at hcut
        · -- the handler that comes in weighs less than the talk did
          have hless' : ∀ z ∈ ({c.left} : Multiset (Nat × Nat)),
              Prod.Lex (· < ·) (· < ·) z τ.left := by
            intro z hz
            obtain rfl := Multiset.mem_singleton.mp hz
            exact Prod.lex_def.mpr (.inl (show c.left.1 < 12 by omega))
          rw [left_enter]
          exact cut_set hget hlex hless' s.server.left
      · cases hs

/-! ## It goes on -/

/-- A handler that is at work on a wish has something to say to it. -/
theorem replied_isSome {ask : Ask} {q : Mover.Reply} {m : Registry} (hq : Suits m w (.replied q)) :
    (replied w ask q).isSome = true := by
  cases q with
  | accepted id => rfl
  | deduped id => rfl
  | renamed dst =>
      cases w with
      | transfer is_move src dst => exact hq.elim
      | delete src => exact hq.elim
      | rename src name => rfl
  | failed e =>
      cases w with
      | transfer is_move src dst => exact hq.elim
      | delete src => exact hq.elim
      | rename src name =>
          simp only [replied]
          split
          · split <;> rfl
          · rfl

/-- Every wish is closed. -/
def System.Closed (s : System) : Prop := ∀ τ ∈ s.talks, ∃ done, τ.now = .closed done

/-- A talk that is not closed goes on, once the handlers have answered. -/
theorem Talk.goes_on (hτ : τ.Inv s) (hans : s.Answered) (hno : ∀ done, τ.now ≠ .closed done) :
    ∃ e, TalkEvent.Clean e ∧ (τ.step k s e).isSome = true := by
  cases hnow : τ.now with
  | closed done => exact absurd hnow (hno done)
  | password ask err => exact ⟨.password none, trivial, by simp [Talk.step, hnow]⟩
  | conflict ask => exact ⟨.choose none, trivial, by simp [Talk.step, hnow]⟩
  | waiting =>
      -- it waits for its last request
      have hne : τ.rounds ≠ [] := by
        intro hnil
        have hplan := hτ.plan
        rw [Talk.asks, hnil] at hplan
        cases hplan
      obtain ⟨x, hlast⟩ : ∃ x, τ.rounds.getLast? = some x :=
        Option.isSome_iff_exists.mp (by simpa using hne)
      obtain ⟨m, hm⟩ := List.mem_iff_getElem?.mp (List.mem_of_getLast? hlast)
      have hx := hτ.rounds x (List.mem_of_getLast? hlast)
      obtain ⟨ask, n, stage⟩ := x
      cases stage with
      | sent =>
          obtain rfl : n = none := hx.sent rfl
          exact ⟨.arrive m, trivial, by simp only [Talk.step, hm, Option.isSome_some]⟩
      | taken =>
          obtain ⟨n, rfl⟩ := Option.ne_none_iff_exists'.mp (hx.taken rfl)
          obtain ⟨c, hc, hsuits⟩ := hx.handler n rfl
          obtain ⟨q, rfl⟩ := hans c (List.mem_of_getElem? hc)
          refine ⟨.reply m, trivial, ?_⟩
          simp only [Talk.step, hm, hc, Option.isSome_map]
          exact replied_isSome hsuits
      | elevated req =>
          exact ⟨.denied m, trivial, by simp [Talk.step, hm]⟩
      | answered q =>
          exact ⟨.receive, trivial, by simp [Talk.step, hnow, hlast]⟩

/-- The mover keeps what it keeps while it talks to the page. -/
theorem System.manned_step {s s' : System} {e : Event} (hI : s.Inv) (hK : s.server.Manned)
    (hs : s.step k h e = some s') : s'.server.Manned := by
  cases e with
  | wish w =>
      cases hs
      exact hK
  | server a =>
      obtain ⟨u, hu, rfl⟩ := Option.map_eq_some_iff.mp hs
      exact hK.step hI.server hu
  | talk i e =>
      simp only [System.step] at hs
      split at hs
      · obtain ⟨⟨u, τ'⟩, hu, rfl⟩ := Option.map_eq_some_iff.mp hs
        rcases Talk.step_server hu with ⟨t, rfl⟩ | ⟨c, rfl, -⟩
        · exact ⟨hK.keys, hK.in_range, hK.manned⟩
        · exact hK.enter c
      · cases hs

end

/-! ## The modals -/

/-- The two windows that a question is put in. There is one of each kind on the page. -/
inductive Modal where
  | password
  | conflict
deriving DecidableEq

/-- The question that a talk has open. -/
def Now.modal : Now → Option Modal
  | .waiting => none
  | .password _ _ => some .password
  | .conflict _ => some .conflict
  | .closed _ => none

/-- The window whose button the user clicks. -/
def TalkEvent.modal : TalkEvent → Option Modal
  | .password _ => some .password
  | .choose _ => some .conflict
  | _ => none

/-- The code of the page goes on with the talk. -/
def TalkEvent.resumes : TalkEvent → Bool
  | .receive => true
  | .password _ => true
  | .choose _ => true
  | _ => false

/-- The page with its windows: the talk that the buttons of each answer. `askPassword` and
`askConflict` set the buttons anew each time, so that a question which is still open then
has none any more. -/
structure Page where
  system : System
  buttons : Modal → Option Nat

/-- One event of the page: one of its talks or of the mover, or the password window is
taken for something else (`askConfirm`, and the listing of a directory). -/
inductive Click where
  | event (e : Event)
  | prompt

namespace Page

/-- Before the first wish. -/
def init (t : FileTree Bytes) : Page := ⟨.init t, fun _ => none⟩

/-- The question that the talk `i` has open. -/
def asked (p : Page) (i : Nat) : Option Modal := p.system.talks[i]?.bind fun τ => τ.now.modal

/-- The buttons after the event `e` of the talk `i`, which has left the system `s`: a question
that the talk has come to takes its window, and a window that was answered is closed. -/
def buttons_after (p : Page) (i : Nat) (e : TalkEvent) (s : System) (m : Modal) : Option Nat :=
  if e.resumes ∧ asked ⟨s, p.buttons⟩ i = some m then some i
  else if e.modal = some m then none
  else p.buttons m

/-- One event. A question is answered by the buttons that are its own. -/
def step (k : Kernel) (h : Host) (p : Page) : Click → Option Page
  | .event (.talk i e) =>
    if e.modal.all fun m => p.buttons m = some i then
      (p.system.step k h (.talk i e)).map fun s => ⟨s, p.buttons_after i e s⟩
    else none
  | .event (.wish w) => (p.system.step k h (.wish w)).map fun s => ⟨s, p.buttons⟩
  | .event (.server a) => (p.system.step k h (.server a)).map fun s => ⟨s, p.buttons⟩
  | .prompt => some ⟨p.system, Function.update p.buttons .password none⟩

/-- The talk `i` has a question open that has no buttons any more. -/
def Stranded (p : Page) (i : Nat) : Prop := ∃ m, p.asked i = some m ∧ p.buttons m ≠ some i

/-- Each wish is closed, or its question has no buttons any more. -/
def AtRest (p : Page) : Prop :=
  ∀ i τ, p.system.talks[i]? = some τ → (∃ done, τ.now = .closed done) ∨ p.Stranded i

/-- Of each kind at most one question is open. -/
def Single (p : Page) : Prop := ∀ i j m, p.asked i = some m → p.asked j = some m → i = j

end Page

/-- Nothing new: no wish, no request of anyone else, and no other question to the user. -/
def Click.Working : Click → Prop
  | .event e => e.Working
  | .prompt => False

/-- What is sure to be possible. -/
def Click.Clean : Click → Prop
  | .event e => e.Clean
  | .prompt => False

section

variable {k : Kernel} {h : Host} {p q : Page} {c : Click} {i : Nat} {m : Modal} {s : System}
variable {τ τ' : Talk} {e : TalkEvent}

theorem Click.Clean.working (hc : c.Clean) : c.Working := by
  cases c with
  | event e => exact Event.Clean.working hc
  | prompt => exact hc

theorem Page.asked_eq_some : p.asked i = some m ↔
    ∃ τ, p.system.talks[i]? = some τ ∧ τ.now.modal = some m := Option.bind_eq_some_iff

/-- **An event of the page** is one of the page without windows, or another question. -/
theorem Page.step_cases (hs : p.step k h c = some q) :
    (∃ i e, c = .event (.talk i e) ∧ (∀ m, e.modal = some m → p.buttons m = some i) ∧
      p.system.step k h (.talk i e) = some q.system ∧
      q.buttons = p.buttons_after i e q.system) ∨
    (∃ e, c = .event e ∧ (∀ i e', e ≠ .talk i e') ∧ p.system.step k h e = some q.system ∧
      q.buttons = p.buttons) ∨
    c = .prompt ∧ q.system = p.system ∧ ∀ m, q.buttons m = p.buttons m ∨ q.buttons m = none := by
  cases c with
  | event e =>
      cases e with
      | wish w =>
          simp only [Page.step] at hs
          obtain ⟨s', hs', rfl⟩ := Option.map_eq_some_iff.mp hs
          exact .inr (.inl ⟨_, rfl, by simp, hs', rfl⟩)
      | server a =>
          obtain ⟨s', hs', rfl⟩ := Option.map_eq_some_iff.mp hs
          exact .inr (.inl ⟨_, rfl, by simp, hs', rfl⟩)
      | talk i e =>
          simp only [Page.step] at hs
          split at hs
          · rename_i hmine
            obtain ⟨s', hs', rfl⟩ := Option.map_eq_some_iff.mp hs
            refine .inl ⟨i, e, rfl, fun m hm => ?_, hs', rfl⟩
            rw [hm, Option.all_some] at hmine
            exact of_decide_eq_true hmine
          · cases hs
  | prompt =>
      cases hs
      refine .inr (.inr ⟨rfl, rfl, fun m => ?_⟩)
      by_cases hm : m = .password
      · subst hm
        exact .inr (Function.update_self (f := p.buttons) Modal.password none)
      · exact .inl (Function.update_of_ne (f := p.buttons) hm none)

/-- An open question is answered by its window, or stays as it is. -/
theorem Talk.step_of_asked {s u : Server} (hs : τ.step k s e = some (u, τ'))
    (hm : τ.now.modal = some m) :
    e.modal = some m ∨ e.modal = none ∧ e.resumes = false ∧ τ'.now = τ.now := by
  cases e with
  | arrive n =>
      simp only [Talk.step] at hs
      split at hs
      · cases hs
        exact .inr ⟨rfl, rfl, rfl⟩
      · cases hs
  | reply n =>
      simp only [Talk.step] at hs
      split at hs
      · split at hs
        · obtain ⟨stage, -, heq⟩ := Option.map_eq_some_iff.mp hs
          cases heq
          exact .inr ⟨rfl, rfl, rfl⟩
        · cases hs
      · cases hs
  | helper n fuel fs =>
      simp only [Talk.step] at hs
      split at hs
      · obtain ⟨o, -, heq⟩ := Option.map_eq_some_iff.mp hs
        cases heq
        exact .inr ⟨rfl, rfl, rfl⟩
      · cases hs
  | denied n =>
      simp only [Talk.step] at hs
      split at hs
      · cases hs
        exact .inr ⟨rfl, rfl, rfl⟩
      · cases hs
  -- the page does not wait for an answer while a question is open
  | receive =>
      cases hnow : τ.now with
      | waiting =>
          rw [hnow] at hm
          cases hm
      | _ => simp [Talk.step, hnow] at hs
  | lose =>
      cases hnow : τ.now with
      | waiting =>
          rw [hnow] at hm
          cases hm
      | _ => simp [Talk.step, hnow] at hs
  | password typed =>
      cases hnow : τ.now with
      | password ask err =>
          rw [hnow] at hm
          exact .inl hm
      | _ => simp [Talk.step, hnow] at hs
  | choose c =>
      cases hnow : τ.now with
      | conflict ask =>
          rw [hnow] at hm
          exact .inl hm
      | _ => simp [Talk.step, hnow] at hs

/-- The talk of an event, before and after it. -/
theorem System.talk_step {s' : System} (hs : s.step k h (.talk i e) = some s') :
    ∃ τ u τ', s.talks[i]? = some τ ∧ τ.step k s.server e = some (u, τ') ∧
      s'.talks[i]? = some τ' ∧ ∀ j, j ≠ i → s'.talks[j]? = s.talks[j]? := by
  simp only [System.step] at hs
  split at hs
  · rename_i τ hi
    obtain ⟨⟨u, τ'⟩, hu, rfl⟩ := Option.map_eq_some_iff.mp hs
    have hlt := (List.getElem?_eq_some_iff.mp hi).1
    exact ⟨τ, u, τ', hi, hu, List.getElem?_set_self hlt, fun j hj =>
      List.getElem?_set_ne fun heq => hj heq.symm⟩
  · cases hs

/-- What others do opens no question and closes none. -/
theorem System.asked_of_other {e : Event} {s' : System} (hs : s.step k h e = some s')
    (he : ∀ i e', e ≠ .talk i e') {b : Modal → Option Nat} (j : Nat) :
    Page.asked ⟨s', b⟩ j = some m ↔ Page.asked ⟨s, b⟩ j = some m := by
  cases e with
  | talk i e' => exact absurd rfl (he i e')
  | server a =>
      obtain ⟨u, -, rfl⟩ := Option.map_eq_some_iff.mp hs
      exact Iff.rfl
  | wish w =>
      cases hs
      -- a talk that starts waits for its answer
      rw [Page.asked_eq_some, Page.asked_eq_some]
      show (∃ τ, (s.talks ++ [Talk.start w])[j]? = some τ ∧ _) ↔ _
      constructor
      · rintro ⟨τ, hτ, hm⟩
        rw [List.getElem?_append] at hτ
        split at hτ
        · exact ⟨τ, hτ, hm⟩
        · obtain rfl := List.mem_singleton.mp (List.mem_of_getElem? hτ)
          cases hm
      · rintro ⟨τ, hτ, hm⟩
        exact ⟨τ, (List.getElem?_append_left (List.getElem?_eq_some_iff.mp hτ).1).trans hτ, hm⟩

/-- **A question that has lost its buttons stays open.** -/
theorem Page.stranded_step (hst : p.Stranded i) (hs : p.step k h c = some q) : q.Stranded i := by
  obtain ⟨m, hm, hb⟩ := hst
  refine ⟨m, ?_⟩
  rcases Page.step_cases hs with ⟨j, e, -, hmine, hstep, hbut⟩ | ⟨e, -, hne, hstep, hbut⟩ |
    ⟨-, hsys, hbut⟩
  · obtain ⟨τ, u, τ', hi, hτ, hi', hold⟩ := System.talk_step hstep
    rw [hbut]
    by_cases hij : i = j
    · subst hij
      obtain ⟨τ₀, hi₀, hmod⟩ := Page.asked_eq_some.mp hm
      obtain rfl := Option.some.inj (hi₀.symm.trans hi)
      rcases Talk.step_of_asked hτ hmod with hmine' | ⟨hnone, hidle, hnow⟩
      · exact absurd (hmine m hmine') hb
      · have hsame : q.asked i = some m := Page.asked_eq_some.mpr ⟨τ', hi', hnow ▸ hmod⟩
        exact ⟨hsame, by simpa [Page.buttons_after, hidle, hnone] using hb⟩
    · have hsame : q.asked i = p.asked i := by rw [Page.asked, Page.asked, hold i hij]
      refine ⟨hsame.trans hm, ?_⟩
      unfold Page.buttons_after
      split
      · simpa using fun heq => hij heq.symm
      · split
        · simp
        · exact hb
  · exact ⟨(System.asked_of_other hstep hne i).mpr hm, by rwa [hbut]⟩
  · refine ⟨by rw [Page.asked, hsys]; exact hm, ?_⟩
    rcases hbut m with heq | heq
    · rwa [heq]
    · rw [heq]
      simp

/-- A wish whose question has lost its buttons is never closed. -/
theorem Page.stranded_stays (hst : p.Stranded i) (hr : Reach (Page.step k h) Any p q) :
    q.Stranded i :=
  hr.inv (I := fun p : Page => p.Stranded i) hst fun _ _ _ hst _ hs =>
    Page.stranded_step hst hs

/-- What is open without the page going on with the talk was open before. -/
theorem Talk.step_modal {s u : Server} (hs : τ.step k s e = some (u, τ'))
    (he : e.resumes = false) (hm : τ'.now.modal = some m) : τ.now.modal = some m := by
  cases Talk.step_cases hs with
  | arrived m' ask u n stage hm' harr => exact hm
  | replied m' ask n q stage hm' hn hq => exact hm
  | helped e m' ask n req rc out t hm' => exact hm
  | received x q hnow hlast hq => cases he
  | lost hnow => cases hm
  | typed ask err pw hnow => cases he
  | chosen ask c hnow => cases he

/-- **No question loses its buttons** while of each kind at most one is open. -/
theorem Page.not_stranded_step (hno : ∀ i, ¬ p.Stranded i) (hc : c.Working) (hq : q.Single)
    (hs : p.step k h c = some q) : ∀ i, ¬ q.Stranded i := by
  have hown : ∀ {i m}, p.asked i = some m → p.buttons m = some i := fun hm => by
    by_contra hne
    exact hno _ ⟨_, hm, hne⟩
  rintro j ⟨m, hm, hb⟩
  apply hb
  rcases Page.step_cases hs with ⟨i, e, -, hmine, hstep, hbut⟩ | ⟨e, -, hne, hstep, hbut⟩ |
    ⟨rfl, -⟩
  · obtain ⟨τ, u, τ', hi, hτ, hi', hold⟩ := System.talk_step hstep
    rw [hbut, Page.buttons_after]
    by_cases hij : j = i
    · subst hij
      split
      · rfl
      · rename_i hidle
        have hidle' : e.resumes = false := by
          cases hr : e.resumes with
          | false => rfl
          | true => exact absurd ⟨hr, hm⟩ hidle
        have hnone : e.modal = none := by
          cases e with
          | password typed => cases hidle'
          | choose c => cases hidle'
          | _ => rfl
        obtain ⟨τ₀, hi₀, hmod⟩ := Page.asked_eq_some.mp hm
        obtain rfl := Option.some.inj (hi₀.symm.trans hi')
        rw [hnone, if_neg (by simp)]
        exact hown (Page.asked_eq_some.mpr ⟨τ, hi, Talk.step_modal hτ hidle' hmod⟩)
    · have hmine' := hown (show p.asked j = some m by rwa [Page.asked, ← hold j hij])
      split
      · rename_i hnew
        exact congrArg some (hq i j m hnew.2 hm)
      · split
        · rename_i hanswer
          rw [hmine m hanswer, Option.some.injEq] at hmine'
          exact absurd hmine'.symm hij
        · exact hmine'
  · rw [hbut]
    exact hown ((System.asked_of_other hstep hne j).mp hm)
  · exact hc.elim

/-- What a talk can do it can do on the page, if the windows that it takes are its own. -/
theorem Page.talks (h : Host) {u : Server} (hi : p.system.talks[i]? = some τ)
    (hτ : τ.step k p.system.server e = some (u, τ'))
    (hmine : ∀ m, e.modal = some m → p.buttons m = some i) :
    ∃ q, p.step k h (.event (.talk i e)) = some q ∧ q.asked i = τ'.now.modal ∧
      ∀ j, j ≠ i → q.asked j = p.asked j := by
  have hlt := (List.getElem?_eq_some_iff.mp hi).1
  let s : System := ⟨u, p.system.talks.set i τ'⟩
  have hall : (e.modal.all fun m => p.buttons m = some i) = true := by
    cases hm : e.modal with
    | none => rfl
    | some m => exact decide_eq_true (hmine m hm)
  refine ⟨⟨s, p.buttons_after i e s⟩, ?_, ?_, fun j hj => ?_⟩
  · simp only [Page.step, hall, if_true, System.step, hi, hτ, Option.map_some]
    rfl
  · rw [Page.asked, List.getElem?_set_self hlt, Option.bind_some]
  · rw [Page.asked, Page.asked, List.getElem?_set_ne fun heq => hj heq.symm]

/-- A question that has its buttons can be answered: the window is closed, and at most the
other one is opened. -/
theorem Page.answers (h : Host) (hm : p.asked i = some m) (hb : p.buttons m = some i) :
    ∃ c q, Click.Clean c ∧ p.step k h c = some q ∧ (∀ j, j ≠ i → q.asked j = p.asked j) ∧
      (∀ m', q.asked i = some m' → m = .password ∧ m' = .conflict) := by
  obtain ⟨τ, hi, hmod⟩ := Page.asked_eq_some.mp hm
  cases hnow : τ.now with
  | waiting =>
      rw [hnow] at hmod
      cases hmod
  | closed done =>
      rw [hnow] at hmod
      cases hmod
  | password ask err =>
      rw [hnow] at hmod
      obtain rfl := Option.some.inj hmod
      have hτ : τ.step k p.system.server (.password none)
          = some (p.system.server, τ.refused ask err) := by
        simp only [Talk.step, hnow, Talk.typed]
      obtain ⟨q, hq, hself, hold⟩ := Page.talks h hi hτ fun m' hm' => Option.some.inj hm' ▸ hb
      refine ⟨.event (.talk i (.password none)), q, trivial, hq, hold, fun m' hm' => ⟨rfl, ?_⟩⟩
      rw [hself] at hm'
      rcases τ.refused_cases ask err with he | ⟨-, -, he⟩
      · rw [he] at hm'
        cases hm'
      · rw [he] at hm'
        exact (Option.some.inj hm').symm
  | conflict ask =>
      rw [hnow] at hmod
      obtain rfl := Option.some.inj hmod
      have hτ : τ.step k p.system.server (.choose none)
          = some (p.system.server, { τ with now := .closed false }) := by
        simp only [Talk.step, hnow, Talk.chosen]
      obtain ⟨q, hq, hself, hold⟩ := Page.talks h hi hτ fun m' hm' => Option.some.inj hm' ▸ hb
      refine ⟨.event (.talk i (.choose none)), q, trivial, hq, hold, fun m' hm' => ?_⟩
      rw [hself] at hm'
      cases hm'

/-- **All is at rest, or something can happen** that is no answer to a question. -/
theorem Page.goes_on (h : Host) (hI : p.system.Inv) (hK : p.system.server.Manned)
    (hst : ∀ i m, p.asked i = some m → p.Stranded i) :
    p.AtRest ∧ p.system.server.Settled k ∨ ∃ c q, Click.Clean c ∧ p.step k h c = some q := by
  rcases Server.goes_on (k := k) h hI.server hK with hset | ⟨a, u, ha, hu⟩
  · by_cases hwait : ∃ (i : Nat) (τ : Talk), p.system.talks[i]? = some τ ∧ τ.now = .waiting
    · obtain ⟨i, τ, hi, hnow⟩ := hwait
      obtain ⟨e, hclean, hsome⟩ := Talk.goes_on (k := k) (hI.talks τ (List.mem_of_getElem? hi))
        hset.1 (by simp [hnow])
      obtain ⟨x, hx⟩ := Option.isSome_iff_exists.mp hsome
      have hnone : e.modal = none := by
        cases e with
        | password typed => simp [Talk.step, hnow] at hx
        | choose c => simp [Talk.step, hnow] at hx
        | _ => rfl
      obtain ⟨q, hq, -⟩ := Page.talks h hi hx fun m hm => by
        rw [hnone] at hm
        cases hm
      exact .inr ⟨.event (.talk i e), q, hclean, hq⟩
    · refine .inl ⟨fun i τ hi => ?_, hset⟩
      cases hnow : τ.now with
      | waiting => exact absurd ⟨i, τ, hi, hnow⟩ hwait
      | closed done => exact .inl ⟨done, rfl⟩
      | password ask err =>
          exact .inr (hst i .password (Page.asked_eq_some.mpr ⟨τ, hi, by rw [hnow]; rfl⟩))
      | conflict ask =>
          exact .inr (hst i .conflict (Page.asked_eq_some.mpr ⟨τ, hi, by rw [hnow]; rfl⟩))
  · refine .inr ⟨.event (.server a), ⟨{ p.system with server := u }, p.buttons⟩, ha, ?_⟩
    simp only [Page.step, System.step, hu, Option.map_some]

/-- What the page and the mover keep, they keep with the windows. -/
theorem Page.keeps (hI : p.system.Inv ∧ p.system.server.Manned) (hs : p.step k h c = some q) :
    q.system.Inv ∧ q.system.server.Manned := by
  have hkeep : ∀ {e : Event}, p.system.step k h e = some q.system →
      q.system.Inv ∧ q.system.server.Manned := fun hstep =>
    ⟨hI.1.step hstep, System.manned_step hI.1 hI.2 hstep⟩
  rcases Page.step_cases hs with ⟨i, e, -, -, hstep, -⟩ | ⟨e, -, -, hstep, -⟩ | ⟨-, hsys, -⟩
  · exact hkeep hstep
  · exact hkeep hstep
  · rw [hsys]
    exact hI

/-- Every event leaves less to do. -/
theorem Page.left_less (hI : p.system.Inv) (hs : p.step k h c = some q) (hc : c.Working) :
    CutExpand (Prod.Lex (· < ·) (· < ·)) q.system.left p.system.left := by
  rcases Page.step_cases hs with ⟨i, e, rfl, -, hstep, -⟩ | ⟨e, rfl, -, hstep, -⟩ | ⟨rfl, -, -⟩
  · exact System.left_less hI hstep hc
  · exact System.left_less hI hstep hc
  · exact hc.elim

/-- The questions that the talk `i` opens are the only ones of their kind. -/
theorem Page.single_of (hold : ∀ j, j ≠ i → q.asked j = p.asked j) (hp : p.Single)
    (hnew : ∀ m, q.asked i = some m → ∀ j, p.asked j ≠ some m) : q.Single := by
  intro j l m hj hl
  by_cases hji : j = i
  · by_cases hli : l = i
    · rw [hji, hli]
    · rw [hold l hli] at hl
      exact absurd hl (hnew m (hji ▸ hj) l)
  · rw [hold j hji] at hj
    by_cases hli : l = i
    · exact absurd hj (hnew m (hli ▸ hl) j)
    · rw [hold l hli] at hl
      exact hp j l m hj hl

/-- From where no question is open, at most one is opened. -/
theorem Page.single_of_none (hno : ∀ i m, p.asked i ≠ some m) (hs : p.step k h c = some q) :
    q.Single := by
  rcases Page.step_cases hs with ⟨i, e, -, -, hstep, -⟩ | ⟨e, -, hne, hstep, -⟩ | ⟨-, hsys, -⟩
  · obtain ⟨-, -, -, -, -, -, hold⟩ := System.talk_step hstep
    refine Page.single_of (i := i) (p := p) (fun j hj => ?_) (fun j _ m hj => absurd hj (hno j m))
      fun m _ j => hno j m
    rw [Page.asked, Page.asked, hold j hj]
  · exact fun j _ m hj => absurd ((System.asked_of_other hstep hne j).mp hj) (hno j m)
  · intro j _ m hj
    rw [Page.asked, hsys] at hj
    exact absurd hj (hno j m)

end

/-- After the event, of each kind at most one question is open. -/
def Alone (k : Kernel) (h : Host) (p : Page) (c : Click) : Prop :=
  ∀ q, p.step k h c = some q → q.Single

/-- Where each open question has its buttons, something can happen without a second
question of a kind. -/
theorem Page.goes_on_alone {k : Kernel} (h : Host) {p : Page} (hI : p.system.Inv)
    (hK : p.system.server.Manned) (hno : ∀ i, ¬ p.Stranded i) :
    p.system.Closed ∧ p.system.server.Settled k ∨
      ∃ c q, (Click.Clean c ∧ Alone k h p c) ∧ p.step k h c = some q := by
  have hown : ∀ {i m}, p.asked i = some m → p.buttons m = some i := fun hm => by
    by_contra hne
    exact hno _ ⟨_, hm, hne⟩
  have hsingle : p.Single := fun i j m hi hj =>
    Option.some.inj ((hown hi).symm.trans (hown hj))
  -- a question is answered: that on a conflict before that for a password, which may lead to one
  have hanswer : ∀ {i m}, p.asked i = some m →
      (m = .password → ∀ j, p.asked j ≠ some .conflict) →
      ∃ c q, (Click.Clean c ∧ Alone k h p c) ∧ p.step k h c = some q := by
    intro i m hm hfirst
    obtain ⟨c, q, hclean, hq, hold, hself⟩ := Page.answers (k := k) h hm (hown hm)
    refine ⟨c, q, ⟨hclean, fun q' hq' => ?_⟩, hq⟩
    obtain rfl := Option.some.inj (hq.symm.trans hq')
    refine Page.single_of hold hsingle fun m' hm' => ?_
    obtain ⟨hpw, rfl⟩ := hself m' hm'
    exact hfirst hpw
  by_cases hc : ∃ i, p.asked i = some .conflict
  · obtain ⟨i, hi⟩ := hc
    exact .inr (hanswer hi fun hpw => by cases hpw)
  · have hc' : ∀ j, p.asked j ≠ some .conflict := fun j hj => hc ⟨j, hj⟩
    by_cases hpw : ∃ i, p.asked i = some .password
    · obtain ⟨i, hi⟩ := hpw
      exact .inr (hanswer hi fun _ => hc')
    · have hnone : ∀ i m, p.asked i ≠ some m := fun i m hm => by
        cases m with
        | password => exact hpw ⟨i, hm⟩
        | conflict => exact hc' i hm
      rcases Page.goes_on (k := k) h hI hK fun i m hm => absurd hm (hnone i m) with
        ⟨hrest, hset⟩ | ⟨c, q, hclean, hq⟩
      · refine .inl ⟨fun τ hτ => ?_, hset⟩
        obtain ⟨i, hi⟩ := List.mem_iff_getElem?.mp hτ
        exact (hrest i τ hi).resolve_right (hno i)
      · exact .inr ⟨c, q, ⟨hclean, fun _ hq' => Page.single_of_none hnone hq'⟩, hq⟩

/-- **Every wish comes to an end**, but for one that has lost its window. Take any state that
the page and the mover can get into. When nothing new is wished for and no other requests
come in, every run from there, whatever fails in it and whichever answers are lost (`C` may
let that through or not), gets to a state in which every wish is closed or has a question
open whose buttons a later question has taken, every handler has answered, and every job is
done or has failed, but for jobs that walk a tree in which a link leads back up. Where of
each kind at most one question is open at a time, every wish is closed. -/
theorem wishes_end (k : Kernel) (h : Host) (t : FileTree Bytes) (p : Page)
    (hp : Reach (Page.step k h) Any (.init t) p) :
    (∀ C : Page → Click → Prop, (∀ p c, Click.Clean c → C p c) → (∀ p c, C p c → c.Working) →
      Ends (Page.step k h) C (fun p => p.AtRest ∧ p.system.server.Settled k) p) ∧
    ((∀ i, ¬ p.Stranded i) → ∀ C : Page → Click → Prop,
      (∀ p c, Click.Clean c → Alone k h p c → C p c) →
      (∀ p c, C p c → c.Working ∧ Alone k h p c) →
      Ends (Page.step k h) C (fun p => p.system.Closed ∧ p.system.server.Settled k) p) := by
  have hwf : WellFounded (CutExpand (Prod.Lex (· < · : Nat → Nat → Prop) (· < ·))) :=
    (Prod.lex Nat.lt_wfRel Nat.lt_wfRel).wf.cutExpand
  let I : Page → Prop := fun p => p.system.Inv ∧ p.system.server.Manned
  have hI : I p := hp.inv ⟨.init t, .init t⟩ fun p c q hI _ hs => Page.keeps hI hs
  refine ⟨fun C hclean hwork => ?_, fun hno C hclean hwork => ?_⟩
  · refine ends_of_measure hwf (fun p => p.system.left) (I := I)
      (fun p c q hI _ hs => Page.keeps hI hs) (fun p hI => ?_)
      (fun p c q hI hc hs => Page.left_less hI.1 hs (hwork p c hc)) hI
    -- a question with its buttons is answered; where there is none, all else goes on
    by_cases hopen : ∃ i m, p.asked i = some m ∧ p.buttons m = some i
    · obtain ⟨i, m, hm, hb⟩ := hopen
      obtain ⟨c, q, hc, hq, -⟩ := Page.answers (k := k) h hm hb
      exact .inr ⟨c, q, hclean p c hc, hq⟩
    · rcases Page.goes_on (k := k) h hI.1 hI.2 fun i m hm => ⟨m, hm, fun hb => hopen ⟨i, m, hm, hb⟩⟩
        with hend | ⟨c, q, hc, hq⟩
      · exact .inl hend
      · exact .inr ⟨c, q, hclean p c hc, hq⟩
  · refine ends_of_measure hwf (fun p => p.system.left) (I := fun p => I p ∧ ∀ i, ¬ p.Stranded i)
      (fun p c q hI hc hs => ?_) (fun p hI => ?_)
      (fun p c q hI hc hs => Page.left_less hI.1.1 hs (hwork p c hc).1) ⟨hI, hno⟩
    · obtain ⟨hc, halone⟩ := hwork p c hc
      exact ⟨Page.keeps hI.1 hs, Page.not_stranded_step hI.2 hc (halone q hs) hs⟩
    · rcases Page.goes_on_alone (k := k) h hI.1.1 hI.1.2 hI.2 with hend | ⟨c, q, ⟨hc, ha⟩, hq⟩
      · exact .inl hend
      · exact .inr ⟨c, q, hclean p c hc ha, hq⟩

/-- Three files. -/
def tree_three : FileTree Bytes :=
  ((FileTree.empty.with_ [] "a" (.file [1])).with_ [] "b" (.file [2])).with_ [] "c" (.file [3])

/-- Two copies onto one file: before the mover has said so both will be closed, if the second
question waits for the first to be answered; once both are open the first has lost its
window. -/
theorem wishes_end_two :
    (∃ p, Reach (Page.step box box_host) Any (.init tree_three) p ∧ p.system.talks.length = 2 ∧
      Ends (Page.step box box_host) (fun p c => c.Working ∧ Alone box box_host p c)
        (fun p => p.system.Closed ∧ p.system.server.Settled box) p) ∧
    ∃ p, Reach (Page.step box box_host) Any (.init tree_three) p ∧ p.Stranded 0 ∧
      Ends (Page.step box box_host) (fun _ c => c.Working)
        (fun p => p.AtRest ∧ p.system.server.Settled box) p := by
  let es : List Click := [.event (.wish (.transfer false (.abs ["a"]) (.abs ["c"]))),
    .event (.wish (.transfer false (.abs ["b"]) (.abs ["c"]))), .event (.talk 0 (.arrive 0)),
    .event (.talk 1 (.arrive 0))]
  have hsent : (exec (Page.step box box_host) (.init tree_three) es).map
      (fun p => (p.system.talks.length, p.asked 0, p.asked 1)) = some (2, none, none) := by decide
  have hasked : (exec (Page.step box box_host) (.init tree_three)
      (es ++ [.event (.talk 0 .receive), .event (.talk 1 .receive)])).map
        (fun p => (p.asked 0, p.buttons .conflict)) = some (some .conflict, some 1) := by decide
  obtain ⟨p, hp, hout⟩ := Option.map_eq_some_iff.mp hsent
  obtain ⟨q, hq, hout'⟩ := Option.map_eq_some_iff.mp hasked
  simp only [Prod.mk.injEq] at hout hout'
  obtain ⟨htwo, h₀, h₁⟩ := hout
  obtain ⟨hopen, hbut⟩ := hout'
  have hno : ∀ i, ¬ p.Stranded i := by
    rintro i ⟨m, hm, -⟩
    obtain ⟨τ, hi, -⟩ := Page.asked_eq_some.mp hm
    have hlt := (List.getElem?_eq_some_iff.mp hi).1
    rw [htwo] at hlt
    have hi' : i = 0 ∨ i = 1 := by omega
    rcases hi' with rfl | rfl
    · rw [h₀] at hm
      cases hm
    · rw [h₁] at hm
      cases hm
  have hlost : q.Stranded 0 := ⟨.conflict, hopen, by simp [hbut]⟩
  refine ⟨⟨p, reach_of_exec hp, htwo, ?_⟩, q, reach_of_exec hq, hlost, ?_⟩
  · exact (wishes_end box box_host tree_three p (reach_of_exec hp)).2 hno _
      (fun _ _ hc ha => ⟨hc.working, ha⟩) fun _ _ hc => hc
  · exact (wishes_end box box_host tree_three q (reach_of_exec hq)).1 _
      (fun _ _ hc => hc.working) fun _ _ hc => hc

end WebDavs.Dialogue
