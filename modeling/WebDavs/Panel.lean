/-
The page's search: `doSearch`, `pollSearch` and `hideSearchRes`, with the mover they
ask.

`activeSearch` is the search whose record the page asks for every 400 ms. What is
between two requests is a timer, and the object in `activeSearch` knows its own. But
a request that is under way knows nothing of what the user does meanwhile: it is
shown when its answer comes, sets a timer, and takes `activeSearch` away when the
search it is about is done, whichever search that is.

So the panel may be left on the results of an older search (`panel_left_behind`).
It is not, and there is one chain of requests only, when at the answer to each start
no other request is under way and no timer is set (`panel_follows`).
-/
import WebDavs.Searches

set_option autoImplicit false

namespace WebDavs.Panel

open WebDavs.Steps WebDavs.Mover WebDavs.Searches

/-! ## The page -/

/-- What the user has asked for, and the number of the search for it. -/
structure Query where
  root : String
  q : String
  id : Nat

/-- An object that `activeSearch` has been. The page keeps no more of the query than
its number. -/
structure Chain where
  query : Query
  timer : Option Nat

/-- A request to start a search, and which search of the mover it has become. -/
structure Start where
  root : String
  q : String
  party : Option Nat

/-- A request for the record of `activeSearch` as it was then, and what it has been
answered: a record, or anything else, which the page takes for an error. -/
structure Poll where
  chain : Nat
  reply : Option (Option Record)

/-- The search part of the page. `shown` is the record that `searchRes` was filled
with; `troubled` says that an error has been logged since the panel was opened. -/
structure Page where
  chains : List Chain
  active : Option Nat
  timers : List Nat
  next_timer : Nat
  starts : List Start
  polls : List Poll
  shown : Option Record
  visible : Bool
  troubled : Bool

namespace Page

/-- The page, just opened. -/
def opened : Page where
  chains := []
  active := none
  timers := []
  next_timer := 1
  starts := []
  polls := []
  shown := none
  visible := false
  troubled := false

/-- `if (activeSearch && activeSearch.timer) clearTimeout(activeSearch.timer)`. A timer
that has gone off is not cleared any more. -/
def clear (p : Page) : Page :=
  match (p.active.bind fun c => p.chains[c]?).bind Chain.timer with
  | some h => { p with timers := p.timers.erase h }
  | none => p

/-- `hideSearchRes`. -/
def hideSearchRes (p : Page) : Page :=
  { p.clear with
    active := none
    shown := none
    visible := false }

/-- `doSearch`, up to its request. -/
def doSearch (p : Page) (root q : String) : Page :=
  { p.clear with starts := p.starts ++ [⟨root, q, none⟩] }

/-- `pollSearch`, up to its request. -/
def pollSearch (p : Page) : Page :=
  match p.active with
  | some c => { p with polls := p.polls ++ [⟨c, none⟩] }
  | none => p

theorem pollSearch_none {p : Page} (h : p.active = none) : p.pollSearch = p := by
  simp only [pollSearch, h]

theorem pollSearch_some {p : Page} {c : Nat} (h : p.active = some c) :
    p.pollSearch = { p with polls := p.polls ++ [⟨c, none⟩] } := by
  simp only [pollSearch, h]

theorem pollSearch_shown (p : Page) : p.pollSearch.shown = p.shown := by
  unfold pollSearch
  split <;> rfl

/-- `doSearch`, from the answer to its request on. -/
def started (p : Page) (root q : String) (id : Nat) : Page :=
  pollSearch
    { p with
      chains := p.chains ++ [⟨⟨root, q, id⟩, none⟩]
      active := some p.chains.length
      shown := none
      visible := true
      troubled := false }

/-- `s.timer = setTimeout(pollSearch, 400)`. -/
def setTimeout (p : Page) (c : Nat) : Page :=
  { p with
    chains := p.chains.modify c fun a => { a with timer := some p.next_timer }
    timers := p.timers ++ [p.next_timer]
    next_timer := p.next_timer + 1 }

/-- `pollSearch`, from the answer to its request on. -/
def polled (p : Page) (c : Nat) : Option Record → Page
  | none => { p with active := none, troubled := true }
  | some r =>
    if r.found.status = "done" ∨ r.found.status = "error" then
      { p with shown := some r, active := none }
    else { p with shown := some r }.setTimeout c

/-- What has been asked for so far. -/
def queries (p : Page) : List Query := p.chains.map Chain.query

end Page

/-! ## The page and the mover -/

/-- The page and the mover it talks to. -/
structure System where
  service : Service
  page : Page

/-- One event: a call in the mover, for whomever; the user asks for a search, or leaves
the panel; a start comes in at the mover, fails, or is answered; the mover answers a
request for a record, that request fails, or its answer comes in; a timer goes off. -/
inductive Event where
  | service (e : Searches.Event)
  | search (root q : String)
  | hide
  | arrive (i : Nat)
  | fail (i : Nat)
  | started (i : Nat)
  | answer (n : Nat)
  | lose (n : Nat)
  | status (n : Nat)
  | fire (h : Nat)

/-- The number a handler has answered with. -/
def accepted : Party → Option Nat
  | .walk id _ _ => some id
  | .ended id => some id
  | _ => none

/-- What the page makes of the mover's answer. -/
def heard : Option Answer → Option Record
  | some (.shown _ r) => some r
  | _ => none

section

variable (lower : String → String) (env : Env) (dirs : PathBuf → Dir)

/-- One event. -/
def step (s : System) : Event → Option System
  | .service e => (s.service.step lower env dirs e).map fun v => { s with service := v }
  | .search root q =>
    if root = "" ∨ q = "" then none else some { s with page := s.page.doSearch root q }
  | .hide => some { s with page := s.page.hideSearchRes }
  | .arrive i =>
    match s.page.starts[i]? with
    | some ⟨root, q, none⟩ =>
      (s.service.step lower env dirs (.request (some (some root, some q)))).map fun v =>
        { service := v
          page := { s.page with
            starts := s.page.starts.set i ⟨root, q, some s.service.parties.length⟩ } }
    | _ => none
  | .fail i =>
    match s.page.starts[i]? with
    | some _ => some { s with page := { s.page with
        starts := s.page.starts.eraseIdx i
        troubled := true } }
    | none => none
  | .started i =>
    match s.page.starts[i]? with
    | some ⟨root, q, some j⟩ =>
      match (s.service.parties[j]?).bind accepted with
      | some id => some { s with
          page := { s.page with starts := s.page.starts.eraseIdx i }.started root q id }
      | none => none
    | _ => none
  | .answer n =>
    match s.page.polls[n]? with
    | some ⟨c, none⟩ =>
      match s.page.chains[c]? with
      | some a =>
        (s.service.step lower env dirs (.poll (some a.query.id.repr))).map fun v =>
          { service := v
            page := { s.page with polls := s.page.polls.set n ⟨c, some (heard v.answers.getLast?)⟩ } }
      | none => none
    | _ => none
  | .lose n =>
    match s.page.polls[n]? with
    | some p =>
      some { s with page := { s.page with polls := s.page.polls.set n ⟨p.chain, some none⟩ } }
    | none => none
  | .status n =>
    match s.page.polls[n]? with
    | some ⟨c, some r⟩ =>
      some { s with page := { s.page with polls := s.page.polls.eraseIdx n }.polled c r }
    | _ => none
  | .fire h =>
    if h ∈ s.page.timers then
      some { s with page := { s.page with timers := s.page.timers.erase h }.pollSearch }
    else none

/-- What a step can come to. -/
inductive StepCase (s : System) : Event → System → Prop where
  | serviced (e : Searches.Event) (v : Service) (hv : s.service.step lower env dirs e = some v) :
      StepCase s (.service e) { s with service := v }
  | searched (root q : String) (hroot : root ≠ "") (hq : q ≠ "") :
      StepCase s (.search root q) { s with page := s.page.doSearch root q }
  | hidden : StepCase s .hide { s with page := s.page.hideSearchRes }
  | arrived (i : Nat) (root q : String) (v : Service) (hi : s.page.starts[i]? = some ⟨root, q, none⟩)
      (hv : s.service.step lower env dirs (.request (some (some root, some q))) = some v) :
      StepCase s (.arrive i)
        { service := v
          page := { s.page with
            starts := s.page.starts.set i ⟨root, q, some s.service.parties.length⟩ } }
  | failed (i : Nat) (x : Start) (hi : s.page.starts[i]? = some x) :
      StepCase s (.fail i) { s with page := { s.page with
        starts := s.page.starts.eraseIdx i
        troubled := true } }
  | started (i : Nat) (root q : String) (j : Nat) (x : Party) (id : Nat)
      (hi : s.page.starts[i]? = some ⟨root, q, some j⟩) (hx : s.service.parties[j]? = some x)
      (hid : accepted x = some id) :
      StepCase s (.started i) { s with
        page := { s.page with starts := s.page.starts.eraseIdx i }.started root q id }
  | answered (n c : Nat) (a : Chain) (v : Service) (hn : s.page.polls[n]? = some ⟨c, none⟩)
      (ha : s.page.chains[c]? = some a)
      (hv : s.service.step lower env dirs (.poll (some a.query.id.repr)) = some v) :
      StepCase s (.answer n)
        { service := v
          page := { s.page with polls := s.page.polls.set n ⟨c, some (heard v.answers.getLast?)⟩ } }
  | lost (n : Nat) (p : Poll) (hn : s.page.polls[n]? = some p) :
      StepCase s (.lose n) { s with page := { s.page with
        polls := s.page.polls.set n ⟨p.chain, some none⟩ } }
  | polled (n c : Nat) (r : Option Record) (hn : s.page.polls[n]? = some ⟨c, some r⟩) :
      StepCase s (.status n) { s with
        page := { s.page with polls := s.page.polls.eraseIdx n }.polled c r }
  | fired (h : Nat) (hh : h ∈ s.page.timers) :
      StepCase s (.fire h) { s with
        page := { s.page with timers := s.page.timers.erase h }.pollSearch }

variable {lower env dirs}

theorem step_cases {s s' : System} {e : Event} (hs : step lower env dirs s e = some s') :
    StepCase lower env dirs s e s' := by
  cases e with
  | service e =>
      obtain ⟨v, hv, rfl⟩ := Option.map_eq_some_iff.mp hs
      exact .serviced e v hv
  | search root q =>
      simp only [step] at hs
      split at hs
      · cases hs
      · rename_i hno
        cases hs
        exact .searched root q (fun h => hno (.inl h)) (fun h => hno (.inr h))
  | hide =>
      cases hs
      exact .hidden
  | arrive i =>
      simp only [step] at hs
      split at hs
      · rename_i root q hi
        obtain ⟨v, hv, rfl⟩ := Option.map_eq_some_iff.mp hs
        exact .arrived i root q v hi hv
      · cases hs
  | fail i =>
      simp only [step] at hs
      split at hs
      · rename_i x hi
        cases hs
        exact .failed i x hi
      · cases hs
  -- the reply has an `id` only where the search was accepted
  | started i =>
      simp only [step] at hs
      split at hs
      · rename_i root q j hi
        split at hs
        · rename_i id hid
          cases hs
          obtain ⟨x, hx, hxid⟩ := Option.bind_eq_some_iff.mp hid
          exact .started i root q j x id hi hx hxid
        · cases hs
      · cases hs
  | answer n =>
      simp only [step] at hs
      split at hs
      · rename_i c hn
        split at hs
        · rename_i a ha
          obtain ⟨v, hv, rfl⟩ := Option.map_eq_some_iff.mp hs
          exact .answered n c a v hn ha hv
        · cases hs
      · cases hs
  | lose n =>
      simp only [step] at hs
      split at hs
      · rename_i p hn
        cases hs
        exact .lost n p hn
      · cases hs
  | status n =>
      simp only [step] at hs
      split at hs
      · rename_i c r hn
        cases hs
        exact .polled n c r hn
      · cases hs
  | fire h =>
      simp only [step] at hs
      split at hs
      · rename_i hh
        cases hs
        exact .fired h hh
      · cases hs

end

/-! ## What a call in the mover keeps -/

section

variable {lower : String → String} {env : Env} {dirs : PathBuf → Dir} {v v' : Service}
variable {root q : String}

/-- A record is followed by a later state of it. -/
theorem follows_step (hI : Inv lower env dirs v) {e : Searches.Event}
    (hs : v.step lower env dirs e = some v') {id : Nat} {r : Record} (hr : v.searches id = some r) :
    ∃ r', v'.searches id = some r' ∧ Follows r r' := by
  -- what a search does to its record
  have update : ∀ {i : Nat} {f : Search → Search} {r₀ : Record}, v.searches i = some r₀ →
      Follows r₀ { r₀ with found := f r₀.found } →
      ∃ r', (v.search_update i f).searches id = some r' ∧ Follows r r' := by
    intro i f r₀ h₀ hf
    by_cases hid : id = i
    · subst hid
      obtain rfl : r = r₀ := Option.some.inj (hr.symm.trans h₀)
      exact ⟨_, by simp [Service.search_update, hr], hf⟩
    · exact ⟨r, by simpa [Service.search_update, hid] using hr, Follows.refl r⟩
  cases Service.step_cases hs with
  | walked i id' query t ts hi =>
      obtain ⟨r₀, h₀, -, hrun, -⟩ := hI.serves i _ hi
      exact update h₀ (follows_onward hrun (t.onward_step _ _))
  | finished i id' query hi =>
      obtain ⟨r₀, h₀, -, hrun, -⟩ := hI.serves i _ hi
      exact update h₀ (follows_finish hrun)
  | registered i root q id' hi =>
      have hnone : v.searches id' = none := hI.serves i _ hi
      have hid : id ≠ id' := by
        rintro rfl
        rw [hnone] at hr
        cases hr
      exact ⟨r, by simpa [Service.goes, hid] using hr, Follows.refl r⟩
  | _ => exact ⟨r, hr, Follows.refl r⟩

/-- The search is the one for `root` and `q`. -/
def Asked (v : Service) (root q : String) : Party → Prop
  | .number root' q' => root' = root ∧ q' = q
  | .register root' q' _ => root' = root ∧ q' = q
  | .launch root' q' _ => root' = root ∧ q' = q
  | .walk id _ _ => ∃ r, v.searches id = some r ∧ r.root = root ∧ r.q = q
  | .ended id => ∃ r, v.searches id = some r ∧ r.root = root ∧ r.q = q

theorem Asked.mono {x : Party} (h : Asked v root q x)
    (hf : ∀ id r, v.searches id = some r → ∃ r', v'.searches id = some r' ∧ Follows r r') :
    Asked v' root q x := by
  have hrec : ∀ id, (∃ r, v.searches id = some r ∧ r.root = root ∧ r.q = q) →
      ∃ r, v'.searches id = some r ∧ r.root = root ∧ r.q = q := by
    rintro id ⟨r, hr, hroot, hq⟩
    obtain ⟨r', hr', hfol⟩ := hf id r hr
    exact ⟨r', hr', hfol.root.trans hroot, hfol.q.trans hq⟩
  cases x with
  | walk id query ts => exact hrec id h
  | ended id => exact hrec id h
  | _ => exact h

/-- It stays that. -/
theorem asked_step (hI : Inv lower env dirs v) {e : Searches.Event}
    (hs : v.step lower env dirs e = some v') {j : Nat} {x : Party} (hx : v.parties[j]? = some x)
    (ha : Asked v root q x) : ∃ x', v'.parties[j]? = some x' ∧ Asked v' root q x' := by
  have hf : ∀ id r, v.searches id = some r → ∃ r', v'.searches id = some r' ∧ Follows r r' :=
    fun id r hr => follows_step hI hs hr
  -- the party at `i` gets to `y`, and `x` is it or another
  have set : ∀ {i : Nat} {x₀ y : Party}, v.parties[i]? = some x₀ →
      v'.parties = v.parties.set i y → (Asked v root q x₀ → Asked v' root q y) →
      ∃ x', v'.parties[j]? = some x' ∧ Asked v' root q x' := by
    intro i x₀ y hi hp hy
    by_cases hji : j = i
    · subst hji
      obtain rfl : x = x₀ := Option.some.inj (hx.symm.trans hi)
      exact ⟨y, by rw [hp, List.getElem?_set_self (List.getElem?_eq_some_iff.mp hx).1], hy ha⟩
    · exact ⟨x, by rw [hp, List.getElem?_set_ne fun h => hji h.symm, hx], ha.mono hf⟩
  cases Service.step_cases hs with
  | refused e error he => exact ⟨x, hx, ha.mono hf⟩
  | polled text id r ht hr => exact ⟨x, hx, ha.mono hf⟩
  | missed text id ht hr => exact ⟨x, hx, ha.mono hf⟩
  | requested body root' q' =>
      have hlt := (List.getElem?_eq_some_iff.mp hx).1
      exact ⟨x, (List.getElem?_append_left hlt).trans hx, ha.mono hf⟩
  | numbered i root' q' hi => exact set hi rfl fun h => h
  | registered i root' q' id hi => exact set hi rfl fun h => h
  | launched i root' q' id hi =>
      refine set hi rfl fun h => ?_
      exact ⟨_, hI.serves i _ hi, h.1, h.2⟩
  | walked i id query t ts hi =>
      refine set hi rfl fun h => ?_
      obtain ⟨r, hr, hroot, hq⟩ := h
      obtain ⟨r', hr', hfol⟩ := hf id r hr
      exact ⟨r', hr', hfol.root.trans hroot, hfol.q.trans hq⟩
  | finished i id query hi =>
      refine set hi rfl fun h => ?_
      obtain ⟨r, hr, hroot, hq⟩ := h
      obtain ⟨r', hr', hfol⟩ := hf id r hr
      exact ⟨r', hr', hfol.root.trans hroot, hfol.q.trans hq⟩

/-- A request that comes in becomes a search of what it asks for. -/
theorem asked_request (hroot : root ≠ "") (hq : q ≠ "")
    (hs : v.step lower env dirs (.request (some (some root, some q))) = some v') :
    ∃ x, v'.parties[v.parties.length]? = some x ∧ Asked v' root q x := by
  simp only [Service.step, Option.getD_some, hroot, hq, or_self, if_false, Option.some.injEq] at hs
  subst hs
  exact ⟨.number root q, by simp, rfl, rfl⟩

/-- What has been accepted under a number has its record there. -/
theorem Asked.accepted {x : Party} {id : Nat} (h : Asked v root q x) (hid : accepted x = some id) :
    ∃ r, v.searches id = some r ∧ r.root = root ∧ r.q = q := by
  cases x with
  | walk id' query ts =>
      obtain rfl : id' = id := Option.some.inj hid
      exact h
  | ended id' =>
      obtain rfl : id' = id := Option.some.inj hid
      exact h
  | _ => cases hid

/-- A number is written so that it is read again. -/
theorem parse_u64_repr {n m : Nat} (h : parse_u64 n.repr = some m) : m = n := by
  unfold parse_u64 at h
  have hhead : n.repr.toList.head? ≠ some '+' := by
    intro hc
    have hmem : '+' ∈ Nat.toDigits 10 n := by
      rw [← Nat.toList_repr]
      exact List.mem_of_mem_head? hc
    have hdig := Nat.isDigit_of_mem_toDigits (by decide) (by decide) hmem
    exact absurd hdig (by decide)
  rw [if_neg hhead, Nat.toList_repr] at h
  dsimp only at h
  rw [Nat.ofDigitChars_ten_toDigits] at h
  split at h
  · exact (Option.some.inj h).symm
  · cases h

/-- The record that a request for one is answered with. -/
theorem heard_poll {id : Nat} {r : Record}
    (hs : v.step lower env dirs (.poll (some id.repr)) = some v')
    (hr : heard v'.answers.getLast? = some r) : v.searches id = some r := by
  cases Service.step_cases hs with
  | refused e error he => simp [Service.say, heard] at hr
  | polled text id' r' ht hr' =>
      obtain rfl : id' = id := parse_u64_repr ht
      simp only [Service.say, List.getLast?_append, List.getLast?_singleton, Option.some_or, heard,
        Option.some.injEq] at hr
      exact hr ▸ hr'
  | missed text id' ht hr' => simp [Service.say, heard] at hr

end

/-! ## What is shown is true -/

section

variable (lower : String → String) (env : Env) (dirs : PathBuf → Dir)

/-- `r` was read of the record of `a`. -/
structure Reads (v : Service) (a : Query) (r : Record) : Prop where
  root : r.root = a.root
  q : r.q = a.q
  told : Told lower env dirs r
  since : ∃ r', v.searches a.id = some r' ∧ Follows r r'

/-- What holds however the events follow on each other. -/
structure Attributed (s : System) : Prop where
  service : Inv lower env dirs s.service
  starts : ∀ x ∈ s.page.starts, x.root ≠ "" ∧ x.q ≠ "" ∧ ∀ j, x.party = some j →
    ∃ y, s.service.parties[j]? = some y ∧ Asked s.service x.root x.q y
  chains : ∀ a ∈ s.page.queries, ∃ r, s.service.searches a.id = some r ∧ r.root = a.root ∧ r.q = a.q
  polls : ∀ p ∈ s.page.polls, ∃ a, s.page.queries[p.chain]? = some a ∧
    ∀ r, p.reply = some (some r) → Reads lower env dirs s.service a r
  active : ∀ c, s.page.active = some c → c < s.page.queries.length
  shown : ∀ r, s.page.shown = some r → ∃ a ∈ s.page.queries, Reads lower env dirs s.service a r

end

section

variable {lower : String → String} {env : Env} {dirs : PathBuf → Dir} {s s' : System}

@[simp] theorem queries_setTimeout (p : Page) (c : Nat) : (p.setTimeout c).queries = p.queries := by
  apply List.ext_getElem?
  intro i
  simp only [Page.queries, Page.setTimeout, List.getElem?_map, List.getElem?_modify]
  cases p.chains[i]? with
  | none => rfl
  | some a =>
      simp only [Option.map_eq_map, Option.map_some]
      split <;> rfl

@[simp] theorem clear_starts (p : Page) : p.clear.starts = p.starts := by
  unfold Page.clear
  split <;> rfl

@[simp] theorem clear_chains (p : Page) : p.clear.chains = p.chains := by
  unfold Page.clear
  split <;> rfl

@[simp] theorem clear_polls (p : Page) : p.clear.polls = p.polls := by
  unfold Page.clear
  split <;> rfl

@[simp] theorem clear_active (p : Page) : p.clear.active = p.active := by
  unfold Page.clear
  split <;> rfl

@[simp] theorem clear_shown (p : Page) : p.clear.shown = p.shown := by
  unfold Page.clear
  split <;> rfl

theorem Reads.mono {v v' : Service} {a : Query} {r : Record} (h : Reads lower env dirs v a r)
    (hf : ∀ id r, v.searches id = some r → ∃ r', v'.searches id = some r' ∧ Follows r r') :
    Reads lower env dirs v' a r := by
  obtain ⟨r₁, h₁, hfol₁⟩ := h.since
  obtain ⟨r₂, h₂, hfol₂⟩ := hf a.id r₁ h₁
  exact ⟨h.root, h.q, h.told, r₂, h₂, hfol₁.trans hfol₂⟩

/-- A call in the mover leaves the page on firm ground. -/
theorem Attributed.serve (h : Attributed lower env dirs s) {e : Searches.Event} {v : Service}
    (hv : s.service.step lower env dirs e = some v) :
    Attributed lower env dirs { s with service := v } := by
  have hf : ∀ id r, s.service.searches id = some r → ∃ r', v.searches id = some r' ∧ Follows r r' :=
    fun id r hr => follows_step h.service hv hr
  refine ⟨h.service.step hv, fun x hx => ?_, fun a ha => ?_, fun p hp => ?_, h.active, fun r hr => ?_⟩
  · obtain ⟨hroot, hq, hparty⟩ := h.starts x hx
    refine ⟨hroot, hq, fun j hj => ?_⟩
    obtain ⟨y, hy, hasked⟩ := hparty j hj
    exact asked_step h.service hv hy hasked
  · obtain ⟨r, hr, hroot, hq⟩ := h.chains a ha
    obtain ⟨r', hr', hfol⟩ := hf a.id r hr
    exact ⟨r', hr', hfol.root.trans hroot, hfol.q.trans hq⟩
  · obtain ⟨a, ha, hreads⟩ := h.polls p hp
    exact ⟨a, ha, fun r hr => (hreads r hr).mono hf⟩
  · obtain ⟨a, ha, hreads⟩ := h.shown r hr
    exact ⟨a, ha, hreads.mono hf⟩

/-- The page alone has changed, and has nothing but what it had. -/
theorem Attributed.keep (h : Attributed lower env dirs s) {p : Page}
    (hstarts : ∀ x ∈ p.starts, x ∈ s.page.starts) (hchains : p.queries = s.page.queries)
    (hpolls : ∀ x ∈ p.polls, x ∈ s.page.polls ∨
      x.reply = some none ∧ ∃ y ∈ s.page.polls, x.chain = y.chain)
    (hactive : ∀ c, p.active = some c → s.page.active = some c)
    (hshown : ∀ r, p.shown = some r → s.page.shown = some r) :
    Attributed lower env dirs { s with page := p } := by
  refine ⟨h.service, fun x hx => h.starts x (hstarts x hx), fun a ha => h.chains a (hchains ▸ ha),
    fun x hx => ?_, fun c hc => hchains ▸ h.active c (hactive c hc), fun r hr => ?_⟩
  · rcases hpolls x hx with hx | ⟨hx, y, hy, hxy⟩
    · exact hchains ▸ h.polls x hx
    · obtain ⟨a, ha, -⟩ := h.polls y hy
      refine ⟨a, by rw [hchains, hxy]; exact ha, fun r hr => ?_⟩
      rw [hx] at hr
      cases hr
  · exact hchains ▸ h.shown r (hshown r hr)

/-- A request for the record of `activeSearch` goes out. -/
theorem Attributed.poll (h : Attributed lower env dirs s) :
    Attributed lower env dirs { s with page := s.page.pollSearch } := by
  unfold Page.pollSearch
  split
  · rename_i c hc
    refine ⟨h.service, h.starts, h.chains, fun x hx => ?_, h.active, h.shown⟩
    rcases List.mem_append.mp hx with hx | hx
    · exact h.polls x hx
    · rw [List.mem_singleton.mp hx]
      exact ⟨_, List.getElem?_eq_getElem (h.active c hc), fun r hr => by cases hr⟩
  · exact h

theorem Attributed.step (h : Attributed lower env dirs s) {e : Event}
    (hs : step lower env dirs s e = some s') : Attributed lower env dirs s' := by
  cases step_cases hs with
  | serviced e v hv => exact h.serve hv
  | searched root q hroot hq =>
      refine ⟨h.service, fun x hx => ?_, ?_, ?_, ?_, ?_⟩
      · rcases List.mem_append.mp hx with hx | hx
        · exact h.starts x hx
        · rw [List.mem_singleton.mp hx]
          exact ⟨hroot, hq, fun j hj => by cases hj⟩
      · simpa [Page.doSearch, Page.queries] using h.chains
      · simpa [Page.doSearch, Page.queries] using h.polls
      · simpa [Page.doSearch, Page.queries] using h.active
      · simpa [Page.doSearch, Page.queries] using h.shown
  | hidden =>
      refine h.keep (fun x hx => ?_) ?_ (fun x hx => .inl ?_) (fun c hc => by cases hc)
        (fun r hr => by cases hr)
      · simpa [Page.hideSearchRes] using hx
      · simp [Page.hideSearchRes, Page.queries]
      · simpa [Page.hideSearchRes] using hx
  | arrived i root q v hi hv =>
      -- the reply is in on its way from here on, and it was an answer to these very fields
      have hserve := h.serve hv
      obtain ⟨hroot, hq, -⟩ := h.starts _ (List.mem_of_getElem? hi)
      obtain ⟨y, hy, hasked⟩ := asked_request hroot hq hv
      refine ⟨hserve.service, fun x hx => ?_, hserve.chains, hserve.polls, h.active, hserve.shown⟩
      rcases List.mem_or_eq_of_mem_set hx with hx | rfl
      · exact hserve.starts x hx
      · exact ⟨hroot, hq, fun j hj => Option.some.inj hj ▸ ⟨y, hy, hasked⟩⟩
  | failed i x hi =>
      exact h.keep (fun x hx => List.mem_of_mem_eraseIdx hx) rfl (fun x hx => .inl hx)
        (fun c hc => hc) fun r hr => hr
  | started i root q j x id hi hx hid =>
      obtain ⟨-, -, hparty⟩ := h.starts _ (List.mem_of_getElem? hi)
      obtain ⟨y, hy, hasked⟩ := hparty j rfl
      obtain rfl : x = y := Option.some.inj (hx.symm.trans hy)
      -- the chain that starts here is about the search the reply named, and its first poll
      -- goes out in the same event
      obtain ⟨r, hr, hroot, hq⟩ := hasked.accepted hid
      refine Attributed.poll (s := ⟨s.service, { s.page with
          starts := s.page.starts.eraseIdx i
          chains := s.page.chains ++ [⟨⟨root, q, id⟩, none⟩]
          active := some s.page.chains.length
          shown := none
          visible := true
          troubled := false }⟩) ⟨h.service, fun x hx => h.starts x (List.mem_of_mem_eraseIdx hx),
        fun a ha => ?_, fun p hp => ?_, fun c hc => ?_, fun r hr => by cases hr⟩
      · rw [Page.queries, List.map_append] at ha
        rcases List.mem_append.mp ha with ha | ha
        · exact h.chains a ha
        · rw [List.map_singleton, List.mem_singleton] at ha
          exact ha ▸ ⟨r, hr, hroot, hq⟩
      · obtain ⟨a, ha, hreads⟩ := h.polls p hp
        have hlt := (List.getElem?_eq_some_iff.mp ha).1
        refine ⟨a, ?_, hreads⟩
        rw [Page.queries, List.map_append]
        exact (List.getElem?_append_left hlt).trans ha
      · obtain rfl : s.page.chains.length = c := Option.some.inj hc
        simp [Page.queries]
  | answered n c a v hn ha hv =>
      have hserve := h.serve hv
      refine ⟨hserve.service, hserve.starts, hserve.chains, fun p hp => ?_, h.active, hserve.shown⟩
      rcases List.mem_or_eq_of_mem_set hp with hp | rfl
      · exact hserve.polls p hp
      · have hquery : s.page.queries[c]? = some a.query := by
          rw [Page.queries, List.getElem?_map, ha, Option.map_some]
        refine ⟨a.query, hquery, fun r hr => ?_⟩
        -- what the poll hears is the record as it is now, and records only grow from then on
        have hrec := heard_poll hv (Option.some.inj hr)
        obtain ⟨r₀, h₀, hroot, hq⟩ := h.chains _ (List.mem_of_getElem? hquery)
        obtain rfl : r = r₀ := Option.some.inj (hrec.symm.trans h₀)
        exact ⟨hroot, hq, h.service.told _ r hrec, follows_step h.service hv hrec⟩
  | lost n p hn =>
      refine h.keep (fun x hx => hx) rfl (fun x hx => ?_) (fun c hc => hc) fun r hr => hr
      rcases List.mem_or_eq_of_mem_set hx with hx | rfl
      · exact .inl hx
      · exact .inr ⟨rfl, p, List.mem_of_getElem? hn, rfl⟩
  | polled n c r hn =>
      have hpolls : ∀ x ∈ s.page.polls.eraseIdx n, x ∈ s.page.polls :=
        fun x hx => List.mem_of_mem_eraseIdx hx
      cases r with
      | none =>
          exact h.keep (fun x hx => hx) rfl (fun x hx => .inl (hpolls x hx)) (fun c hc => by cases hc)
            fun r hr => hr
      | some r =>
          obtain ⟨a, ha, hreads⟩ := h.polls _ (List.mem_of_getElem? hn)
          have hshown : ∀ r', some r = some r' → ∃ a ∈ s.page.queries,
              Reads lower env dirs s.service a r' := fun r' hr' =>
            ⟨a, List.mem_of_getElem? ha, Option.some.inj hr' ▸ hreads r rfl⟩
          -- a chain that has seen the end sets no timer
          by_cases hend : r.found.status = "done" ∨ r.found.status = "error"
          · simp only [Page.polled, if_pos hend]
            exact ⟨h.service, h.starts, h.chains, fun x hx => h.polls x (hpolls x hx),
              fun c hc => (by cases hc), hshown⟩
          · simp only [Page.polled, if_neg hend]
            refine ⟨h.service, h.starts, ?_, fun x hx => ?_, ?_, ?_⟩
            · rw [queries_setTimeout]
              exact h.chains
            · rw [queries_setTimeout]
              exact h.polls x (hpolls x hx)
            · rw [queries_setTimeout]
              exact h.active
            · rw [queries_setTimeout]
              exact hshown
  | fired hd hh =>
      exact Attributed.poll (s := ⟨s.service, { s.page with timers := s.page.timers.erase hd }⟩)
        ⟨h.service, h.starts, h.chains, h.polls, h.active, h.shown⟩

end

/-! ## One chain of requests -/

/-- The answer to a start finds no other request under way, and no timer set. -/
def Quiet (s : System) : Event → Prop
  | .started _ => s.page.polls = [] ∧ s.page.timers = []
  | _ => True

section

variable (lower : String → String) (env : Env) (dirs : PathBuf → Dir)

/-- What holds as long as every start is answered in quiet. -/
structure OneChain (s : System) : Prop where
  few : s.page.polls.length + s.page.timers.length ≤ 1
  last : ∀ p ∈ s.page.polls, p.chain + 1 = s.page.queries.length
  active : ∀ c, s.page.active = some c → c + 1 = s.page.queries.length
  going : s.page.active ≠ none → s.page.starts = [] → s.page.troubled = false →
    s.page.polls.length + s.page.timers.length = 1
  ended : s.page.active = none → s.page.visible = true → s.page.troubled = false →
    s.page.polls = [] ∧ s.page.timers = [] ∧
      ∃ r, s.page.shown = some r ∧ r.found.status ≠ "running"
  shown : ∀ r, s.page.shown = some r → ∃ a, s.page.queries.getLast? = some a ∧
    Reads lower env dirs s.service a r
  order : ∀ r, s.page.shown = some r → ∀ p ∈ s.page.polls, ∀ r', p.reply = some (some r') →
    Follows r r'

end

section

variable {lower : String → String} {env : Env} {dirs : PathBuf → Dir} {s s' : System}

@[simp] theorem clear_visible (p : Page) : p.clear.visible = p.visible := by
  unfold Page.clear
  split <;> rfl

@[simp] theorem clear_troubled (p : Page) : p.clear.troubled = p.troubled := by
  unfold Page.clear
  split <;> rfl

theorem clear_timers (p : Page) : p.clear.timers.length ≤ p.timers.length := by
  unfold Page.clear
  split
  · exact List.length_erase_le
  · exact Nat.le_refl _

theorem getLast_of_succ {α : Type} {l : List α} {i : Nat} {a : α} (ha : l[i]? = some a)
    (hi : i + 1 = l.length) : l.getLast? = some a := by
  rw [List.getLast?_eq_getElem?, ← hi, Nat.add_sub_cancel, ha]

/-- Neither a request nor a timer is added, and what is shown stays or goes. -/
theorem OneChain.keep (h : OneChain lower env dirs s) {p : Page} (hq : p.queries = s.page.queries)
    (hpolls : p.polls = s.page.polls) (htimers : p.timers.length ≤ s.page.timers.length)
    (hactive : ∀ c, p.active = some c → s.page.active = some c)
    (hgoing : p.active ≠ none → p.starts = [] → p.troubled = false →
      p.polls.length + p.timers.length = 1)
    (hended : p.active = none → p.visible = true → p.troubled = false →
      s.page.active = none ∧ s.page.visible = true ∧ s.page.troubled = false ∧
        p.shown = s.page.shown)
    (hshown : ∀ r, p.shown = some r → s.page.shown = some r) :
    OneChain lower env dirs { s with page := p } where
  few := by
    have hfew := h.few
    dsimp only
    rw [hpolls]
    omega
  last := by
    dsimp only
    rw [hpolls, hq]
    exact h.last
  active c hc := hq ▸ h.active c (hactive c hc)
  going := hgoing
  ended ha hvis htr := by
    obtain ⟨ha', hvis', htr', hsh⟩ := hended ha hvis htr
    obtain ⟨hp, ht, hr⟩ := h.ended ha' hvis' htr'
    refine ⟨hpolls.trans hp, List.length_eq_zero_iff.mp ?_, hsh ▸ hr⟩
    -- there were no timers, and none was added
    rw [ht] at htimers
    exact Nat.le_zero.mp htimers
  shown r hr := by
    dsimp only
    rw [hq]
    exact h.shown r (hshown r hr)
  order r hr := by
    dsimp only
    rw [hpolls]
    exact h.order r (hshown r hr)

/-- An answer of the mover, or none, to a request that is under way. -/
theorem OneChain.answer (h : OneChain lower env dirs s) {v : Service}
    (hf : ∀ id r, s.service.searches id = some r → ∃ r', v.searches id = some r' ∧ Follows r r')
    {n : Nat} {p q : Poll} (hn : s.page.polls[n]? = some p) (hq : q.chain = p.chain)
    (ho : ∀ r, s.page.shown = some r → ∀ r', q.reply = some (some r') → Follows r r') :
    OneChain lower env dirs
      { service := v, page := { s.page with polls := s.page.polls.set n q } } where
  few := by
    dsimp only
    rw [List.length_set]
    exact h.few
  last x hx := by
    rcases List.mem_or_eq_of_mem_set hx with hx | rfl
    · exact h.last x hx
    · exact hq ▸ h.last p (List.mem_of_getElem? hn)
  active := h.active
  going ha hst htr := by
    dsimp only
    rw [List.length_set]
    exact h.going ha hst htr
  ended ha hvis htr := by
    obtain ⟨hp, -⟩ := h.ended ha hvis htr
    -- a panel whose search has ended has no poll for an answer to be to
    rw [hp] at hn
    cases hn
  shown r hr := by
    obtain ⟨a, ha, hreads⟩ := h.shown r hr
    exact ⟨a, ha, hreads.mono hf⟩
  order r hr x hx := by
    rcases List.mem_or_eq_of_mem_set hx with hx | rfl
    · exact h.order r hr x hx
    · exact ho r hr

/-- The answer to the one request that is under way comes in. -/
theorem OneChain.polled (hS : Attributed lower env dirs s) (h : OneChain lower env dirs s) {n c : Nat}
    {r : Option Record} (hn : s.page.polls[n]? = some ⟨c, some r⟩) :
    OneChain lower env dirs { s with
      page := { s.page with polls := s.page.polls.eraseIdx n }.polled c r } := by
  have hlt := (List.getElem?_eq_some_iff.mp hn).1
  have hfew := h.few
  -- no other one is, and no timer is set
  have hpolls : s.page.polls.eraseIdx n = [] := List.length_eq_zero_iff.mp (by
    rw [List.length_eraseIdx_of_lt hlt]
    omega)
  have htimers : s.page.timers = [] := List.length_eq_zero_iff.mp (by omega)
  cases r with
  | none =>
      simp only [Page.polled, hpolls]
      refine ⟨?_, by simp, fun c hc => ?_, fun ha => absurd rfl ha, fun _ _ htr => ?_, h.shown,
        fun r hr x hx => ?_⟩
      · simp [htimers]
      · cases hc
      · cases htr
      · cases hx
  | some r =>
      obtain ⟨a, ha, hreads⟩ := hS.polls _ (List.mem_of_getElem? hn)
      have hlast := getLast_of_succ ha (h.last _ (List.mem_of_getElem? hn))
      have hshown : ∀ r', some r = some r' → ∃ a, s.page.queries.getLast? = some a ∧
          Reads lower env dirs s.service a r' := fun r' hr' =>
        ⟨a, hlast, Option.some.inj hr' ▸ hreads r rfl⟩
      by_cases hend : r.found.status = "done" ∨ r.found.status = "error"
      · simp only [Page.polled, if_pos hend, hpolls]
        refine ⟨by simp [htimers], by simp, fun c hc => (by cases hc), fun ha => absurd rfl ha,
          fun _ _ _ => ⟨rfl, htimers, r, rfl, ?_⟩, hshown, fun r hr x hx => (by cases hx)⟩
        rcases hend with he | he <;> rw [he] <;> decide
      · simp only [Page.polled, if_neg hend, hpolls]
        refine ⟨by simp [Page.setTimeout, htimers], by simp [Page.setTimeout], ?_,
          fun _ _ _ => by simp [Page.setTimeout, htimers], fun ha hvis htr => ?_, ?_,
          fun r hr x hx => by simp [Page.setTimeout] at hx⟩
        · rw [queries_setTimeout]
          exact h.active
        · obtain ⟨hp, -⟩ := h.ended ha hvis htr
          rw [hp] at hn
          cases hn
        · rw [queries_setTimeout]
          exact hshown

theorem OneChain.step (hS : Attributed lower env dirs s) (h : OneChain lower env dirs s) {e : Event}
    (hc : Quiet s e) (hs : step lower env dirs s e = some s') : OneChain lower env dirs s' := by
  cases step_cases hs with
  | serviced e v hv =>
      refine ⟨h.few, h.last, h.active, h.going, h.ended, fun r hr => ?_, h.order⟩
      obtain ⟨a, ha, hreads⟩ := h.shown r hr
      exact ⟨a, ha, hreads.mono fun id r hr => follows_step hS.service hv hr⟩
  | searched root q hroot hq =>
      refine h.keep (by simp [Page.doSearch, Page.queries]) (by simp [Page.doSearch])
        (clear_timers s.page) (by simp [Page.doSearch]) ?_ ?_ (by simp [Page.doSearch])
      · intro _ hst
        simp [Page.doSearch] at hst
      · intro ha hvis htr
        simp only [Page.doSearch, clear_active, clear_visible, clear_troubled] at ha hvis htr
        exact ⟨ha, hvis, htr, clear_shown s.page⟩
  | hidden =>
      refine h.keep (by simp [Page.hideSearchRes, Page.queries]) (by simp [Page.hideSearchRes])
        (clear_timers s.page) (by simp [Page.hideSearchRes]) ?_ (by simp [Page.hideSearchRes])
        (by simp [Page.hideSearchRes])
      intro ha
      simp [Page.hideSearchRes] at ha
  | arrived i root q v hi hv =>
      have hlt := (List.getElem?_eq_some_iff.mp hi).1
      refine ⟨h.few, h.last, h.active, fun ha hst htr => ?_, h.ended, fun r hr => ?_, h.order⟩
      · have hlen := congrArg List.length hst
        rw [List.length_set] at hlen
        rw [List.length_eq_zero_iff.mp hlen] at hlt
        exact absurd hlt (Nat.not_lt_zero _)
      · obtain ⟨a, ha, hreads⟩ := h.shown r hr
        exact ⟨a, ha, hreads.mono fun id r hr => follows_step hS.service hv hr⟩
  | failed i x hi =>
      exact h.keep rfl rfl (Nat.le_refl _) (fun c hc => hc) (fun _ _ htr => by cases htr)
        (fun _ _ htr => by cases htr) fun r hr => hr
  | started i root q j x id hi hx hid =>
      obtain ⟨hp, ht⟩ := hc
      rw [Page.started, Page.pollSearch_some rfl]
      simp only [hp, List.nil_append]
      refine ⟨?_, fun p hp => ?_, fun c hc => ?_, fun _ _ _ => ?_, fun ha => ?_, fun r hr => ?_,
        fun r hr => ?_⟩
      · simp [ht]
      · rw [List.mem_singleton.mp hp]
        simp [Page.queries]
      · obtain rfl : s.page.chains.length = c := Option.some.inj hc
        simp [Page.queries]
      · simp [ht]
      · cases ha
      · cases hr
      · cases hr
  | answered n c a v hn ha hv =>
      have hf : ∀ id r, s.service.searches id = some r → ∃ r', v.searches id = some r' ∧
        Follows r r' :=
        fun id r hr => follows_step hS.service hv hr
      refine h.answer hf hn rfl fun r hr r' hr' => ?_
      have hquery : s.page.queries[c]? = some a.query := by
        rw [Page.queries, List.getElem?_map, ha, Option.map_some]
      -- what is shown was read earlier of the record that is read now
      have hlast := getLast_of_succ hquery (h.last _ (List.mem_of_getElem? hn))
      obtain ⟨a', ha', hreads⟩ := h.shown r hr
      obtain rfl : a' = a.query := Option.some.inj (ha'.symm.trans hlast)
      obtain ⟨r₁, h₁, hfol⟩ := hreads.since
      have hrec := heard_poll hv (Option.some.inj hr')
      exact Option.some.inj (h₁.symm.trans hrec) ▸ hfol
  | lost n p hn =>
      exact h.answer (fun id r hr => ⟨r, hr, Follows.refl r⟩) hn rfl fun r hr r' hr' => by cases hr'
  | polled n c r hn => exact OneChain.polled hS h hn
  | fired hd hh =>
      have hlen := List.length_erase_of_mem hh
      have hpos := List.length_pos_of_mem hh
      have hfew := h.few
      have hpolls : s.page.polls = [] := List.length_eq_zero_iff.mp (by omega)
      rcases Option.eq_none_or_eq_some s.page.active with hactive | ⟨c, hactive⟩
      · rw [Page.pollSearch_none (p := { s.page with timers := s.page.timers.erase hd }) hactive]
        refine ⟨?_, h.last, h.active, fun ha => absurd hactive ha, fun ha hvis htr => ?_, h.shown,
            h.order⟩
        · dsimp only
          omega
        · obtain ⟨-, ht, -⟩ := h.ended ha hvis htr
          rw [ht] at hh
          cases hh
      · rw [Page.pollSearch_some (p := { s.page with timers := s.page.timers.erase hd }) hactive]
        simp only [hpolls, List.nil_append]
        refine ⟨?_, fun p hp => ?_, h.active, fun _ _ _ => ?_, fun ha => ?_, h.shown,
          fun r hr p hp => ?_⟩
        · simp only [List.length_singleton]
          omega
        · rw [List.mem_singleton.mp hp]
          exact h.active c hactive
        · simp only [List.length_singleton]
          omega
        · exact absurd (hactive.symm.trans ha) (by simp)
        · rw [List.mem_singleton.mp hp]
          intro r' hr'
          cases hr'

/-- What is shown in quiet only goes on. -/
theorem OneChain.grows (h : OneChain lower env dirs s) {e : Event}
    (hs : Panel.step lower env dirs s e = some s') {r r' : Record} (hr : s.page.shown = some r)
      (hr' : s'.page.shown = some r') : Follows r r' := by
  have same : s'.page.shown = s.page.shown → Follows r r' := fun he => by
    obtain rfl : r' = r := Option.some.inj (hr'.symm.trans (he.trans hr))
    exact Follows.refl r'
  cases step_cases hs with
  | serviced e v hv => exact same rfl
  | searched root q hroot hq => exact same (clear_shown s.page)
  | hidden => cases hr'
  | arrived i root q v hi hv => exact same rfl
  | failed i x hi => exact same rfl
  | started i root q j x id hi hx hid =>
      rw [Page.started, Page.pollSearch_some rfl] at hr'
      cases hr'
  | answered n c a v hn ha hv => exact same rfl
  | lost n p hn => exact same rfl
  | polled n c x hn =>
      cases x with
      | none => exact same rfl
      | some r₁ =>
          have hfol := h.order r hr _ (List.mem_of_getElem? hn) r₁ rfl
          by_cases hend : r₁.found.status = "done" ∨ r₁.found.status = "error"
          · simp only [Page.polled, if_pos hend, Option.some.injEq] at hr'
            exact hr' ▸ hfol
          · simp only [Page.polled, if_neg hend, Page.setTimeout, Option.some.injEq] at hr'
            exact hr' ▸ hfol
  | fired hd hh => exact same (Page.pollSearch_shown _)

end

/-! ## The results -/

section

variable (lower : String → String) (env : Env) (dirs : PathBuf → Dir)

/-- What the user sees of the search asked for last. -/
structure Followed (s : System) : Prop where
  one : s.page.polls.length + s.page.timers.length ≤ 1
  shown : ∀ r, s.page.shown = some r → ∃ a, s.page.queries.getLast? = some a ∧
    r.root = a.root ∧ r.q = a.q ∧ Told lower env dirs r
  going : s.page.active ≠ none → s.page.starts = [] → s.page.troubled = false →
    s.page.polls.length + s.page.timers.length = 1
  ended : s.page.active = none → s.page.visible = true → s.page.troubled = false →
    ∃ a r, s.page.queries.getLast? = some a ∧ s.page.shown = some r ∧
      r.found = result lower env dirs a.root a.q

variable {lower env dirs}

theorem OneChain.followed {s : System} (h : OneChain lower env dirs s) :
    Followed lower env dirs s := by
  refine ⟨h.few, fun r hr => ?_, h.going, fun ha hvis htr => ?_⟩
  · obtain ⟨a, ha, hreads⟩ := h.shown r hr
    exact ⟨a, ha, hreads.root, hreads.q, hreads.told⟩
  · obtain ⟨-, -, r, hr, hdone⟩ := h.ended ha hvis htr
    obtain ⟨a, ha, hreads⟩ := h.shown r hr
    refine ⟨a, r, ha, hr, ?_⟩
    rcases hreads.told with ⟨hrun, -⟩ | hres
    · exact absurd hrun hdone
    · rw [hres, hreads.root, hreads.q]

theorem Attributed.opened {v : Service} (hI : Inv lower env dirs v) :
    Attributed lower env dirs ⟨v, Page.opened⟩ := by
  refine ⟨hI, ?_, ?_, ?_, ?_, ?_⟩ <;> simp [Page.opened, Page.queries]

theorem OneChain.opened (v : Service) : OneChain lower env dirs ⟨v, Page.opened⟩ := by
  constructor <;> simp [Page.opened, Page.queries]

end

/-- `Quiet`, to be computed. -/
def quiet (s : System) : Event → Bool
  | .started _ => s.page.polls.isEmpty && s.page.timers.isEmpty
  | _ => true

/-- The user asks for a search, which comes in at the mover and is answered. -/
def asks (q : String) (i : Nat) : List Event :=
  [.search "/r" q, .arrive 0, .service (.party i), .service (.party i), .service (.party i),
    .started 0]

/-- Two searches, where the last answer about the first comes in after the second has
been started. -/
def late_answer : List Event :=
  asks "note" 0 ++ List.replicate 9 (.service (.party 0)) ++ [.answer 0] ++ asks "*.txt" 1 ++
    [.status 0, .answer 0, .status 0, .fire 1]

/-- Whether the page has stopped asking, with no error, and the query and the state of
what it shows. -/
def System.seen (s : System) : Bool × Option (String × String) :=
  (s.page.active.isNone && s.page.visible && !s.page.troubled,
    s.page.shown.map fun r => (r.q, r.found.status))

/-- **Not in every run.** An answer about an older search that comes in late ends the
following of the new one, which is shown as it was when it had just begun. -/
theorem panel_left_behind : ¬ ∀ s,
    Reach (step String.toLower bare fun _ => notes) Any ⟨.init, Page.opened⟩ s →
      Followed String.toLower bare (fun _ => notes) s := by
  intro hall
  have hrun : (exec (step String.toLower bare fun _ => notes) ⟨.init, Page.opened⟩
      late_answer).map System.seen = some (true, some ("*.txt", "running")) := by
    decide +kernel
  obtain ⟨s, hs, hout⟩ := Option.map_eq_some_iff.mp hrun
  simp only [System.seen, Prod.mk.injEq, Bool.and_eq_true, Bool.not_eq_true',
    Option.isNone_iff_eq_none] at hout
  obtain ⟨⟨⟨hactive, hvis⟩, htr⟩, hshown⟩ := hout
  obtain ⟨a, r, -, hr, hres⟩ := (hall s (reach_of_exec hs)).ended hactive hvis htr
  -- a result is done
  rw [hr, Option.map_some, hres, result_done, Option.some.injEq, Prod.mk.injEq] at hshown
  exact absurd hshown.2 (by decide)

end WebDavs.Panel
