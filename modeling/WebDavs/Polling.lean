/-
How a tab follows its jobs: `pollJobs` and `startPolling`, against the server.

`pollTimer` is set while a timer runs, and stays set while the request it has sent is
under way. So `startPolling` does nothing then, and what keeps the tab polling is the
answer to that request -- which may be older than the job. And the request that the page
sends when it is opened goes without a timer, so that `startPolling` begins a second
chain next to it.
-/
import WebDavs.Registry

set_option autoImplicit false

namespace WebDavs.Polling

open WebDavs.Posix WebDavs.Steps WebDavs.Mover

/-! ## The tab -/

/-- A status request under way: not answered yet, answered with the jobs as they were,
or lost (no answer, or one that is an error). -/
inductive Poll where
  | sent
  | answered (jobs : Registry)
  | lost

/-- What the tab keeps: whether `pollTimer` is set; the timers that have yet to call
`pollJobs`; the status requests and, by their handlers, the other requests whose answers
it waits for; and the jobs of whose start it has been told. -/
structure Tab where
  pollTimer : Bool
  timers : Nat
  polls : List Poll
  waiting : List Nat
  told : List Nat

namespace Tab

/-- `pollJobs`, up to its request. -/
def pollJobs (t : Tab) : Tab := { t with polls := t.polls ++ [.sent] }

/-- `pollTimer = setTimeout(pollJobs, ..)`. -/
def setTimeout (t : Tab) : Tab := { t with pollTimer := true, timers := t.timers + 1 }

/-- `startPolling`. -/
def startPolling (t : Tab) : Tab := if t.pollTimer then t else t.setTimeout

/-- The page, just opened. -/
def opened : Tab := pollJobs
  { pollTimer := false, timers := 0, polls := [], waiting := [], told := [] }

/-- The jobs that `pollJobs` finds queued or running. -/
def running (list : Registry) : Registry :=
  list.filter fun x => x.2.status = .queued || x.2.status = .running

/-- `pollJobs`, from its answer on. -/
def polled (t : Tab) : Poll → Tab
  | .sent => t
  | .answered list => if running list ≠ [] then t.setTimeout else { t with pollTimer := false }
  | .lost => t.setTimeout

/-- `doOp` and `deletePath`, from the answer on: a job that is there already is not
followed anew. -/
def replied (t : Tab) : Reply → Tab
  | .accepted id => { t with told := id :: t.told }.startPolling
  | _ => t

theorem polled_busy (t : Tab) {list : Registry} (h : running list ≠ []) :
    t.polled (.answered list) = t.setTimeout := if_pos h

theorem polled_idle (t : Tab) {list : Registry} (h : running list = []) :
    t.polled (.answered list) = { t with pollTimer := false } := if_neg (not_not_intro h)

theorem replied_set (t : Tab) {id : Nat} (h : t.pollTimer = true) :
    t.replied (.accepted id) = { t with told := id :: t.told } := if_pos h

theorem replied_unset (t : Tab) {id : Nat} (h : ¬ t.pollTimer = true) :
    t.replied (.accepted id) = { t with told := id :: t.told }.setTimeout := if_neg h

end Tab

/-! ## Tab and server -/

/-- A tab and the server it talks to. -/
structure System where
  server : Server
  tab : Tab

/-- One event: a call in the mover, for whomever; a request of this tab that comes in; an
answer to its `n`-th status request, or its loss; that answer, or the answer of a
handler, at the tab; a timer. -/
inductive Event where
  | server (a : Act)
  | request (a : Act)
  | answer (n : Nat)
  | lose (n : Nat)
  | status (n : Nat)
  | reply (i : Nat)
  | fire

/-- `handle_status`. -/
def handle_status (s : Server) : Registry := s.jobs

namespace System

/-- One event. -/
def step (k : Kernel) (h : Host) (s : System) : Event → Option System
  | .server a => (s.server.step k h a).map fun u => { s with server := u }
  | .request a =>
    (s.server.step k h a).map fun u =>
      if s.server.handlers.length < u.handlers.length then
        { server := u, tab := { s.tab with waiting := s.server.handlers.length :: s.tab.waiting } }
      else { s with server := u }
  | .answer n =>
    match s.tab.polls[n]? with
    | some .sent =>
      some { s with tab := { s.tab with
        polls := s.tab.polls.set n (.answered (handle_status s.server)) } }
    | _ => none
  | .lose n =>
    match s.tab.polls[n]? with
    | some _ => some { s with tab := { s.tab with polls := s.tab.polls.set n .lost } }
    | none => none
  | .status n =>
    match s.tab.polls[n]? with
    | some .sent => none
    | some p => some { s with tab := { s.tab with polls := s.tab.polls.eraseIdx n }.polled p }
    | none => none
  | .reply i =>
    if i ∈ s.tab.waiting then
      match s.server.handlers[i]? with
      | some (.replied r) =>
        some { s with tab := { s.tab with waiting := s.tab.waiting.erase i }.replied r }
      | _ => none
    else none
  | .fire =>
    if 0 < s.tab.timers then
      some { s with tab := { s.tab with timers := s.tab.timers - 1 }.pollJobs }
    else none

/-- The page opened on a server. -/
def opened (s : Server) : System := ⟨s, .opened⟩

/-- A job is queued or running on the server. -/
def Live (s : System) (id : Nat) : Prop := ∃ j, s.server.jobs.get id = some j ∧ j.live

/-- The jobs the tab has been told of are followed as long as they live, and there is one
chain of polls. -/
structure Followed (s : System) : Prop where
  awake : ∀ id ∈ s.tab.told, s.Live id → 0 < s.tab.timers ∨ s.tab.polls ≠ []
  single : s.tab.timers + s.tab.polls.length ≤ 1

/-- When the answer of a handler that has started a job reaches the tab: no status
request is under way without a timer's number in `pollTimer`, and none has been answered
already with a list in which nothing is to be done, unless the job is over. -/
def KeepsOneChain (s : System) : Event → Prop
  | .reply i => ∀ id, s.server.handlers[i]? = some (.replied (.accepted id)) →
    (s.tab.polls ≠ [] → s.tab.pollTimer = true) ∧
      ∀ list, .answered list ∈ s.tab.polls → Tab.running list ≠ [] ∨ ¬ s.Live id
  | _ => True

end System

/-! ## The server goes on -/

section

variable {k : Kernel} {h : Host} {s s' : Server} {a : Act}

/-- No record is taken away. -/
theorem record_kept (hI : s.Inv) (hs : s.step k h a = some s') {id : Nat} {j : Job}
    (hj : s.jobs.get id = some j) : ∃ j', s'.jobs.get id = some j' := by
  rcases hI.record hs hj with hj' | ⟨i, e, m, x, -, -, -, hj'⟩
  · exact ⟨j, hj'⟩
  · exact ⟨_, hj'⟩

/-- Every number that is answered has a record. -/
def Accepted (s : Server) : Prop :=
  ∀ (i : Nat) id, s.handlers[i]? = some (.replied (.accepted id)) → ∃ j, s.jobs.get id = some j

theorem accepted_step (hI : s.Inv) (hA : Accepted s) (hs : s.step k h a = some s') :
    Accepted s' := by
  intro i id hi
  -- an answer given before
  have hold : s.handlers[i]? = some (.replied (.accepted id)) → ∃ j, s'.jobs.get id = some j := by
    intro hi
    obtain ⟨j, hj⟩ := hA i id hi
    exact record_kept hI hs hj
  have henter : ∀ {c : Handler}, c ≠ .replied (.accepted id) →
      (s.handlers ++ [c])[i]? = some (.replied (.accepted id)) →
      ∃ j, s'.jobs.get id = some j := by
    intro c hc h
    rcases append_cases h with ⟨-, hx⟩ | h
    · exact absurd hx.symm hc
    · exact hold h
  have hgoes : ∀ {n : Nat} {c : Handler}, c ≠ .replied (.accepted id) →
      (s.handlers.set n c)[i]? = some (.replied (.accepted id)) →
      ∃ j, s'.jobs.get id = some j := by
    intro n c hc h
    rcases set_cases h with ⟨-, hx⟩ | ⟨-, h⟩
    · exact absurd hx.symm hc
    · exact hold h
  cases Server.step_cases hs with
  | requested op src dst strategy final_dst hop hr => exact henter (by simp) hi
  | deleted src hx => exact henter (by simp) hi
  | rename_checked src name dst hr => exact henter (by simp) hi
  | numbered n found f op src dst hn => exact hgoes (by simp) hi
  | registered n found f op src dst id' hn hno => exact hgoes (by simp) hi
  | deduped n f op src dst id' eid j hn hj hd => exact hgoes (by simp) hi
  | launched n found f op src dst id' hn =>
      rcases set_cases hi with ⟨-, hx⟩ | ⟨-, hi⟩
      · cases hx
        exact ⟨_, (hI.launch n _ _ _ _ hn).1⟩
      · exact hold hi
  | renamed n found f src dst t hn hr => exact hgoes (by simp) hi
  | unrenamed n found f src dst e hn => exact hgoes (by simp) hi
  | worked n e id' m x hn hx => exact hold hi

end

namespace System

variable {k : Kernel} {h : Host} {s s' : System}

/-! ## The invariant -/

/-- What holds besides: a timer means that `pollTimer` is set, and that means that the
chain goes on; the jobs the tab has been told of have records; and an answer under way
that ends the chain is no older than the last of them to live. -/
structure Inv (s : System) : Prop where
  server : s.server.Inv
  accepted : Accepted s.server
  single : s.tab.timers + s.tab.polls.length ≤ 1
  timer : 0 < s.tab.timers → s.tab.pollTimer = true
  chain : s.tab.pollTimer = true → 0 < s.tab.timers ∨ s.tab.polls ≠ []
  known : ∀ id ∈ s.tab.told, ∃ j, s.server.jobs.get id = some j
  awake : ∀ id ∈ s.tab.told, s.Live id → 0 < s.tab.timers ∨ s.tab.polls ≠ []
  fresh : ∀ list, .answered list ∈ s.tab.polls →
    Tab.running list ≠ [] ∨ ∀ id ∈ s.tab.told, ¬ s.Live id

theorem running_ne_nil {list : Registry} {id : Nat} {j : Job} (h : list.get id = some j)
    (hl : j.live) : Tab.running list ≠ [] := by
  refine List.ne_nil_of_mem (a := (id, j)) (List.mem_filter.mpr ⟨Registry.mem_of_get h, ?_⟩)
  simpa [Job.live] using hl

theorem Inv.opened {s : Server} (hI : s.Inv) (hA : Accepted s) : (opened s).Inv := by
  refine ⟨hI, hA, Nat.le_refl 1, ?_, ?_, ?_, ?_, ?_⟩
  · intro h
    exact absurd h (Nat.lt_irrefl 0)
  · intro h
    cases h
  · intro id hid
    cases hid
  · intro id hid
    cases hid
  · intro list hlist
    cases List.mem_singleton.mp hlist

/-- A job that has a record lives no longer than it did. -/
theorem live_back {u : Server} {a : Act} (hI : s.server.Inv) (hs : s.server.step k h a = some u)
    {t : Tab} {id : Nat} (hk : ∃ j, s.server.jobs.get id = some j)
    (hl : (System.mk u t).Live id) : s.Live id := by
  obtain ⟨j, hj⟩ := hk
  by_contra hdead
  have hstands := (hI.step hs).2 id j hj fun hlive => hdead ⟨j, hj, hlive⟩
  obtain ⟨j', hj', hlive⟩ := hl
  have hjj : j = j' := Option.some.inj (hstands.symm.trans hj')
  exact hdead ⟨j, hj, hjj ▸ hlive⟩

/-- A call in the mover. -/
theorem Inv.serve (hi : s.Inv) {u : Server} {a : Act} (hs : s.server.step k h a = some u) :
    ({ s with server := u } : System).Inv := by
  refine ⟨(hi.server.step hs).1, accepted_step hi.server hi.accepted hs, hi.single, hi.timer,
    hi.chain, ?_, ?_, ?_⟩
  · intro id hid
    obtain ⟨j, hj⟩ := hi.known id hid
    exact record_kept hi.server hs hj
  · intro id hid hl
    exact hi.awake id hid (live_back hi.server hs (hi.known id hid) hl)
  · intro list hlist
    rcases hi.fresh list hlist with h | h
    · exact .inl h
    · refine .inr ?_
      intro id hid hl
      exact h id hid (live_back hi.server hs (hi.known id hid) hl)

/-- What the tab waits for besides does not matter. -/
theorem Inv.wait (hi : s.Inv) (ws : List Nat) :
    ({ s with tab := { s.tab with waiting := ws } } : System).Inv :=
  ⟨hi.server, hi.accepted, hi.single, hi.timer, hi.chain, hi.known, hi.awake, hi.fresh⟩

/-- The answer to a status request, or its loss. -/
theorem Inv.poll_set (hi : s.Inv) {n : Nat} {p p' : Poll} (hn : s.tab.polls[n]? = some p)
    (hp : ∀ list, p' = .answered list → list = s.server.jobs) :
    ({ s with tab := { s.tab with polls := s.tab.polls.set n p' } } : System).Inv := by
  have hlen : (s.tab.polls.set n p').length = s.tab.polls.length := List.length_set
  have hne : s.tab.polls.set n p' ≠ [] := by
    intro hnil
    rw [hnil, List.length_nil] at hlen
    have hlt := (List.getElem?_eq_some_iff.mp hn).1
    omega
  refine ⟨hi.server, hi.accepted, ?_, hi.timer, fun _ => .inr hne, hi.known,
    fun _ _ _ => .inr hne, ?_⟩
  · show s.tab.timers + (s.tab.polls.set n p').length ≤ 1
    rw [hlen]
    exact hi.single
  · intro list hlist
    rcases List.mem_or_eq_of_mem_set hlist with hmem | heq
    · exact hi.fresh list hmem
    · -- the list is the registry as it is
      rw [hp list heq.symm]
      by_cases hrun : Tab.running s.server.jobs = []
      · refine .inr ?_
        rintro id - ⟨j, hj, hl⟩
        exact running_ne_nil hj hl hrun
      · exact .inl hrun

/-- What is left of one chain when its request is taken away. -/
theorem Inv.alone (hi : s.Inv) {n : Nat} {p : Poll} (hn : s.tab.polls[n]? = some p) :
    s.tab.timers = 0 ∧ s.tab.polls.eraseIdx n = [] ∧ p ∈ s.tab.polls := by
  have hlt := (List.getElem?_eq_some_iff.mp hn).1
  have hsingle := hi.single
  refine ⟨by omega, ?_, List.mem_of_getElem? hn⟩
  rw [← List.length_eq_zero_iff, List.length_eraseIdx_of_lt hlt]
  omega

/-- The answer to a status request at the tab. -/
theorem Inv.status (hi : s.Inv) {n : Nat} {p : Poll} (hn : s.tab.polls[n]? = some p)
    (hp : p ≠ .sent) :
    ({ s with tab := { s.tab with polls := s.tab.polls.eraseIdx n }.polled p } : System).Inv := by
  obtain ⟨htimers, hpolls, hmem⟩ := hi.alone hn
  -- the next poll is timed
  have hgoes : ({ s with tab :=
      { s.tab with polls := s.tab.polls.eraseIdx n }.setTimeout } : System).Inv := by
    refine ⟨hi.server, hi.accepted, ?_, fun _ => rfl, fun _ => .inl (Nat.succ_pos _), hi.known,
      fun _ _ _ => .inl (Nat.succ_pos _), ?_⟩
    · show s.tab.timers + 1 + (s.tab.polls.eraseIdx n).length ≤ 1
      rw [htimers, hpolls]
      exact Nat.le_refl 1
    · intro list hlist
      exact hi.fresh list (List.mem_of_mem_eraseIdx hlist)
  cases p with
  | sent => exact absurd rfl hp
  | lost => exact hgoes
  | answered list =>
      by_cases hrun : Tab.running list = []
      · rw [Tab.polled_idle _ hrun]
        -- the chain ends, and nothing the tab has been told of lives
        have hdead : ∀ id ∈ s.tab.told, ¬ s.Live id := by
          rcases hi.fresh list hmem with h | h
          · exact absurd hrun h
          · exact h
        refine ⟨hi.server, hi.accepted, ?_, ?_, ?_, hi.known, ?_, ?_⟩
        · show s.tab.timers + (s.tab.polls.eraseIdx n).length ≤ 1
          rw [htimers, hpolls]
          exact Nat.zero_le 1
        · intro h
          rw [show s.tab.timers = 0 from htimers] at h
          exact absurd h (Nat.lt_irrefl 0)
        · intro h
          cases h
        · intro id hid hl
          exact absurd hl (hdead id hid)
        · intro list' _
          exact .inr hdead
      · rw [Tab.polled_busy _ hrun]
        exact hgoes

/-- The answer of a handler at the tab. -/
theorem Inv.reply (hi : s.Inv) {i : Nat} {r : Reply}
    (hr : s.server.handlers[i]? = some (.replied r)) (hf : s.KeepsOneChain (.reply i))
      (ws : List Nat) :
    ({ s with tab := { s.tab with waiting := ws }.replied r } : System).Inv := by
  cases r with
  | accepted id =>
      obtain ⟨htimer, hfresh⟩ := hf id hr
      have hknown : ∀ id' ∈ id :: s.tab.told, ∃ j, s.server.jobs.get id' = some j := by
        intro id' hid'
        rcases List.mem_cons.mp hid' with rfl | hid'
        · exact hi.accepted i id' hr
        · exact hi.known id' hid'
      have hfresh' : ∀ list, .answered list ∈ s.tab.polls →
          Tab.running list ≠ [] ∨ ∀ id' ∈ id :: s.tab.told, ¬ s.Live id' := by
        intro list hlist
        rcases hfresh list hlist with h | h
        · exact .inl h
        · rcases hi.fresh list hlist with h' | h'
          · exact .inl h'
          · refine .inr ?_
            intro id' hid'
            rcases List.mem_cons.mp hid' with rfl | hid'
            · exact h
            · exact h' id' hid'
      by_cases hset : s.tab.pollTimer = true
      · rw [Tab.replied_set { s.tab with waiting := ws } hset]
        have hchain := hi.chain hset
        exact ⟨hi.server, hi.accepted, hi.single, hi.timer, hi.chain, hknown,
          fun _ _ _ => hchain, hfresh'⟩
      · rw [Tab.replied_unset { s.tab with waiting := ws } hset]
        -- nothing is under way, so that this is the one chain
        have hpolls : s.tab.polls = [] := by
          by_contra hne
          exact hset (htimer hne)
        have htimers : s.tab.timers = 0 := by
          by_contra hne
          exact hset (hi.timer (by omega))
        refine ⟨hi.server, hi.accepted, ?_, fun _ => rfl, fun _ => .inl (Nat.succ_pos _), hknown,
          fun _ _ _ => .inl (Nat.succ_pos _), hfresh'⟩
        show s.tab.timers + 1 + s.tab.polls.length ≤ 1
        rw [htimers, hpolls]
        exact Nat.le_refl 1
  | deduped id => exact hi.wait ws
  | renamed dst => exact hi.wait ws
  | failed e => exact hi.wait ws

/-- A timer. -/
theorem Inv.fire (hi : s.Inv) (ht : 0 < s.tab.timers) :
    ({ s with tab := { s.tab with timers := s.tab.timers - 1 }.pollJobs } : System).Inv := by
  have hsingle := hi.single
  have hne : s.tab.polls ++ [Poll.sent] ≠ [] := by simp
  refine ⟨hi.server, hi.accepted, ?_, fun _ => hi.timer ht, fun _ => .inr hne, hi.known,
    fun _ _ _ => .inr hne, ?_⟩
  · show s.tab.timers - 1 + (s.tab.polls ++ [Poll.sent]).length ≤ 1
    rw [List.length_append, List.length_singleton]
    omega
  · intro list hlist
    rcases List.mem_append.mp hlist with hmem | hmem
    · exact hi.fresh list hmem
    · cases List.mem_singleton.mp hmem

/-- **One event** keeps the invariant. -/
theorem Inv.step (hi : s.Inv) {e : Event} (hf : s.KeepsOneChain e) (hs : s.step k h e = some s') :
    s'.Inv := by
  cases e with
  | server a =>
      obtain ⟨u, hu, rfl⟩ := Option.map_eq_some_iff.mp hs
      exact hi.serve hu
  | request a =>
      obtain ⟨u, hu, rfl⟩ := Option.map_eq_some_iff.mp hs
      -- a request that is let in has a handler, whose reply the tab now waits for
      by_cases hlen : s.server.handlers.length < u.handlers.length
      · rw [if_pos hlen]
        exact (hi.serve hu).wait _
      · rw [if_neg hlen]
        exact hi.serve hu
  | answer n =>
      simp only [System.step] at hs
      split at hs
      · rename_i hn
        cases hs
        refine hi.poll_set hn ?_
        -- what is on the way is the list as it is now
        rintro list ⟨⟩
        rfl
      · cases hs
  | lose n =>
      simp only [System.step] at hs
      split at hs
      · rename_i p hn
        cases hs
        refine hi.poll_set hn ?_
        rintro list ⟨⟩
      · cases hs
  | status n =>
      simp only [System.step] at hs
      split at hs
      · cases hs
      · rename_i p hn hp
        cases hs
        exact hi.status hp hn
      · cases hs
  | reply i =>
      simp only [System.step] at hs
      split at hs
      · split at hs
        · rename_i r hr
          cases hs
          exact hi.reply hr hf _
        · cases hs
      · cases hs
  | fire =>
      simp only [System.step] at hs
      split at hs
      · rename_i ht
        cases hs
        exact hi.fire ht
      · cases hs

theorem Inv.followed (hi : s.Inv) : s.Followed := ⟨hi.awake, hi.single⟩

end System

/-! ## Runs -/

theorem accepted_init (t : FileTree Bytes) : Accepted (Server.init t) := by
  intro i id hi
  cases hi

/-- What is known of the server when the page is opened. -/
theorem reach_accepted {k : Kernel} {h : Host} {t : FileTree Bytes} {s : Server}
    (hs : Reach (Server.step k h) Any (.init t) s) : s.Inv ∧ Accepted s :=
  hs.inv (I := fun s => s.Inv ∧ Accepted s) ⟨Server.Inv.init t, accepted_init t⟩
    fun _ _ _ hi _ hstep => ⟨(hi.1.step hstep).1, accepted_step hi.1 hi.2 hstep⟩

/-- **No wake-up is lost** in a run in which the answers that start a job reach the tab
as `KeepsOneChain` says: whatever the server is doing when the page is opened, and however its
work, its answers and the timers of the tab interleave. -/
theorem polls_follow (k : Kernel) (h : Host) (t : FileTree Bytes) (s₀ : Server)
    (h₀ : Reach (Server.step k h) Any (.init t) s₀) (s : System)
    (hs : Reach (System.step k h) System.KeepsOneChain (.opened s₀) s) : s.Followed := by
  obtain ⟨hI, hA⟩ := reach_accepted h₀
  exact (hs.inv (System.Inv.opened hI hA) fun _ _ _ hi hf hstep => hi.step hf hstep).followed

/-- A test that is enough for `KeepsOneChain`. -/
def keeps_one_chain (s : System) : Event → Bool
  | .reply i =>
    match s.server.handlers[i]? with
    | some (.replied (.accepted _)) => s.tab.polls.isEmpty
    | _ => true
  | _ => true

theorem keeps_one_chain_spec (s : System) (e : Event) (h : keeps_one_chain s e = true) :
    s.KeepsOneChain e := by
  cases e with
  | reply i =>
      intro id hi
      simp only [keeps_one_chain, hi] at h
      have hnil : s.tab.polls = [] := List.isEmpty_iff.mp h
      rw [hnil]
      exact ⟨fun hne => absurd rfl hne, fun list hlist => nomatch hlist⟩
  | _ => trivial

/-- The page has heard that there is nothing to do; then the tab asks for a move and is
told that it has begun. -/
theorem polls_follow_move : ∃ s, Reach (System.step box box_host) System.KeepsOneChain
    (.opened (.init tree_e)) s ∧ s.tab.told = [1] ∧ s.tab.timers = 1 ∧ s.Followed := by
  have hrun : (exec_if (System.step box box_host) keeps_one_chain (.opened (.init tree_e))
      [.answer 0, .status 0, .request (.request .move (.abs ["a"]) (.abs ["b"]) .none),
        .server (.handler 0 none .none), .server (.handler 0 none .none),
        .server (.handler 0 none .none), .reply 0]).map
        (fun s => (s.tab.told, s.tab.timers)) = some ([1], 1) := by decide
  obtain ⟨s, hs, hout⟩ := Option.map_eq_some_iff.mp hrun
  simp only [Prod.mk.injEq] at hout
  have hreach := reach_of_exec_if keeps_one_chain_spec hs
  exact ⟨s, hreach, hout.1, hout.2, polls_follow box box_host tree_e (.init tree_e) .start s hreach⟩

/-- A poll is answered just before the tab's job is registered, and the tab is told of the
job while that answer is under way: it then stops polling, and the job is queued. And a
tab that is told of a job while the first status request is under way has two chains. -/
theorem wake_up_lost :
    (∃ s, Reach (System.step box box_host) Any (.opened (.init tree_e)) s ∧
      s.tab.told = [1] ∧ s.Live 1 ∧ s.tab.timers = 0 ∧ s.tab.polls = []) ∧
    ∃ s, Reach (System.step box box_host) Any (.opened (.init tree_e)) s ∧
      s.tab.timers + s.tab.polls.length = 2 := by
  constructor
  · have hrun : (exec (System.step box box_host) (.opened (.init tree_e))
        [.lose 0, .status 0, .fire, .request (.request .move (.abs ["a"]) (.abs ["b"]) .none),
          .answer 0, .server (.handler 0 none .none), .server (.handler 0 none .none),
          .server (.handler 0 none .none), .reply 0, .status 0]).map
          (fun s => (s.tab.told, (s.server.jobs.get 1).map Job.status, s.tab.timers,
            s.tab.polls.length)) = some ([1], some .queued, 0, 0) := by decide
    obtain ⟨s, hs, hout⟩ := Option.map_eq_some_iff.mp hrun
    simp only [Prod.mk.injEq] at hout
    obtain ⟨htold, hjob, htimers, hpolls⟩ := hout
    obtain ⟨j, hj, hqueued⟩ := Option.map_eq_some_iff.mp hjob
    exact ⟨s, reach_of_exec hs, htold, ⟨j, hj, .inl hqueued⟩, htimers,
      List.length_eq_zero_iff.mp hpolls⟩
  · have hrun : (exec (System.step box box_host) (.opened (.init tree_e))
        [.request (.request .move (.abs ["a"]) (.abs ["b"]) .none),
          .server (.handler 0 none .none), .server (.handler 0 none .none),
          .server (.handler 0 none .none), .reply 0]).map
          (fun s => s.tab.timers + s.tab.polls.length) = some 2 := by decide
    obtain ⟨s, hs, hout⟩ := Option.map_eq_some_iff.mp hrun
    exact ⟨s, reach_of_exec hs, hout⟩

end WebDavs.Polling
