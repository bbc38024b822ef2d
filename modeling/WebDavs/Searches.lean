/-
The searches of the mover: `handle_search_start`, `handle_search` and the threads
that walk (`walk_search`, `run_search`), with what the clients are told.

A walk takes the lock of `SEARCHES` once for each thing it does to its record: at
the gate of a directory, to push a match, to count a directory, and at the end to
sort. Between any two of these other walks go on, searches are started, and
`handle_search` reads the record as it is. What has been read is good for ever:
later answers go on from it, and the last is what the walk would have found had it
been alone (`searches_streamed`); and it comes (`searches_end`).
-/
import Mathlib.Data.List.Perm.Subperm
import WebDavs.Pool
import WebDavs.Search
import WebDavs.Steps
import WebDavs.Url

set_option autoImplicit false

namespace WebDavs.Searches

open WebDavs.Steps
open WebDavs.Mover

/-! ## A walk, lock by lock -/

/-- What a walk has yet to do: call `walk_search` for a directory, go through what
is left of its entries, or count it and then call. -/
inductive Task where
  | enter (p : PathBuf) (d : Dir)
  | scan (p : PathBuf) (d : Dir)
  | count (p : PathBuf) (d : Dir)

namespace Task

variable (wanted : String → Bool)

/-- One lock of a walk, which finds the record `r`: what it does to the record, and
what takes the place of the task. -/
def step (r : Option Search) : Task → (Search → Search) × List Task
  | enter p d => (id, if r.any Search.full then [] else [scan p d])
  | scan _ .nil => (id, [])
  | scan p (.leaf name len rest) =>
    if wanted name then
      if r.any fun s => MAX_RESULTS ≤ s.matches_.length then
        (fun s => { s with truncated := true }, [])
      else (fun s => s.push ⟨name, (p.join name).text, false, len⟩, [scan p rest])
    else (id, [scan p rest])
  | scan p (.dir name sub rest) =>
    if wanted name then
      if r.any fun s => MAX_RESULTS ≤ s.matches_.length then
        (fun s => { s with truncated := true }, [])
      else (fun s => s.push ⟨name, (p.join name).text, true, 0⟩,
        [count (p.join name) sub, scan p rest])
    else (id, [count (p.join name) sub, scan p rest])
  | count p d => (fun s => { s with done_dirs := s.done_dirs + 1 }, [enter p d])

/-- What the record comes to when the task is done without a break. -/
def done : Task → Search → Search
  | enter p d, s => walk_search wanted p d s
  | scan p d, s => Mover.scan wanted p d s
  | count p d, s => walk_search wanted p d { s with done_dirs := s.done_dirs + 1 }

/-- What the record comes to when all that is left is done without a break. -/
def all_done (ts : List Task) (s : Search) : Search := ts.foldl (fun s t => t.done wanted s) s

variable {wanted}

@[simp] theorem all_done_nil (s : Search) : all_done wanted [] s = s := rfl

@[simp] theorem all_done_cons (t : Task) (ts : List Task) (s : Search) :
    all_done wanted (t :: ts) s = all_done wanted ts (t.done wanted s) := rfl

theorem all_done_append (ts us : List Task) (s : Search) :
    all_done wanted (ts ++ us) s = all_done wanted us (all_done wanted ts s) :=
  List.foldl_append

/-- A lock does the first part of its task and leaves the rest of it. -/
theorem all_done_step (t : Task) (s : Search) :
    all_done wanted (t.step wanted (some s)).2 ((t.step wanted (some s)).1 s) =
      t.done wanted s := by
  cases t with
  | enter p d =>
      simp only [step, done, walk_search, Search.enter, Option.any_some, id_eq]
      by_cases hf : s.full = true
      · rw [if_pos hf, if_pos hf, all_done_nil]
      · rw [if_neg hf, if_neg hf, all_done_cons, all_done_nil, done]
  | count p d => rfl
  | scan p d =>
      cases d with
      | nil => rfl
      | leaf name len rest =>
          simp only [step, done, Mover.scan, Option.any_some, decide_eq_true_eq]
          split
          · split <;> rfl
          · rfl
      | dir name sub rest =>
          simp only [step, done, Mover.scan, Option.any_some, decide_eq_true_eq]
          split
          · split <;> rfl
          · rfl

end Task

/-! ## What a walk adds to -/

/-- `s'` goes on from `s`. -/
structure Onward (s s' : Search) : Prop where
  status : s'.status = s.status
  listed : s.matches_ <+: s'.matches_
  dirs : s.done_dirs ≤ s'.done_dirs
  cut : s.truncated = true → s'.truncated = true

theorem Onward.refl (s : Search) : Onward s s := ⟨rfl, List.prefix_rfl, Nat.le_refl _, id⟩

theorem Onward.trans {s s' s'' : Search} (h : Onward s s') (h' : Onward s' s'') :
    Onward s s'' :=
  ⟨h'.status.trans h.status, h.listed.trans h'.listed, Nat.le_trans h.dirs h'.dirs,
    fun hc => h'.cut (h.cut hc)⟩

theorem onward_push (s : Search) (m : Match) : Onward s (s.push m) :=
  ⟨rfl, List.prefix_append _ _, Nat.le_refl _, id⟩

theorem onward_cut (s : Search) : Onward s { s with truncated := true } :=
  ⟨rfl, List.prefix_rfl, Nat.le_refl _, fun _ => rfl⟩

theorem onward_count (s : Search) : Onward s { s with done_dirs := s.done_dirs + 1 } :=
  ⟨rfl, List.prefix_rfl, Nat.le_succ _, id⟩

theorem onward_enter {body : Search → Search} (hb : ∀ s, Onward s (body s)) (s : Search) :
    Onward s (s.enter body) := by
  unfold Search.enter
  split
  · exact Onward.refl s
  · exact hb s

section Walk

variable {wanted : String → Bool}

theorem onward_scan (d : Dir) : ∀ (p : PathBuf) (s : Search), Onward s (scan wanted p d s) := by
  induction d with
  | nil => exact fun _ s => Onward.refl s
  | leaf name len rest ih =>
      intro p s
      rw [scan]
      split
      · split
        · exact onward_cut s
        · exact (onward_push s _).trans (ih p _)
      · exact ih p s
  | dir name sub rest ihs ihr =>
      intro p s
      -- the directory is counted, walked, and then the rest is gone through
      have hrest : ∀ s₁ : Search, Onward s₁ (scan wanted p rest
          (Search.enter { s₁ with done_dirs := s₁.done_dirs + 1 }
            (scan wanted (p.join name) sub))) := by
        intro s₁
        have hsub := onward_enter (ihs (p.join name)) { s₁ with done_dirs := s₁.done_dirs + 1 }
        exact ((onward_count s₁).trans hsub).trans (ihr p _)
      rw [scan]
      split
      · split
        · exact onward_cut s
        · exact (onward_push s _).trans (hrest _)
      · exact hrest s

theorem onward_walk (p : PathBuf) (d : Dir) (s : Search) :
    Onward s (walk_search wanted p d s) :=
  onward_enter (onward_scan d p) s

theorem Task.onward_done (t : Task) (s : Search) : Onward s (t.done wanted s) := by
  cases t with
  | enter p d => exact onward_walk p d s
  | scan p d => exact onward_scan d p s
  | count p d => exact (onward_count s).trans (onward_walk p d _)

theorem Task.onward_all_done (ts : List Task) : ∀ s : Search, Onward s (all_done wanted ts s) := by
  induction ts with
  | nil => exact Onward.refl
  | cons t ts ih =>
      intro s
      rw [all_done_cons]
      exact (t.onward_done s).trans (ih _)

/-- One lock, too, only adds. -/
theorem Task.onward_step (t : Task) (r : Option Search) (s : Search) :
    Onward s ((t.step wanted r).1 s) := by
  cases t with
  | enter p d => exact Onward.refl s
  | count p d => exact onward_count s
  | scan p d =>
      cases d with
      | nil => exact Onward.refl s
      | leaf name len rest =>
          simp only [step]
          split
          · split
            · exact onward_cut s
            · exact onward_push s _
          · exact Onward.refl s
      | dir name sub rest =>
          simp only [step]
          split
          · split
            · exact onward_cut s
            · exact onward_push s _
          · exact Onward.refl s

end Walk

/-! ## The handlers and the walks -/

/-- A record of `SEARCHES`, less `error`, which nothing sets. -/
structure Record where
  root : String
  q : String
  found : Search

/-- `parse::<u64>().ok()`. -/
def parse_u64 (s : String) : Option Nat :=
  let digits := if s.toList.head? = some '+' then s.toList.tail else s.toList
  let n := Nat.ofDigitChars 10 digits 0
  if digits ≠ [] ∧ digits.all Char.isDigit ∧ n < 2 ^ 64 then some n else none

example : [parse_u64 "42", parse_u64 "+7", parse_u64 "+", parse_u64 "-1", parse_u64 " 1"] =
    [some 42, some 7, none, none, none] := by decide +kernel

/-- What a client is told: that its request is not one, the number of the search it
has asked for, a record, or that there is none of the number. -/
inductive Answer where
  | bad_request (error : String)
  | accepted (root q : String) (id : Nat)
  | shown (id : Nat) (r : Record)
  | not_found (id : Nat)

/-- A search from its request on. The handler takes a number, registers the record
and starts the thread, whose walk takes its place here. -/
inductive Party where
  | number (root q : String)
  | register (root q : String) (id : Nat)
  | launch (root q : String) (id : Nat)
  | walk (id : Nat) (query : String × List String) (tasks : List Task)
  | ended (id : Nat)

/-- `NEXT_SEARCH`, `SEARCHES`, the searches, and what has been answered so far. -/
structure Service where
  next_search : Nat
  searches : Nat → Option Record
  parties : List Party
  answers : List Answer

/-- A request to search, with the two texts its body has, unless the body is not
JSON; one call of a search; a request for the record of a search. -/
inductive Event where
  | request (body : Option (Option String × Option String))
  | party (i : Nat)
  | poll (id : Option String)

/-- What `run_search` does when the walk is over. -/
def finish (s : Search) : Search :=
  { s with matches_ := s.matches_.mergeSort fun a b => a.path ≤ b.path, status := "done" }

namespace Service

/-- Before the first request. -/
def init : Service where
  next_search := 1
  searches := fun _ => none
  parties := []
  answers := []

/-- A client gets an answer. -/
def say (s : Service) (a : Answer) : Service := { s with answers := s.answers ++ [a] }

/-- A search has got further. -/
def goes (s : Service) (i : Nat) (x : Party) : Service := { s with parties := s.parties.set i x }

/-- `search_update`: a record that is not there is not updated. -/
def search_update (s : Service) (id : Nat) (f : Search → Search) : Service :=
  { s with
    searches := Function.update s.searches id
      ((s.searches id).map fun r => { r with found := f r.found }) }

variable (lower : String → String) (env : Env) (dirs : PathBuf → Dir)

/-- One call of a search. -/
def advance (s : Service) (i : Nat) : Party → Option Service
  | .number root q =>
    some ({ s with next_search := s.next_search + 1 }.goes i (.register root q s.next_search))
  | .register root q id =>
    some ({ s with searches := Function.update s.searches id (some ⟨root, q, .start⟩) }.goes i
      (.launch root q id))
  | .launch root q id =>
    let root_p := resolve_path env root
    some ((s.say (.accepted root q id)).goes i
      (.walk id (parse_search_query lower q) [.enter root_p (dirs root_p)]))
  | .walk id query (t :: ts) =>
    let x := t.step (matched lower query) ((s.searches id).map Record.found)
    some ((s.search_update id x.1).goes i (.walk id query (x.2 ++ ts)))
  | .walk id _ [] => some ((s.search_update id finish).goes i (.ended id))
  | .ended _ => none

/-- `handle_search_start`, up to the first number, and `handle_search`; or one call of
a search. `dirs` is what there is below a path; nothing here changes it. -/
def step (s : Service) : Event → Option Service
  | .request none => some (s.say (.bad_request "bad json"))
  | .request (some (root, q)) =>
    let root := root.getD ""
    let q := q.getD ""
    if root = "" ∨ q = "" then some (s.say (.bad_request "bad request"))
    else some { s with parties := s.parties ++ [.number root q] }
  | .party i =>
    match s.parties[i]? with
    | some x => advance lower env dirs s i x
    | none => none
  | .poll id =>
    match id.bind parse_u64 with
    | none => some (s.say (.bad_request "missing id"))
    | some id =>
      match s.searches id with
      | some r => some (s.say (.shown id r))
      | none => some (s.say (.not_found id))

/-- What a step can come to. -/
inductive StepCase (s : Service) : Event → Service → Prop where
  | refused (e : Event) (error : String) (he : ∀ i, e ≠ .party i) :
      StepCase s e (s.say (.bad_request error))
  | requested (body : Option (Option String × Option String)) (root q : String) :
      StepCase s (.request body) { s with parties := s.parties ++ [.number root q] }
  | numbered (i : Nat) (root q : String) (hi : s.parties[i]? = some (.number root q)) :
      StepCase s (.party i) ({ s with next_search := s.next_search + 1 }.goes i
        (.register root q s.next_search))
  | registered (i : Nat) (root q : String) (id : Nat)
      (hi : s.parties[i]? = some (.register root q id)) :
      StepCase s (.party i)
        ({ s with searches := Function.update s.searches id (some ⟨root, q, .start⟩) }.goes i
          (.launch root q id))
  | launched (i : Nat) (root q : String) (id : Nat)
      (hi : s.parties[i]? = some (.launch root q id)) :
      StepCase s (.party i) ((s.say (.accepted root q id)).goes i
        (.walk id (parse_search_query lower q)
          [.enter (resolve_path env root) (dirs (resolve_path env root))]))
  | walked (i id : Nat) (query : String × List String) (t : Task) (ts : List Task)
      (hi : s.parties[i]? = some (.walk id query (t :: ts))) :
      StepCase s (.party i)
        ((s.search_update id
          (t.step (matched lower query) ((s.searches id).map Record.found)).1).goes i
          (.walk id query
            ((t.step (matched lower query) ((s.searches id).map Record.found)).2 ++ ts)))
  | finished (i id : Nat) (query : String × List String)
      (hi : s.parties[i]? = some (.walk id query [])) :
      StepCase s (.party i) ((s.search_update id finish).goes i (.ended id))
  | polled (text : Option String) (id : Nat) (r : Record) (ht : text.bind parse_u64 = some id)
      (hr : s.searches id = some r) : StepCase s (.poll text) (s.say (.shown id r))
  | missed (text : Option String) (id : Nat) (ht : text.bind parse_u64 = some id)
      (hr : s.searches id = none) : StepCase s (.poll text) (s.say (.not_found id))

variable {lower env dirs}

theorem step_cases {s s' : Service} {e : Event} (hs : step lower env dirs s e = some s') :
    StepCase lower env dirs s e s' := by
  cases e with
  | request body =>
      cases body with
      | none =>
          cases hs
          exact .refused _ _ (by simp)
      | some body =>
          simp only [step] at hs
          split at hs
          · cases hs
            exact .refused _ _ (by simp)
          · cases hs
            exact .requested _ _ _
  | party i =>
      simp only [step] at hs
      split at hs
      · rename_i x hi
        cases x with
        | number root q =>
            cases hs
            exact .numbered i root q hi
        | register root q id =>
            cases hs
            exact .registered i root q id hi
        | launch root q id =>
            cases hs
            exact .launched i root q id hi
        | walk id query ts =>
            -- the walk goes on to its next entry, or the search is done
            cases ts with
            | nil =>
                cases hs
                exact .finished i id query hi
            | cons t ts =>
                cases hs
                exact .walked i id query t ts hi
        | ended id => cases hs
      · cases hs
  | poll text =>
      simp only [step] at hs
      split at hs
      · cases hs
        exact .refused _ _ (by simp)
      · rename_i id ht
        split at hs
        · rename_i r hr
          cases hs
          exact .polled text id r ht hr
        · rename_i hr
          cases hs
          exact .missed text id ht hr

end Service

/-! ## What is said of a search -/

/-- `r'` is a later state of the record `r`. As long as the search is not done its
matches are only added to; being done, it stays as it is. -/
structure Follows (r r' : Record) : Prop where
  root : r'.root = r.root
  q : r'.q = r.q
  kept : r.found.matches_.Subperm r'.found.matches_
  dirs : r.found.done_dirs ≤ r'.found.done_dirs
  cut : r.found.truncated = true → r'.found.truncated = true
  streamed : r'.found.status ≠ "done" → r.found.matches_ <+: r'.found.matches_
  final : r.found.status = "done" → r'.found = r.found

theorem Follows.refl (r : Record) : Follows r r :=
  ⟨rfl, rfl, List.Subperm.refl _, Nat.le_refl _, id, fun _ => List.prefix_rfl, fun _ => rfl⟩

theorem Follows.trans {r r' r'' : Record} (h : Follows r r') (h' : Follows r' r'') :
    Follows r r'' where
  root := h'.root.trans h.root
  q := h'.q.trans h.q
  kept := h.kept.trans h'.kept
  dirs := Nat.le_trans h.dirs h'.dirs
  cut := fun hc => h'.cut (h.cut hc)
  streamed := by
    intro hr
    -- the one in between was not done either
    have hr' : r'.found.status ≠ "done" := fun hd => hr (h'.final hd ▸ hd)
    exact (h.streamed hr').trans (h'.streamed hr)
  final := by
    intro hd
    have he : r'.found = r.found := h.final hd
    rw [h'.final (he ▸ hd), he]

/-- What is read of a record in a walk, and then later in it. -/
theorem follows_onward {r : Record} {f : Search} (hr : r.found.status = "running")
    (h : Onward r.found f) : Follows r { r with found := f } where
  root := rfl
  q := rfl
  kept := h.listed.sublist.subperm
  dirs := h.dirs
  cut := h.cut
  streamed := fun _ => h.listed
  final := by
    intro hd
    rw [hr] at hd
    exact absurd hd (by decide)

/-- What is read of a record in a walk, and then when it is over. -/
theorem follows_finish {r : Record} (hr : r.found.status = "running") :
    Follows r { r with found := finish r.found } where
  root := rfl
  q := rfl
  kept := (List.mergeSort_perm _ _).symm.subperm
  dirs := Nat.le_refl _
  cut := id
  streamed := fun h => absurd rfl h
  final := by
    intro hd
    rw [hr] at hd
    exact absurd hd (by decide)

/-- What two answers, the first before the second, are to each other. -/
def Consistent : Answer → Answer → Prop
  | .accepted _ _ id, .accepted _ _ id' => id ≠ id'
  | .accepted root q id, .shown id' r => id = id' → r.root = root ∧ r.q = q
  | .accepted _ _ id, .not_found id' => id ≠ id'
  | .shown id r, .accepted root q id' => id = id' → r.root = root ∧ r.q = q
  | .shown id r, .shown id' r' => id = id' → Follows r r'
  | .shown id _, .not_found id' => id ≠ id'
  | _, _ => True

section Told

variable (lower : String → String) (env : Env) (dirs : PathBuf → Dir)

/-- What the walk of a search comes to when nothing comes between. -/
def walked (root q : String) : Search :=
  walk_search (matched lower (parse_search_query lower q)) (resolve_path env root)
    (dirs (resolve_path env root)) Search.start

/-- What the search comes to. -/
def result (root q : String) : Search :=
  run_search lower (resolve_path env root) q (dirs (resolve_path env root))

/-- What a record may hold: a part of what the walk comes to, or the result. -/
def Told (r : Record) : Prop :=
  (r.found.status = "running" ∧ Onward r.found (walked lower env dirs r.root r.q)) ∨
    r.found = result lower env dirs r.root r.q

variable {lower env dirs}

theorem finish_walked (root q : String) :
    finish (walked lower env dirs root q) = result lower env dirs root q := rfl

theorem result_done (root q : String) : (result lower env dirs root q).status = "done" := rfl

end Told

/-! ## The invariant -/

/-- The number of a search, once it has one. -/
def Party.id : Party → Option Nat
  | number _ _ => none
  | register _ _ id => some id
  | launch _ _ id => some id
  | walk id _ _ => some id
  | ended id => some id

/-- The client has been told the number. -/
def Party.Started : Party → Prop
  | walk _ _ _ => True
  | ended _ => True
  | _ => False

section Inv

variable (lower : String → String) (env : Env) (dirs : PathBuf → Dir)

/-- What a search finds in its record. -/
def Party.Serves (m : Nat → Option Record) : Party → Prop
  | number _ _ => True
  | register _ _ id => m id = none
  | launch root q id => m id = some ⟨root, q, .start⟩
  | walk id query ts => ∃ r, m id = some r ∧ query = parse_search_query lower r.q ∧
      r.found.status = "running" ∧
      Task.all_done (matched lower query) ts r.found = walked lower env dirs r.root r.q
  | ended id => ∃ r, m id = some r ∧ r.found = result lower env dirs r.root r.q

/-- What bears an answer out later. -/
def Backed (s : Service) : Answer → Prop
  | .accepted root q id => (∃ r, s.searches id = some r ∧ r.root = root ∧ r.q = q) ∧
      ∃ (i : Nat) (x : Party), s.parties[i]? = some x ∧ x.id = some id ∧ x.Started
  | .shown id r => Told lower env dirs r ∧ ∃ r', s.searches id = some r' ∧ Follows r r'
  | _ => True

/-- What holds of the searches, their records and the answers, whoever is next. -/
structure Inv (s : Service) : Prop where
  below : ∀ (i : Nat) x a, s.parties[i]? = some x → x.id = some a → a < s.next_search
  alone : ∀ (i j : Nat) x y a, s.parties[i]? = some x → s.parties[j]? = some y →
    x.id = some a → y.id = some a → i = j
  held : ∀ a r, s.searches a = some r → a < s.next_search
  serves : ∀ (i : Nat) x, s.parties[i]? = some x → x.Serves lower env dirs s.searches
  told : ∀ a r, s.searches a = some r → Told lower env dirs r
  backed : ∀ a ∈ s.answers, Backed lower env dirs s a
  consistent : s.answers.Pairwise Consistent

end Inv

section Steps

variable {lower : String → String} {env : Env} {dirs : PathBuf → Dir} {s s' : Service}

theorem Party.Serves.congr {m m' : Nat → Option Record} {x : Party}
    (h : x.Serves lower env dirs m) (hm : ∀ a, x.id = some a → m' a = m a) :
    x.Serves lower env dirs m' := by
  cases x with
  | number root q => trivial
  | register root q id => exact (hm id rfl).trans h
  | launch root q id => exact (hm id rfl).trans h
  | walk id query ts =>
      obtain ⟨r, hr, hrest⟩ := h
      exact ⟨r, (hm id rfl).trans hr, hrest⟩
  | ended id =>
      obtain ⟨r, hr, hrest⟩ := h
      exact ⟨r, (hm id rfl).trans hr, hrest⟩

theorem Inv.init : Inv lower env dirs Service.init := by
  constructor <;> simp [Service.init]

/-- An answer is borne out as long as records are followed by later states of them and
searches that have started stay so. -/
theorem Backed.mono {a : Answer} (h : Backed lower env dirs s a)
    (hm : ∀ id r, s.searches id = some r → ∃ r', s'.searches id = some r' ∧ Follows r r')
    (hp : ∀ (i : Nat) x, s.parties[i]? = some x → x.Started →
      ∃ x', s'.parties[i]? = some x' ∧ x'.id = x.id ∧ x'.Started) :
    Backed lower env dirs s' a := by
  cases a with
  | bad_request error => trivial
  | not_found id => trivial
  | accepted root q id =>
      obtain ⟨⟨r, hr, hroot, hq⟩, i, x, hx, hid, hst⟩ := h
      obtain ⟨r', hr', hf⟩ := hm id r hr
      obtain ⟨x', hx', hid', hst'⟩ := hp i x hx hst
      exact ⟨⟨r', hr', hf.root.trans hroot, hf.q.trans hq⟩, i, x', hx', hid'.trans hid, hst'⟩
  | shown id r =>
      obtain ⟨htold, r₁, hr₁, hf₁⟩ := h
      obtain ⟨r', hr', hf⟩ := hm id r₁ hr₁
      exact ⟨htold, r', hr', hf₁.trans hf⟩

/-- A search gets from `x` to `y`, which may give it its number, and changes no record
but its own. -/
theorem Inv.goes (hI : Inv lower env dirs s) {i : Nat} {x y : Party} {n : Nat}
    {m : Nat → Option Record} (hi : s.parties[i]? = some x)
    (hid : y.id = x.id ∧ n = s.next_search ∨
      x.id = none ∧ y.id = some s.next_search ∧ n = s.next_search + 1)
    (hst : x.Started → y.Started) (hm : ∀ a, y.id ≠ some a → m a = s.searches a)
    (hserves : y.Serves lower env dirs m)
    (hown : ∀ a r, y.id = some a → m a = some r → Told lower env dirs r)
    (hfol : ∀ a r, y.id = some a → s.searches a = some r → ∃ r', m a = some r' ∧ Follows r r') :
    Inv lower env dirs { s with next_search := n, searches := m, parties := s.parties.set i y } := by
  have hn : s.next_search ≤ n := by
    rcases hid with ⟨-, rfl⟩ | ⟨-, -, rfl⟩ <;> omega
  -- the number is the one it had, or nobody's
  have hown_id : ∀ a, y.id = some a → a < n ∧
      ∀ (j : Nat) z, s.parties[j]? = some z → z.id = some a → j = i := by
    intro a hy
    rcases hid with ⟨hyx, rfl⟩ | ⟨-, hys, rfl⟩
    · rw [hyx] at hy
      exact ⟨hI.below i x a hi hy, fun j z hz hza => hI.alone j i z x a hz hi hza hy⟩
    · rw [hys, Option.some.injEq] at hy
      refine ⟨by omega, fun j z hz hza => ?_⟩
      have hlt : a < s.next_search := hI.below j z a hz hza
      omega
  have hfollow : ∀ a r, s.searches a = some r → ∃ r', m a = some r' ∧ Follows r r' := by
    intro a r hr
    by_cases hy : y.id = some a
    · exact hfol a r hy hr
    · exact ⟨r, (hm a hy).trans hr, Follows.refl r⟩
  refine ⟨?below, ?alone, ?held, ?serves, ?told, ?backed, hI.consistent⟩
  case below =>
    intro j z a hz hza
    rcases set_cases hz with ⟨-, rfl⟩ | ⟨-, hz'⟩
    · exact (hown_id a hza).1
    · exact Nat.lt_of_lt_of_le (hI.below j z a hz' hza) hn
  case alone =>
    intro j j' z z' a hz hz' hza hza'
    rcases set_cases hz with ⟨rfl, rfl⟩ | ⟨-, hz₁⟩
    · rcases set_cases hz' with ⟨rfl, -⟩ | ⟨-, hz₂⟩
      · rfl
      · exact ((hown_id a hza).2 j' z' hz₂ hza').symm
    · rcases set_cases hz' with ⟨rfl, rfl⟩ | ⟨-, hz₂⟩
      · exact (hown_id a hza').2 j z hz₁ hza
      · exact hI.alone j j' z z' a hz₁ hz₂ hza hza'
  case held =>
    intro a r hr
    by_cases hy : y.id = some a
    · exact (hown_id a hy).1
    · exact Nat.lt_of_lt_of_le (hI.held a r ((hm a hy).symm.trans hr)) hn
  case serves =>
    intro j z hz
    rcases set_cases hz with ⟨-, rfl⟩ | ⟨hji, hz'⟩
    · exact hserves
    · refine (hI.serves j z hz').congr fun a hza => hm a fun hy => ?_
      exact hji ((hown_id a hy).2 j z hz' hza)
  case told =>
    intro a r hr
    by_cases hy : y.id = some a
    · exact hown a r hy hr
    · exact hI.told a r ((hm a hy).symm.trans hr)
  case backed =>
    intro a ha
    refine (hI.backed a ha).mono hfollow fun j z hz hzst => ?_
    by_cases hji : j = i
    · subst hji
      rw [hi, Option.some.injEq] at hz
      subst hz
      -- what has started has its number already
      rcases hid with ⟨hyx, -⟩ | ⟨hxn, -⟩
      · have hlt : j < s.parties.length := (List.getElem?_eq_some_iff.mp hi).1
        exact ⟨y, List.getElem?_set_self hlt, hyx, hst hzst⟩
      · cases x <;> simp [Party.id, Party.Started] at hxn hzst
    · exact ⟨z, (List.getElem?_set_ne fun he => hji he.symm).trans hz, rfl, hzst⟩

/-- An answer is given. -/
theorem Inv.say (hI : Inv lower env dirs s) {a : Answer} (ha : Backed lower env dirs s a)
    (hc : ∀ b ∈ s.answers, Consistent b a) : Inv lower env dirs (s.say a) := by
  refine ⟨hI.below, hI.alone, hI.held, hI.serves, hI.told, ?_, ?_⟩
  · intro b hb
    rcases List.mem_append.mp hb with hb | hb
    · exact (hI.backed b hb).mono (fun _ r hr => ⟨r, hr, Follows.refl r⟩)
        fun _ x hx hst => ⟨x, hx, rfl, hst⟩
    · rw [List.mem_singleton.mp hb]
      exact ha
  · refine List.pairwise_append.mpr ⟨hI.consistent, List.pairwise_singleton _ _, ?_⟩
    intro b hb c hc'
    rw [List.mem_singleton.mp hc']
    exact hc b hb

/-- A search changes its record, which stays what it is said to be. -/
theorem Inv.update (hI : Inv lower env dirs s) {i id : Nat} {x y : Party} {r : Record}
    {f : Search → Search} (hi : s.parties[i]? = some x) (hx : x.id = some id)
    (hy : y.id = some id) (hst : y.Started) (hr : s.searches id = some r)
    (hserves : ∀ m : Nat → Option Record, m id = some { r with found := f r.found } →
      y.Serves lower env dirs m)
    (htold : Told lower env dirs { r with found := f r.found })
    (hf : Follows r { r with found := f r.found }) :
    Inv lower env dirs ((s.search_update id f).goes i y) := by
  have hm : Function.update s.searches id
      ((s.searches id).map fun r => { r with found := f r.found }) id =
      some { r with found := f r.found } := by
    rw [Function.update_self, hr, Option.map_some]
  refine hI.goes hi (.inl ⟨hy.trans hx.symm, rfl⟩) (fun _ => hst) ?_ (hserves _ hm) ?_ ?_
  · intro a ha
    have hne : a ≠ id := fun he => ha (hy.trans (congrArg some he.symm))
    exact Function.update_of_ne hne _ _
  · intro a r' ha hr'
    rw [hy, Option.some.injEq] at ha
    subst ha
    exact Option.some.inj (hm.symm.trans hr') ▸ htold
  · intro a r₀ ha hr₀
    rw [hy, Option.some.injEq] at ha
    subst ha
    rw [hr, Option.some.injEq] at hr₀
    exact ⟨_, hm, hr₀ ▸ hf⟩

theorem Inv.step (hI : Inv lower env dirs s) {e : Event}
    (hs : s.step lower env dirs e = some s') : Inv lower env dirs s' := by
  cases Service.step_cases hs with
  | refused e error he => exact hI.say trivial fun b _ => by cases b <;> trivial
  | requested body root q =>
      -- a search without a number is in nobody's way
      have old : ∀ {i : Nat} {x : Party} {a : Nat},
          (s.parties ++ [Party.number root q])[i]? = some x →
          x.id = some a → s.parties[i]? = some x := by
        intro i x a hx hxa
        rcases append_cases hx with ⟨-, rfl⟩ | hx'
        · cases hxa
        · exact hx'
      refine ⟨fun i x a hx hxa => hI.below i x a (old hx hxa) hxa,
        fun i j x y a hx hy hxa hya => hI.alone i j x y a (old hx hxa) (old hy hya) hxa hya,
        hI.held, fun i x hx => ?_, hI.told, fun a ha => ?_, hI.consistent⟩
      · rcases append_cases hx with ⟨-, rfl⟩ | hx'
        · trivial
        · exact hI.serves i x hx'
      · refine (hI.backed a ha).mono (fun _ r hr => ⟨r, hr, Follows.refl r⟩) fun i x hx hst => ?_
        have hlt : i < s.parties.length := (List.getElem?_eq_some_iff.mp hx).1
        exact ⟨x, (List.getElem?_append_left hlt).trans hx, rfl, hst⟩
  | numbered i root q hi =>
      have hfree : s.searches s.next_search = none := by
        cases hr : s.searches s.next_search with
        | none => rfl
        | some r => exact absurd (hI.held _ r hr) (Nat.lt_irrefl _)
      refine hI.goes hi (.inr ⟨rfl, rfl, rfl⟩) id (fun a _ => rfl) hfree ?_ ?_
      · exact fun a r _ hr => hI.told a r hr
      · exact fun a r _ hr => ⟨r, hr, Follows.refl r⟩
  | registered i root q id hi =>
      have hnone : s.searches id = none := hI.serves i _ hi
      have hm : Function.update s.searches id (some ⟨root, q, .start⟩) id =
          some ⟨root, q, .start⟩ := Function.update_self _ _ _
      refine hI.goes hi (.inl ⟨rfl, rfl⟩) (fun h => h) ?_ hm ?_ ?_
      · intro a ha
        have hne : a ≠ id := fun he => ha (congrArg some he.symm)
        exact Function.update_of_ne hne _ _
      · intro a r ha hr
        obtain rfl : id = a := Option.some.inj ha
        obtain rfl : ⟨root, q, .start⟩ = r := Option.some.inj (hm.symm.trans hr)
        exact .inl ⟨rfl, onward_walk _ _ _⟩
      · intro a r ha hr
        obtain rfl : id = a := Option.some.inj ha
        rw [hnone] at hr
        cases hr
  | launched i root q id hi =>
      have hrec : s.searches id = some ⟨root, q, .start⟩ := hI.serves i _ hi
      -- nobody has been told the number before
      have hnew : ∀ b ∈ s.answers, Consistent b (.accepted root q id) := by
        intro b hb
        cases b with
        | accepted root' q' id' =>
            obtain ⟨-, j, x, hj, hxid, hst⟩ := hI.backed _ hb
            intro he
            have hji : j = i := hI.alone j i x _ id' hj hi hxid (congrArg some he.symm)
            rw [hji, hi, Option.some.injEq] at hj
            subst hj
            exact hst
        | shown id' r =>
            obtain ⟨-, r', hr', hf⟩ := hI.backed _ hb
            intro he
            rw [he, hrec, Option.some.injEq] at hr'
            subst hr'
            exact ⟨hf.root.symm, hf.q.symm⟩
        | bad_request error => trivial
        | not_found id' => trivial
      have hmoved : Inv lower env dirs (s.goes i (.walk id (parse_search_query lower q)
          [.enter (resolve_path env root) (dirs (resolve_path env root))])) := by
        refine hI.goes hi (.inl ⟨rfl, rfl⟩) (fun _ => trivial) (fun a _ => rfl)
          ⟨_, hrec, rfl, rfl, rfl⟩ ?_ ?_
        · exact fun a r _ hr => hI.told a r hr
        · exact fun a r _ hr => ⟨r, hr, Follows.refl r⟩
      have hlt : i < s.parties.length := (List.getElem?_eq_some_iff.mp hi).1
      exact hmoved.say ⟨⟨_, hrec, rfl, rfl⟩, i, _, List.getElem?_set_self hlt, rfl, trivial⟩ hnew
  | walked i id query t ts hi =>
      obtain ⟨r, hr, hq, hrun, hdone⟩ := hI.serves i _ hi
      rw [hr, Option.map_some]
      have hon : Onward r.found ((t.step (matched lower query) (some r.found)).1 r.found) :=
        t.onward_step _ _
      have hrest : Task.all_done (matched lower query)
          ((t.step (matched lower query) (some r.found)).2 ++ ts)
          ((t.step (matched lower query) (some r.found)).1 r.found) =
            walked lower env dirs r.root r.q := by
        rw [Task.all_done_append, Task.all_done_step]
        exact hdone
      have hrun' := hon.status.trans hrun
      refine hI.update hi rfl rfl trivial hr (fun m hm => ⟨_, hm, hq, hrun', hrest⟩) ?_
        (follows_onward hrun hon)
      refine .inl ⟨hrun', ?_⟩
      show Onward _ (walked lower env dirs r.root r.q)
      rw [← hrest]
      exact Task.onward_all_done _ _
  | finished i id query hi =>
      obtain ⟨r, hr, hq, hrun, hdone⟩ := hI.serves i _ hi
      have hres : finish r.found = result lower env dirs r.root r.q := by
        rw [show r.found = walked lower env dirs r.root r.q from hdone, finish_walked]
      exact hI.update hi rfl rfl trivial hr (fun m hm => ⟨_, hm, hres⟩) (.inr hres)
        (follows_finish hrun)
  | polled text id r ht hr =>
      refine hI.say ⟨hI.told id r hr, r, hr, Follows.refl r⟩ fun b hb => ?_
      have hback := hI.backed b hb
      cases b with
      | accepted root q id' =>
          obtain ⟨⟨r', hr', hroot, hq⟩, -⟩ := hback
          intro he
          rw [he, hr, Option.some.injEq] at hr'
          exact hr' ▸ ⟨hroot, hq⟩
      | shown id' r₀ =>
          obtain ⟨-, r', hr', hf⟩ := hback
          intro he
          rw [he, hr, Option.some.injEq] at hr'
          exact hr' ▸ hf
      | bad_request error => trivial
      | not_found id' => trivial
  | missed text id ht hr =>
      refine hI.say trivial fun b hb => ?_
      have hback := hI.backed b hb
      cases b with
      | accepted root q id' =>
          obtain ⟨⟨r', hr', -⟩, -⟩ := hback
          intro he
          rw [he, hr] at hr'
          cases hr'
      | shown id' r₀ =>
          obtain ⟨-, r', hr', -⟩ := hback
          intro he
          rw [he, hr] at hr'
          cases hr'
      | bad_request error => trivial
      | not_found id' => trivial

theorem reach_inv (h : Reach (Service.step lower env dirs) Any .init s) : Inv lower env dirs s :=
  h.inv Inv.init fun _ _ _ hI _ hs => hI.step hs

end Steps

/-! ## Every search comes to its end -/

/-- How many locks there are in what is left of a directory, at most. -/
def weight : Dir → Nat
  | .nil => 1
  | .leaf _ _ rest => weight rest + 1
  | .dir _ sub rest => weight sub + weight rest + 3

/-- How many locks there are in a task, at most. -/
def Task.weight : Task → Nat
  | enter _ d => Searches.weight d + 1
  | scan _ d => Searches.weight d
  | count _ d => Searches.weight d + 2

/-- How many calls a search has before it, at most. -/
def Party.weight (env : Env) (dirs : PathBuf → Dir) : Party → Nat
  | number root _ => Searches.weight (dirs (resolve_path env root)) + 5
  | register root _ _ => Searches.weight (dirs (resolve_path env root)) + 4
  | launch root _ _ => Searches.weight (dirs (resolve_path env root)) + 3
  | walk _ _ ts => (ts.map Task.weight).sum + 1
  | ended _ => 0

/-- A lock leaves less to do. -/
theorem Task.weight_step (wanted : String → Bool) (r : Option Search) (t : Task) :
    ((t.step wanted r).2.map Task.weight).sum < t.weight := by
  cases t with
  | enter p d =>
      simp only [step]
      split <;> simp [Task.weight]
  | count p d => simp [step, Task.weight]
  | scan p d =>
      cases d with
      | nil => simp [step, Task.weight, Searches.weight]
      | leaf name len rest =>
          simp only [step]
          split
          · split <;> simp [Task.weight, Searches.weight]
          · simp [Task.weight, Searches.weight]
      | dir name sub rest =>
          simp only [step]
          split
          · split
            · simp [Task.weight]
              simp [Searches.weight]
            · simp [Task.weight, Searches.weight]
              omega
          · simp [Task.weight, Searches.weight]
            omega

/-- Nobody asks for a new search or for a record. -/
def Working (_ : Service) : Event → Prop
  | .party _ => True
  | _ => False

/-- Who has started has been told so. -/
def Acked (s : Service) : Prop :=
  ∀ (i : Nat) x id, s.parties[i]? = some x → x.id = some id → x.Started →
    ∃ root q, Answer.accepted root q id ∈ s.answers

/-- Every search is over: its client has its number, under which it finds the
result. -/
def Settled (lower : String → String) (env : Env) (dirs : PathBuf → Dir) (s : Service) : Prop :=
  ∀ x ∈ s.parties, ∃ id r, x = .ended id ∧ Answer.accepted r.root r.q id ∈ s.answers ∧
    s.searches id = some r ∧ r.found = result lower env dirs r.root r.q

section End

variable {lower : String → String} {env : Env} {dirs : PathBuf → Dir} {s s' : Service}

theorem Acked.goes (hA : Acked s) {i : Nat} {x y : Party} {n : Nat} {m : Nat → Option Record}
    (hi : s.parties[i]? = some x) (hid : y.Started → x.Started ∧ y.id = x.id) :
    Acked { s with next_search := n, searches := m, parties := s.parties.set i y } := by
  intro j z id hz hzid hst
  rcases set_cases hz with ⟨-, rfl⟩ | ⟨-, hz'⟩
  · obtain ⟨hxst, hyx⟩ := hid hst
    exact hA i x id hi (hyx ▸ hzid) hxst
  · exact hA j z id hz' hzid hst

theorem Acked.say (hA : Acked s) (a : Answer) : Acked (s.say a) := by
  intro j z id hz hzid hst
  obtain ⟨root, q, hmem⟩ := hA j z id hz hzid hst
  exact ⟨root, q, List.mem_append_left _ hmem⟩

theorem Acked.step (hA : Acked s) {e : Event} (hs : s.step lower env dirs e = some s') :
    Acked s' := by
  cases Service.step_cases hs with
  | refused e error he => exact hA.say _
  | polled text id r ht hr => exact hA.say _
  | missed text id ht hr => exact hA.say _
  | requested body root q =>
      intro j z id hz hzid hst
      rcases append_cases hz with ⟨-, rfl⟩ | hz'
      · cases hzid
      · exact hA j z id hz' hzid hst
  | numbered i root q hi => exact hA.goes hi False.elim
  | registered i root q id hi => exact hA.goes hi False.elim
  | walked i id query t ts hi => exact hA.goes hi fun _ => ⟨trivial, rfl⟩
  | finished i id query hi => exact hA.goes hi fun _ => ⟨trivial, rfl⟩
  | launched i root q id hi =>
      -- the one that starts is told in the same call
      intro j z id' hz hzid hst
      rcases set_cases hz with ⟨-, rfl⟩ | ⟨-, hz'⟩
      · obtain rfl : id = id' := Option.some.inj hzid
        exact ⟨root, q, List.mem_append_right _ (List.mem_singleton.mpr rfl)⟩
      · obtain ⟨root', q', hmem⟩ := hA j z id' hz' hzid hst
        exact ⟨root', q', List.mem_append_left _ hmem⟩

theorem acked_of_reach (h : Reach (Service.step lower env dirs) Any .init s) : Acked s := by
  refine h.inv ?_ fun _ _ _ hA _ hs => hA.step hs
  intro i x id hx
  simp [Service.init] at hx

/-- A call of a search leaves fewer to come. -/
theorem weight_step {e : Event} (hc : Working s e) (hs : s.step lower env dirs e = some s') :
    (s'.parties.map (Party.weight env dirs)).sum <
      (s.parties.map (Party.weight env dirs)).sum := by
  have set_less : ∀ {i : Nat} {x : Party} (y : Party), s.parties[i]? = some x →
      y.weight env dirs < x.weight env dirs →
      ((s.parties.set i y).map (Party.weight env dirs)).sum <
        (s.parties.map (Party.weight env dirs)).sum := by
    intro i x y hi hlt
    have hsum := Pool.sum_set (Party.weight env dirs) y hi
    omega
  cases Service.step_cases hs with
  | refused e error he =>
      cases e with
      | party i => exact absurd rfl (he i)
      | request body => cases hc
      | poll text => cases hc
  | polled text id r ht hr => cases hc
  | missed text id ht hr => cases hc
  | requested body root q => cases hc
  | numbered i root q hi => exact set_less _ hi (by simp [Party.weight])
  | registered i root q id hi => exact set_less _ hi (by simp [Party.weight])
  | launched i root q id hi => exact set_less _ hi (by simp [Party.weight, Task.weight])
  | walked i id query t ts hi =>
      refine set_less _ hi ?_
      -- an entry that has been read is off the list, and brings the entries of its directory,
      -- which weigh less
      have ht := t.weight_step (matched lower query) ((s.searches id).map Record.found)
      simp only [Party.weight, List.map_append, List.map_cons, List.sum_append, List.sum_cons]
      omega
  | finished i id query hi => exact set_less _ hi (by simp [Party.weight])

/-- What is over has nothing before it. -/
theorem settled_of_over (hI : Inv lower env dirs s) (hA : Acked s)
    (h : ∀ x ∈ s.parties, ∃ id, x = .ended id) : Settled lower env dirs s := by
  intro x hx
  obtain ⟨id, rfl⟩ := h x hx
  obtain ⟨i, hi⟩ := List.mem_iff_getElem?.mp hx
  obtain ⟨r, hr, hres⟩ := hI.serves i _ hi
  obtain ⟨root, q, hmem⟩ := hA i _ id hi rfl trivial
  -- the record is that of the request that was answered
  obtain ⟨⟨r', hr', hroot, hq⟩, -⟩ := hI.backed _ hmem
  rw [hr, Option.some.injEq] at hr'
  subst hr'
  exact ⟨id, r, rfl, by rw [hroot, hq]; exact hmem, hr, hres⟩

/-- As long as a search is not over it can go on. -/
theorem goes_on (s : Service) : (∀ x ∈ s.parties, ∃ id, x = .ended id) ∨
    ∃ e s', Working s e ∧ s.step lower env dirs e = some s' := by
  by_cases h : ∀ x ∈ s.parties, ∃ id, x = .ended id
  · exact .inl h
  · right
    simp only [not_forall] at h
    obtain ⟨x, hx, hno⟩ := h
    obtain ⟨i, hi⟩ := List.mem_iff_getElem?.mp hx
    have hadv : ∃ s', Service.advance lower env dirs s i x = some s' := by
      cases x with
      | number root q => exact ⟨_, rfl⟩
      | register root q id => exact ⟨_, rfl⟩
      | launch root q id => exact ⟨_, rfl⟩
      | ended id => exact absurd ⟨id, rfl⟩ hno
      | walk id query ts =>
          cases ts with
          | nil => exact ⟨_, rfl⟩
          | cons t ts => exact ⟨_, rfl⟩
    obtain ⟨s', hs'⟩ := hadv
    exact ⟨.party i, s', trivial, by simp only [Service.step, hi, hs']⟩

end End

/-! ## The results -/

section Results

variable (lower : String → String) (env : Env) (dirs : PathBuf → Dir)

/-- The matches there are for a search, in the order of its walk. -/
def found (root q : String) : List Match :=
  (hits (matched lower (parse_search_query lower q)) (resolve_path env root)
    (dirs (resolve_path env root))).map Listed.shown

/-- What the answers so far tell the clients. -/
structure Streamed (s : Service) : Prop where
  consistent : s.answers.Pairwise Consistent
  running : ∀ id r, Answer.shown id r ∈ s.answers → r.found.status = "running" →
    r.found.matches_ <+: (found lower env dirs r.root r.q).take MAX_RESULTS
  final : ∀ id r, Answer.shown id r ∈ s.answers → r.found.status ≠ "running" →
    r.found = result lower env dirs r.root r.q

variable {lower env dirs}

theorem walked_matches (root q : String) : (walked lower env dirs root q).matches_ =
    (found lower env dirs root q).take MAX_RESULTS := by
  rw [walked, walk_search, start_enter, (scan_took _ _ _ start_sane).eq]
  rfl

theorem Inv.streamed {s : Service} (hI : Inv lower env dirs s) : Streamed lower env dirs s := by
  refine ⟨hI.consistent, fun id r hr hrun => ?_, fun id r hr hrun => ?_⟩
  · obtain ⟨⟨-, hon⟩ | hres, -⟩ := hI.backed _ hr
    · exact walked_matches r.root r.q ▸ hon.listed
    · rw [hres, result_done] at hrun
      exact absurd hrun (by decide)
  · obtain ⟨⟨hrun', -⟩ | hres, -⟩ := hI.backed _ hr
    · exact absurd hrun' hrun
    · exact hres

/-- **What is read of a search stays true.** However requests, walks and polls come
between each other: a number is given to one search only, and from then on stands for
its record; a running search shows a first part of its matches, and more of them each
time; and what it shows when it is done is what `run_search` finds alone, for good. -/
theorem searches_streamed (lower : String → String) (env : Env) (dirs : PathBuf → Dir)
    (s : Service) (h : Reach (Service.step lower env dirs) Any .init s) :
    Streamed lower env dirs s :=
  (reach_inv h).streamed

/-- Of a record that is shown: its number, how far it is, and the directories counted. -/
def Answer.seen : Answer → Option (Nat × String × Nat)
  | .shown id r => some (id, r.found.status, r.found.done_dirs)
  | _ => none

/-- No variable is set. -/
def bare : Env := ⟨none, none, none⟩

/-- Two searches of the same directory, whose calls alternate, and three polls. -/
def two_searches : List Event :=
  [.request (some (some "/r", some "note")), .request (some (some "/r", some "*.txt")), .party 0,
    .party 1, .party 1, .party 0, .party 0, .party 1, .party 0, .party 1, .party 0,
    .poll (some "1"), .party 1, .party 0, .party 0, .party 0, .party 0, .party 0, .party 0,
    .party 0, .poll (some "2"), .poll (some "1")]

theorem searches_streamed_two : ∃ s,
    Reach (Service.step String.toLower bare fun _ => notes) Any .init s ∧
      s.answers.filterMap Answer.seen = [(1, "running", 0), (2, "running", 0), (1, "done", 1)] ∧
      Streamed String.toLower bare (fun _ => notes) s := by
  have hrun : (exec (Service.step String.toLower bare fun _ => notes) .init two_searches).map
      (fun s => s.answers.filterMap Answer.seen) =
        some [(1, "running", 0), (2, "running", 0), (1, "done", 1)] := by
    decide +kernel
  obtain ⟨s, hs, hout⟩ := Option.map_eq_some_iff.mp hrun
  have hreach := reach_of_exec hs
  exact ⟨s, hreach, hout, searches_streamed String.toLower bare (fun _ => notes) s hreach⟩

/-- **Every search comes to its end.** From any state that can be reached, however
their calls follow on each other, the searches come to an end, and each client that
has asked for one has a number under which it finds the result. -/
theorem searches_end (lower : String → String) (env : Env) (dirs : PathBuf → Dir)
    (s : Service) (h : Reach (Service.step lower env dirs) Any .init s) :
    Ends (Service.step lower env dirs) Working (Settled lower env dirs) s := by
  apply ends_of_measure Nat.lt_wfRel.wf (fun s => (s.parties.map (Party.weight env dirs)).sum)
    (I := fun s => Inv lower env dirs s ∧ Acked s)
  · exact fun _ _ _ hI _ hs => ⟨hI.1.step hs, hI.2.step hs⟩
  · intro s hI
    have hgo : (∀ x ∈ s.parties, ∃ id, x = .ended id) ∨
        ∃ e s', Working s e ∧ s.step lower env dirs e = some s' := goes_on s
    rcases hgo with hover | hgo
    · exact .inl (settled_of_over hI.1 hI.2 hover)
    · exact .inr hgo
  · exact fun _ _ _ _ hc hs => weight_step hc hs
  · exact ⟨reach_inv h, acked_of_reach h⟩

/-- Two searches in the midst of their walks. -/
theorem searches_end_two : ∃ s,
    Reach (Service.step String.toLower bare fun _ => notes) Any .init s ∧
      s.parties.map Party.id = [some 1, some 2] ∧
      Ends (Service.step String.toLower bare fun _ => notes) Working
        (Settled String.toLower bare fun _ => notes) s := by
  have hrun : (exec (Service.step String.toLower bare fun _ => notes) .init
      (two_searches.take 11)).map (fun s => s.parties.map Party.id) = some [some 1, some 2] := by
    decide +kernel
  obtain ⟨s, hs, hout⟩ := Option.map_eq_some_iff.mp hrun
  have hreach := reach_of_exec hs
  exact ⟨s, hreach, hout, searches_end String.toLower bare (fun _ => notes) s hreach⟩

end Results

end WebDavs.Searches
