/-
The registry of jobs under concurrent requests.

Numbers are handed out once, so a record has one number, one handler that puts it
in and one thread that works on it. The look for a job that does the same work
and the insertion are one step; so two records never compete, and since a thread
that has ended takes no step, a record that says so stays as it is.
-/
import WebDavs.Server
import WebDavs.Pool
import WebDavs.Steps

set_option autoImplicit false

namespace WebDavs.Mover

open WebDavs.Posix WebDavs.Steps

/-! ## Looking records up -/

section

variable {m : Registry} {id id' : Nat} {j : Job} {f : Job → Job}

theorem Registry.mem_of_get (h : m.get id = some j) : (id, j) ∈ m := by
  obtain ⟨x, hx, rfl⟩ := Option.map_eq_some_iff.mp h
  have hid : x.1 = id := by simpa using List.find?_some hx
  rw [← hid]
  exact List.mem_of_find?_eq_some hx

theorem Registry.get_job_update :
    (m.job_update id f).get id' = if id' = id then (m.get id).map f else m.get id' := by
  induction m with
  | nil => simp [get, job_update]
  | cons x m ih =>
      obtain ⟨n, j⟩ := x
      simp only [get, job_update, List.map_cons] at ih ⊢
      by_cases hn : n = id
      · subst hn
        by_cases hid : id' = n
        · subst hid
          simp
        · have hne : ¬ n = id' := fun h => hid h.symm
          simpa [hid, hne] using ih
      · by_cases hid : id' = id
        · subst hid
          simpa [hn] using ih
        · by_cases hnid : n = id'
          · subst hnid
            simp [hn]
          · simpa [hn, hid, hnid] using ih

theorem Registry.get_insert (h : m.get id = none) :
    (m.insert id j).get id' = if id' = id then some j else m.get id' := by
  simp only [insert, h, Option.isSome_none, Bool.false_eq_true, if_false]
  by_cases hid : id' = id
  · subst hid
    rw [if_pos rfl]
    rw [get, Option.map_eq_none_iff] at h
    simp [get, List.find?_append, h]
  · rw [if_neg hid]
    have hne : ¬ id = id' := fun h => hid h.symm
    simp [get, List.find?_append, hne]

end

/-! ## Records -/

/-- Still to be done, or being done. -/
def Job.live (j : Job) : Prop := j.status = .queued ∨ j.status = .running

/-- Two records compete: both are live, and are moves of one source or copies of
one source to one destination. -/
def Rivals (j j' : Job) : Prop :=
  j.live ∧ j'.live ∧ j.op = j'.op ∧ j.src = j'.src ∧
    (j.op = .move ∨ (j.op = .copy ∧ j.dst = j'.dst))

/-- The records are about the same work. -/
def Job.Same (j j' : Job) : Prop := j'.op = j.op ∧ j'.src = j.src ∧ j'.dst = j.dst

/-- The status a record has while its thread is in a phase. -/
def Phase.HasStatus : Phase → Status → Prop
  | .queued, st => st = .queued
  | .finished, st => st = .done ∨ st = .error
  | _, st => st = .running

/-- The status a record has while its thread is in a phase. -/
def Clearing.HasStatus : Clearing → Status → Prop
  | .queued, st => st = .queued
  | .finished, st => st = .done ∨ st = .error
  | _, st => st = .running

/-- What a thread is at fits its record. -/
def Machine.HasStatus (j : Job) : Machine → Prop
  | .run r => r.phase.HasStatus j.status
  | .erase d => d.phase.HasStatus j.status

section

variable {k : Kernel} {t t' : FileTree Bytes} {e : Event}

theorem work_same {r : Runner} {l : Listing} {next failed : Nat} {f : Fault} {w : Worker}
    {x : FileTree Bytes × Job × Nat × Nat × Worker}
    (h : Runner.WorkCase k t r l next failed f w x) :
    r.job.Same x.2.1 ∧ x.2.1.status = r.job.status := by
  cases h <;> exact ⟨⟨rfl, rfl, rfl⟩, rfl⟩

/-- A call of a job's thread: it has not ended, and its record goes on fitting. -/
theorem job_has_status {r r' : Runner} (hs : r.step k t e = some (t', r'))
    (h : r.phase.HasStatus r.job.status) :
    r.job.live ∧ r.job.Same r'.job ∧ r'.phase.HasStatus r'.job.status := by
  have hlive : ∀ p, r.phase = p → p ≠ .queued → p ≠ .finished → r.job.status = .running := by
    intro p hp hq hf
    rw [hp] at h
    cases p <;> first | exact h | exact absurd rfl hq | exact absurd rfl hf
  cases Runner.step_cases hs with
  | started f hp =>
      rw [hp] at h
      exact ⟨.inl h, ⟨rfl, rfl, rfl⟩, rfl⟩
  | unwalked ev e' hp =>
      have hrun := hlive _ hp (by simp) (by simp)
      exact ⟨.inr hrun, ⟨rfl, rfl, rfl⟩, .inr rfl⟩
  | renamed_tree f l u hp hr =>
      have hrun := hlive _ hp (by simp) (by simp)
      exact ⟨.inr hrun, ⟨rfl, rfl, rfl⟩, .inl rfl⟩
  | made f l n rel hp hn =>
      have hrun := hlive _ hp (by simp) (by simp)
      refine ⟨.inr hrun, ?_⟩
      split
      · exact ⟨⟨rfl, rfl, rfl⟩, hrun⟩
      · exact ⟨⟨rfl, rfl, rfl⟩, hrun⟩
  | worked i f l ws next failed worker y hp hw hy =>
      have hrun := hlive _ hp (by simp) (by simp)
      obtain ⟨hsame, hst⟩ := work_same hy
      exact ⟨.inr hrun, hsame, hst.trans hrun⟩
  | ended f hp =>
      have hrun := hlive _ hp (by simp) (by simp)
      exact ⟨.inr hrun, ⟨rfl, rfl, rfl⟩, .inl rfl⟩
  | _ =>
      -- the other calls leave the job running
      have hrun := hlive _ ‹r.phase = _› (by simp) (by simp)
      exact ⟨.inr hrun, ⟨rfl, rfl, rfl⟩, hrun⟩

theorem erase_same {d : Deleter} {r : Removals} {next failed : Nat} {f : Fault} {w : Remover}
    {x : FileTree Bytes × Job × Nat × Nat × Remover}
    (h : Deleter.WorkCase k t d r next failed f w x) :
    d.job.Same x.2.1 ∧ x.2.1.status = d.job.status := by
  cases h <;> exact ⟨⟨rfl, rfl, rfl⟩, rfl⟩

/-- The same of the thread of a deletion. -/
theorem erase_has_status {d d' : Deleter} (hs : d.step k t e = some (t', d'))
    (h : d.phase.HasStatus d.job.status) :
    d.job.live ∧ d.job.Same d'.job ∧ d'.phase.HasStatus d'.job.status := by
  have hlive : ∀ p, d.phase = p → p ≠ .queued → p ≠ .finished → d.job.status = .running := by
    intro p hp hq hf
    rw [hp] at h
    cases p <;> first | exact h | exact absurd rfl hq | exact absurd rfl hf
  cases Deleter.step_cases hs with
  | started f hp =>
      rw [hp] at h
      exact ⟨.inl h, ⟨rfl, rfl, rfl⟩, rfl⟩
  | removed f u hp hr =>
      have hrun := hlive _ hp (by simp) (by simp)
      exact ⟨.inr hrun, ⟨rfl, rfl, rfl⟩, .inl rfl⟩
  | unremoved f e' hp hr =>
      have hrun := hlive _ hp (by simp) (by simp)
      exact ⟨.inr hrun, ⟨rfl, rfl, rfl⟩, .inr rfl⟩
  | unwalked fuel e' hp hw =>
      have hrun := hlive _ hp (by simp) (by simp)
      exact ⟨.inr hrun, ⟨rfl, rfl, rfl⟩, .inr rfl⟩
  | hindered f e' hp hf =>
      have hrun := hlive _ hp (by simp) (by simp)
      exact ⟨.inr hrun, ⟨rfl, rfl, rfl⟩, .inr rfl⟩
  | worked i f r ws next failed worker y hp hw hy =>
      have hrun := hlive _ hp (by simp) (by simp)
      obtain ⟨hsame, hst⟩ := erase_same hy
      exact ⟨.inr hrun, hsame, hst.trans hrun⟩
  | ended f r failed hp =>
      have hrun := hlive _ hp (by simp) (by simp)
      refine ⟨.inr hrun, ⟨rfl, rfl, rfl⟩, ?_⟩
      by_cases hf : failed = 0
      · exact .inl (if_pos hf)
      · exact .inr (if_neg hf)
  | _ =>
      -- the other calls leave the job running
      have hrun := hlive _ ‹d.phase = _› (by simp) (by simp)
      exact ⟨.inr hrun, ⟨rfl, rfl, rfl⟩, hrun⟩

/-- A thread takes a step only on a live record, and leaves it fitting. -/
theorem Machine.step_has_status {m m' : Machine} {j : Job} (h : m.HasStatus j)
    (hs : (m.with_job j).step k t e = some (t', m')) :
    j.live ∧ j.Same m'.job ∧ m'.HasStatus m'.job := by
  cases m with
  | run r =>
      obtain ⟨x, hx, hm⟩ := Option.map_eq_some_iff.mp hs
      cases hm
      exact job_has_status (r := { r with job := j }) hx h
  | erase d =>
      obtain ⟨x, hx, hm⟩ := Option.map_eq_some_iff.mp hs
      cases hm
      exact erase_has_status (d := { d with job := j }) hx h

end

/-! ## The invariant -/

/-- The number a handler has taken and not handed on yet. -/
def Handler.id : Handler → Option Nat
  | .register _ _ _ id => some id
  | .launch _ _ _ id => some id
  | _ => none

/-- Every number is one handler's, then one thread's, and its record fits. -/
structure Server.Inv (s : Server) : Prop where
  below : ∀ id j, s.jobs.get id = some j → id < s.next_id
  register : ∀ (i : Nat) op src dst id, s.handlers[i]? = some (.register op src dst id) →
    id < s.next_id ∧ s.jobs.get id = none
  launch : ∀ (i : Nat) op src dst id, s.handlers[i]? = some (.launch op src dst id) →
    s.jobs.get id = some (.queued op src.text dst.text) ∧ ∀ x ∈ s.threads, x.1 ≠ id
  apart : ∀ (i i' : Nat) c c' id, s.handlers[i]? = some c → s.handlers[i']? = some c' →
    c.id = some id → c'.id = some id → i = i'
  thread : ∀ (i : Nat) id m, s.threads[i]? = some (id, m) →
    ∃ j, s.jobs.get id = some j ∧ m.HasStatus j
  one : ∀ (i i' : Nat) id m m', s.threads[i]? = some (id, m) → s.threads[i']? = some (id, m') →
    i = i'
  rivals : ∀ id id' j j', id ≠ id' → s.jobs.get id = some j → s.jobs.get id' = some j' →
    ¬ Rivals j j'

section

variable {k : Kernel} {h : Host} {s s' : Server}

theorem Server.Inv.init (t : FileTree Bytes) : (Server.init t).Inv := by
  refine ⟨?_, ?_, ?_, ?_, ?_, ?_, ?_⟩
  · intro id j hj
    cases hj
  · intro i op src dst id hi
    cases hi
  · intro i op src dst id hi
    cases hi
  · intro i i' c c' id hi
    cases hi
  · intro i id m hi
    cases hi
  · intro i i' id m m' hi
    cases hi
  · intro id id' j j' _ hj
    cases hj

/-- A handler comes in, with no number yet. -/
theorem Server.Inv.enter (hI : s.Inv) {c : Handler} (hc : c.id = none) : (s.enter c).Inv := by
  have hold : ∀ {j : Nat} {c' : Handler}, (s.handlers ++ [c])[j]? = some c' →
      c'.id.isSome = true → s.handlers[j]? = some c' := by
    intro j c' hj hid
    rcases append_cases hj with ⟨-, rfl⟩ | hj
    · rw [hc] at hid
      cases hid
    · exact hj
  refine ⟨hI.below, ?_, ?_, ?_, hI.thread, hI.one, hI.rivals⟩
  · exact fun i op src dst id hi => hI.register i op src dst id (hold hi rfl)
  · exact fun i op src dst id hi => hI.launch i op src dst id (hold hi rfl)
  · exact fun i i' c₁ c₂ id hi hi' h₁ h₂ =>
      hI.apart i i' c₁ c₂ id (hold hi (by rw [h₁]; rfl)) (hold hi' (by rw [h₂]; rfl)) h₁ h₂

/-- A handler goes on without a number. -/
theorem Server.Inv.goes (hI : s.Inv) {i : Nat} {c : Handler} (hc : c.id = none) :
    (s.goes i c).Inv := by
  have hold : ∀ {j : Nat} {c' : Handler}, (s.handlers.set i c)[j]? = some c' →
      c'.id.isSome = true → s.handlers[j]? = some c' := by
    intro j c' hj hid
    rcases set_cases hj with ⟨-, rfl⟩ | ⟨-, hj⟩
    · rw [hc] at hid
      cases hid
    · exact hj
  refine ⟨hI.below, ?_, ?_, ?_, hI.thread, hI.one, hI.rivals⟩
  · exact fun i op src dst id hi => hI.register i op src dst id (hold hi rfl)
  · exact fun i op src dst id hi => hI.launch i op src dst id (hold hi rfl)
  · exact fun i i' c₁ c₂ id hi hi' h₁ h₂ =>
      hI.apart i i' c₁ c₂ id (hold hi (by rw [h₁]; rfl)) (hold hi' (by rw [h₂]; rfl)) h₁ h₂

theorem Server.Inv.tree (hI : s.Inv) (t : FileTree Bytes) : ({ s with tree := t } : Server).Inv :=
  ⟨hI.below, hI.register, hI.launch, hI.apart, hI.thread, hI.one, hI.rivals⟩

/-- A handler takes a number. -/
theorem Server.Inv.number (hI : s.Inv) {i : Nat} {op : Op} {src dst : PathBuf}
    (hi : s.handlers[i]? = some (.number op src dst)) :
    ({ s with next_id := s.next_id + 1 }.goes i (.register op src dst s.next_id)).Inv := by
  have hfree : s.jobs.get s.next_id = none := by
    cases hg : s.jobs.get s.next_id with
    | none => rfl
    | some j => exact absurd (hI.below _ j hg) (Nat.lt_irrefl _)
  -- the numbers taken before are smaller
  have hlt : ∀ {j : Nat} {c : Handler} {id : Nat}, s.handlers[j]? = some c → c.id = some id →
      id < s.next_id := by
    intro j c id hj hid
    cases c with
    | register op src dst id' =>
        cases hid
        exact (hI.register j _ _ _ _ hj).1
    | launch op src dst id' =>
        cases hid
        exact hI.below _ _ (hI.launch j _ _ _ _ hj).1
    | _ => cases hid
  refine ⟨fun id j hj => Nat.lt_succ_of_lt (hI.below id j hj), ?_, ?_, ?_, hI.thread, hI.one,
    hI.rivals⟩
  · intro j op' src' dst' id hj
    rcases set_cases hj with ⟨-, hc⟩ | ⟨-, hj⟩
    · cases hc
      exact ⟨Nat.lt_succ_self _, hfree⟩
    · obtain ⟨h₁, h₂⟩ := hI.register j _ _ _ _ hj
      exact ⟨Nat.lt_succ_of_lt h₁, h₂⟩
  · intro j op' src' dst' id hj
    rcases set_cases hj with ⟨-, hc⟩ | ⟨-, hj⟩
    · cases hc
    · exact hI.launch j _ _ _ _ hj
  · intro j j' c c' id hj hj' hid hid'
    rcases set_cases hj with ⟨rfl, rfl⟩ | ⟨-, hj⟩
    · rcases set_cases hj' with ⟨rfl, -⟩ | ⟨-, hj'⟩
      · rfl
      · cases hid
        exact absurd (hlt hj' hid') (Nat.lt_irrefl _)
    · rcases set_cases hj' with ⟨-, hc'⟩ | ⟨-, hj'⟩
      · rw [hc'] at hid'
        cases hid'
        exact absurd (hlt hj hid) (Nat.lt_irrefl _)
      · exact hI.apart j j' c c' id hj hj' hid hid'

/-- A handler that has found no job doing the same work registers its own. -/
theorem Server.Inv.inserted (hI : s.Inv) {i : Nat} {op : Op} {src dst : PathBuf} {id : Nat}
    (hi : s.handlers[i]? = some (.register op src dst id))
    (hno : ∀ id' j, s.jobs.get id' = some j → ¬ Rivals (.queued op src.text dst.text) j) :
    ({ s with jobs := s.jobs.insert id (.queued op src.text dst.text) }.goes i
      (.launch op src dst id)).Inv := by
  obtain ⟨hlt, hfree⟩ := hI.register i _ _ _ _ hi
  have hget : ∀ id' j, (s.jobs.insert id (.queued op src.text dst.text)).get id' = some j →
      (id' = id ∧ j = .queued op src.text dst.text) ∨ (id' ≠ id ∧ s.jobs.get id' = some j) := by
    intro id' j hj
    rw [Registry.get_insert hfree] at hj
    split at hj
    · rename_i hid
      exact .inl ⟨hid, (Option.some.inj hj).symm⟩
    · rename_i hid
      exact .inr ⟨hid, hj⟩
  have hold : ∀ id' j, s.jobs.get id' = some j →
      (s.jobs.insert id (.queued op src.text dst.text)).get id' = some j := by
    intro id' j hj
    rw [Registry.get_insert hfree, if_neg]
    · exact hj
    · rintro rfl
      rw [hfree] at hj
      cases hj
  refine ⟨?_, ?_, ?_, ?_, ?_, hI.one, ?_⟩
  · intro id' j hj
    rcases hget id' j hj with ⟨rfl, -⟩ | ⟨-, hj⟩
    · exact hlt
    · exact hI.below id' j hj
  · intro j op' src' dst' id' hj
    rcases set_cases hj with ⟨-, hc⟩ | ⟨hne, hj⟩
    · cases hc
    · obtain ⟨h₁, h₂⟩ := hI.register j _ _ _ _ hj
      refine ⟨h₁, ?_⟩
      show (s.jobs.insert id _).get id' = none
      rw [Registry.get_insert hfree, if_neg]
      · exact h₂
      · rintro rfl
        exact hne (hI.apart j i _ _ id' hj hi rfl rfl)
  · intro j op' src' dst' id' hj
    rcases set_cases hj with ⟨-, hc⟩ | ⟨-, hj⟩
    · cases hc
      refine ⟨?_, fun x hx hid => ?_⟩
      · show (s.jobs.insert id _).get id = _
        rw [Registry.get_insert hfree, if_pos rfl]
      · -- a thread's record is there already
        obtain ⟨n, hn⟩ := List.mem_iff_getElem?.mp hx
        obtain ⟨j', hj', -⟩ := hI.thread n x.1 x.2 hn
        rw [hid, hfree] at hj'
        cases hj'
    · obtain ⟨h₁, h₂⟩ := hI.launch j _ _ _ _ hj
      exact ⟨hold _ _ h₁, h₂⟩
  · intro j j' c c' id' hj hj' hid hid'
    -- the handler keeps its number
    have hback : ∀ {j : Nat} {c : Handler},
        (s.handlers.set i (.launch op src dst id))[j]? = some c → c.id = some id' →
        ∃ c₀, s.handlers[j]? = some c₀ ∧ c₀.id = some id' := by
      intro j c hj hid
      rcases set_cases hj with ⟨rfl, rfl⟩ | ⟨-, hj⟩
      · exact ⟨_, hi, hid⟩
      · exact ⟨c, hj, hid⟩
    obtain ⟨c₀, h₀, hid₀⟩ := hback hj hid
    obtain ⟨c₁, h₁, hid₁⟩ := hback hj' hid'
    exact hI.apart j j' c₀ c₁ id' h₀ h₁ hid₀ hid₁
  · intro n id' m hn
    obtain ⟨j, hj, hfit⟩ := hI.thread n id' m hn
    exact ⟨j, hold _ _ hj, hfit⟩
  · intro id₁ id₂ j₁ j₂ hne h₁ h₂ hriv
    rcases hget id₁ j₁ h₁ with ⟨rfl, rfl⟩ | ⟨-, h₁⟩
    · rcases hget id₂ j₂ h₂ with ⟨rfl, -⟩ | ⟨-, h₂⟩
      · exact hne rfl
      · exact hno id₂ j₂ h₂ hriv
    · rcases hget id₂ j₂ h₂ with ⟨-, hj₂⟩ | ⟨-, h₂⟩
      · refine hno id₁ j₁ h₁ ?_
        rw [hj₂] at hriv
        obtain ⟨hl₁, hl₂, hop, hsrc, hor⟩ := hriv
        refine ⟨hl₂, hl₁, hop.symm, hsrc.symm, ?_⟩
        rw [← hop]
        exact hor.imp_right fun h => ⟨h.1, h.2.symm⟩
      · exact hI.rivals id₁ id₂ j₁ j₂ hne h₁ h₂ hriv

/-- A handler starts the thread of its job. -/
theorem Server.Inv.launched (hI : s.Inv) {i : Nat} {op : Op} {src dst : PathBuf} {id : Nat}
    (hi : s.handlers[i]? = some (.launch op src dst id)) {m : Machine}
    (hm : m.HasStatus (.queued op src.text dst.text)) :
    ({ s with threads := s.threads ++ [(id, m)] }.goes i (.replied (.accepted id))).Inv := by
  obtain ⟨hget, hnew⟩ := hI.launch i _ _ _ _ hi
  -- the handler that has launched holds no number any more
  have hold : ∀ {j : Nat} {c : Handler},
      (s.handlers.set i (.replied (.accepted id)))[j]? = some c → c.id.isSome = true →
      j ≠ i ∧ s.handlers[j]? = some c := by
    intro j c hj hid
    rcases set_cases hj with ⟨-, rfl⟩ | hj
    · cases hid
    · exact hj
  refine ⟨hI.below, ?_, ?_, ?_, ?_, ?_, hI.rivals⟩
  · exact fun j op src dst id hj => hI.register j op src dst id (hold hj rfl).2
  · intro j op' src' dst' id' hj
    obtain ⟨hne, hj⟩ := hold hj rfl
    obtain ⟨h₁, h₂⟩ := hI.launch j _ _ _ _ hj
    refine ⟨h₁, fun x hx hid => ?_⟩
    rcases List.mem_append.mp hx with hx | hx
    · exact h₂ x hx hid
    · obtain rfl := List.mem_singleton.mp hx
      cases hid
      exact hne (hI.apart j i _ _ id hj hi rfl rfl)
  · intro j j' c c' id' hj hj' hid hid'
    exact hI.apart j j' c c' id' (hold hj (by rw [hid]; rfl)).2 (hold hj' (by rw [hid']; rfl)).2
      hid hid'
  · intro n id' m' hn
    rcases append_cases hn with ⟨-, hx⟩ | hn
    · cases hx
      exact ⟨_, hget, hm⟩
    · exact hI.thread n id' m' hn
  · intro n n' id' m₁ m₂ hn hn'
    rcases append_cases hn with ⟨rfl, hx⟩ | hn
    · rcases append_cases hn' with ⟨rfl, -⟩ | hn'
      · rfl
      -- no thread was on this number while a handler held it
      · cases hx
        exact absurd rfl (hnew _ (List.mem_of_getElem? hn'))
    · rcases append_cases hn' with ⟨rfl, hx⟩ | hn'
      · cases hx
        exact absurd rfl (hnew _ (List.mem_of_getElem? hn))
      · exact hI.one n n' id' m₁ m₂ hn hn'

/-- A thread takes a step. -/
theorem Server.Inv.worked (hI : s.Inv) {n id : Nat} {m m' : Machine} {j : Job} {e : Event}
    {t' : FileTree Bytes} (hn : s.threads[n]? = some (id, m)) (hj : s.jobs.get id = some j)
    (hs : (m.with_job j).step k s.tree e = some (t', m')) :
    ({ s with
      tree := t'
      jobs := s.jobs.job_update id fun _ => m'.job
      threads := s.threads.set n (id, m') } : Server).Inv := by
  obtain ⟨j₀, hj₀, hfit⟩ := hI.thread n id m hn
  rw [hj] at hj₀
  cases hj₀
  obtain ⟨hlive, ⟨hop, hsrc, hdst⟩, hfit'⟩ := Machine.step_has_status hfit hs
  have hget : ∀ id' j', (s.jobs.job_update id fun _ => m'.job).get id' = some j' →
      (id' = id ∧ j' = m'.job) ∨ (id' ≠ id ∧ s.jobs.get id' = some j') := by
    intro id' j' hj'
    rw [Registry.get_job_update] at hj'
    split at hj'
    · rename_i hid
      rw [hj] at hj'
      exact .inl ⟨hid, (Option.some.inj hj').symm⟩
    · rename_i hid
      exact .inr ⟨hid, hj'⟩
  -- the record does the work it did before
  have hriv : ∀ j', Rivals m'.job j' → Rivals j j' := by
    rintro j' ⟨-, h₂, h₃, h₄, h₅⟩
    refine ⟨hlive, h₂, ?_, ?_, ?_⟩
    · rw [← hop, h₃]
    · rw [← hsrc, h₄]
    · rw [← hop, ← hdst]
      exact h₅
  refine ⟨?_, ?_, ?_, hI.apart, ?_, ?_, ?_⟩
  · intro id' j' hj'
    rcases hget id' j' hj' with ⟨rfl, -⟩ | ⟨-, hj'⟩
    · exact hI.below id' j hj
    · exact hI.below id' j' hj'
  · intro i op' src' dst' id' hi
    obtain ⟨h₁, h₂⟩ := hI.register i _ _ _ _ hi
    refine ⟨h₁, ?_⟩
    show (s.jobs.job_update id fun _ => m'.job).get id' = none
    rw [Registry.get_job_update]
    split
    · rename_i hid
      rw [← hid, h₂]
      rfl
    · exact h₂
  · intro i op' src' dst' id' hi
    obtain ⟨h₁, h₂⟩ := hI.launch i _ _ _ _ hi
    have hne : id ≠ id' := h₂ _ (List.mem_of_getElem? hn)
    refine ⟨?_, fun x hx => ?_⟩
    · show (s.jobs.job_update id fun _ => m'.job).get id' = _
      rw [Registry.get_job_update, if_neg (Ne.symm hne)]
      exact h₁
    · rcases List.mem_or_eq_of_mem_set hx with hx | rfl
      · exact h₂ x hx
      · exact hne
  · intro n' id' m'' hn'
    rcases set_cases hn' with ⟨-, hx⟩ | ⟨hne, hold⟩
    · cases hx
      refine ⟨m'.job, ?_, hfit'⟩
      show (s.jobs.job_update id fun _ => m'.job).get id = _
      rw [Registry.get_job_update, if_pos rfl, hj]
      rfl
    · obtain ⟨j', hj', hf⟩ := hI.thread n' id' m'' hold
      refine ⟨j', ?_, hf⟩
      show (s.jobs.job_update id fun _ => m'.job).get id' = _
      rw [Registry.get_job_update, if_neg]
      · exact hj'
      · intro hid
        exact hne (hI.one n' n id _ _ (hid ▸ hold) hn)
  · intro n₁ n₂ id' m₁ m₂ h₁ h₂
    have hback : ∀ {n₀ : Nat} {m₀ : Machine}, (s.threads.set n (id, m'))[n₀]? = some (id', m₀) →
        ∃ m₃, s.threads[n₀]? = some (id', m₃) := by
      intro n₀ m₀ h₀
      rcases set_cases h₀ with ⟨rfl, hx⟩ | ⟨-, h₀⟩
      · cases hx
        exact ⟨m, hn⟩
      · exact ⟨m₀, h₀⟩
    obtain ⟨m₃, h₃⟩ := hback h₁
    obtain ⟨m₄, h₄⟩ := hback h₂
    exact hI.one n₁ n₂ id' m₃ m₄ h₃ h₄
  · intro id₁ id₂ j₁ j₂ hne h₁ h₂ hr
    rcases hget id₁ j₁ h₁ with ⟨rfl, rfl⟩ | ⟨-, h₁⟩
    · rcases hget id₂ j₂ h₂ with ⟨rfl, -⟩ | ⟨-, h₂⟩
      · exact hne rfl
      · exact hI.rivals id₁ id₂ j j₂ hne hj h₂ (hriv j₂ hr)
    · rcases hget id₂ j₂ h₂ with ⟨hid, hj₂⟩ | ⟨-, h₂⟩
      · rw [hid] at hne
        rw [hj₂] at hr
        refine hI.rivals id id₁ j j₁ (Ne.symm hne) hj h₁ (hriv j₁ ?_)
        obtain ⟨hl₁, hl₂, ho, hsr, hor⟩ := hr
        refine ⟨hl₂, hl₁, ho.symm, hsr.symm, ?_⟩
        rw [← ho]
        exact hor.imp_right fun h => ⟨h.1, h.2.symm⟩
      · exact hI.rivals id₁ id₂ j₁ j₂ hne h₁ h₂ hr

theorem Rivals.duplicates {op : Op} {src dst : String} {j : Job}
    (hr : Rivals (.queued op src dst) j) : duplicates op src dst j = true := by
  obtain ⟨-, hl, ho, hsrc, hor⟩ := hr
  have ho' : j.op = op := ho.symm
  have hsrc' : j.src = src := hsrc.symm
  have hdst : op = .move ∨ j.dst = dst := hor.imp id fun h => h.2.symm
  simpa [Mover.duplicates, Job.live, ho', hsrc'] using ⟨hl, hdst⟩

/-- An answer that names a job is given while that job does the same. -/
theorem deduped_cases {a : Act} {i eid : Nat} (hs : s.step k h a = some s')
    (hi : s'.handlers[i]? = some (.replied (.deduped eid))) :
    s.handlers[i]? = some (.replied (.deduped eid)) ∨
      ∃ op src dst id j, s.handlers[i]? = some (.register op src dst id) ∧
        s.jobs.get eid = some j ∧ j.live ∧ j.op = op ∧ j.src = src.text := by
  have henter : ∀ {c : Handler}, (∀ r, c ≠ .replied r) →
      (s.handlers ++ [c])[i]? = some (.replied (.deduped eid)) →
      s.handlers[i]? = some (.replied (.deduped eid)) := by
    intro c hc h
    rcases append_cases h with ⟨-, hx⟩ | h
    · exact absurd hx.symm (hc _)
    · exact h
  have hgoes : ∀ {n : Nat} {c : Handler}, c ≠ .replied (.deduped eid) →
      (s.handlers.set n c)[i]? = some (.replied (.deduped eid)) →
      s.handlers[i]? = some (.replied (.deduped eid)) := by
    intro n c hc h
    rcases set_cases h with ⟨-, hx⟩ | ⟨-, h⟩
    · exact absurd hx.symm hc
    · exact h
  cases Server.step_cases hs with
  | requested op src dst strategy final_dst hop hr => exact .inl (henter (by simp) hi)
  | deleted src hx => exact .inl (henter (by simp) hi)
  | rename_checked src name dst hr => exact .inl (henter (by simp) hi)
  | numbered n found f op src dst hn => exact .inl (hgoes (by simp) hi)
  | registered n found f op src dst id hn hno => exact .inl (hgoes (by simp) hi)
  | deduped n f op src dst id eid' j hn hj hd =>
      rcases set_cases hi with ⟨rfl, hx⟩ | ⟨-, hi⟩
      · cases hx
        simp only [duplicates, Bool.and_eq_true, Bool.or_eq_true, decide_eq_true_eq] at hd
        exact .inr ⟨op, src, dst, id, j, hn, hj, hd.1.1.1, hd.1.1.2, hd.1.2⟩
      · exact .inl hi
  | launched n found f op src dst id hn => exact .inl (hgoes (by simp) hi)
  | renamed n found f src dst t hn hr => exact .inl (hgoes (by simp) hi)
  | unrenamed n found f src dst e hn => exact .inl (hgoes (by simp) hi)
  | worked n e id m x hn hx => exact .inl hi

theorem thread_has_status (h : Host) (op : Op) (src dst : PathBuf) :
    (Server.thread h op src dst).HasStatus (.queued op src.text dst.text) := by
  unfold Server.thread
  split
  · rfl
  · rfl

/-- **What a call does to a record**: it stays, unless the call is one of the thread that
works on it. -/
theorem Server.Inv.record (hI : s.Inv) {a : Act} (hs : s.step k h a = some s') {id : Nat} {j : Job}
    (hj : s.jobs.get id = some j) :
    s'.jobs.get id = some j ∨ ∃ (i : Nat) (e : Event) (m : Machine) (x : FileTree Bytes × Machine),
      s.threads[i]? = some (id, m) ∧ m.HasStatus j ∧ (m.with_job j).step k s.tree e = some x ∧
        s'.jobs.get id = some x.2.job := by
  cases Server.step_cases hs with
  | registered i found f op src dst id' hi hno =>
      -- the record goes in under a number that is not in use
      obtain ⟨-, hfree⟩ := hI.register i _ _ _ _ hi
      refine .inl ?_
      show (s.jobs.insert id' _).get id = some j
      rw [Registry.get_insert hfree, if_neg]
      · exact hj
      · rintro rfl
        rw [hfree] at hj
        cases hj
  | worked i e id' m x hi hx =>
      dsimp only
      rw [Registry.get_job_update]
      by_cases hid : id = id'
      · subst hid
        obtain ⟨j₀, hj₀, hfit⟩ := hI.thread i id m hi
        rw [hj] at hj₀
        cases hj₀
        simp only [Server.load, hj] at hx
        refine .inr ⟨i, e, m, x, hi, hfit, hx, ?_⟩
        rw [if_pos rfl, hj]
        rfl
      · exact .inl ((if_neg hid).trans hj)
  | _ => exact .inl hj

/-- A record that is not live stays as it is. -/
def Stands (s s' : Server) : Prop :=
  ∀ id j, s.jobs.get id = some j → ¬ j.live → s'.jobs.get id = some j

theorem Server.Inv.stands (hI : s.Inv) {a : Act} (hs : s.step k h a = some s') : Stands s s' := by
  intro id j hj hdead
  rcases hI.record hs hj with hj' | ⟨i, e, m, x, -, hfit, hx, -⟩
  · exact hj'
  · exact absurd (Machine.step_has_status hfit hx).1 hdead

/-- **One call in the mover** keeps the registry in order. -/
theorem Server.Inv.step (hI : s.Inv) {a : Act} (hs : s.step k h a = some s') :
    s'.Inv ∧ Stands s s' := by
  refine ⟨?_, hI.stands hs⟩
  cases Server.step_cases hs with
  | requested op src dst strategy final_dst hop hr => exact hI.enter rfl
  | deleted src hx => exact hI.enter rfl
  | rename_checked src name dst hr => exact hI.enter rfl
  | numbered i found f op src dst hi => exact hI.number hi
  | registered i found f op src dst id hi hno =>
      refine hI.inserted hi fun id' j hj hriv => ?_
      rcases hno with hop | hno
      · rcases hriv.2.2.2.2 with h' | ⟨h', -⟩
        · cases hop.symm.trans h'
        · cases hop.symm.trans h'
      · have hd := hno _ (Registry.mem_of_get hj)
        rw [hriv.duplicates] at hd
        cases hd
  | deduped i f op src dst id eid j hi hj hd => exact hI.goes rfl
  | launched i found f op src dst id hi => exact hI.launched hi (thread_has_status h op src dst)
  | renamed i found f src dst t hi hr => exact (hI.tree t).goes rfl
  | unrenamed i found f src dst e hi => exact hI.goes rfl
  | worked i e id m x hi hx =>
      obtain ⟨j, hj, hfit⟩ := hI.thread i id m hi
      simp only [Server.load, hj] at hx
      exact hI.worked hi hj hx

end

/-! ## No work is done twice -/

/-- **The registry is deduplicated.** Whatever requests come in and however they
and the jobs interleave: no two live jobs are moves of one source, or copies of
one source to one destination; a request answered with a job that is there is
answered with one that is live and does the same to the same source; and a job
that has ended stays ended. -/
theorem jobs_deduped (k : Kernel) (h : Host) (t : FileTree Bytes) (s : Server)
    (hs : Reach (Server.step k h) Any (.init t) s) :
    (∀ id id' j j', id ≠ id' → s.jobs.get id = some j → s.jobs.get id' = some j' →
      j.live → j'.live →
      ¬ (j.op = .move ∧ j'.op = .move ∧ j.src = j'.src) ∧
        ¬ (j.op = .copy ∧ j'.op = .copy ∧ j.src = j'.src ∧ j.dst = j'.dst)) ∧
    (∀ a s' (i : Nat) eid, Server.step k h s a = some s' →
      s'.handlers[i]? = some (.replied (.deduped eid)) →
      s.handlers[i]? = some (.replied (.deduped eid)) ∨
        ∃ op src dst id j, s.handlers[i]? = some (.register op src dst id) ∧
          s.jobs.get eid = some j ∧ j.live ∧ j.op = op ∧ j.src = src.text) ∧
    ∀ s', Reach (Server.step k h) Any s s' → ∀ id j, s.jobs.get id = some j →
      (j.status = .done ∨ j.status = .error) →
      ∃ j', s'.jobs.get id = some j' ∧ (j'.status = .done ∨ j'.status = .error) := by
  have hI : s.Inv := hs.inv (Server.Inv.init t) fun _ _ _ h _ hs => (h.step hs).1
  refine ⟨?_, ?_, ?_⟩
  · intro id id' j j' hne hj hj' hl hl'
    refine ⟨?_, ?_⟩
    · rintro ⟨ho, ho', hsrc⟩
      exact hI.rivals id id' j j' hne hj hj' ⟨hl, hl', ho.trans ho'.symm, hsrc, .inl ho⟩
    · rintro ⟨ho, ho', hsrc, hdst⟩
      exact hI.rivals id id' j j' hne hj hj' ⟨hl, hl', ho.trans ho'.symm, hsrc, .inr ⟨ho, hdst⟩⟩
  · exact fun a s' i eid hstep hi => deduped_cases hstep hi
  · intro s' hs' id j hj hdone
    have hdead : ¬ j.live := by
      rintro (h | h)
      · rw [h] at hdone
        rcases hdone with h' | h' <;> cases h'
      · rw [h] at hdone
        rcases hdone with h' | h' <;> cases h'
    -- the invariant goes along, and with it the record
    have hboth : s'.Inv ∧ s'.jobs.get id = some j :=
      hs'.inv (I := fun u => u.Inv ∧ u.jobs.get id = some j) ⟨hI, hj⟩ fun u a u' hu _ hstep =>
        ⟨(hu.1.step hstep).1, (hu.1.step hstep).2 id j hu.2 hdead⟩
    exact ⟨j, hboth.2, hdone⟩

/-- A directory with a file in it. -/
def tree_e : FileTree Bytes :=
  (FileTree.empty.with_ [] "a" .dir).with_ ["a"] "f" (.file [1])

/-- Two requests to move it, both past the checks before either is registered:
the second is answered with the job of the first. -/
theorem jobs_deduped_two : ∃ s, Reach (Server.step box box_host) Any (.init tree_e) s ∧
    s.handlers = [.replied (.accepted 1), .replied (.deduped 1)] ∧ s.threads.length = 1 ∧
      ∀ id id' j j', id ≠ id' → s.jobs.get id = some j → s.jobs.get id' = some j' →
        j.live → j'.live → ¬ (j.op = .move ∧ j'.op = .move ∧ j.src = j'.src) ∧
          ¬ (j.op = .copy ∧ j'.op = .copy ∧ j.src = j'.src ∧ j.dst = j'.dst) := by
  have hrun : (exec (Server.step box box_host) (.init tree_e)
      [.request .move (.abs ["a"]) (.abs ["b"]) .none,
        .request .move (.abs ["a"]) (.abs ["c"]) .none, .handler 0 none .none,
        .handler 1 none .none, .handler 0 none .none, .handler 0 none .none,
        .handler 1 (some 1) .none, .thread 0 (.main .none)]).map
        (fun s => (s.handlers, s.threads.length))
      = some ([.replied (.accepted 1), .replied (.deduped 1)], 1) := by decide
  obtain ⟨s, hs, hout⟩ := Option.map_eq_some_iff.mp hrun
  simp only [Prod.mk.injEq] at hout
  have hreach := reach_of_exec hs
  exact ⟨s, hreach, hout.1, hout.2, (jobs_deduped box box_host tree_e s hreach).1⟩

end WebDavs.Mover
