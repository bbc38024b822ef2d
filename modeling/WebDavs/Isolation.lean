/-
Jobs on separate ground do not meet.

The threads of the mover share one tree, and their calls interleave in any order
with each other and with requests that come in. As long as each job that is started
is apart from those that are there (`Errand.Apart`), every one of them is at every
moment where it would get to with the tree to itself: at the same point, with the
same record, and with the same entries on its ground (`jobs_isolated`). So what is
known of a job alone is known of it in company.
-/
import WebDavs.Grounds
import WebDavs.Interleave
import WebDavs.Registry

set_option autoImplicit false

namespace WebDavs.Mover

open WebDavs.Posix WebDavs.Posix.FileTree WebDavs.Posix.Kernel WebDavs.Steps WebDavs.Interleave

/-! ## A job and the tree it would have to itself -/

/-- One call of a job, as the step of a party. -/
def Machine.act (k : Kernel) (t : FileTree Bytes) (m : Machine) (e : Event) :
    Option (FileTree Bytes × Machine) := m.step k t e

/-- For the job `m`, which some tree `t` was the start of, `u` is as good as `v`: its
paths lead to the same places, where the same is to be found, and what it has yet to
walk is read in the same order. -/
def Tied (k : Kernel) (t u v : FileTree Bytes) (m : Machine) : Prop :=
  (∃ S D, Sited k (m.errand.reads k t) (m.errand.writes k t) u m.errand S D) ∧ m.Proper ∧
    Same (m.errand.reads k t) u v ∧ (m.Early → SameOrder (m.errand.reads k t) u v)

/-- A job before its first step, whose paths name places with no links at or below
them. -/
def Ready (k : Kernel) (h : Host) (t : FileTree Bytes) (m : Machine) : Prop :=
  (∃ op src dst, m = Server.thread h op src dst) ∧ m.errand.Straight k t

/-- A condition on the steps of jobs that looks at nothing but their ground. -/
def OnGround (k : Kernel) (t : FileTree Bytes) (C : FileTree Bytes × Machine → Event → Prop) :
    Prop :=
  ∀ u v m e, Tied k t u v m → C (u, m) e → C (v, m) e

section

variable {k : Kernel} {h : Host} {t u v u' : FileTree Bytes} {m m' : Machine} {e : Event}

theorem Server.thread_early (op : Op) (src dst : PathBuf) :
    (Server.thread h op src dst).Proper ∧ (Server.thread h op src dst).Early := by
  unfold Server.thread
  split
  · exact ⟨trivial, .inl rfl⟩
  · exact ⟨trivial, .inl rfl⟩

theorem Tied.start (hr : Ready k h t m) : Tied k t t t m := by
  obtain ⟨⟨op, src, dst, rfl⟩, hst⟩ := hr
  exact ⟨sited_start hst, (Server.thread_early op src dst).1, Same.refl _ _, fun _ _ _ => rfl⟩

/-- The job finds its ground in the other tree as well. -/
theorem Tied.sited (ht : Tied k t u v m) :
    ∃ S D, Sited k (m.errand.reads k t) (m.errand.writes k t) v m.errand S D := by
  obtain ⟨⟨S, D, hs⟩, -, hsame, -⟩ := ht
  refine ⟨S, D, hs.keep (fun x hx => hsame.link hx) fun x hx hn => .inl ?_⟩
  rw [← hsame x hx, hn]

/-- Both trees take the job's step, and it is the same step. -/
theorem Tied.own (ht : Tied k t u v m) (hstep : m.step k u e = some (u', m')) :
    m'.errand = m.errand ∧ ∃ v', m.step k v e = some (v', m') ∧ Tied k t u' v' m' := by
  obtain ⟨S', D', hsv⟩ := ht.sited
  obtain ⟨⟨S, D, hs⟩, hp, hsame, horder⟩ := ht
  have hboth := Machine.step_same (e := e) hs hp hsame horder
  obtain ⟨hin, hp', hkey, hearly⟩ := Machine.step_within hs hp hstep
  rw [hstep] at hboth
  generalize hv : m.step k v e = y at hboth
  cases hboth with
  | @some _ v' hsame' x =>
      obtain ⟨-, -, -, hearly'⟩ := Machine.step_within hsv hp hv
      refine ⟨hkey, v', rfl, ?_, hp', ?_, fun he => ?_⟩
      · rw [hkey]
        refine ⟨S, D, hs.keep (fun x _ => hin.link x) fun x _ hn => ?_⟩
        by_cases hw : m.errand.writes k t x
        · exact .inr hw
        · exact .inl (by rw [← hin.get x hw, hn])
      · rw [hkey]
        exact hsame'
      · -- before its walk it has changed nothing
        obtain ⟨hm, rfl⟩ := hearly he
        obtain ⟨-, rfl⟩ := hearly' he
        rw [hkey]
        exact horder hm

/-- What jobs do that are apart from it does not concern a job. -/
theorem Tied.spared {b : Errand} (ha : Errand.Apart k t m.errand b)
    (hin : Within (b.writes k t) u u') (ht : Tied k t u v m) : Tied k t u' v m := by
  obtain ⟨⟨S, D, hs⟩, hp, hsame, horder⟩ := ht
  have hoff : ∀ x, m.errand.reads k t x → ¬ b.writes k t x := fun x hx hw => ha.2 x hw hx
  have hget : ∀ x, m.errand.reads k t x → u'.get x = u.get x := fun x hx => hin.get x (hoff x hx)
  refine ⟨⟨S, D, hs.keep (fun x _ => hin.link x) fun x hx hn => .inl ?_⟩, hp, fun x hx => ?_,
    fun he l hl => ?_⟩
  · rw [← hget x hx, hn]
  · rw [hget x hx, hsame x hx]
  · rw [hin.order l fun n => hoff _ (hl n), horder he l hl]

end

/-- The jobs that start on the tree `t` are separable. -/
def separable (k : Kernel) (h : Host) (t : FileTree Bytes)
    (C : FileTree Bytes × Machine → Event → Prop) (hC : OnGround k t C) :
    Separable (Machine.act k) C t Errand where
  key := Machine.errand
  Apart := Errand.Apart k t
  Ready := Ready k h t
  Tied := Tied k t
  Moves b := Within (b.writes k t)
  symm := And.symm
  start := Tied.start
  own ht hc hs := ⟨(ht.own hs).1, hC _ _ _ _ ht hc, (ht.own hs).2⟩
  moves ht hs := by
    obtain ⟨⟨S, D, hsited⟩, hp, -⟩ := ht
    exact (Machine.step_within hsited hp hs).1
  spared ha hm ht := ht.spared ha hm

/-! ## The mover as a crowd of jobs -/

/-- Jobs are started on ground that is straight and apart from that of the jobs
that are there, nothing is renamed by request, and the jobs' steps meet `C`. -/
def Separate (k : Kernel) (h : Host) (t : FileTree Bytes)
    (C : FileTree Bytes × Machine → Event → Prop) (s : Server) : Act → Prop
  | .handler i _ _ =>
    (∀ src dst, s.handlers[i]? ≠ some (.rename src dst)) ∧
      ∀ op src dst id, s.handlers[i]? = some (.launch op src dst id) →
        (Server.thread h op src dst).errand.Straight k t ∧
          ∀ x ∈ s.threads, Errand.Apart k t (Server.thread h op src dst).errand x.2.errand
  | .thread i e => ∀ id m, s.threads[i]? = some (id, m) → C (s.tree, m) e
  | _ => True

/-- The tree and the jobs of the mover. -/
def Server.jobs_of (s : Server) : FileTree Bytes × List Machine :=
  (s.tree, s.threads.map Prod.snd)

/-- A deletion has no destination. -/
def Handler.NoDstIfDelete : Handler → Prop
  | .number op _ dst => op = .delete → dst.text = ""
  | .register op _ dst _ => op = .delete → dst.text = ""
  | .launch op _ dst _ => op = .delete → dst.text = ""
  | _ => True

/-- A thread has at hand the record that is in the registry. -/
structure Server.UpToDate (s : Server) : Prop where
  handler : ∀ (i : Nat) c, s.handlers[i]? = some c → c.NoDstIfDelete
  thread : ∀ (i : Nat) id m, s.threads[i]? = some (id, m) → s.jobs.get id = some m.job

section

variable {k : Kernel} {h : Host} {s s' : Server}

theorem Machine.with_own_job (m : Machine) : m.with_job m.job = m := by
  cases m with
  | run r => rfl
  | erase d => rfl

theorem Server.load_own {id : Nat} {m : Machine} (hj : s.jobs.get id = some m.job) :
    s.load id m = m := by
  unfold Server.load
  rw [hj]
  exact m.with_own_job

theorem Server.thread_job {op : Op} {src dst : PathBuf} (hd : op = .delete → dst.text = "") :
    (Server.thread h op src dst).job = .queued op src.text dst.text := by
  unfold Server.thread
  split
  · rename_i hop
    rw [hd hop, hop]
    rfl
  · rfl

theorem Server.UpToDate.init (t : FileTree Bytes) : (Server.init t).UpToDate where
  handler _ _ hc := by cases hc
  thread _ _ _ hm := by cases hm

theorem Server.UpToDate.step (hI : s.Inv) (hu : s.UpToDate) {a : Act}
    (hs : s.step k h a = some s') : s'.UpToDate := by
  have henter : ∀ {c : Handler}, c.NoDstIfDelete → ∀ (i : Nat) c', (s.handlers ++ [c])[i]? = some c' →
      c'.NoDstIfDelete := by
    intro c hc i c' hc'
    rcases append_cases hc' with ⟨-, rfl⟩ | hc'
    · exact hc
    · exact hu.handler i c' hc'
  have hgoes : ∀ {n : Nat} {c : Handler}, c.NoDstIfDelete →
      ∀ (i : Nat) c', (s.handlers.set n c)[i]? = some c' → c'.NoDstIfDelete := by
    intro n c hc i c' hc'
    rcases set_cases hc' with ⟨-, rfl⟩ | ⟨-, hc'⟩
    · exact hc
    · exact hu.handler i c' hc'
  cases Server.step_cases hs with
  | requested op src dst strategy final_dst hop hr =>
      exact ⟨henter fun hd => absurd hd hop, hu.thread⟩
  | deleted src hx => exact ⟨henter fun _ => rfl, hu.thread⟩
  | rename_checked src name dst hr => exact ⟨henter trivial, hu.thread⟩
  | numbered i found f op src dst hi =>
      have hfit : op = .delete → dst.text = "" := hu.handler i _ hi
      exact ⟨hgoes hfit, hu.thread⟩
  | registered i found f op src dst id hi hno =>
      have hfit : op = .delete → dst.text = "" := hu.handler i _ hi
      refine ⟨hgoes hfit, fun n id' m hn => ?_⟩
      obtain ⟨-, hfree⟩ := hI.register i _ _ _ _ hi
      have hold := hu.thread n id' m hn
      show (s.jobs.insert id _).get id' = some m.job
      rw [Registry.get_insert hfree, if_neg]
      · exact hold
      · rintro rfl
        rw [hfree] at hold
        cases hold
  | deduped i f op src dst id eid j hi hj hd => exact ⟨hgoes trivial, hu.thread⟩
  | launched i found f op src dst id hi =>
      refine ⟨hgoes trivial, fun n id' m hn => ?_⟩
      -- the new thread starts with the record its handler has registered
      rcases append_cases hn with ⟨-, heq⟩ | hn'
      · cases heq
        show s.jobs.get id = _
        rw [(hI.launch i _ _ _ _ hi).1, Server.thread_job (hu.handler i _ hi)]
      · exact hu.thread n id' m hn'
  | renamed i found f src dst t hi hr => exact ⟨hgoes trivial, hu.thread⟩
  | unrenamed i found f src dst e hi => exact ⟨hgoes trivial, hu.thread⟩
  | worked i e id m x hi hx =>
      refine ⟨hu.handler, fun n id' m' hn => ?_⟩
      show (s.jobs.job_update id fun _ => x.2.job).get id' = some m'.job
      rw [Registry.get_job_update]
      rcases set_cases hn with ⟨-, heq⟩ | ⟨hne, hn'⟩
      · cases heq
        rw [if_pos rfl, hu.thread i id m hi]
        rfl
      -- no other thread has this record
      · rw [if_neg]
        · exact hu.thread n id' m' hn'
        · rintro rfl
          exact hne (hI.one n i id' m' m hn' hi)

/-- **A call in the mover is a step of the crowd of its jobs**, or leaves the crowd as
it is. -/
theorem Server.step_crowd {t : FileTree Bytes} {C : FileTree Bytes × Machine → Event → Prop}
    {hC : OnGround k t C} (hu : s.UpToDate) {a : Act} (hc : Separate k h t C s a)
    (hs : s.step k h a = some s') :
    s'.jobs_of = s.jobs_of ∨ ∃ c, (separable k h t C hC).Joins s.jobs_of c ∧
      crowd (Machine.act k) s.jobs_of c = some s'.jobs_of := by
  cases Server.step_cases hs with
  | launched i found f op src dst id hi =>
      obtain ⟨hst, hap⟩ := hc.2 op src dst id hi
      refine .inr ⟨.join (Server.thread h op src dst), ⟨⟨⟨op, src, dst, rfl⟩, hst⟩, ?_⟩, ?_⟩
      · intro m hm
        obtain ⟨x, hx, rfl⟩ := List.mem_map.mp hm
        exact hap x hx
      · simp [crowd, Server.jobs_of, Server.goes]
  | renamed i found f src dst u hi hr => exact absurd hi (hc.1 src dst)
  | worked i e id m x hi hx =>
      rw [Server.load_own (hu.thread i id m hi)] at hx
      have hmi : (s.threads.map Prod.snd)[i]? = some m := by
        rw [List.getElem?_map, hi]
        rfl
      refine .inr ⟨.act i e, fun m' hm' => ?_, ?_⟩
      · rw [show s.jobs_of.2[i]? = some m from hmi] at hm'
        cases hm'
        exact hc id m hi
      · simp only [crowd, Server.jobs_of, hmi, Machine.act, hx, Option.map_some, List.map_set]
  | _ => exact .inl rfl

theorem Server.reach_crowd {t : FileTree Bytes} {C : FileTree Bytes × Machine → Event → Prop}
    (hC : OnGround k t C) (hs : Reach (Server.step k h) (Separate k h t C) (.init t) s) :
    s.Inv ∧ s.UpToDate ∧
      Reach (crowd (Machine.act k)) (separable k h t C hC).Joins (t, []) s.jobs_of := by
  induction hs with
  | start => exact ⟨.init t, .init t, .start⟩
  | @next s₁ s₂ a _ hc hstep ih =>
      obtain ⟨hI, hu, hreach⟩ := ih
      refine ⟨(hI.step hstep).1, hu.step hI hstep, ?_⟩
      rcases Server.step_crowd hu hc hstep with heq | ⟨c, hj, hcrowd⟩
      · rw [heq]
        exact hreach
      · exact hreach.next hj hcrowd

end

/-! ## Where there are no links

On a tree without links, jobs whose places lie in directories that are there are apart
as soon as no place of the one lies at, above or below one of the other. -/

section

variable {k : Kernel} {t : FileTree Bytes} {r x : Loc}

theorem locate_abs (hlinks : ∀ x ∈ t.dom, t.linkAt x = none) (r : Loc) :
    k.locate t (.abs r) = some r := by
  unfold Kernel.locate
  rw [locate_eq]
  exact aim_names (l := []) fun s _ _ => linkAt_of_no_links hlinks _

theorem straight_abs (hlinks : ∀ x ∈ t.dom, t.linkAt x = none) (hr : r ≠ []) :
    Straight k t (.abs r) := by
  obtain ⟨s, n, rfl⟩ := (List.eq_nil_or_concat r).resolve_left hr
  refine ⟨.abs s, n, s, ?_, locate_abs hlinks s, fun r => linkAt_of_no_links hlinks _⟩
  simp [Path.abs, Path.child]

theorem trail_abs (hlinks : ∀ x ∈ t.dom, t.linkAt x = none) (hx : x ∈ k.trail t (.abs r)) :
    x <+: r := by
  unfold Kernel.trail at hx
  rw [trail_eq] at hx
  obtain ⟨s, -, hs, rfl⟩ := trailFrom_names (fun s _ _ => linkAt_of_no_links hlinks _) hx
  exact hs

/-- What a job reads lies above, at or below one of its places. -/
theorem reads_abs (hlinks : ∀ x ∈ t.dom, t.linkAt x = none) {op : Op} {s d : Loc}
    (h : Errand.reads ⟨op, .abs s, .abs d⟩ k t x) :
    ∃ l ∈ [s, d], x <+: l ∨ l <+: x := by
  obtain ⟨p, hp, hx⟩ := h
  obtain ⟨l, hl, rfl⟩ : ∃ l ∈ [s, d], p = .abs l := by
    rcases hp with rfl | rfl
    · exact ⟨s, by simp, rfl⟩
    · exact ⟨d, by simp, rfl⟩
  refine ⟨l, hl, ?_⟩
  rcases hx with rfl | hx | ⟨P, hP, hx⟩
  · exact .inl List.nil_prefix
  · exact .inl (trail_abs hlinks hx)
  · rw [locate_abs hlinks] at hP
    cases hP
    exact .inr hx

/-- What a job writes lies at or below one of its places, when the directory of its
destination is there. -/
theorem writes_abs (hlinks : ∀ x ∈ t.dom, t.linkAt x = none) {op : Op} {s d : Loc}
    (hd : t.get d.dropLast = some .dir) (h : Errand.writes ⟨op, .abs s, .abs d⟩ k t x) :
    ∃ l ∈ [s, d], l <+: x := by
  rcases h with ⟨-, P, hP, hx⟩ | ⟨P, hP, hx⟩ | ⟨hx, hn⟩
  · rw [locate_abs hlinks] at hP
    cases hP
    exact ⟨s, by simp, hx⟩
  · rw [locate_abs hlinks] at hP
    cases hP
    exact ⟨d, by simp, hx⟩
  · refine ⟨d, by simp, ?_⟩
    have hpre := trail_abs hlinks hx
    rcases List.eq_nil_or_concat d with rfl | ⟨q, n, rfl⟩
    · exact List.nil_prefix
    · rw [List.concat_eq_append] at hpre hd ⊢
      rw [List.dropLast_concat] at hd
      rcases List.prefix_concat_iff.mp hpre with rfl | hpre
      · exact List.prefix_rfl
      · -- what lies above a directory is there
        by_cases hxq : x = q
        · rw [hxq, hd] at hn
          cases hn
        · rw [t.get_of_prefix hpre hxq hd] at hn
          cases hn

theorem not_reads_of_incomparable (hlinks : ∀ x ∈ t.dom, t.linkAt x = none) {o o' : Op}
    {s d s' d' : Loc} (hd : t.get d.dropLast = some .dir)
    (h : ∀ l ∈ [s, d], ∀ l' ∈ [s', d'], ¬ l <+: l' ∧ ¬ l' <+: l)
    (hw : Errand.writes ⟨o, .abs s, .abs d⟩ k t x) :
    ¬ Errand.reads ⟨o', .abs s', .abs d'⟩ k t x := by
  intro hr
  obtain ⟨l, hl, hlx⟩ := writes_abs hlinks hd hw
  obtain ⟨l', hl', hx⟩ := reads_abs hlinks hr
  obtain ⟨h₁, h₂⟩ := h l hl l' hl'
  rcases hx with hxl | hxl
  · exact h₁ (hlx.trans hxl)
  · rcases List.prefix_or_prefix_of_prefix hlx hxl with hp | hp
    · exact h₁ hp
    · exact h₂ hp

theorem apart_of_incomparable (hlinks : ∀ x ∈ t.dom, t.linkAt x = none) {o o' : Op}
    {s d s' d' : Loc} (hd : t.get d.dropLast = some .dir) (hd' : t.get d'.dropLast = some .dir)
    (h : ∀ l ∈ [s, d], ∀ l' ∈ [s', d'], ¬ l <+: l' ∧ ¬ l' <+: l) :
    Errand.Apart k t ⟨o, .abs s, .abs d⟩ ⟨o', .abs s', .abs d'⟩ :=
  ⟨fun _ hw => not_reads_of_incomparable hlinks hd h hw,
    fun _ hw => not_reads_of_incomparable hlinks hd'
      (fun l hl l' hl' => (h l' hl' l hl).symm) hw⟩

end

/-! ## Jobs that are apart are as if alone -/

section

variable {k : Kernel} {h : Host} {t : FileTree Bytes} {s : Server}
variable {C : FileTree Bytes × Machine → Event → Prop}

/-- Where a job of the mover gets to alone, and how the two trees are tied. -/
theorem Server.solo (hC : OnGround k t C)
    (hs : Reach (Server.step k h) (Separate k h t C) (.init t) s) {i id : Nat} {m : Machine}
    (hi : s.threads[i]? = some (id, m)) :
    m.errand.Straight k t ∧ ∃ op src dst v, (Server.thread h op src dst).errand = m.errand ∧
      Reach (single (Machine.act k)) C (t, Server.thread h op src dst) (v, m) ∧
      Tied k t s.tree v m := by
  obtain ⟨-, -, hreach⟩ := Server.reach_crowd hC hs
  have hmi : s.jobs_of.2[i]? = some m := by
    show (s.threads.map Prod.snd)[i]? = some m
    rw [List.getElem?_map, hi]
    rfl
  obtain ⟨m₀, v, ⟨⟨op, src, dst, rfl⟩, hst⟩, hkey, halone, htied⟩ :=
    Separable.isolated hreach hmi
  refine ⟨?_, op, src, dst, v, hkey, halone, htied⟩
  rw [← show (Server.thread h op src dst).errand = m.errand from hkey]
  exact hst

end

/-- **Jobs on separate ground do not meet.** Whatever requests come in and however the
calls of handlers and jobs interleave: each job has its record in the registry, and
with the tree as it was at first to itself, it gets to the same point, with the same
record, and to a tree with the same entries wherever the job looks. What is on no
job's ground has not changed. -/
theorem jobs_isolated (k : Kernel) (h : Host) (t : FileTree Bytes)
    (C : FileTree Bytes × Machine → Event → Prop) (hC : OnGround k t C) (s : Server)
    (hs : Reach (Server.step k h) (Separate k h t C) (.init t) s) :
    (∀ (i : Nat) id m, s.threads[i]? = some (id, m) → s.jobs.get id = some m.job ∧
      ∃ op src dst v, (Server.thread h op src dst).errand = m.errand ∧
        Reach (single (Machine.act k)) C (t, Server.thread h op src dst) (v, m) ∧
        ∀ x, m.errand.reads k t x → s.tree.get x = v.get x) ∧
    ∀ x, (∀ y ∈ s.threads, ¬ y.2.errand.writes k t x) → s.tree.get x = t.get x := by
  obtain ⟨-, hu, hreach⟩ := Server.reach_crowd hC hs
  refine ⟨fun i id m hi => ⟨hu.thread i id m hi, ?_⟩, fun x hx => ?_⟩
  · obtain ⟨-, op, src, dst, v, hkey, halone, -, -, hsame, -⟩ := Server.solo hC hs hi
    exact ⟨op, src, dst, v, hkey, halone, fun x hx => (hsame x hx).symm⟩
  · refine Separable.untouched (A := fun b => ¬ b.writes k t x)
      (K := fun u => u.get x = t.get x) hreach (fun m hm => ?_) (fun b u u' hb hin hu => ?_) rfl
    · obtain ⟨y, hy, rfl⟩ := List.mem_map.mp hm
      exact hx y hy
    · exact (hin.get x hb).trans hu

/-- `Separate`, as a test: only these errands are started, each once at a time. -/
def only (h : Host) (errands : List Errand) (c : FileTree Bytes × Machine → Event → Bool)
    (s : Server) : Act → Bool
  | .handler i _ _ =>
    match s.handlers[i]? with
    | some (.rename _ _) => false
    | some (.launch op src dst _) =>
      errands.contains (Server.thread h op src dst).errand &&
        s.threads.all fun x => errands.contains x.2.errand &&
          decide (x.2.errand ≠ (Server.thread h op src dst).errand)
    | _ => true
  | .thread i e =>
    match s.threads[i]? with
    | some x => c (s.tree, x.2) e
    | none => true
  | _ => true

theorem only_spec {k : Kernel} {h : Host} {t : FileTree Bytes} {errands : List Errand}
    {c : FileTree Bytes × Machine → Event → Bool} {C : FileTree Bytes × Machine → Event → Prop}
    (hst : ∀ a ∈ errands, a.Straight k t)
    (hap : ∀ a ∈ errands, ∀ b ∈ errands, b ≠ a → Errand.Apart k t a b)
    (hc : ∀ x e, c x e = true → C x e) {s : Server} {a : Act} (ha : only h errands c s a = true) :
    Separate k h t C s a := by
  cases a with
  | handler i found f =>
      simp only [only] at ha
      refine ⟨fun src dst hi => ?_, fun op src dst id hi => ?_⟩
      · rw [hi] at ha
        cases ha
      · rw [hi] at ha
        simp only [Bool.and_eq_true, List.contains_iff_mem, List.all_eq_true,
          decide_eq_true_eq] at ha
        exact ⟨hst _ ha.1, fun x hx => hap _ ha.1 _ (ha.2 x hx).1 (ha.2 x hx).2⟩
  | thread i e =>
      intro id m hi
      simp only [only, hi] at ha
      exact hc _ e ha
  | _ => trivial

/-- Two files. -/
def tree_two : FileTree Bytes :=
  (FileTree.empty.with_ [] "a" (.file [1])).with_ [] "b" (.file [2])

theorem tree_two_plain : ∀ x ∈ tree_two.dom, tree_two.linkAt x = none := by decide

/-- The deletion of the one and a move of the other. -/
def two_errands : List Errand :=
  [⟨.delete, .abs ["a"], .abs ["a"]⟩, ⟨.move, .abs ["b"], .abs ["c"]⟩]

theorem two_errands_straight : ∀ a ∈ two_errands, a.Straight box tree_two := by
  have hp : ∀ {n : String}, Straight box tree_two (.abs [n]) :=
    straight_abs tree_two_plain (by simp)
  simp only [two_errands, List.forall_mem_cons]
  exact ⟨⟨hp, hp⟩, ⟨hp, hp⟩, by simp⟩

theorem two_errands_apart : ∀ a ∈ two_errands, ∀ b ∈ two_errands, b ≠ a →
    Errand.Apart box tree_two a b := by
  simp only [two_errands, List.forall_mem_cons]
  refine ⟨⟨fun h => absurd rfl h, fun _ => ?_, by simp⟩, ⟨fun _ => ?_, fun h => absurd rfl h,
    by simp⟩, by simp⟩
  · exact apart_of_incomparable tree_two_plain (by decide) (by decide) (by decide)
  · exact apart_of_incomparable tree_two_plain (by decide) (by decide) (by decide)

/-- The two jobs run side by side: each is where it gets to alone. -/
theorem jobs_isolated_two : ∃ s, Reach (Server.step box box_host)
      (Separate box box_host tree_two fun _ _ => True) (.init tree_two) s ∧
    s.threads.map (fun x => x.2.job.status) = [.done, .done] ∧ s.tree.get ["a"] = none ∧
    s.tree.get ["c"] = some (.file [2]) ∧
    ∀ (i : Nat) id m, s.threads[i]? = some (id, m) → s.jobs.get id = some m.job ∧
      ∃ op src dst v, (Server.thread box_host op src dst).errand = m.errand ∧
        Reach (single (Machine.act box)) (fun _ _ => True)
          (tree_two, Server.thread box_host op src dst) (v, m) ∧
        ∀ x, m.errand.reads box tree_two x → s.tree.get x = v.get x := by
  have hrun : (exec_if (Server.step box box_host)
      (only box_host two_errands fun _ _ => true) (.init tree_two)
      [.delete (.abs ["a"]), .request .move (.abs ["b"]) (.abs ["c"]) .none,
        .handler 0 none .none, .handler 1 none .none, .handler 1 none .none,
        .handler 0 none .none, .handler 0 none .none, .handler 1 none .none,
        .thread 0 (.main .none), .thread 1 (.main .none), .thread 1 (.walk 2),
        .thread 0 (.main .none), .thread 1 (.main .none), .thread 0 (.main .none),
        .thread 1 (.main .none)]).map
        (fun s => (s.threads.map fun x => x.2.job.status, s.tree.get ["a"], s.tree.get ["c"]))
      = some ([.done, .done], none, some (.file [2])) := by decide
  obtain ⟨s, hs, hout⟩ := Option.map_eq_some_iff.mp hrun
  simp only [Prod.mk.injEq] at hout
  have hreach := reach_of_exec_if (fun _ _ h => only_spec (C := fun _ _ => True)
    two_errands_straight two_errands_apart (fun _ _ _ => trivial) h) hs
  exact ⟨s, hreach, hout.1, hout.2.1, hout.2.2,
    (jobs_isolated box box_host tree_two (fun _ _ => True) (fun _ _ _ _ _ _ => trivial) s hreach).1⟩

end WebDavs.Mover
