/-
Every job comes to an end.

Once no more requests come in, the mover comes to rest: every handler answers, and
every job says that it is done or has failed, whatever order the handlers and the
threads take their calls in and whatever fails. Only a walk may keep a job from its
end, where a link leads back up; where no link is, none ever is, since the mover
makes no links, and every walk ends.

What has to be shown of one call is that the work left gets less (`left_less`): the
handlers and the threads are a bag of parties, each with its own measure, and a call
replaces one of them by a lighter one, or by two where a handler starts a thread. And
that where work is left, some call of some party is possible (`goes_on`).
-/
import WebDavs.Carry
import WebDavs.DeleteExact
import WebDavs.Interleave
import WebDavs.Registry

set_option autoImplicit false

namespace WebDavs.Mover

open WebDavs.Posix WebDavs.Posix.FileTree WebDavs.Steps WebDavs.Interleave Relation

/-! ## Links -/

/-- Every link of `u` is a link of `t`, wherever it lay. -/
def Inherits (t u : FileTree Bytes) : Prop :=
  ∀ x p, u.get x = some (.symlink p) → ∃ y, t.get y = some (.symlink p)

section

variable {k : Kernel} {t u : FileTree Bytes} {p q : Path} {f : Fault} {e : Event}

theorem Inherits.refl (t : FileTree Bytes) : Inherits t t := fun x _ h => ⟨x, h⟩

/-- A tree whose entries are old ones, or no links. -/
theorem inherits_of_get (h : ∀ x, u.get x = t.get x ∨ ∀ p, u.get x ≠ some (.symlink p)) :
    Inherits t u := by
  intro x p hx
  rcases h x with h' | h'
  · exact ⟨x, h' ▸ hx⟩
  · exact absurd hx (h' p)

theorem inherits_of_grows (h : Grows t u) : Inherits t u := by
  apply inherits_of_get
  intro x
  rcases h x with h' | ⟨-, h'⟩
  · exact .inl h'
  · exact .inr (by simp [h'])

/-- One entry has gone. -/
theorem inherits_of_gone {x : Loc} (h : ∀ y, u.get y = if y = x then none else t.get y) :
    Inherits t u := by
  apply inherits_of_get
  intro y
  rw [h]
  split
  · exact .inr (by simp)
  · exact .inl rfl

theorem rename_inherits (h : k.rename t p q = .ok u) : Inherits t u := by
  obtain ⟨d, n, d', n', e, -, -, -, -, -, hcase⟩ := Kernel.rename_spec h
  rcases hcase with ⟨-, rfl⟩ | ⟨-, -, -, -, hget⟩
  · exact .refl _
  · intro x tgt hx
    rw [hget] at hx
    split at hx
    · exact ⟨_, hx⟩
    · split at hx
      · cases hx
      · exact ⟨_, hx⟩

theorem remove_file_inherits (h : remove_file k t p f = .ok u) : Inherits t u := by
  obtain ⟨d, n, e, -, -, -, hget⟩ := Kernel.remove_file_spec (remove_file_ok h)
  exact inherits_of_gone hget

theorem remove_dir_inherits (h : remove_dir k t p f = .ok u) : Inherits t u := by
  obtain ⟨d, n, -, -, -, hget⟩ := Kernel.remove_dir_spec (remove_dir_ok h)
  exact inherits_of_gone hget

theorem remove_dir_all_at_inherits (k : Kernel) (t : FileTree Bytes) (p : Path) (b : Path.Tail)
    (f : Fault) : Inherits t (remove_dir_all_at k t p b f).1 := by
  apply inherits_of_get
  intro x
  rcases remove_dir_all_at_get k t p b f x with h | ⟨h, -⟩
  · exact .inl h
  · exact .inr (by simp [h])

theorem copy_file_inherits {r : Except Errno Nat} (h : copy_file k t p q f = (u, r)) :
    Inherits t u := by
  rcases copy_file_spec h with ⟨rfl, -⟩ | ⟨l, d, n, bs, -, -, -, -, hget, -⟩
  · exact .refl _
  · apply inherits_of_get
    intro x
    rw [hget]
    split
    · exact .inr (by simp)
    · exact .inl rfl

theorem work_inherits {r : Runner} {l : Listing} {next failed : Nat} {w : Worker}
    {y : FileTree Bytes × Job × Nat × Nat × Worker}
    (h : Runner.WorkCase k t r l next failed f w y) : Inherits t y.1 := by
  cases h with
  | renamed task sf rel t' h hr => exact rename_inherits hr
  | copied task sf rel t' m h hc => exact copy_file_inherits hc
  | uncopied task sf rel t' e h hc => exact copy_file_inherits hc
  | removed task sf rel t' h hr => exact remove_file_inherits (f := .none) hr
  | _ => exact .refl _

theorem erase_inherits {d : Deleter} {r : Removals} {next failed : Nat} {w : Remover}
    {y : FileTree Bytes × Job × Nat × Nat × Remover}
    (h : Deleter.WorkCase k t d r next failed f w y) : Inherits t y.1 := by
  cases h with
  | removed idx p t' h hr => exact remove_file_inherits hr
  | _ => exact .refl _

/-- A thread makes no links. -/
theorem Machine.step_inherits {m m' : Machine} (hs : m.step k t e = some (u, m')) :
    Inherits t u := by
  cases m with
  | run r =>
      obtain ⟨⟨u', r'⟩, hx, hm⟩ := Option.map_eq_some_iff.mp hs
      cases hm
      cases Runner.step_cases hx with
      | renamed_tree f l t' hp hr => exact rename_inherits hr
      | made f l n rel hp hn => exact inherits_of_grows (create_dir_all_grows k t _ _)
      | worked i f l ws next failed worker y hp hw hy => exact work_inherits hy
      | cleaned f l hp hop => exact remove_dir_all_at_inherits k t _ _ f
      | _ => exact .refl _
  | erase d =>
      obtain ⟨⟨u', d'⟩, hx, hm⟩ := Option.map_eq_some_iff.mp hs
      cases hm
      cases Deleter.step_cases hx with
      | removed f u hp hr => exact remove_file_inherits hr
      | worked i f r ws next failed worker y hp hw hy => exact erase_inherits hy
      | cleared f r n failed p u hp hn hr => exact remove_dir_inherits hr
      | _ => exact .refl _

/-- Nor does the mover. -/
theorem Server.step_inherits {h : Host} {s s' : Server} {a : Act}
    (hs : s.step k h a = some s') : Inherits s.tree s'.tree := by
  cases Server.step_cases hs with
  | renamed i found f src dst t hi hr => exact rename_inherits hr
  | worked i e id m x hi hx => exact Machine.step_inherits hx
  | _ => exact .refl _

/-- A tree that inherits from one without links has none. -/
theorem Inherits.no_links (h : Inherits t u) (ht : ∀ x ∈ t.dom, t.linkAt x = none) :
    ∀ x ∈ u.dom, u.linkAt x = none := by
  intro x _
  by_contra hne
  obtain ⟨tgt, hx⟩ := Option.ne_none_iff_exists'.mp hne
  obtain ⟨y, hy⟩ := h x tgt (linkAt_eq_some.mp hx)
  have hno := ht y (t.mem_dom hy)
  rw [linkAt_eq_some.mpr hy] at hno
  cases hno

/-- Without links every walk ends. -/
theorem walk_of_no_links (ht : ∀ x ∈ t.dom, t.linkAt x = none) (src : Path) (rel : List String) :
    ∃ fuel, walk k t fuel src rel ≠ none := by
  by_cases hd : ∃ l, k.stat t src = some l ∧ t.get l = some .dir
  · obtain ⟨l, hs, hl⟩ := hd
    exact ⟨(t.dom.map List.length).foldr max 0 + 1,
      walk_ends (.inl ⟨hs, hl⟩) (plain_of_no_links ht l) (by omega)⟩
  · -- one visit, or none
    refine ⟨1, ?_⟩
    cases hs : k.stat t src with
    | none => cases hl : k.lstat t src <;> simp [walk, hs, hl]
    | some l =>
        have hl : t.get l ≠ some .dir := fun hl => hd ⟨l, hs, hl⟩
        cases hls : k.lstat t src <;> simp [walk, hs, hl, hls]

end

/-! ## What the threads have in hand -/

/-- Who works has taken a file that was listed. -/
def Phase.InRange : Phase → Prop
  | .working l ws _ _ => ∀ w ∈ ws, ∀ m, w.idx = some m → m < l.files.length
  | _ => True

/-- The same in a deletion, and of the directories that are left. -/
def Clearing.InRange : Clearing → Prop
  | .working r ws _ _ => ∀ w ∈ ws, ∀ m, w.idx = some m → m < r.files.length
  | .clearing r n _ => n ≤ r.dirs.length
  | .emptying r n _ => n < r.dirs.length
  | _ => True

def Machine.InRange : Machine → Prop
  | .run r => r.phase.InRange
  | .erase d => d.phase.InRange

section

variable {k : Kernel} {t u : FileTree Bytes} {f : Fault} {e : Event}

theorem work_in_range {r : Runner} {l : Listing} {next failed : Nat} {w : Worker}
    {y : FileTree Bytes × Job × Nat × Nat × Worker}
    (hy : Runner.WorkCase k t r l next failed f w y)
    (h : ∀ m, w.idx = some m → m < l.files.length) :
    ∀ m, y.2.2.2.2.idx = some m → m < l.files.length := by
  intro m hm
  cases hy with
  | drained hn => cases hm
  | taken g hg =>
      obtain rfl : next = m := Option.some.inj hm
      exact (List.getElem?_eq_some_iff.mp hg).1
  | reported task ok => cases hm
  | measured idx sf rel hn => exact h m hm
  | announced task sf rel hn =>
      refine h m (.trans ?_ hm)
      show some task.idx = (r.first task).idx
      unfold Runner.first
      split <;> rfl
  | unrenamed task sf rel e' hn hr =>
      refine h m (.trans ?_ hm)
      dsimp only
      split <;> rfl
  | copied task sf rel t' n hn hc =>
      refine h m (.trans ?_ hm)
      dsimp only
      split <;> rfl
  | _ => exact h m hm

theorem erase_in_range {d : Deleter} {r : Removals} {next failed : Nat} {w : Remover}
    {y : FileTree Bytes × Job × Nat × Nat × Remover}
    (hy : Deleter.WorkCase k t d r next failed f w y)
    (h : ∀ m, w.idx = some m → m < r.files.length) :
    ∀ m, y.2.2.2.2.idx = some m → m < r.files.length := by
  intro m hm
  cases hy with
  | drained hn => cases hm
  | taken p hp =>
      obtain rfl : next = m := Option.some.inj hm
      exact (List.getElem?_eq_some_iff.mp hp).1
  | counted idx => cases hm
  | noted idx p e' hn => cases hm
  | _ => exact h m hm

theorem Machine.step_in_range {m m' : Machine} (hs : m.step k t e = some (u, m')) (h : m.InRange) :
    m'.InRange := by
  cases m with
  | run r =>
      obtain ⟨⟨u', r'⟩, hx, hm⟩ := Option.map_eq_some_iff.mp hs
      cases hm
      simp only [Machine.InRange] at h ⊢
      cases Runner.step_cases hx with
      | spawned f l n hp hn =>
          -- the workers that are started have no index yet
          intro w hw m hm
          rw [List.eq_of_mem_replicate hw] at hm
          cases hm
      | worked i f l ws next failed worker y hp hw hy =>
          rw [hp] at h
          exact all_set h (work_in_range hy (h worker (List.mem_of_getElem? hw)))
      | _ => trivial
  | erase d =>
      obtain ⟨⟨u', d'⟩, hx, hm⟩ := Option.map_eq_some_iff.mp hs
      cases hm
      simp only [Machine.InRange] at h ⊢
      cases Deleter.step_cases hx with
      | walked fuel r hp hw =>
          intro w hw m hm
          rw [List.eq_of_mem_replicate hw] at hm
          cases hm
      | worked i f r ws next failed worker y hp hw hy =>
          rw [hp] at h
          exact all_set h (erase_in_range hy (h worker (List.mem_of_getElem? hw)))
      -- the directories are gone through from the last
      | joined f r ws next failed hp hws => exact Nat.le_refl _
      | announced f r n failed p hp hn => exact (List.getElem?_eq_some_iff.mp hn).1
      | cleared f r n failed p u' hp hn hr => exact (List.getElem?_eq_some_iff.mp hn).1.le
      | uncleared f r n failed p e' hp hn hr => exact (List.getElem?_eq_some_iff.mp hn).1.le
      | _ => trivial

end

/-! ## It goes on -/

namespace Machine

/-- The thread has come to its end. -/
def Ended : Machine → Prop
  | run r => r.phase = .finished
  | erase d => d.phase = .finished

/-- The thread is in a walk that does not end. -/
def Endless (k : Kernel) (t : FileTree Bytes) : Machine → Prop
  | run r => r.phase = .walking ∧ ∀ fuel, walk_files k t fuel r.src = none
  | erase d => d.phase = .walking ∧ ∀ fuel, walk_delete k t fuel d.src = none

end Machine

section

variable {k : Kernel} {t : FileTree Bytes}

/-- A worker of a deletion that has not stopped can make its call. -/
theorem Deleter.work_isSome (k : Kernel) (t : FileTree Bytes) (d : Deleter) (r : Removals)
    (next failed : Nat) {w : Remover} (hne : w ≠ .stopped)
    (hidx : ∀ m, w.idx = some m → m < r.files.length) :
    (Deleter.work k t d r next failed .none w).isSome = true := by
  have hfile : ∀ m, w.idx = some m → ∃ p, r.files[m]? = some p :=
    fun m hm => ⟨_, List.getElem?_eq_getElem (hidx m hm)⟩
  cases w with
  | stopped => exact absurd rfl hne
  | idle => cases hf : r.files[next]? <;> simp [Deleter.work, hf]
  | announce m =>
      obtain ⟨p, hf⟩ := hfile m rfl
      simp [Deleter.work, hf]
  | remove m =>
      obtain ⟨p, hf⟩ := hfile m rfl
      simp only [Deleter.work, hf]
      split <;> rfl
  | count m => rfl
  | fail m e => rfl
  | note m e =>
      obtain ⟨p, hf⟩ := hfile m rfl
      simp [Deleter.work, hf]

/-- A deletion that is not finished can make a call, unless it is in a walk without an
end. -/
theorem Deleter.goes_on (k : Kernel) (t : FileTree Bytes) (d : Deleter) (hp : d.phase ≠ .finished)
    (hwalk : d.phase = .walking → ∃ fuel, walk_delete k t fuel d.src ≠ none)
    (hs : d.phase.InRange) : ∃ e, e.Clean ∧ (Deleter.step k t d e).isSome = true := by
  cases hphase : d.phase with
  | finished => exact absurd hphase hp
  | queued => exact ⟨.main .none, rfl, by simp [Deleter.step, hphase]⟩
  | checking =>
      refine ⟨.main .none, rfl, ?_⟩
      simp only [Deleter.step, hphase]
      split <;> rfl
  | removing =>
      refine ⟨.main .none, rfl, ?_⟩
      simp only [Deleter.step, hphase]
      split <;> rfl
  | walking =>
      obtain ⟨fuel, hw⟩ := hwalk hphase
      refine ⟨.walk fuel, trivial, ?_⟩
      simp only [Deleter.step, hphase]
      split
      · rename_i hnone
        exact absurd hnone (walk_from_ne_none hw)
      · rfl
      · rfl
  | working r ws next failed =>
      rw [hphase] at hs
      by_cases hall : ∀ w ∈ ws, w = .stopped
      -- all have stopped, so the join returns
      · have hws : ws.all (fun w => decide (w = .stopped)) = true := by simpa using hall
        refine ⟨.main .none, rfl, ?_⟩
        simp only [Deleter.step, hphase, hws, if_true, Option.isSome_some]
      -- some worker has not stopped, and it can make its next call
      · simp only [not_forall] at hall
        obtain ⟨w, hmem, hne⟩ := hall
        obtain ⟨i, hi⟩ := List.mem_iff_getElem?.mp hmem
        refine ⟨.worker i .none, rfl, ?_⟩
        simp only [Deleter.step, hphase, hi, Option.isSome_map]
        exact Deleter.work_isSome k t d r next failed hne (hs w hmem)
  | clearing r n failed =>
      rw [hphase] at hs
      refine ⟨.main .none, rfl, ?_⟩
      cases n with
      | zero => simp [Deleter.step, hphase]
      | succ n =>
          -- there is a directory for each number below the count
          have hn : r.dirs[n]? = some r.dirs[n] := List.getElem?_eq_getElem hs
          simp only [Deleter.step, hphase, hn, Option.isSome_some]
  | emptying r n failed =>
      rw [hphase] at hs
      refine ⟨.main .none, rfl, ?_⟩
      have hn : r.dirs[n]? = some r.dirs[n] := List.getElem?_eq_getElem hs
      simp only [Deleter.step, hphase, hn]
      split <;> rfl

/-- A thread has ended, or walks without an end, or can make a call. -/
theorem Machine.goes_on {m : Machine} (hs : m.InRange) :
    m.Ended ∨ m.Endless k t ∨ ∃ e, e.Clean ∧ (m.step k t e).isSome = true := by
  by_cases hended : m.Ended
  · exact .inl hended
  by_cases hless : m.Endless k t
  · exact .inr (.inl hless)
  refine .inr (.inr ?_)
  cases m with
  | run r =>
      have hwalk : r.phase = .walking → ∃ fuel, walk_files k t fuel r.src ≠ none := by
        intro hp
        by_contra hno
        exact hless ⟨hp, fun fuel => by_contra fun hne => hno ⟨fuel, hne⟩⟩
      have hidx : ∀ l ws next failed, r.phase = .working l ws next failed →
          ∀ w ∈ ws, ∀ m, w.idx = some m → m < l.files.length := by
        intro l ws next failed hp
        simp only [Machine.InRange, hp] at hs
        exact hs
      obtain ⟨e, hclean, he⟩ := Runner.goes_on k t r hended hwalk hidx
      exact ⟨e, hclean, by simpa only [Machine.step, Option.isSome_map] using he⟩
  | erase d =>
      have hwalk : d.phase = .walking → ∃ fuel, walk_delete k t fuel d.src ≠ none := by
        intro hp
        by_contra hno
        exact hless ⟨hp, fun fuel => by_contra fun hne => hno ⟨fuel, hne⟩⟩
      obtain ⟨e, hclean, he⟩ := Deleter.goes_on k t d hended hwalk hs
      exact ⟨e, hclean, by simpa only [Machine.step, Option.isSome_map] using he⟩

/-- Without links no thread walks without an end. -/
theorem Machine.not_endless (ht : ∀ x ∈ t.dom, t.linkAt x = none) (m : Machine) :
    ¬ m.Endless k t := by
  intro h
  cases m with
  | run r =>
      obtain ⟨fuel, hf⟩ := walk_of_no_links ht r.src []
      exact hf (Option.map_eq_none_iff.mp (h.2 fuel))
  | erase d =>
      obtain ⟨fuel, hf⟩ := walk_of_no_links ht d.src []
      exact hf (Option.map_eq_none_iff.mp (h.2 fuel))

end

/-! ## Work left -/

/-- What a thread has left to do. Its measure does not look at the tree. -/
def Machine.left : Machine → Nat × Nat
  | .run r => calls_left (.empty, r)
  | .erase d => to_do (.empty, d)

/-- What a handler has left to do, the thread that it may start included. -/
def Handler.left : Handler → Nat × Nat
  | .number _ _ _ => (11, 0)
  | .register _ _ _ _ => (10, 0)
  | .launch _ _ _ _ => (9, 0)
  | .rename _ _ => (1, 0)
  | .replied _ => (0, 0)

namespace Server

/-- What the mover has left to do when nothing more comes in. -/
def left (s : Server) : Multiset (Nat × Nat) :=
  (s.handlers.map Handler.left : List (Nat × Nat)) +
    (s.threads.map fun x => x.2.left : List (Nat × Nat))

end Server

/-- No request: a call of a handler or of a thread, whatever it comes to. -/
def Act.Working : Act → Prop
  | .handler _ _ _ => True
  | .thread _ _ => True
  | _ => False

/-- Such a call in which nothing fails of itself. -/
def Act.Clean : Act → Prop
  | .handler _ _ f => f = .none
  | .thread _ e => e.Clean
  | _ => False

theorem Act.Clean.working {a : Act} (h : a.Clean) : a.Working := by
  cases a with
  | handler i found f => trivial
  | thread i e => trivial
  | _ => exact h

section

variable {k : Kernel} {h : Host} {s s' : Server} {a : Act}

theorem Machine.left_less {t u : FileTree Bytes} {m m' : Machine} {e : Event}
    (hs : m.step k t e = some (u, m')) : Prod.Lex (· < ·) (· < ·) m'.left m.left := by
  cases m with
  | run r =>
      obtain ⟨⟨u', r'⟩, hx, hm⟩ := Option.map_eq_some_iff.mp hs
      cases hm
      have hless : Prod.Lex (· < ·) (· < ·) (calls_left (u', r')) (calls_left (t, r)) :=
        calls_less hx
      exact hless
  | erase d =>
      obtain ⟨⟨u', d'⟩, hx, hm⟩ := Option.map_eq_some_iff.mp hs
      cases hm
      have hless : Prod.Lex (· < ·) (· < ·) (to_do (u', d')) (to_do (t, d)) := to_do_less hx
      exact hless

theorem Machine.left_with_job (j : Job) (m : Machine) : (m.with_job j).left = m.left := by
  cases m <;> rfl

theorem Server.left_load (s : Server) (id : Nat) (m : Machine) : (s.load id m).left = m.left := by
  unfold Server.load
  split
  · exact Machine.left_with_job _ m
  · rfl

/-- A handler has got further, and no thread has come. -/
theorem Server.left_goes {i : Nat} {c c' : Handler} (hi : s.handlers[i]? = some c)
    (hless : Prod.Lex (· < ·) (· < ·) c'.left c.left) :
    CutExpand (Prod.Lex (· < ·) (· < ·)) (s.goes i c').left s.left := by
  have hget : (s.handlers.map Handler.left)[i]? = some c.left := by
    rw [List.getElem?_map, hi, Option.map_some]
  have hcut := cut_set (s := 0) hget hless (by simp) (s.threads.map fun x => x.2.left : List _)
  rwa [← List.map_set, add_zero] at hcut

/-- **Every call leaves less to do**, in whatever order the calls come and whatever
they come to. -/
theorem Server.left_less (hs : s.step k h a = some s') (ha : a.Working) :
    CutExpand (Prod.Lex (· < ·) (· < ·)) s'.left s.left := by
  cases Server.step_cases hs with
  | requested op src dst strategy final_dst hop hr => exact ha.elim
  | deleted src hx => exact ha.elim
  | rename_checked src name dst hr => exact ha.elim
  | numbered i found f op src dst hi =>
      exact Server.left_goes (s := { s with next_id := s.next_id + 1 }) hi
        (.left _ _ (by decide))
  | registered i found f op src dst id hi hno =>
      exact Server.left_goes
        (s := { s with jobs := s.jobs.insert id (.queued op src.text dst.text) }) hi
        (.left _ _ (by decide))
  | deduped i f op src dst id eid j hi hj hd => exact Server.left_goes hi (.left _ _ (by decide))
  | launched i found f op src dst id hi =>
      -- the handler is done, and its thread has everything to do
      have hget : (s.handlers.map Handler.left)[i]? = some (9, 0) := by
        rw [List.getElem?_map, hi]
        rfl
      have hthread : Prod.Lex (· < ·) (· < ·) (Server.thread h op src dst).left (9, 0) := by
        unfold Server.thread
        split <;> exact .left _ _ (by decide)
      have hdone : Prod.Lex (· < ·) (· < ·) (Handler.replied (.accepted id)).left (9, 0) :=
        .left _ _ (by decide)
      have hcut := cut_set (s := {(Server.thread h op src dst).left}) hget hdone
        (by simpa using hthread) (s.threads.map fun x => x.2.left : List _)
      rw [← List.map_set] at hcut
      simp only [Server.left, Server.goes, List.map_append, ← Multiset.coe_add]
      exact hcut
  | renamed i found f src dst t hi hr =>
      exact Server.left_goes (s := { s with tree := t }) hi (.left _ _ (by decide))
  | unrenamed i found f src dst e hi => exact Server.left_goes hi (.left _ _ (by decide))
  | worked i e id m x hi hx =>
      have hget : (s.threads.map fun x => x.2.left)[i]? = some m.left := by
        rw [List.getElem?_map, hi, Option.map_some]
      have hless := Machine.left_less hx
      rw [Server.left_load] at hless
      let H : Multiset (Nat × Nat) := (s.handlers.map Handler.left : List _)
      have hcut := cut_set (s := 0) hget hless (by simp) H
      rw [add_zero, add_comm _ H, add_comm _ H] at hcut
      simp only [Server.left, List.map_set]
      exact hcut

end

/-! ## The mover goes on -/

section

variable {k : Kernel} {h : Host} {s s' : Server} {m : Registry} {id : Nat} {j : Job}

theorem Registry.keys_job_update (f : Job → Job) :
    (m.job_update id f).map Prod.fst = m.map Prod.fst := by
  unfold Registry.job_update
  rw [List.map_map]
  refine List.map_congr_left fun x _ => ?_
  dsimp only [Function.comp]
  split
  · rename_i hx
    exact hx.symm
  · rfl

/-- A number is put in once. -/
theorem Registry.keys_insert (hm : (m.map Prod.fst).Nodup) :
    ((m.insert id j).map Prod.fst).Nodup := by
  unfold Registry.insert
  split
  · rwa [Registry.keys_job_update]
  · rename_i hnone
    rw [List.map_append, List.nodup_append_comm]
    refine List.nodup_cons.mpr ⟨fun hmem => hnone ?_, hm⟩
    obtain ⟨x, hx, hid⟩ := List.mem_map.mp hmem
    simp only [Registry.get, Option.isSome_map, List.find?_isSome, decide_eq_true_eq]
    exact ⟨x, hx, hid⟩

/-- So a record is found under its number. -/
theorem Registry.get_of_mem (hm : (m.map Prod.fst).Nodup) (h : (id, j) ∈ m) :
    m.get id = some j := by
  induction m with
  | nil => cases h
  | cons x m ih =>
      obtain ⟨hx, hm⟩ := List.nodup_cons.mp hm
      rcases List.mem_cons.mp h with rfl | h
      · simp [Registry.get]
      · have hne : x.1 ≠ id := fun he => hx (List.mem_map.mpr ⟨_, h, he.symm⟩)
        have := ih hm h
        simpa [Registry.get, hne] using this

/-- What is kept besides `Inv`: every record has a thread that works on it, or a
handler that will start one, and what the threads are at has been listed. -/
structure Server.Manned (s : Server) : Prop where
  keys : (s.jobs.map Prod.fst).Nodup
  in_range : ∀ x ∈ s.threads, x.2.InRange
  manned : ∀ id j, s.jobs.get id = some j →
    (∃ m, (id, m) ∈ s.threads) ∨ ∃ op src dst, .launch op src dst id ∈ s.handlers

theorem Machine.in_range_with_job (j : Job) {m : Machine} (hm : m.InRange) :
    (m.with_job j).InRange := by
  cases m <;> exact hm

theorem Server.in_range_load (s : Server) (id : Nat) {m : Machine} (hm : m.InRange) :
    (s.load id m).InRange := by
  unfold Server.load
  split
  · exact Machine.in_range_with_job _ hm
  · exact hm

theorem Server.Manned.init (t : FileTree Bytes) : (Server.init t).Manned :=
  ⟨.nil, by simp [Server.init], by simp [Server.init, Registry.get]⟩

/-- A handler that is about to start a thread goes on being there when another one
has got further. -/
theorem mem_goes {op : Op} {src dst : PathBuf} {i : Nat} {c c' : Handler}
    (hi : s.handlers[i]? = some c) (hc : ∀ op src dst, c ≠ .launch op src dst id)
    (hmem : Handler.launch op src dst id ∈ s.handlers) :
    Handler.launch op src dst id ∈ (s.goes i c').handlers := by
  rcases mem_set_of_mem hi hmem with he | h
  · exact absurd he.symm (hc op src dst)
  · exact h

/-- Where the registry and the threads are as they were. -/
theorem Server.Manned.goes (hK : s.Manned) {i : Nat} {c c' : Handler} (hi : s.handlers[i]? = some c)
    (hc : ∀ op src dst id, c ≠ .launch op src dst id) : (s.goes i c').Manned := by
  refine ⟨hK.keys, hK.in_range, fun id j hj => ?_⟩
  rcases hK.manned id j hj with hth | ⟨op, src, dst, hmem⟩
  · exact .inl hth
  · exact .inr ⟨op, src, dst, mem_goes hi (fun op src dst => hc op src dst id) hmem⟩

theorem Server.Manned.enter (hK : s.Manned) (c : Handler) : (s.enter c).Manned := by
  refine ⟨hK.keys, hK.in_range, fun id j hj => ?_⟩
  rcases hK.manned id j hj with hth | ⟨op, src, dst, hmem⟩
  · exact .inl hth
  · exact .inr ⟨op, src, dst, List.mem_append_left _ hmem⟩

theorem Server.Manned.step (hI : s.Inv) (hK : s.Manned) {a : Act} (hs : s.step k h a = some s') :
    s'.Manned := by
  cases Server.step_cases hs with
  | requested op src dst strategy final_dst hop hr => exact hK.enter _
  | deleted src hx => exact hK.enter _
  | rename_checked src name dst hr => exact hK.enter _
  -- a new number concerns no record and no thread
  | numbered i found f op src dst hi =>
      have hK' : ({ s with next_id := s.next_id + 1 } : Server).Manned :=
        ⟨hK.keys, hK.in_range, hK.manned⟩
      exact hK'.goes hi (by simp)
  | registered i found f op src dst id hi hno =>
      refine ⟨Registry.keys_insert hK.keys, hK.in_range, fun id' j hj => ?_⟩
      obtain ⟨-, hfree⟩ := hI.register i _ _ _ _ hi
      replace hj : (s.jobs.insert id _).get id' = some j := hj
      rw [Registry.get_insert hfree] at hj
      split at hj
      · -- the record that has gone in
        rename_i hid
        subst hid
        exact .inr ⟨op, src, dst, mem_set_self hi⟩
      · rcases hK.manned id' j hj with hth | ⟨op', src', dst', hmem⟩
        · exact .inl hth
        · exact .inr ⟨op', src', dst', mem_goes hi (by simp) hmem⟩
  | deduped i f op src dst id eid j hi hj hd => exact hK.goes hi (by simp)
  | launched i found f op src dst id hi =>
      refine ⟨hK.keys, ?_, fun id' j hj => ?_⟩
      · intro x hx
        rcases List.mem_append.mp hx with hx | hx
        · exact hK.in_range x hx
        · obtain rfl := List.mem_singleton.mp hx
          dsimp only [Server.thread]
          split <;> trivial
      · rcases hK.manned id' j hj with ⟨m, hm⟩ | ⟨op', src', dst', hmem⟩
        · exact .inl ⟨m, List.mem_append_left _ hm⟩
        · rcases mem_set_of_mem hi hmem with he | hmem'
          · -- its thread is the one that has been started
            cases he
            exact .inl ⟨_, List.mem_append_right _ (List.mem_singleton.mpr rfl)⟩
          · exact .inr ⟨op', src', dst', hmem'⟩
  | renamed i found f src dst t hi hr =>
      have hK' : ({ s with tree := t } : Server).Manned := ⟨hK.keys, hK.in_range, hK.manned⟩
      exact hK'.goes hi (by simp)
  | unrenamed i found f src dst e hi => exact hK.goes hi (by simp)
  | worked i e id m x hi hx =>
      have hrange := hK.in_range (id, m) (List.mem_of_getElem? hi)
      refine ⟨?_, ?_, fun id' j hj => ?_⟩
      · dsimp only
        rw [Registry.keys_job_update]
        exact hK.keys
      · exact all_set (P := fun y : Nat × Machine => y.2.InRange) hK.in_range
          (Machine.step_in_range hx (s.in_range_load id hrange))
      -- the call changes the record of its own job only, and the thread goes on being there
      -- for it
      · have hthere : ∃ j', s.jobs.get id' = some j' := by
          dsimp only at hj
          rw [Registry.get_job_update] at hj
          split at hj
          · rename_i hid
            obtain ⟨j', hj', -⟩ := Option.map_eq_some_iff.mp hj
            exact ⟨j', hid ▸ hj'⟩
          · exact ⟨j, hj⟩
        obtain ⟨j', hj'⟩ := hthere
        rcases hK.manned id' j' hj' with ⟨m', hm'⟩ | hl
        · rcases mem_set_of_mem hi hm' with he | hmem
          · cases he
            exact .inl ⟨x.2, mem_set_self hi⟩
          · exact .inl ⟨m', hmem⟩
        · exact .inr hl

namespace Server

/-- Every handler has answered. -/
def Answered (s : Server) : Prop := ∀ c ∈ s.handlers, ∃ r, c = .replied r

/-- Every handler has answered and every job says how it has ended, but for those
that walk without an end. -/
def Settled (k : Kernel) (s : Server) : Prop :=
  s.Answered ∧ ∀ id j, s.jobs.get id = some j →
    j.status = .done ∨ j.status = .error ∨ ∃ m, (id, m) ∈ s.threads ∧ m.Endless k s.tree

/-- Every handler has answered and every job says how it has ended. -/
def Done (s : Server) : Prop :=
  s.Answered ∧ ∀ id j, s.jobs.get id = some j → j.status = .done ∨ j.status = .error

end Server

/-- A handler that has not answered can make its call. -/
theorem Server.handler_goes_on (hK : s.Manned) {i : Nat} {c : Handler}
    (hi : s.handlers[i]? = some c) (hc : ∀ r, c ≠ .replied r) :
    ∃ a s', Act.Clean a ∧ s.step k h a = some s' := by
  have hcall : ∀ found, (Server.handle k h s i found .none c).isSome = true →
      ∃ a s', Act.Clean a ∧ s.step k h a = some s' := by
    intro found hsome
    obtain ⟨s', hs'⟩ := Option.isSome_iff_exists.mp hsome
    refine ⟨.handler i found .none, s', rfl, ?_⟩
    simpa only [Server.step, hi] using hs'
  cases c with
  | number op src dst => exact hcall none rfl
  | launch op src dst id => exact hcall none rfl
  | replied r => exact absurd rfl (hc r)
  | rename src dst =>
      apply hcall none
      simp only [Server.handle]
      split <;> rfl
  | register op src dst id =>
      by_cases hop : op = .delete
      · apply hcall none
        simp only [Server.handle, hop, if_true, Option.isSome_some]
      · by_cases hd : s.jobs.any fun x => duplicates op src.text dst.text x.2
        · -- the look meets one of the jobs that do the work
          obtain ⟨⟨eid, j⟩, hmem, hdup⟩ := List.any_eq_true.mp hd
          have hget := Registry.get_of_mem hK.keys hmem
          apply hcall (some eid)
          simp only [Server.handle, hop, if_false, hget, hdup, if_true, Option.isSome_some]
        · apply hcall none
          simp only [Server.handle, hop, if_false, hd, Bool.false_eq_true, Option.isSome_some]

theorem Machine.done_of_ended {m : Machine} (hf : m.HasStatus j) (he : m.Ended) :
    j.status = .done ∨ j.status = .error := by
  cases m with
  | run r =>
      simp only [Machine.HasStatus, show r.phase = .finished from he] at hf
      exact hf
  | erase d =>
      simp only [Machine.HasStatus, show d.phase = .finished from he] at hf
      exact hf

theorem Server.ended_load {m : Machine} (he : (s.load id m).Ended) : m.Ended := by
  unfold Server.load at he
  split at he
  · cases m <;> exact he
  · exact he

theorem Server.endless_load {m : Machine} (he : (s.load id m).Endless k s.tree) :
    m.Endless k s.tree := by
  unfold Server.load at he
  split at he
  · cases m <;> exact he
  · exact he

/-- **The mover is settled, or some call of some party is possible.** -/
theorem Server.goes_on (h : Host) (hI : s.Inv) (hK : s.Manned) :
    s.Settled k ∨ ∃ a s', Act.Clean a ∧ s.step k h a = some s' := by
  -- first the handlers; when they have all answered, the threads
  by_cases hans : s.Answered
  · by_cases hstill : ∀ x ∈ s.threads, x.2.Ended ∨ x.2.Endless k s.tree
    · refine .inl ⟨hans, fun id j hj => ?_⟩
      rcases hK.manned id j hj with ⟨m, hm⟩ | ⟨op, src, dst, hmem⟩
      · rcases hstill _ hm with hended | hless
        · obtain ⟨i, hi⟩ := List.mem_iff_getElem?.mp hm
          obtain ⟨j', hj', hfit⟩ := hI.thread i id m hi
          rw [hj] at hj'
          cases hj'
          exact (Machine.done_of_ended hfit hended).imp_right .inl
        · exact .inr (.inr ⟨m, hm, hless⟩)
      -- a record without a thread has a handler that is about to start one, but they have all
      -- answered
      · obtain ⟨r, hr⟩ := hans _ hmem
        cases hr
    · simp only [not_forall, not_or] at hstill
      obtain ⟨⟨id, m⟩, hm, hended, hless⟩ := hstill
      obtain ⟨i, hi⟩ := List.mem_iff_getElem?.mp hm
      rcases Machine.goes_on (k := k) (t := s.tree) (s.in_range_load id (hK.in_range _ hm)) with
        he | he | ⟨e, hclean, he⟩
      · exact absurd (Server.ended_load he) hended
      · exact absurd (Server.endless_load he) hless
      · have hsome : (s.step k h (.thread i e)).isSome = true := by
          simpa only [Server.step, hi, Option.isSome_map] using he
        obtain ⟨s', hs'⟩ := Option.isSome_iff_exists.mp hsome
        exact .inr ⟨.thread i e, s', hclean, hs'⟩
  · simp only [Server.Answered, not_forall, not_exists] at hans
    obtain ⟨c, hmem, hc⟩ := hans
    obtain ⟨i, hi⟩ := List.mem_iff_getElem?.mp hmem
    exact .inr (Server.handler_goes_on hK hi hc)

end

/-! ## Every job comes to an end -/

/-- **Once no more requests come in, the mover comes to rest.** Take any state it can
get into. Whatever faults are let through (`C` lets through the calls in which nothing
fails and no requests), every run from there gets to a state in which every handler
has answered and every job is done or has failed, but for jobs that walk a tree in
which a link leads back up. Where there were no links to begin with, there is no such
job. -/
theorem jobs_end (k : Kernel) (h : Host) (t : FileTree Bytes) (s : Server)
    (hs : Reach (Server.step k h) Any (.init t) s) (C : Server → Act → Prop)
    (hclean : ∀ s a, a.Clean → C s a) (hwork : ∀ s a, C s a → a.Working) :
    Ends (Server.step k h) C (Server.Settled k) s ∧
      ((∀ x ∈ t.dom, t.linkAt x = none) → Ends (Server.step k h) C Server.Done s) := by
  have hwf : WellFounded (CutExpand (Prod.Lex (· < · : Nat → Nat → Prop) (· < ·))) :=
    (Prod.lex Nat.lt_wfRel Nat.lt_wfRel).wf.cutExpand
  let I : Server → Prop := fun s => s.Inv ∧ s.Manned ∧ Inherits t s.tree
  have hkeep : ∀ s a s', I s → s.step k h a = some s' → I s' := by
    intro s a s' hI hstep
    refine ⟨(hI.1.step hstep).1, hI.2.1.step hI.1 hstep, fun x p hx => ?_⟩
    obtain ⟨y, hy⟩ := Server.step_inherits hstep x p hx
    exact hI.2.2 y p hy
  have hkept : I s := hs.inv ⟨.init t, .init t, .refl t⟩ fun s a s' hI _ => hkeep s a s' hI
  -- where the mover is settled it is where it should be
  have hends : ∀ F : Server → Prop, (∀ s, I s → s.Settled k → F s) →
      Ends (Server.step k h) C F s := by
    intro F hF
    refine ends_of_measure hwf Server.left (fun s a s' hI _ => hkeep s a s' hI) ?_ ?_ hkept
    · intro s hI
      rcases Server.goes_on (k := k) h hI.1 hI.2.1 with hset | ⟨a, s', ha, hs'⟩
      · exact .inl (hF s hI hset)
      · exact .inr ⟨a, s', hclean s a ha, hs'⟩
    · exact fun s a s' _ ha hstep => Server.left_less hstep (hwork s a ha)
  refine ⟨hends _ fun _ _ hset => hset, fun hlinks => hends _ fun s hI hset => ?_⟩
  refine ⟨hset.1, fun id j hj => ?_⟩
  rcases hset.2 id j hj with hd | he | ⟨m, -, hless⟩
  · exact .inl hd
  · exact .inr he
  · exact absurd hless (m.not_endless (hI.2.2.no_links hlinks))

/-- Two moves of one directory and a deletion are asked for; with whatever fails, all
that was accepted comes to an end. -/
theorem jobs_end_two : ∃ s, Reach (Server.step box box_host) Any (.init tree_e) s ∧
    s.handlers.length = 3 ∧ s.threads.length = 1 ∧
      Ends (Server.step box box_host) (fun _ a => a.Working) Server.Done s := by
  have hrun : (exec (Server.step box box_host) (.init tree_e)
      [.request .move (.abs ["a"]) (.abs ["b"]) .none,
        .request .move (.abs ["a"]) (.abs ["c"]) .none, .delete (.abs ["a", "f"]),
        .handler 0 none .none, .handler 1 none .none, .handler 0 none .none,
        .handler 0 none .none]).map (fun s => (s.handlers.length, s.threads.length))
      = some (3, 1) := by decide
  obtain ⟨s, hs, hout⟩ := Option.map_eq_some_iff.mp hrun
  simp only [Prod.mk.injEq] at hout
  have hreach := reach_of_exec hs
  exact ⟨s, hreach, hout.1, hout.2, (jobs_end box box_host tree_e s hreach _
    (fun _ _ ha => ha.working) fun _ _ ha => ha).2 (by decide)⟩

end WebDavs.Mover
