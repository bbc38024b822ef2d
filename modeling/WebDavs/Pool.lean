/-
Workers that share a list of items.

A counter hands the items out in order; each goes to one worker, which deals with
it and then comes back for another, until the list is used up and the workers
stop. What is known of an item depends on where it is in this: not handed out
yet, with a worker, or dealt with. `Terms` says what that is, and `Books` that it
is so for every item.

`Ledger` says how often each item has been written down, which is what the
counters of a pool come from.

Nothing here is about what the workers do. A call that one of them makes may
change the terms; it then has to say what becomes of its own item, and that the
others are no worse off.
-/
import Mathlib.Algebra.GroupWithZero.Nat
import Mathlib.Data.List.Basic
import Mathlib.Data.List.Perm.Subperm
import Mathlib.Data.List.Nodup
import Mathlib.Data.List.NodupEquivFin

set_option autoImplicit false

namespace WebDavs.Pool

variable {ω β : Type}

/-- What is known of an item: while it is waiting, while a worker has it, once it
has been dealt with, and at all times. -/
structure Terms (ω β : Type) where
  waiting : β → Prop
  held : ω → β → Prop
  settled : β → Prop
  always : β → Prop

/-- Under the terms `T'` as much is known of `f` as under `T`. -/
structure Terms.Keeps (T T' : Terms ω β) (f : β) : Prop where
  waiting : T.waiting f → T'.waiting f
  held : ∀ w, T.held w f → T'.held w f
  settled : T.settled f → T'.settled f
  always : T.always f → T'.always f

theorem Terms.Keeps.refl (T : Terms ω β) (f : β) : T.Keeps T f :=
  ⟨id, fun _ => id, id, id⟩

/-- The books of a pool: `ws` is what its workers are at, `next` the number of
items handed out, `failed` the number that could not be dealt with. -/
structure Books (task : ω → Option Nat) (stopped : ω) (T : Terms ω β) (items : List β)
    (ws : List ω) (next failed : Nat) : Prop where
  crew : ws ≠ []
  done : stopped ∈ ws → items.length ≤ next
  held : ∀ (i : Nat) (w : ω) (n : Nat), ws[i]? = some w → task w = some n →
    n < next ∧ ∃ f, items[n]? = some f ∧ T.held w f
  apart : ∀ (i j : Nat) (w w' : ω) (n : Nat), ws[i]? = some w → ws[j]? = some w' →
    task w = some n → task w' = some n → i = j
  waiting : ∀ n f, next ≤ n → items[n]? = some f → T.waiting f
  past : ∀ n f, n < next → items[n]? = some f →
    (∃ (i : Nat) (w : ω), ws[i]? = some w ∧ task w = some n) ∨ 0 < failed ∨ T.settled f
  always : ∀ f ∈ items, T.always f

/-! ## One worker's place in the list -/

section

variable {task : ω → Option Nat} {stopped : ω} {T T' : Terms ω β} {items : List β}
variable {ws : List ω} {next failed i n : Nat} {w w' : ω} {f : β}

theorem set_of_ne {j : Nat} (hij : j ≠ i) : (ws.set i w')[j]? = ws[j]? :=
  List.getElem?_set_ne (Ne.symm hij)

theorem set_self (hw : ws[i]? = some w) : (ws.set i w')[i]? = some w' :=
  List.getElem?_set_self (List.getElem?_eq_some_iff.mp hw).1

theorem crew_set (h : ws ≠ []) : ws.set i w' ≠ [] := by
  intro hnil
  have hlen : (ws.set i w').length = ws.length := List.length_set
  rw [hnil, List.length_nil] at hlen
  exact h (List.eq_nil_of_length_eq_zero hlen.symm)

/-- A worker without a task has none of the tasks there are. -/
theorem task_elsewhere (hw : ws[i]? = some w) (hnone : task w' = none) {j : Nat} {v : ω}
    {m : Nat} (hv : (ws.set i w')[j]? = some v) (hm : task v = some m) :
    j ≠ i ∧ ws[j]? = some v := by
  by_cases hij : j = i
  · subst hij
    rw [set_self hw] at hv
    cases hv
    rw [hnone] at hm
    cases hm
  · rw [set_of_ne hij] at hv
    exact ⟨hij, hv⟩

/-- What the workers weigh together, after one of them has moved. -/
theorem sum_set {M : Type} [Add M] [Zero M] [Std.Associative (α := M) (· + ·)]
    [Std.Commutative (α := M) (· + ·)] (g : ω → M) (v : ω) (hw : ws[i]? = some w) :
    ((ws.set i v).map g).sum + g w = (ws.map g).sum + g v := by
  induction ws generalizing i with
  | nil => cases hw
  | cons u ws ih =>
      cases i with
      | zero =>
          cases hw
          simp only [List.set_cons_zero, List.map_cons, List.sum_cons]
          ac_rfl
      | succ i =>
          have hassoc : ∀ a b c : M, a + b + c = a + (b + c) := Std.Associative.assoc
          simp only [List.set_cons_succ, List.map_cons, List.sum_cons]
          rw [hassoc, hassoc, ih (i := i) hw]

/-! ## The calls of a worker -/

theorem Books.start {c : Nat} {idle : ω} (hc : 0 < c) (hidle : task idle = none)
    (hne : idle ≠ stopped) (hw : ∀ f ∈ items, T.waiting f) (ha : ∀ f ∈ items, T.always f) :
    Books task stopped T items (List.replicate c idle) 0 0 where
  crew := by
    intro h
    have hlen := congrArg List.length h
    rw [List.length_replicate, List.length_nil] at hlen
    omega
  done := by
    intro h
    exact absurd (List.eq_of_mem_replicate h).symm hne
  held := by
    intro i w n hi hn
    rw [List.eq_of_mem_replicate (List.mem_of_getElem? hi), hidle] at hn
    cases hn
  apart := by
    intro i j w w' n hi _ hn
    rw [List.eq_of_mem_replicate (List.mem_of_getElem? hi), hidle] at hn
    cases hn
  waiting := fun n f _ hf => hw f (List.mem_of_getElem? hf)
  past := by
    intro n f hn
    omega
  always := ha

/-- A call of a worker that goes on having its item. It may count a failure. -/
theorem Books.hold {failed' : Nat} (hB : Books task stopped T items ws next failed)
    (hw : ws[i]? = some w) (hn : task w = some n) (hf : items[n]? = some f)
    (hn' : task w' = some n) (hstop : task stopped = none) (hle : failed ≤ failed')
    (hheld : T'.held w' f) (hall : T'.always f)
    (hrest : ∀ m g, m ≠ n → items[m]? = some g → T.Keeps T' g) :
    Books task stopped T' items (ws.set i w') next failed' where
  crew := crew_set hB.crew
  done := by
    intro h
    rcases List.mem_or_eq_of_mem_set h with h | h
    · exact hB.done h
    · rw [← h, hstop] at hn'
      cases hn'
  held := by
    intro j v m hv hm
    by_cases hij : j = i
    · subst hij
      rw [set_self hw] at hv
      cases hv
      rw [hn'] at hm
      cases hm
      exact ⟨(hB.held j w n hw hn).1, f, hf, hheld⟩
    · rw [set_of_ne hij] at hv
      obtain ⟨hlt, g, hg, hhg⟩ := hB.held j v m hv hm
      have hmn : m ≠ n := by
        rintro rfl
        exact hij (hB.apart j i v w m hv hw hm hn)
      exact ⟨hlt, g, hg, (hrest m g hmn hg).held v hhg⟩
  apart := by
    intro j j' v v' m hv hv' hm hm'
    -- the worker that moved has the task it had
    have hold : ∀ {j : Nat} {v : ω}, (ws.set i w')[j]? = some v → task v = some m →
        ∃ v₀, ws[j]? = some v₀ ∧ task v₀ = some m := by
      intro j v hv hm
      by_cases hij : j = i
      · subst hij
        rw [set_self hw] at hv
        cases hv
        rw [hn'] at hm
        cases hm
        exact ⟨w, hw, hn⟩
      · rw [set_of_ne hij] at hv
        exact ⟨v, hv, hm⟩
    obtain ⟨v₀, hv₀, hm₀⟩ := hold hv hm
    obtain ⟨v₁, hv₁, hm₁⟩ := hold hv' hm'
    exact hB.apart j j' v₀ v₁ m hv₀ hv₁ hm₀ hm₁
  waiting := by
    intro m g hm hg
    have hlt := (hB.held i w n hw hn).1
    exact (hrest m g (by omega) hg).waiting (hB.waiting m g hm hg)
  past := by
    intro m g hm hg
    by_cases hmn : m = n
    · exact .inl ⟨i, w', set_self hw, hmn ▸ hn'⟩
    · rcases hB.past m g hm hg with ⟨j, v, hv, hvm⟩ | h | h
      · have hij : j ≠ i := by
          rintro rfl
          rw [hw] at hv
          cases hv
          rw [hn] at hvm
          exact hmn (Option.some.inj hvm).symm
        exact .inl ⟨j, v, by rw [set_of_ne hij]; exact hv, hvm⟩
      · exact .inr (.inl (Nat.lt_of_lt_of_le h hle))
      · exact .inr (.inr ((hrest m g hmn hg).settled h))
  always := by
    intro g hg
    obtain ⟨m, hm⟩ := List.mem_iff_getElem?.mp hg
    by_cases hmn : m = n
    · rw [hmn, hf] at hm
      exact Option.some.inj hm ▸ hall
    · exact (hrest m g hmn hm).always (hB.always g hg)

/-- A worker finds the list used up. -/
theorem Books.drained (hB : Books task stopped T items ws next failed) (hw : ws[i]? = some w)
    (hidle : task w = none) (hstop : task stopped = none) (hnone : items[next]? = none) :
    Books task stopped T items (ws.set i stopped) (next + 1) failed where
  crew := crew_set hB.crew
  done := fun _ => Nat.le_succ_of_le (List.getElem?_eq_none_iff.mp hnone)
  held := by
    intro j v m hv hm
    obtain ⟨hlt, h⟩ := hB.held j v m (task_elsewhere hw hstop hv hm).2 hm
    exact ⟨Nat.lt_succ_of_lt hlt, h⟩
  apart := fun j j' v v' m hv hv' hm hm' => hB.apart j j' v v' m
    (task_elsewhere hw hstop hv hm).2 (task_elsewhere hw hstop hv' hm').2 hm hm'
  waiting := fun n f hn hf => hB.waiting n f (Nat.le_of_succ_le hn) hf
  past := by
    intro n f hn hf
    by_cases hlt : n < next
    · rcases hB.past n f hlt hf with ⟨j, v, hv, hvn⟩ | h | h
      · have hij : j ≠ i := by
          rintro rfl
          rw [hw] at hv
          cases hv
          rw [hidle] at hvn
          cases hvn
        exact .inl ⟨j, v, by rw [set_of_ne hij]; exact hv, hvn⟩
      · exact .inr (.inl h)
      · exact .inr (.inr h)
    · obtain rfl : n = next := by omega
      rw [hnone] at hf
      cases hf
  always := hB.always

/-- A worker takes the next item. -/
theorem Books.taken (hB : Books task stopped T items ws next failed) (hw : ws[i]? = some w)
    (hidle : task w = none) (hf : items[next]? = some f) (hn : task w' = some next)
    (hstop : task stopped = none) (hheld : T.waiting f → T.held w' f) :
    Books task stopped T items (ws.set i w') (next + 1) failed where
  crew := crew_set hB.crew
  done := by
    intro h
    rcases List.mem_or_eq_of_mem_set h with h | h
    · exact Nat.le_succ_of_le (hB.done h)
    · rw [← h, hstop] at hn
      cases hn
  held := by
    intro j v m hv hm
    by_cases hij : j = i
    · subst hij
      rw [set_self hw] at hv
      cases hv
      rw [hn] at hm
      cases hm
      exact ⟨Nat.lt_succ_self _, f, hf, hheld (hB.waiting next f (Nat.le_refl _) hf)⟩
    · rw [set_of_ne hij] at hv
      obtain ⟨hlt, h⟩ := hB.held j v m hv hm
      exact ⟨Nat.lt_succ_of_lt hlt, h⟩
  apart := by
    intro j j' v v' m hv hv' hm hm'
    -- the tasks handed out before are all below the new one
    have hcase : ∀ {j : Nat} {v : ω}, (ws.set i w')[j]? = some v → task v = some m →
        (j = i ∧ m = next) ∨ (j ≠ i ∧ ws[j]? = some v ∧ m < next) := by
      intro j v hv hm
      by_cases hij : j = i
      · subst hij
        rw [set_self hw] at hv
        cases hv
        rw [hn] at hm
        exact .inl ⟨rfl, (Option.some.inj hm).symm⟩
      · rw [set_of_ne hij] at hv
        exact .inr ⟨hij, hv, (hB.held j v m hv hm).1⟩
    rcases hcase hv hm with ⟨rfl, h₁⟩ | ⟨-, hv₀, h₁⟩
    · rcases hcase hv' hm' with ⟨rfl, -⟩ | ⟨-, -, h₂⟩
      · rfl
      · omega
    · rcases hcase hv' hm' with ⟨rfl, h₂⟩ | ⟨-, hv₁, -⟩
      · omega
      · exact hB.apart j j' v v' m hv₀ hv₁ hm hm'
  waiting := fun n f hn hf => hB.waiting n f (Nat.le_of_succ_le hn) hf
  past := by
    intro m g hm hg
    by_cases hlt : m < next
    · rcases hB.past m g hlt hg with ⟨j, v, hv, hvm⟩ | h | h
      · have hij : j ≠ i := by
          rintro rfl
          rw [hw] at hv
          cases hv
          rw [hidle] at hvm
          cases hvm
        exact .inl ⟨j, v, by rw [set_of_ne hij]; exact hv, hvm⟩
      · exact .inr (.inl h)
      · exact .inr (.inr h)
    · exact .inl ⟨i, w', set_self hw, by rw [hn]; congr 1; omega⟩
  always := hB.always

/-- A worker has done with its item: it is settled, or counted as failed. -/
theorem Books.reported {failed' : Nat} (hB : Books task stopped T items ws next failed)
    (hw : ws[i]? = some w) (hn : task w = some n) (hidle : task w' = none)
    (hne : w' ≠ stopped) (hle : failed ≤ failed')
    (hover : ∀ f, items[n]? = some f → T.held w f → 0 < failed' ∨ T.settled f) :
    Books task stopped T items (ws.set i w') next failed' where
  crew := crew_set hB.crew
  done := by
    intro h
    rcases List.mem_or_eq_of_mem_set h with h | h
    · exact hB.done h
    · exact absurd h.symm hne
  held := fun j v m hv hm => hB.held j v m (task_elsewhere hw hidle hv hm).2 hm
  apart := fun j j' v v' m hv hv' hm hm' => hB.apart j j' v v' m
    (task_elsewhere hw hidle hv hm).2 (task_elsewhere hw hidle hv' hm').2 hm hm'
  waiting := hB.waiting
  past := by
    intro m g hm hg
    rcases hB.past m g hm hg with ⟨j, v, hv, hvm⟩ | h | h
    · by_cases hij : j = i
      · subst hij
        rw [hw] at hv
        cases hv
        rw [hn] at hvm
        cases hvm
        obtain ⟨-, g', hg', hheld⟩ := hB.held j w n hw hn
        rw [hg] at hg'
        cases hg'
        exact .inr (hover g hg hheld)
      · exact .inl ⟨j, v, by rw [set_of_ne hij]; exact hv, hvm⟩
    · exact .inr (.inl (by omega))
    · exact .inr (.inr h)
  always := hB.always

/-- When every worker has stopped and nothing has failed, every item is
settled. -/
theorem Books.over (hB : Books task stopped T items ws next 0) (hstop : task stopped = none)
    (hall : ∀ w ∈ ws, w = stopped) (hf : f ∈ items) : T.settled f := by
  obtain ⟨w, ws', hws⟩ := List.exists_cons_of_ne_nil hB.crew
  have hmem : stopped ∈ ws := by
    have hw : w ∈ ws := by rw [hws]; exact List.mem_cons_self
    exact hall w hw ▸ hw
  obtain ⟨n, hn⟩ := List.mem_iff_getElem?.mp hf
  have hlt := (List.getElem?_eq_some_iff.mp hn).1
  rcases hB.past n f (Nat.lt_of_lt_of_le hlt (hB.done hmem)) hn with ⟨j, v, hv, hvn⟩ | h | h
  · rw [hall v (List.mem_of_getElem? hv), hstop] at hvn
    cases hvn
  · omega
  · exact h

end

/-! ## What is written down of the items -/

/-- One for the item `m`, if that is the one. -/
def one (m : Nat) (o : Option Nat) : Nat := if o = some m then 1 else 0

@[simp] theorem one_none (m : Nat) : one m none = 0 := rfl

theorem one_some (m n : Nat) : one m (some n) = if n = m then 1 else 0 := by
  simp [one]

/-- Every item handed out is with one worker that is still to write it down, or
written down once; `n` is the number of items. -/
structure Ledger (due : ω → Option Nat) (stopped : ω) (n : Nat) (ws : List ω) (next : Nat)
    (written : List Nat) : Prop where
  crew : ws ≠ []
  done : stopped ∈ ws → n ≤ next
  once : ∀ m, (ws.map fun w => one m (due w)).sum + written.count m =
    if m < min next n then 1 else 0

section

variable {due : ω → Option Nat} {stopped : ω} {ws : List ω} {next n i m : Nat} {w w' : ω}
variable {written : List Nat}

theorem Ledger.start {c : Nat} {idle : ω} (hc : 0 < c) (hidle : due idle = none)
    (hne : idle ≠ stopped) : Ledger due stopped n (List.replicate c idle) 0 [] where
  crew := by
    intro h
    have hlen := congrArg List.length h
    rw [List.length_replicate, List.length_nil] at hlen
    omega
  done := by
    intro h
    exact absurd (List.eq_of_mem_replicate h).symm hne
  once := by
    intro m
    simp [hidle]

/-- The worker goes on, and writes nothing down. -/
theorem Ledger.keep (h : Ledger due stopped n ws next written) (hw : ws[i]? = some w)
    (hdue : due w' = due w) (hne : w' ≠ stopped) :
    Ledger due stopped n (ws.set i w') next written where
  crew := crew_set h.crew
  done := by
    intro hs
    rcases List.mem_or_eq_of_mem_set hs with hs | hs
    · exact h.done hs
    · exact absurd hs.symm hne
  once := by
    intro m
    have hsum := sum_set (fun v => one m (due v)) w' hw
    have := h.once m
    rw [hdue] at hsum
    omega

/-- The worker takes the next item. -/
theorem Ledger.take (h : Ledger due stopped n ws next written) (hw : ws[i]? = some w)
    (hidle : due w = none) (hdue : due w' = some next) (hlt : next < n) (hne : w' ≠ stopped) :
    Ledger due stopped n (ws.set i w') (next + 1) written where
  crew := crew_set h.crew
  done := by
    intro hs
    rcases List.mem_or_eq_of_mem_set hs with hs | hs
    · exact Nat.le_succ_of_le (h.done hs)
    · exact absurd hs.symm hne
  once := by
    intro m
    have hsum := sum_set (fun v => one m (due v)) w' hw
    have := h.once m
    simp only [hidle, hdue, one_none, one_some] at hsum
    by_cases hm : next = m
    · rw [if_pos hm] at hsum
      rw [if_neg (by omega)] at this
      rw [if_pos (by omega)]
      omega
    · rw [if_neg hm] at hsum
      by_cases hlt' : m < min next n
      · rw [if_pos hlt'] at this
        rw [if_pos (by omega)]
        omega
      · rw [if_neg hlt'] at this
        rw [if_neg (by omega)]
        omega

/-- The worker writes its item down. -/
theorem Ledger.write (h : Ledger due stopped n ws next written) (hw : ws[i]? = some w)
    (hdue : due w = some m) (hfree : due w' = none) (hne : w' ≠ stopped) :
    Ledger due stopped n (ws.set i w') next (written ++ [m]) where
  crew := crew_set h.crew
  done := by
    intro hs
    rcases List.mem_or_eq_of_mem_set hs with hs | hs
    · exact h.done hs
    · exact absurd hs.symm hne
  once := by
    intro x
    have hsum := sum_set (fun v => one x (due v)) w' hw
    have := h.once x
    simp only [hfree, hdue, one_none, one_some] at hsum
    rw [List.count_append, List.count_singleton]
    by_cases hm : m = x
    · rw [if_pos hm] at hsum
      simp only [hm, beq_self_eq_true, if_true]
      omega
    · rw [if_neg hm] at hsum
      simp only [beq_iff_eq, hm, if_false]
      omega

/-- The worker finds the list used up. -/
theorem Ledger.drain (h : Ledger due stopped n ws next written) (hw : ws[i]? = some w)
    (hidle : due w = none) (hstop : due stopped = none) (hle : n ≤ next) :
    Ledger due stopped n (ws.set i stopped) (next + 1) written where
  crew := crew_set h.crew
  done := fun _ => Nat.le_succ_of_le hle
  once := by
    intro m
    have hsum := sum_set (fun v => one m (due v)) stopped hw
    have := h.once m
    simp only [hidle, hstop, one_none] at hsum
    have hmin : min (next + 1) n = min next n := by omega
    rw [hmin]
    omega

/-- Nothing is written down twice, and nothing that was not handed out. -/
theorem Ledger.nodup (h : Ledger due stopped n ws next written) : written.Nodup := by
  rw [List.nodup_iff_count_le_one]
  intro m
  have := h.once m
  split at this <;> omega

theorem Ledger.lt (h : Ledger due stopped n ws next written) (hm : m ∈ written) :
    m < min next n := by
  by_contra hge
  have := h.once m
  rw [if_neg hge] at this
  have hpos := List.count_pos_iff.mpr hm
  omega

theorem Ledger.length_le (h : Ledger due stopped n ws next written) : written.length ≤ n := by
  have hsub : written ⊆ List.range n := by
    intro m hm
    have := h.lt hm
    exact List.mem_range.mpr (by omega)
  have := (List.subperm_of_subset h.nodup hsub).length_le
  rwa [List.length_range] at this

/-- When every worker has stopped, everything is written down. -/
theorem Ledger.over (h : Ledger due stopped n ws next written) (hstop : due stopped = none)
    (hall : ∀ w ∈ ws, w = stopped) : n ≤ next ∧ written.Perm (List.range n) := by
  obtain ⟨w, ws', hws⟩ := List.exists_cons_of_ne_nil h.crew
  have hmem : stopped ∈ ws := by
    have hw : w ∈ ws := by rw [hws]; exact List.mem_cons_self
    exact hall w hw ▸ hw
  have hle := h.done hmem
  refine ⟨hle, List.perm_iff_count.mpr fun m => ?_⟩
  have hzero : (ws.map fun w => one m (due w)).sum = 0 := by
    rw [List.sum_eq_zero_iff_forall_eq_nat]
    intro b hb
    obtain ⟨v, hv, rfl⟩ := List.mem_map.mp hb
    rw [hall v hv, hstop, one_none]
  have := h.once m
  rw [hzero, Nat.min_eq_right hle] at this
  rw [List.count_range]
  omega

end

end WebDavs.Pool
