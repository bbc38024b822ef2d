/-
Parties that share a store.

A party is a step on the store and on a state of its own. A crowd is a store and
a list of parties: it takes one step of one of them at a time, in any order, and
parties may join it on the way. `Separable` collects what lets a crowd be taken
apart again: every party has a key, and the steps of a party whose key is apart
from another's leave the other one's share of the store as it is. Then each party
of a crowd is where it can get to alone (`Separable.isolated`).

Nothing here says what the store is, or what a share of it is; `Tied` ties the
store of the crowd to the one the party would have to itself.
-/
import Mathlib.Logic.Hydra
import WebDavs.Steps

set_option autoImplicit false

namespace WebDavs.Interleave

open WebDavs.Steps

variable {σ μ ε κ : Type}

/-! ## Crowds -/

/-- A party that has the store to itself. -/
def single (step : σ → μ → ε → Option (σ × μ)) (s : σ × μ) (e : ε) : Option (σ × μ) :=
  step s.1 s.2 e

/-- What happens in a crowd: a party joins, or the party `i` takes a step. -/
inductive Call (μ ε : Type) where
  | join (m : μ)
  | act (i : Nat) (e : ε)

/-- One step of a crowd. -/
def crowd (step : σ → μ → ε → Option (σ × μ)) (s : σ × List μ) :
    Call μ ε → Option (σ × List μ)
  | .join m => some (s.1, s.2 ++ [m])
  | .act i e =>
    match s.2[i]? with
    | some m => (step s.1 m e).map fun x => (x.1, s.2.set i x.2)
    | none => none

/-- What a step of a crowd can come to. -/
theorem crowd_cases {step : σ → μ → ε → Option (σ × μ)} {s s' : σ × List μ} {c : Call μ ε}
    (h : crowd step s c = some s') :
    (∃ m, c = .join m ∧ s' = (s.1, s.2 ++ [m])) ∨
      ∃ i e m u m', c = .act i e ∧ s.2[i]? = some m ∧ step s.1 m e = some (u, m') ∧
        s' = (u, s.2.set i m') := by
  cases c with
  | join m => exact .inl ⟨m, rfl, (Option.some.inj h).symm⟩
  | act i e =>
      simp only [crowd] at h
      split at h
      · rename_i m hm
        obtain ⟨⟨u, m'⟩, hx, rfl⟩ := Option.map_eq_some_iff.mp h
        exact .inr ⟨i, e, m, u, m', rfl, hm, hx, rfl⟩
      · cases h

section Members

variable {l : List μ} {i : Nat} {m x y : μ}

theorem mem_set_self (h : l[i]? = some m) : x ∈ l.set i x :=
  List.mem_of_getElem? (List.getElem?_set_self (List.getElem?_eq_some_iff.mp h).1)

/-- Where one member is replaced, every other one stays. -/
theorem mem_set_of_mem (h : l[i]? = some m) (hy : y ∈ l) : y = m ∨ y ∈ l.set i x := by
  obtain ⟨j, hj⟩ := List.mem_iff_getElem?.mp hy
  by_cases hji : j = i
  · rw [hji, h] at hj
    exact .inl (Option.some.inj hj).symm
  · right
    apply List.mem_of_getElem? (i := j)
    rw [List.getElem?_set_ne fun he => hji he.symm]
    exact hj

/-- What holds of every member, and of the one that takes the place of another. -/
theorem all_set {P : μ → Prop} (h : ∀ y ∈ l, P y) (hx : P x) : ∀ y ∈ l.set i x, P y := by
  intro y hy
  rcases List.mem_or_eq_of_mem_set hy with hy | rfl
  · exact h y hy
  · exact hx

end Members

/-! ## Work left

A list of parties weighs as much as the bag of what each of them weighs. -/

/-- A member is replaced by a lighter one, and others that are lighter join: the bag
gets lighter. -/
theorem cut_set {α : Type} {r : α → α → Prop} {l : List α} {i : Nat} {x y : α} {s : Multiset α}
    (h : l[i]? = some x) (hy : r y x) (hs : ∀ z ∈ s, r z x) (m : Multiset α) :
    Relation.CutExpand r ((l.set i y : Multiset α) + (m + s)) ((l : Multiset α) + m) := by
  obtain ⟨hlt, rfl⟩ := List.getElem?_eq_some_iff.mp h
  -- both lists are one member and the rest
  have hset : (l.set i y : Multiset α) = {y} + (l.eraseIdx i : Multiset α) := by
    rw [Multiset.singleton_add, Multiset.cons_coe, Multiset.coe_eq_coe]
    exact List.set_perm_cons_eraseIdx hlt y
  have hl : (l : Multiset α) = {l[i]} + (l.eraseIdx i : Multiset α) := by
    rw [Multiset.singleton_add, Multiset.cons_coe, Multiset.coe_eq_coe]
    exact (List.getElem_cons_eraseIdx_perm hlt).symm
  refine ⟨{y} + s, l[i], ?_, ?_⟩
  · intro a ha
    rcases Multiset.mem_add.mp ha with ha | ha
    · rwa [Multiset.mem_singleton.mp ha]
    · exact hs a ha
  · rw [hset]
    conv_rhs => rw [hl]
    ac_rfl

/-! ## Taking a crowd apart -/

/-- What makes parties that start on the store `t` independent. The steps of a
party are taken under a condition `C`, which may look at the store. -/
structure Separable (step : σ → μ → ε → Option (σ × μ)) (C : σ × μ → ε → Prop) (t : σ)
    (κ : Type) where
  /-- What a party works on. It does not change. -/
  key : μ → κ
  Apart : κ → κ → Prop
  /-- A party before its first step, on a store that suits it. -/
  Ready : μ → Prop
  /-- The first store serves the party as the second one does. -/
  Tied : σ → σ → μ → Prop
  /-- What a party with this key may do to the store. -/
  Moves : κ → σ → σ → Prop
  symm : ∀ {a b}, Apart a b → Apart b a
  start : ∀ {m}, Ready m → Tied t t m
  own : ∀ {u v u' m m' e}, Tied u v m → C (u, m) e → step u m e = some (u', m') →
    key m' = key m ∧ C (v, m) e ∧ ∃ v', step v m e = some (v', m') ∧ Tied u' v' m'
  moves : ∀ {u v u' m m' e}, Tied u v m → step u m e = some (u', m') → Moves (key m) u u'
  spared : ∀ {u v u' m b}, Apart (key m) b → Moves b u u' → Tied u v m → Tied u' v m

namespace Separable

variable {step : σ → μ → ε → Option (σ × μ)} {C : σ × μ → ε → Prop} {t : σ}
variable (P : Separable step C t κ)

/-- Who joins is ready, and apart from all that are there; who acts meets `C`. -/
def Joins (s : σ × List μ) : Call μ ε → Prop
  | .join m => P.Ready m ∧ ∀ m' ∈ s.2, P.Apart (P.key m) (P.key m')
  | .act i e => ∀ m, s.2[i]? = some m → C (s.1, m) e

/-- Alone, from the start, the party gets to where it is, on a store that the
crowd's serves it as. -/
def Solo (u : σ) (m : μ) : Prop :=
  ∃ m₀ v, P.Ready m₀ ∧ P.key m₀ = P.key m ∧ Reach (single step) C (t, m₀) (v, m) ∧ P.Tied u v m

/-- What holds of a crowd: of its parties, of any two of them, and of whoever may
still join. -/
structure Inv (s : σ × List μ) : Prop where
  solo : ∀ (i : Nat) m, s.2[i]? = some m → P.Solo s.1 m
  apart : ∀ (i j : Nat) m m', i ≠ j → s.2[i]? = some m → s.2[j]? = some m' →
    P.Apart (P.key m) (P.key m')
  later : ∀ m, P.Ready m → (∀ m' ∈ s.2, P.Apart (P.key m) (P.key m')) → P.Tied s.1 t m

variable {P} {s s' : σ × List μ}

theorem Inv.start : P.Inv (t, []) where
  solo := by simp
  apart := by simp
  later := fun _ hr _ => P.start hr

/-- A party joins. -/
theorem Inv.join (hI : P.Inv s) {m : μ} (hr : P.Ready m)
    (ha : ∀ m' ∈ s.2, P.Apart (P.key m) (P.key m')) : P.Inv (s.1, s.2 ++ [m]) := by
  refine ⟨fun i x hx => ?_, fun i j x y hij hx hy => ?_, fun x hx hall => ?_⟩
  · rcases append_cases hx with ⟨-, rfl⟩ | hx'
    · exact ⟨x, t, hr, rfl, .start, hI.later x hr ha⟩
    · exact hI.solo i x hx'
  · rcases append_cases hx with ⟨hi, rfl⟩ | hx'
    · rcases append_cases hy with ⟨hj, -⟩ | hy'
      · exact absurd (hi.trans hj.symm) hij
      · exact ha y (List.mem_of_getElem? hy')
    · rcases append_cases hy with ⟨-, rfl⟩ | hy'
      · exact P.symm (ha x (List.mem_of_getElem? hx'))
      · exact hI.apart i j x y hij hx' hy'
  · exact hI.later x hx fun m' hm' => hall m' (List.mem_append_left _ hm')

/-- A party takes a step: it goes on as it would alone, and the others are
spared. -/
theorem Inv.act (hI : P.Inv s) {i : Nat} {e : ε} {m m' : μ} {u : σ} (hm : s.2[i]? = some m)
    (hc : C (s.1, m) e) (hs : step s.1 m e = some (u, m')) : P.Inv (u, s.2.set i m') := by
  obtain ⟨m₀, v, hready, hkey₀, hreach, htied⟩ := hI.solo i m hm
  have hmoves : P.Moves (P.key m) s.1 u := P.moves htied hs
  obtain ⟨hkey, hcv, v', hv', htied'⟩ := P.own htied hc hs
  refine ⟨fun j x hx => ?_, fun j j' x y hjj hx hy => ?_, fun x hx hall => ?_⟩
  · rcases set_cases hx with ⟨-, rfl⟩ | ⟨hji, hx'⟩
    · exact ⟨m₀, v', hready, hkey₀.trans hkey.symm, hreach.next hcv hv', htied'⟩
    · obtain ⟨x₀, w, hready', hkey', hreach', htied''⟩ := hI.solo j x hx'
      exact ⟨x₀, w, hready', hkey', hreach',
        P.spared (hI.apart j i x m hji hx' hm) hmoves htied''⟩
  · -- the one that has moved has kept its key
    rcases set_cases hx with ⟨hj, rfl⟩ | ⟨hj, hx'⟩
    · rcases set_cases hy with ⟨hj', -⟩ | ⟨hj', hy'⟩
      · exact absurd (hj.trans hj'.symm) hjj
      · rw [hkey]
        exact hI.apart i j' m y (Ne.symm hj') hm hy'
    · rcases set_cases hy with ⟨-, rfl⟩ | ⟨hj', hy'⟩
      · rw [hkey]
        exact hI.apart j i x m hj hx' hm
      · exact hI.apart j j' x y hjj hx' hy'
  · have hxm : P.Apart (P.key x) (P.key m) := hkey ▸ hall m' (mem_set_self hm)
    refine P.spared hxm hmoves (hI.later x hx fun y hy => ?_)
    rcases mem_set_of_mem hm hy with rfl | hy'
    · exact hxm
    · exact hall y hy'

theorem Inv.next (hI : P.Inv s) {c : Call μ ε} (hc : P.Joins s c)
    (hs : crowd step s c = some s') : P.Inv s' := by
  rcases crowd_cases hs with ⟨m, rfl, rfl⟩ | ⟨i, e, m, u, m', rfl, hm, hx, rfl⟩
  · exact hI.join hc.1 hc.2
  · exact hI.act hm (hc m hm) hx

theorem inv_of_reach (h : Reach (crowd step) P.Joins (t, []) s) : P.Inv s :=
  h.inv .start fun _ _ _ hI hc hs => hI.next hc hs

/-- **Each party of a crowd is where it gets to alone**, whatever the others do in
between. -/
theorem isolated (h : Reach (crowd step) P.Joins (t, []) s) {i : Nat} {m : μ}
    (hm : s.2[i]? = some m) : P.Solo s.1 m :=
  (inv_of_reach h).solo i m hm

/-- What no party that has joined can change has not changed. -/
theorem untouched {A : κ → Prop} {K : σ → Prop} (h : Reach (crowd step) P.Joins (t, []) s)
    (hA : ∀ m ∈ s.2, A (P.key m)) (hK : ∀ a u u', A a → P.Moves a u u' → K u → K u')
    (h₀ : K t) : K s.1 := by
  induction h with
  | start => exact h₀
  | @next s₁ s₂ c hr hc hs ih =>
      rcases crowd_cases hs with ⟨m, -, rfl⟩ | ⟨i, e, m, u, m', rfl, hm, hx, rfl⟩
      · exact ih fun y hy => hA y (List.mem_append_left _ hy)
      · obtain ⟨-, v, -, -, -, htied⟩ := isolated hr hm
        obtain ⟨hkey, -⟩ := P.own htied (hc m hm) hx
        have hAm : A (P.key m) := hkey ▸ hA m' (mem_set_self hm)
        refine hK _ _ _ hAm (P.moves htied hx) (ih fun y hy => ?_)
        rcases mem_set_of_mem hm hy with rfl | hy'
        · exact hAm
        · exact hA y hy'

end Separable

end WebDavs.Interleave
