/-
Runs of a step function.

A machine here is a function `step` that, for a state and an event, gives the
next state or refuses the event. `Reach` collects the states some run ends in,
every step of which met a condition on the state it was taken in and on its
event; with the condition always true it is plain reachability. `exec` runs a
list of events and is what a concrete run is written down with.
-/
import Mathlib.Logic.Basic

set_option autoImplicit false

namespace WebDavs.Steps

universe u v

variable {σ : Type u} {ε : Type v} {step : σ → ε → Option σ} {C : σ → ε → Prop} {s₀ : σ}

/-- The condition every step meets. -/
def Any (_ : σ) (_ : ε) : Prop := True

/-- `s` is the end of a run from `s₀` whose steps all met `C`. -/
inductive Reach (step : σ → ε → Option σ) (C : σ → ε → Prop) (s₀ : σ) : σ → Prop
  | start : Reach step C s₀ s₀
  | next {s s' : σ} {e : ε} (h : Reach step C s₀ s) (hc : C s e) (hs : step s e = some s') :
      Reach step C s₀ s'

/-- What holds at the start and is kept by every step holds in every state
reached. -/
theorem Reach.inv {I : σ → Prop} (h₀ : I s₀)
    (hstep : ∀ s e s', I s → C s e → step s e = some s' → I s') {s : σ}
    (h : Reach step C s₀ s) : I s := by
  induction h with
  | start => exact h₀
  | next _ hc hs ih => exact hstep _ _ _ ih hc hs

theorem Reach.mono {D : σ → ε → Prop} (hCD : ∀ s e, C s e → D s e) {s : σ}
    (h : Reach step C s₀ s) : Reach step D s₀ s := by
  induction h with
  | start => exact .start
  | next _ hc hs ih => exact .next ih (hCD _ _ hc) hs

theorem Reach.trans {s₁ s : σ} (h : Reach step C s₀ s₁) (h' : Reach step C s₁ s) :
    Reach step C s₀ s := by
  induction h' with
  | start => exact h
  | next _ hc hs ih => exact .next ih hc hs

/-- Every run from `s` whose steps meet `C` comes to a state with `F`: where it
has not come to one it can go on, and it does not go on for ever. -/
inductive Ends (step : σ → ε → Option σ) (C : σ → ε → Prop) (F : σ → Prop) : σ → Prop
  | here {s : σ} (h : F s) : Ends step C F s
  | later {s : σ} (hgo : ∃ e s', C s e ∧ step s e = some s')
      (hall : ∀ e s', C s e → step s e = some s' → Ends step C F s') : Ends step C F s

/-- Runs end when an invariant keeps them going and something keeps getting
smaller. -/
theorem ends_of_measure {α : Type} {r : α → α → Prop} (hwf : WellFounded r) (μ : σ → α)
    {I F : σ → Prop} (hstep : ∀ s e s', I s → C s e → step s e = some s' → I s')
    (hgo : ∀ s, I s → F s ∨ ∃ e s', C s e ∧ step s e = some s')
    (hless : ∀ s e s', I s → C s e → step s e = some s' → r (μ s') (μ s)) {s : σ} (hs : I s) :
    Ends step C F s := by
  have hacc := hwf.apply (μ s)
  generalize hm : μ s = m at hacc
  induction hacc generalizing s with
  | intro m _ ih =>
      subst hm
      rcases hgo s hs with hF | hgo
      · exact .here hF
      · exact .later hgo fun e s' hc hs' =>
          ih _ (hless s e s' hs hc hs') (hstep s e s' hs hc hs') rfl

/-- Run a list of events. -/
def exec (step : σ → ε → Option σ) : σ → List ε → Option σ
  | s, [] => some s
  | s, e :: es => (step s e).bind fun s' => exec step s' es

theorem reach_of_exec {s s' : σ} {es : List ε} (h : exec step s es = some s') :
    Reach step Any s s' := by
  induction es generalizing s with
  | nil =>
      cases h
      exact .start
  | cons e es ih =>
      obtain ⟨s₁, h₁, h₂⟩ := Option.bind_eq_some_iff.mp h
      exact (Reach.start.next trivial h₁).trans (ih h₂)

theorem exec_append (step : σ → ε → Option σ) (s : σ) (es fs : List ε) :
    exec step s (es ++ fs) = (exec step s es).bind fun s' => exec step s' fs := by
  induction es generalizing s with
  | nil => rfl
  | cons e es ih =>
      rw [List.cons_append, exec, exec]
      cases step s e with
      | none => rfl
      | some s₁ => exact ih s₁

/-- Run a list of events that have to pass a test. -/
def exec_if (step : σ → ε → Option σ) (c : σ → ε → Bool) : σ → List ε → Option σ
  | s, [] => some s
  | s, e :: es => if c s e then (step s e).bind fun s' => exec_if step c s' es else none

theorem reach_of_exec_if {c : σ → ε → Bool} (hc : ∀ s e, c s e = true → C s e) {s s' : σ}
    {es : List ε} (h : exec_if step c s es = some s') : Reach step C s s' := by
  induction es generalizing s with
  | nil =>
      cases h
      exact .start
  | cons e es ih =>
      rw [exec_if] at h
      split at h
      · rename_i hce
        obtain ⟨s₁, h₁, h₂⟩ := Option.bind_eq_some_iff.mp h
        exact (Reach.start.next (hc _ _ hce) h₁).trans (ih h₂)
      · cases h

/-! ## Lists of parties

A system of several parties keeps them in a list, in which a step changes one or
to which it adds one. -/

section Parties

variable {α : Type} {l : List α} {i j : Nat} {x y : α}

theorem set_cases (h : (l.set i x)[j]? = some y) :
    (j = i ∧ y = x) ∨ (j ≠ i ∧ l[j]? = some y) := by
  by_cases hij : j = i
  · subst hij
    have hlt : j < l.length := by
      have := (List.getElem?_eq_some_iff.mp h).1
      rwa [List.length_set] at this
    rw [List.getElem?_set_self hlt] at h
    exact .inl ⟨rfl, (Option.some.inj h).symm⟩
  · rw [List.getElem?_set_ne fun he => hij he.symm] at h
    exact .inr ⟨hij, h⟩

theorem append_cases (h : (l ++ [x])[j]? = some y) :
    (j = l.length ∧ y = x) ∨ l[j]? = some y := by
  by_cases hj : j < l.length
  · rw [List.getElem?_append_left hj] at h
    exact .inr h
  · rw [List.getElem?_append_right (Nat.le_of_not_lt hj)] at h
    obtain ⟨hlt, hy⟩ := List.getElem?_eq_some_iff.mp h
    rw [List.length_singleton] at hlt
    have hjl : j = l.length := by omega
    exact .inl ⟨hjl, by subst hjl; simpa using h.symm⟩

end Parties

end WebDavs.Steps
