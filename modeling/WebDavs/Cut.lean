/-
Cutting a list at a separator, and trimming it at its ends.

A list is cut where `takeWhile` and `dropWhile` of the elements other than the
separator part. All that is ever asked of a cut is what the two parts are when the
list was put together around a separator, and that every list with a separator was.
-/
import Mathlib.Data.List.TakeWhile
import Mathlib.Data.List.Infix

set_option autoImplicit false

namespace WebDavs.Cut

variable {α : Type} [DecidableEq α] {c : α} {s r : List α}

/-! ## At the first separator -/

theorem all_ne (h : c ∉ s) : ∀ a ∈ s, decide (a ≠ c) = true := by
  intro a ha
  rw [decide_eq_true_eq]
  rintro rfl
  exact h ha

/-- What is before the first separator. -/
theorem takeWhile_ne (h : c ∉ s) (hr : r = [] ∨ r.head? = some c) :
    (s ++ r).takeWhile (· ≠ c) = s := by
  rw [List.takeWhile_append_of_pos (all_ne h)]
  rcases hr with rfl | hr
  · simp
  · obtain ⟨r, rfl⟩ := List.head?_eq_some_iff.mp hr
    simp

/-- What is from the first separator on. -/
theorem dropWhile_ne (h : c ∉ s) (hr : r = [] ∨ r.head? = some c) :
    (s ++ r).dropWhile (· ≠ c) = r := by
  rw [List.dropWhile_append_of_pos (all_ne h)]
  rcases hr with rfl | hr
  · simp
  · obtain ⟨r, rfl⟩ := List.head?_eq_some_iff.mp hr
    simp

theorem not_mem_takeWhile_ne : c ∉ s.takeWhile (· ≠ c) := by
  intro h
  have := List.all_eq_true.mp (List.all_takeWhile (p := (· ≠ c)) (l := s)) c h
  simp at this

/-- A cut leaves nothing, or the separator and the rest. -/
theorem dropWhile_ne_cases (s : List α) (c : α) :
    (c ∉ s ∧ s.dropWhile (· ≠ c) = []) ∨
      ∃ a r, c ∉ a ∧ s = a ++ c :: r ∧ s.takeWhile (· ≠ c) = a ∧ s.dropWhile (· ≠ c) = c :: r := by
  by_cases h : c ∈ s
  · obtain ⟨a, r, rfl, ha⟩ := List.eq_append_cons_of_mem h
    exact .inr ⟨a, r, ha, rfl, takeWhile_ne ha (.inr rfl), dropWhile_ne ha (.inr rfl)⟩
  · refine .inl ⟨h, ?_⟩
    rw [← List.append_nil s]
    exact dropWhile_ne h (.inl rfl)

/-! ## At the last separator -/

/-- What is behind the last separator, or everything. -/
def afterLast (c : α) (s : List α) : List α := (s.reverse.takeWhile (· ≠ c)).reverse

theorem afterLast_append (p : List α) (h : c ∉ s) (hp : p = [] ∨ p.getLast? = some c) :
    afterLast c (p ++ s) = s := by
  unfold afterLast
  rw [List.reverse_append, takeWhile_ne (by simpa using h), List.reverse_reverse]
  rcases hp with rfl | hp
  · exact .inl rfl
  · exact .inr (by rw [List.head?_reverse, hp])

theorem afterLast_of_mem (p : List α) (h : c ∈ s) : afterLast c (p ++ s) = afterLast c s := by
  obtain ⟨a, r, hs, ha⟩ := List.eq_append_cons_of_mem (List.mem_reverse.mpr h)
  unfold afterLast
  rw [List.reverse_append, hs, List.append_assoc, takeWhile_ne ha (.inr rfl),
    takeWhile_ne ha (.inr rfl)]

theorem not_mem_afterLast : c ∉ afterLast c s := by
  rw [afterLast, List.mem_reverse]
  exact not_mem_takeWhile_ne

/-! ## At the ends -/

omit [DecidableEq α] in
/-- What `p` does not hold of is not dropped. -/
theorem mem_dropWhile_of_mem {p : α → Bool} {a : α} (h : a ∈ s) (ha : p a = false) :
    a ∈ s.dropWhile p := by
  rw [← List.takeWhile_append_dropWhile (p := p) (l := s), List.mem_append] at h
  rcases h with h | h
  · have := List.all_eq_true.mp (List.all_takeWhile (p := p) (l := s)) a h
    rw [ha] at this
    cases this
  · exact h

end WebDavs.Cut
