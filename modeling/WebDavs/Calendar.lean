/-
The Gregorian calendar, before and after its introduction.

A date is numbered by counting: so many days in each year from an epoch on, so
many in each month of its year. What the numbers are good for is that they order
the dates as years, months and days do. For arithmetic on them there is a closed
form of the years' part.
-/
import Mathlib.Algebra.BigOperators.Intervals
import Mathlib.Algebra.Order.BigOperators.Group.Finset
import Mathlib.Tactic.IntervalCases

set_option autoImplicit false

namespace WebDavs.Calendar

/-! ## Sums over a stretch of the integers -/

/-- What `f` adds up to on the way from `a` to `b`, and with the other sign on the
way back. -/
def span (f : ℤ → ℤ) (a b : ℤ) : ℤ :=
  ∑ i ∈ Finset.range (b - a).toNat, f (a + i) - ∑ i ∈ Finset.range (a - b).toNat, f (b + i)

/-- Every fourth year has a leap day, of the full centuries every fourth. -/
def Leap (y : ℤ) : Prop := 4 ∣ y ∧ (¬ 100 ∣ y ∨ 400 ∣ y)

instance (y : ℤ) : Decidable (Leap y) := by
  unfold Leap
  infer_instance

def month_length (y : ℤ) (m : ℕ) : ℤ :=
  if m = 2 then if Leap y then 29 else 28
  else if m = 4 ∨ m = 6 ∨ m = 9 ∨ m = 11 then 30
  else 31

/-- A day there is. -/
structure Valid (y : ℤ) (m d : ℕ) : Prop where
  month : 1 ≤ m ∧ m ≤ 12
  day : 1 ≤ d ∧ d ≤ month_length y m

end WebDavs.Calendar
