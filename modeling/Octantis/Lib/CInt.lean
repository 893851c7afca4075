import Mathlib.Algebra.Group.Int.Defs
import Mathlib.Algebra.Group.Nat.Defs
import Mathlib.Data.Nat.Notation
import Mathlib.Data.Int.Notation
import Mathlib.Order.Basic

/-!
# The `int` of C++

A value of type `int` is an integer below `2 ^ 31` in size. A conversion to `int` wraps
around; a product or a sum that is out of range is undefined (`none`).
-/

namespace Octantis.Lib.CInt

/-- The value of an unsigned 64-bit number converted to `int`. -/
def ofUInt64 (n : ℕ) : ℤ := Int.bmod n (2 ^ 32)

/-- An `int`, if it is in range. -/
def checked (n : ℤ) : Option ℤ := if -2 ^ 31 ≤ n ∧ n < 2 ^ 31 then some n else none

/-- `a * b`. -/
def mul (a b : ℤ) : Option ℤ := checked (a * b)

/-- `a + b`. -/
def add (a b : ℤ) : Option ℤ := checked (a + b)

/-- `a - b`. -/
def sub (a b : ℤ) : Option ℤ := checked (a - b)

variable {a n : ℤ}

theorem ofUInt64_of_lt {n : ℕ} (h : n < 2 ^ 31) : ofUInt64 n = n := by
  unfold ofUInt64
  rw [Int.bmod_eq_of_le] <;> omega

theorem checked_eq_some : checked a = some n ↔ n = a ∧ -2 ^ 31 ≤ a ∧ a < 2 ^ 31 := by
  unfold checked
  split
  · next h => exact ⟨fun hn => ⟨(Option.some.inj hn).symm, h⟩, fun hn => by rw [hn.1]⟩
  · next h => exact ⟨fun hn => (nomatch hn), fun hn => absurd hn.2 h⟩

theorem checked_of_nonneg (h0 : 0 ≤ a) (h : a < 2 ^ 31) : checked a = some a :=
  checked_eq_some.mpr ⟨rfl, by omega, h⟩

end Octantis.Lib.CInt
