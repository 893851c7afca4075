import Mathlib.Tactic.Linarith
import Mathlib.Tactic.Ring
import Octantis.Analysis.LoopInfoTable

/-!
# The number of iterations

`parseLoopHeaderAndLatch` computes the number of iterations of a loop from its bounds, its
increment and the predicate of its test.

## The model

The body of a loop is executed once for each value of the iterator that passes the test,
from the initial value on, until one fails it. The values, with the one that fails, are
values of type `int`.

## What is proved

* `iterations_eq_some_iff`: what is computed, and when the arithmetic is in range;
* `iterations_eq_iff`: when the number computed is that of the executions.
-/

namespace Octantis

open Lib

/-- The test of the header. -/
def Predicate.Holds : Predicate → ℤ → ℤ → Prop
  | .slt, i, b => i < b
  | .sle, i, b => i ≤ b
  | .sgt, i, b => b < i
  | .sge, i, b => b ≤ i

instance (p : Predicate) (i b : ℤ) : Decidable (p.Holds i b) := by
  cases p <;> unfold Predicate.Holds <;> infer_instance

/-- The predicate fails for the bound itself. -/
def Predicate.strict : Predicate → Bool
  | .slt | .sgt => true
  | .sle | .sge => false

namespace ConstantLoop

/-- The value of the iterator after so many iterations. -/
def value (l : ConstantLoop) (k : ℕ) : ℤ := l.initValue + l.increment * k

/-- **The body is executed `n` times**, and no value of the iterator overflows. -/
structure Executes (l : ConstantLoop) (n : ℕ) : Prop where
  holds : ∀ k < n, l.predicate.Holds (l.value k) l.finalValue
  fails : ¬ l.predicate.Holds (l.value n) l.finalValue
  inRange : ∀ k ≤ n, CInt.checked (l.value k) = some (l.value k)

/-- A loop that is not entered although its number of iterations is computed to be zero: the bound
is the initial value or, for a test that holds at the bound, an increment before it; or it is
between one and two increments before it. -/
def SkippedRight (l : ConstantLoop) : Prop :=
  (if l.predicate.strict then l.finalValue = l.initValue else l.finalValue + l.increment = l.initValue) ∨
    l.increment * l.increment < (l.initValue - l.finalValue) * l.increment ∧
      (l.initValue - l.finalValue) * l.increment < 2 * (l.increment * l.increment)

instance (l : ConstantLoop) : Decidable l.SkippedRight := by
  unfold SkippedRight
  infer_instance

variable {l : ConstantLoop} {n : ℕ} {d s : ℤ}

/-! ### Quotients -/

/-- The truncated quotient of a number between two multiples. -/
theorem tdiv_of_between {m : ℤ} (hm : 0 ≤ m) (h : (0 < s ∧ m * s ≤ d ∧ d < (m + 1) * s) ∨
    (s < 0 ∧ (m + 1) * s < d ∧ d ≤ m * s)) : d.tdiv s = m := by
  rcases h with ⟨hs, hle, hlt⟩ | ⟨hs, hlt, hle⟩
  · have hd : 0 ≤ d := le_trans (Int.mul_nonneg hm hs.le) hle
    rw [Int.tdiv_eq_ediv_of_nonneg hd, Int.ediv_eq_iff_of_pos hs]
    exact ⟨hle, by linarith⟩
  · have hd : 0 ≤ -d := by nlinarith
    rw [← Int.neg_tdiv_neg, Int.tdiv_eq_ediv_of_nonneg hd, Int.ediv_eq_iff_of_pos (by omega)]
    constructor <;> linarith

/-- A truncated quotient is -1 when the number is between one and two divisors on the other side of
zero. -/
theorem tdiv_eq_neg_one_iff (hs : s ≠ 0) : d.tdiv s = -1 ↔ s * s ≤ -d * s ∧ -d * s < 2 * (s * s) := by
  have hneg : d.tdiv s = -1 ↔ (-d).tdiv s = 1 := by
    rw [Int.neg_tdiv]
    omega
  rw [hneg]
  constructor
  · intro h
    have hmod := Int.tmod_add_mul_tdiv (-d) s
    rw [h, mul_one] at hmod
    rcases lt_or_gt_of_ne hs with hneg | hpos
    · have hd : -d ≤ 0 := by
        by_contra hd
        have := Int.tdiv_nonpos_of_nonneg_of_nonpos (a := -d) (b := s) (by omega) hneg.le
        omega
      have hlt : s < (-d).tmod s := by
        rw [← Int.tmod_neg]
        have := Int.lt_tmod_of_pos (-d) (b := -s) (by omega)
        omega
      have hle : (-d).tmod s ≤ 0 := by
        have := Int.tmod_nonneg s (a := d) (by omega)
        rw [Int.neg_tmod]
        omega
      constructor <;> nlinarith
    · have hd : 0 ≤ -d := by
        by_contra hd
        have := Int.tdiv_nonneg (a := d) (b := s) (by omega) hpos.le
        rw [Int.neg_tdiv] at h
        omega
      have hlt := Int.tmod_lt_of_pos (-d) hpos
      have hle := Int.tmod_nonneg s hd
      constructor <;> nlinarith
  · rintro ⟨hle, hlt⟩
    refine tdiv_of_between (by decide) ?_
    rcases lt_or_gt_of_ne hs with hneg | hpos
    · refine Or.inr ⟨hneg, ?_, ?_⟩ <;> nlinarith
    · refine Or.inl ⟨hpos, ?_, ?_⟩ <;> nlinarith

/-! ### The number computed -/

/-- The number computed, before it is converted to `int`. -/
def computed (l : ConstantLoop) : ℤ :=
  let difference := l.finalValue - l.initValue
  if difference % l.increment = 0 then difference / l.increment + if l.predicate.strict then 0 else 1
  else difference.tdiv l.increment + 1

theorem iterations_eq_some_iff (hs : l.increment ≠ 0) {k : ℤ} : l.iterations = some k ↔
    CInt.checked (l.finalValue - l.initValue) = some (l.finalValue - l.initValue) ∧ CInt.checked k = some k ∧
      l.computed = k := by
  unfold iterations computed
  rw [CInt.sub]
  by_cases hd : CInt.checked (l.finalValue - l.initValue) = some (l.finalValue - l.initValue)
  · simp only [hd, Option.bind_eq_bind, Option.bind_some, if_neg hs, true_and]
    by_cases hdvd : (l.finalValue - l.initValue) % l.increment = 0
    · rw [if_pos hdvd, if_pos hdvd]
      cases l.predicate <;> simp only [Predicate.strict, if_true, add_zero, CInt.add] <;>
        (rw [CInt.checked_eq_some, CInt.checked_eq_some]; grind)
    · rw [if_neg hdvd, if_neg hdvd, CInt.add, CInt.checked_eq_some, CInt.checked_eq_some]
      grind
  · have hnone : CInt.checked (l.finalValue - l.initValue) = none := by
      cases h : CInt.checked (l.finalValue - l.initValue) with
      | none => rfl
      | some k => exact absurd (h.trans (congrArg some (CInt.checked_eq_some.mp h).1)) hd
    simp [hnone]

/-- **A loop that is entered**: the number computed is that of the executions. -/
theorem computed_of_pos (h : l.Executes n) (hn : 0 < n) : l.computed = n := by
  obtain ⟨m, rfl⟩ := Nat.exists_eq_add_of_lt hn
  rw [Nat.zero_add] at h ⊢
  have hlast := h.holds m (by omega)
  have hfirst := h.holds 0 (by omega)
  have hfails := h.fails
  obtain ⟨d, hd⟩ : ∃ d, d = l.finalValue - l.initValue := ⟨_, rfl⟩
  obtain ⟨s, hs⟩ : ∃ s, s = l.increment := ⟨_, rfl⟩
  simp only [value, Nat.cast_add, Nat.cast_one, ← hs] at hlast hfirst hfails
  -- the last value that passes the test and the first that fails it, on both sides of the bound
  have hbetween : if l.predicate.strict
      then (0 < s ∧ m * s < d ∧ d ≤ (m + 1) * s) ∨ (s < 0 ∧ (m + 1) * s ≤ d ∧ d < m * s)
      else (0 < s ∧ m * s ≤ d ∧ d < (m + 1) * s) ∨ (s < 0 ∧ (m + 1) * s < d ∧ d ≤ m * s) := by
    cases hp : l.predicate <;> simp only [hp, Predicate.Holds, not_lt, not_le] at hlast hfirst hfails <;>
      simp only [Predicate.strict, if_true, Bool.false_eq_true, if_false]
    · refine Or.inl ⟨?_, ?_, ?_⟩ <;> nlinarith
    · refine Or.inl ⟨?_, ?_, ?_⟩ <;> nlinarith
    · refine Or.inr ⟨?_, ?_, ?_⟩ <;> nlinarith
    · refine Or.inr ⟨?_, ?_, ?_⟩ <;> nlinarith
  rw [computed, ← hd, ← hs]
  by_cases hdvd : d % s = 0
  · -- the quotient is exact
    obtain ⟨q, rfl⟩ := Int.dvd_of_emod_eq_zero hdvd
    have hs0 : s ≠ 0 := by
      rintro rfl
      cases hp : l.predicate <;> simp [hp, Predicate.strict] at hbetween
    rw [if_pos hdvd, Int.mul_ediv_cancel_left _ hs0]
    cases hp : l.predicate.strict <;> simp only [hp, if_true, Bool.false_eq_true, if_false] at hbetween ⊢
    · have hq : q = m := by
        rcases hbetween with ⟨hpos, hle, hlt⟩ | ⟨hneg, hlt, hle⟩ <;> apply le_antisymm <;>
          by_contra hcon <;> nlinarith
      rw [hq]
      push_cast
      ring
    · have hq : q = m + 1 := by
        rcases hbetween with ⟨hpos, hlt, hle⟩ | ⟨hneg, hle, hlt⟩ <;> apply le_antisymm <;>
          by_contra hcon <;> nlinarith
      rw [hq]
      push_cast
      ring
  · -- it is truncated, and the last iteration goes past the bound
    have hne : d ≠ (m + 1) * s := by
      rintro rfl
      exact hdvd (Int.mul_emod_left _ _)
    rw [if_neg hdvd, tdiv_of_between (m := m) (Int.natCast_nonneg m)]
    · push_cast
      ring
    · cases hp : l.predicate.strict <;> simp only [hp, if_true, Bool.false_eq_true, if_false] at hbetween
      · exact hbetween
      · rcases hbetween with ⟨hpos, hlt, hle⟩ | ⟨hneg, hle, hlt⟩
        · exact Or.inl ⟨hpos, hlt.le, lt_of_le_of_ne hle hne⟩
        · exact Or.inr ⟨hneg, lt_of_le_of_ne hle (Ne.symm hne), hlt.le⟩

/-- **A loop that is not entered**: when the number computed is zero. -/
theorem computed_eq_zero_iff (hs : l.increment ≠ 0) : l.computed = 0 ↔ l.SkippedRight := by
  have hsquare : 0 < l.increment * l.increment := mul_self_pos.mpr hs
  unfold computed SkippedRight
  by_cases hdvd : (l.finalValue - l.initValue) % l.increment = 0
  · obtain ⟨q, hq⟩ := Int.dvd_of_emod_eq_zero hdvd
    have hbetween : ¬ (l.increment * l.increment < (l.initValue - l.finalValue) * l.increment ∧
        (l.initValue - l.finalValue) * l.increment < 2 * (l.increment * l.increment)) := by
      have heq : l.initValue - l.finalValue = -q * l.increment := by linarith
      rintro ⟨h1, h2⟩
      rw [heq] at h1 h2
      have hlt : 1 < -q := by
        by_contra hcon
        nlinarith
      have hgt : -q < 2 := by
        by_contra hcon
        nlinarith
      omega
    rw [if_pos hdvd, or_iff_left hbetween, hq, Int.mul_ediv_cancel_left _ hs]
    cases hp : l.predicate.strict <;> simp only [if_true, Bool.false_eq_true, if_false]
    · constructor
      · intro h
        obtain rfl : q = -1 := by omega
        linarith
      · intro h
        have : l.increment * (q + 1) = 0 := by linarith
        rcases Int.mul_eq_zero.mp this with h0 | h0
        · exact absurd h0 hs
        · exact h0
    · constructor
      · intro h
        obtain rfl : q = 0 := by omega
        linarith
      · intro h
        have : l.increment * q = 0 := by linarith
        rcases Int.mul_eq_zero.mp this with h0 | h0
        · exact absurd h0 hs
        · rw [h0, add_zero]
  · have hfirst : ¬ (if l.predicate.strict then l.finalValue = l.initValue
        else l.finalValue + l.increment = l.initValue) := by
      intro h
      refine hdvd (Int.emod_eq_zero_of_dvd ?_)
      cases hp : l.predicate.strict <;> simp only [hp, if_true, Bool.false_eq_true, if_false] at h
      · exact ⟨-1, by linarith⟩
      · exact ⟨0, by linarith⟩
    have hne : -(l.finalValue - l.initValue) * l.increment ≠ l.increment * l.increment := by
      intro h
      exact hdvd (Int.emod_eq_zero_of_dvd ⟨-1, by linarith [mul_right_cancel₀ hs h]⟩)
    have hminus : (l.finalValue - l.initValue).tdiv l.increment + 1 = 0 ↔
        (l.finalValue - l.initValue).tdiv l.increment = -1 := by omega
    rw [if_neg hdvd, or_iff_right hfirst, hminus, tdiv_eq_neg_one_iff hs, neg_sub] at *
    exact ⟨fun h => ⟨lt_of_le_of_ne h.1 (Ne.symm hne), h.2⟩, fun h => ⟨h.1.le, h.2⟩⟩

/-- **The number computed for a loop that finishes is that of the executions of its body exactly
when** it and the difference of the bounds are values of type `int`, and the loop is entered or
skipped rightly. -/
theorem iterations_eq_iff (hs : l.increment ≠ 0) (h : l.Executes n) :
    l.iterations = some (n : ℤ) ↔
      (-2 ^ 31 ≤ l.finalValue - l.initValue ∧ l.finalValue - l.initValue < 2 ^ 31) ∧ n < 2 ^ 31 ∧
        (0 < n ∨ l.SkippedRight) := by
  have hn : CInt.checked n = some (n : ℤ) ↔ n < 2 ^ 31 := by
    rw [CInt.checked_eq_some]
    omega
  have hd : CInt.checked (l.finalValue - l.initValue) = some (l.finalValue - l.initValue) ↔
      -2 ^ 31 ≤ l.finalValue - l.initValue ∧ l.finalValue - l.initValue < 2 ^ 31 := by
    rw [CInt.checked_eq_some]
    exact ⟨fun h => h.2, fun h => ⟨rfl, h⟩⟩
  have hcomputed : l.computed = n ↔ 0 < n ∨ l.SkippedRight := by
    rcases Nat.eq_zero_or_pos n with rfl | hpos
    · rw [Nat.cast_zero, computed_eq_zero_iff hs]
      simp
    · exact ⟨fun _ => Or.inl hpos, fun _ => computed_of_pos h hpos⟩
  rw [iterations_eq_some_iff hs, hn, hd, hcomputed]

/-- `for (i = 0; i < 3; ++i)`. -/
theorem iterations_eq_iff_three : (⟨4, 0, 3, .slt, 1, 0, 0⟩ : ConstantLoop).iterations = some 3 :=
  (iterations_eq_iff (n := 3) (l := ⟨4, 0, 3, .slt, 1, 0, 0⟩) (by decide)
    ⟨by decide, by decide, by decide⟩).mpr (by decide)

/-- `for (i = 5; i < 0; ++i)` is not entered, and the number computed is -5. -/
theorem iterations_skipped : (⟨4, 5, 0, .slt, 1, 0, 0⟩ : ConstantLoop).Executes 0 ∧
    (⟨4, 5, 0, .slt, 1, 0, 0⟩ : ConstantLoop).iterations = some (-5) :=
  ⟨⟨by decide, by decide, by decide⟩, by decide⟩

end ConstantLoop

end Octantis
