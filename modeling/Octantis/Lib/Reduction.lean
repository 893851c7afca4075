import Mathlib.Algebra.BigOperators.Group.List.Basic
import Mathlib.Algebra.GroupWithZero.Nat
import Mathlib.Data.Nat.Log

/-!
# Reduction by levels

A list of values of a commutative monoid is reduced level by level: at each level
an extra list joins it, the values are put in some order, and neighbours are added,
a last single one being kept (`Levels`). Whatever the orders, the sum is that of
all the values that joined, and the length halves at each level, so that
`clog 2 n` levels reduce `n` values to one.

Sums of sums of earlier names have values: `weight` gives each name the sum of its
parts, and 1 where it has none.
-/

namespace Octantis.Lib

universe u

variable {M : Type u} [AddCommMonoid M]

/-- Neighbours added; a last single one is kept. -/
def pairSums : List M → List M
  | [] => []
  | [a] => [a]
  | a :: b :: l => (a + b) :: pairSums l

theorem length_pairSums (l : List M) : (pairSums l).length = (l.length + 1) / 2 := by
  induction l using pairSums.induct with
  | case1 => simp [pairSums]
  | case2 a => simp [pairSums]
  | case3 a b l ih =>
    rw [pairSums, List.length_cons, ih]
    simp only [List.length_cons]
    omega

theorem sum_pairSums (l : List M) : (pairSums l).sum = l.sum := by
  induction l using pairSums.induct with
  | case1 => rfl
  | case2 a => rw [pairSums]
  | case3 a b l ih => rw [pairSums, List.sum_cons, ih, List.sum_cons, List.sum_cons, add_assoc]

/-- The levels of a reduction: the lists that join, the list before the first level and the one
after the last. -/
inductive Levels : List (List M) → List M → List M → Prop where
  | nil (l : List M) : Levels [] l l
  | cons {extra : List M} {extras : List (List M)} {l ordered l' : List M}
      (order : ordered.Perm (l ++ extra)) (rest : Levels extras (pairSums ordered) l') :
      Levels (extra :: extras) l l'

/-- **The sum is kept**, whatever the order of the values at each level. -/
theorem Levels.sum {extras : List (List M)} {l l' : List M} (h : Levels extras l l') :
    l'.sum = l.sum + extras.flatten.sum := by
  induction h with
  | nil l => simp
  | @cons extra extras l ordered l' order rest ih =>
    rw [ih, sum_pairSums, order.sum_eq, List.sum_append, List.flatten_cons, List.sum_append, add_assoc]

/-- The length of the list after the levels, from the lengths of the lists that join. -/
def levelLength : List ℕ → ℕ → ℕ
  | [], n => n
  | m :: ms, n => levelLength ms ((n + m + 1) / 2)

theorem Levels.length {extras : List (List M)} {l l' : List M} (h : Levels extras l l') :
    l'.length = levelLength (extras.map List.length) l.length := by
  induction h with
  | nil l => rfl
  | @cons extra extras l ordered l' order rest ih =>
    rw [ih, length_pairSums, order.length_eq, List.length_append]
    rfl

/-- Enough levels at which nothing joins leave one value. -/
theorem levelLength_replicate_zero {k n : ℕ} (hn : 1 ≤ n) (hk : n ≤ 2 ^ k) :
    levelLength (List.replicate k 0) n = 1 := by
  induction k generalizing n with
  | zero =>
    rw [pow_zero] at hk
    exact Nat.le_antisymm hk hn
  | succ k ih =>
    rw [List.replicate_succ, levelLength]
    rw [pow_succ] at hk
    exact ih (by omega) (by omega)

/-- **The reduction of a list to its sum**: the list joins at the first of `clog 2 n` levels, and
nothing after. -/
theorem Levels.eq_singleton {k : ℕ} {first l' : List M} (hfirst : 2 ≤ first.length)
    (hk : Nat.clog 2 first.length = k + 1)
    (h : Levels (first :: List.replicate k []) [] l') : l' = [first.sum] := by
  have hlen := h.length
  have hpow := Nat.le_pow_clog (b := 2) (by decide) first.length
  rw [hk, pow_succ] at hpow
  rw [List.map_cons, List.map_replicate, List.length_nil, levelLength,
    levelLength_replicate_zero (by omega) (by omega)] at hlen
  obtain ⟨a, rfl⟩ := List.length_eq_one_iff.mp hlen
  have hsum := h.sum
  simp only [List.sum_cons, List.sum_nil, add_zero, zero_add, List.flatten_cons, List.flatten_replicate_nil,
    List.append_nil] at hsum
  rw [hsum]

/-! ### Values by parts -/

/-- The sum of the weights of the parts, which are smaller names, and 1 without parts. -/
def weight (parts : ℕ → Option (List ℕ)) (n : ℕ) : ℕ :=
  match parts n with
  | none => 1
  | some ps => (ps.map fun p => if _h : p < n then weight parts p else 1).sum

theorem weight_of_none {parts : ℕ → Option (List ℕ)} {n : ℕ} (h : parts n = none) :
    weight parts n = 1 := by
  rw [weight, h]

theorem weight_of_some {parts : ℕ → Option (List ℕ)} {n : ℕ} {ps : List ℕ} (h : parts n = some ps)
    (hlt : ∀ p ∈ ps, p < n) : weight parts n = (ps.map (weight parts)).sum := by
  rw [weight, h]
  simp only
  refine congrArg List.sum (List.map_congr_left fun p hp => ?_)
  rw [dif_pos (hlt p hp)]

theorem one_le_weight {parts : ℕ → Option (List ℕ)}
    (hparts : ∀ n ps, parts n = some ps → ps ≠ [] ∧ ∀ p ∈ ps, p < n) (n : ℕ) : 1 ≤ weight parts n := by
  induction n using Nat.strongRecOn with
  | ind n ih =>
    cases h : parts n with
    | none => rw [weight_of_none h]
    | some ps =>
      obtain ⟨hne, hlt⟩ := hparts n ps h
      rw [weight_of_some h hlt]
      cases ps with
      | nil => exact absurd rfl hne
      | cons p ps =>
        have := ih p (hlt p (by simp))
        rw [List.map_cons, List.sum_cons]
        omega

end Octantis.Lib
