import Mathlib.Algebra.BigOperators.Ring.Finset
import Mathlib.Algebra.Order.BigOperators.Group.Finset
import Mathlib.Algebra.Order.Floor.Ring
import Mathlib.Data.Set.Finite.Basic
import Mathlib.Logic.Relation
import Mathlib.Tactic.Linarith

/-!
# Systems of difference constraints

Bounds on the difference of two variables and on single variables, with integer constants. The
solutions in an ordered field are closed under minimum and maximum, and under rounding down:
so a solution with the least sum is the least solution, and is integral.

## The model

`Difference` is one constraint, `Solves` says that all of a set hold. `dual` turns the constraints
round: the solutions are then the negated ones, and least solutions become greatest ones.

## What is proved

* `IsMinimal.le`, `IsMinimal.floor_eq`: a solution with the least sum is the least one, and integral;
  `IsMaximal.le`, `IsMaximal.floor_eq` are about the greatest one;
* `exists_isMinimal`, `exists_isMaximal`: there is one when the variables are bounded;
* `exists_solves_iff`: there is a solution exactly when no increasing step is on a cycle;
* `IsMaximal.exists_below`: a greatest solution needs a bound above every variable.
-/

namespace Octantis.Lib

universe u v

/-- A constraint. -/
inductive Difference (V : Type u) where
  /-- `x u + d ≤ x v` -/
  | step (u v : V) (d : ℤ)
  /-- `c ≤ x v` -/
  | above (v : V) (c : ℤ)
  /-- `x v ≤ c` -/
  | below (v : V) (c : ℤ)

namespace Difference

variable {V : Type u} {K : Type v} [Field K] [LinearOrder K] [IsStrictOrderedRing K]

/-- The constraint holds. -/
def Holds (x : V → K) : Difference V → Prop
  | step u v d => x u + d ≤ x v
  | above v c => c ≤ x v
  | below v c => x v ≤ c

/-- The constraint of the negated variables. -/
def dual : Difference V → Difference V
  | step u v d => step v u d
  | above v c => below v (-c)
  | below v c => above v (-c)

@[simp] theorem dual_dual (c : Difference V) : c.dual.dual = c := by
  cases c with
  | step => rfl
  | above v c => rw [dual, dual, neg_neg]
  | below v c => rw [dual, dual, neg_neg]

theorem holds_dual (x : V → K) (c : Difference V) : c.dual.Holds (fun v => -x v) ↔ c.Holds x := by
  cases c with
  | step u v d =>
    show -x v + d ≤ -x u ↔ x u + d ≤ x v
    constructor <;> intro h <;> linarith
  | above v c =>
    show -x v ≤ ((-c : ℤ) : K) ↔ (c : K) ≤ x v
    rw [Int.cast_neg, neg_le_neg_iff]
  | below v c =>
    show ((-c : ℤ) : K) ≤ -x v ↔ x v ≤ (c : K)
    rw [Int.cast_neg, neg_le_neg_iff]

end Difference

variable {V : Type u} {K : Type v} [Field K] [LinearOrder K] [IsStrictOrderedRing K] {S S' : Set (Difference V)}
  {s : Finset V} {x y : V → K} {w : V}

/-- All constraints of the set hold. -/
def Solves (S : Set (Difference V)) (x : V → K) : Prop := ∀ c ∈ S, c.Holds x

/-- The constraints of the negated variables. -/
def dual (S : Set (Difference V)) : Set (Difference V) := {c | c.dual ∈ S}

@[simp] theorem dual_dual (S : Set (Difference V)) : dual (dual S) = S := by
  ext c
  simp [dual]

theorem solves_dual : Solves (dual S) (fun v => -x v) ↔ Solves S x := by
  constructor
  · intro h c hc
    refine (c.holds_dual x).mp (h c.dual ?_)
    simpa [dual] using hc
  · intro h c hc
    have hdual := (c.dual.holds_dual x).mpr (h c.dual hc)
    rwa [Difference.dual_dual] at hdual

omit [IsStrictOrderedRing K] in
theorem Solves.mono (h : Solves S' x) (hS : S ⊆ S') : Solves S x := fun c hc => h c (hS hc)

/-! ### The lattice of the solutions -/

theorem Solves.inf (hx : Solves S x) (hy : Solves S y) : Solves S fun v => min (x v) (y v) := by
  intro c hc
  have h1 := hx c hc
  have h2 := hy c hc
  cases c with
  | step u v d =>
    refine le_min ?_ ?_
    · exact (add_le_add_left (min_le_left _ _) _).trans h1
    · exact (add_le_add_left (min_le_right _ _) _).trans h2
  | above v c => exact le_min h1 h2
  | below v c => exact (min_le_left _ _).trans h1

theorem Solves.sup (hx : Solves S x) (hy : Solves S y) : Solves S fun v => max (x v) (y v) := by
  have h := (solves_dual.mpr hx).inf (solves_dual.mpr hy)
  rw [← solves_dual]
  simpa only [neg_sup] using h

section Floor

variable [FloorRing K]

/-- The variables rounded down are a solution. -/
theorem Solves.floor (hx : Solves S x) : Solves S fun v => ((⌊x v⌋ : ℤ) : K) := by
  intro c hc
  have h := hx c hc
  cases c with
  | step u v d =>
    show ((⌊x u⌋ : ℤ) : K) + d ≤ ((⌊x v⌋ : ℤ) : K)
    have hfloor := Int.floor_le_floor h
    rw [Int.floor_add_intCast] at hfloor
    exact_mod_cast hfloor
  | above v c => exact Int.cast_le.mpr (Int.le_floor.mpr h)
  | below v c => exact (Int.floor_le _).trans h

end Floor

/-! ### Least and greatest solutions -/

/-- A solution with the least sum. -/
structure IsMinimal (S : Set (Difference V)) (s : Finset V) (x : V → K) : Prop where
  solves : Solves S x
  sum_le : ∀ y : V → K, Solves S y → ∑ v ∈ s, x v ≤ ∑ v ∈ s, y v

/-- A solution with the greatest sum. -/
structure IsMaximal (S : Set (Difference V)) (s : Finset V) (x : V → K) : Prop where
  solves : Solves S x
  le_sum : ∀ y : V → K, Solves S y → ∑ v ∈ s, y v ≤ ∑ v ∈ s, x v

theorem isMinimal_dual : IsMinimal (dual S) s (fun v => -x v) ↔ IsMaximal S s x := by
  constructor
  · rintro ⟨hx, hle⟩
    refine ⟨solves_dual.mp hx, fun y hy => ?_⟩
    have hsum := hle _ (solves_dual.mpr hy)
    rwa [Finset.sum_neg_distrib, Finset.sum_neg_distrib, neg_le_neg_iff] at hsum
  · rintro ⟨hx, hle⟩
    refine ⟨solves_dual.mpr hx, fun y hy => ?_⟩
    have hy' : Solves S fun v => -y v := by
      rw [← solves_dual]
      simpa using hy
    have hsum := hle _ hy'
    rwa [Finset.sum_neg_distrib, neg_le, ← Finset.sum_neg_distrib] at hsum

omit [IsStrictOrderedRing K] in
theorem IsMinimal.congr (h : IsMinimal S s x) (hy : Solves S y) (heq : ∀ v ∈ s, x v = y v) : IsMinimal S s y :=
  ⟨hy, fun z hz => (Finset.sum_congr rfl heq).symm.trans_le (h.sum_le z hz)⟩

omit [IsStrictOrderedRing K] in
theorem IsMaximal.congr (h : IsMaximal S s x) (hy : Solves S y) (heq : ∀ v ∈ s, x v = y v) : IsMaximal S s y :=
  ⟨hy, fun z hz => (h.le_sum z hz).trans_eq (Finset.sum_congr rfl heq)⟩

/-- **A solution with the least sum is the least solution.** -/
theorem IsMinimal.le (h : IsMinimal S s x) (hy : Solves S y) (hw : w ∈ s) : x w ≤ y w := by
  have hle : ∀ v ∈ s, min (x v) (y v) ≤ x v := fun v _ => min_le_left _ _
  have hsum := (Finset.sum_eq_sum_iff_of_le hle).mp
    (le_antisymm (Finset.sum_le_sum hle) (h.sum_le _ (h.solves.inf hy)))
  rw [← hsum w hw]
  exact min_le_right _ _

theorem IsMaximal.le (h : IsMaximal S s x) (hy : Solves S y) (hw : w ∈ s) : y w ≤ x w :=
  neg_le_neg_iff.mp ((isMinimal_dual.mpr h).le (solves_dual.mpr hy) hw)

section Floor

variable [FloorRing K]

/-- **It is integral.** -/
theorem IsMinimal.floor_eq (h : IsMinimal S s x) (hw : w ∈ s) : ((⌊x w⌋ : ℤ) : K) = x w :=
  le_antisymm (Int.floor_le _) (h.le h.solves.floor hw)

theorem IsMaximal.floor_eq (h : IsMaximal S s x) (hw : w ∈ s) : ((⌊x w⌋ : ℤ) : K) = x w := by
  have hneg := (isMinimal_dual.mpr h).floor_eq hw
  have hx : x w = ((-⌊-x w⌋ : ℤ) : K) := by
    rw [Int.cast_neg, hneg, neg_neg]
  rw [hx, Int.floor_intCast]

/-- **There is a least solution** when the variables are bounded below. -/
theorem exists_isMinimal (hsome : ∃ x : V → K, Solves S x)
    (hbdd : ∀ v ∈ s, ∃ c : ℤ, ∀ x : V → K, Solves S x → (c : K) ≤ x v) : ∃ x : V → K, IsMinimal S s x := by
  -- the sums of the integral solutions have a least element
  obtain ⟨bound, hbound⟩ : ∃ bound : V → ℤ, ∀ v ∈ s, ∀ x : V → K, Solves S x → (bound v : K) ≤ x v := by
    classical
    refine ⟨fun v => if hv : v ∈ s then (hbdd v hv).choose else 0, fun v hv => ?_⟩
    simp only [dif_pos hv]
    exact (hbdd v hv).choose_spec
  have hsum : ∀ n : ℤ, (∃ x : V → ℤ, Solves S (fun v => (x v : K)) ∧ ∑ v ∈ s, x v = n) → ∑ v ∈ s, bound v ≤ n := by
    rintro n ⟨x, hx, rfl⟩
    exact Finset.sum_le_sum fun v hv => by exact_mod_cast hbound v hv _ hx
  obtain ⟨x₀, hx₀⟩ := hsome
  obtain ⟨n, ⟨x, hx, rfl⟩, hleast⟩ := Int.exists_least_of_bdd
    (P := fun n => ∃ x : V → ℤ, Solves S (fun v => (x v : K)) ∧ ∑ v ∈ s, x v = n) ⟨_, hsum⟩
    ⟨_, fun v => ⌊x₀ v⌋, hx₀.floor, rfl⟩
  refine ⟨fun v => (x v : K), hx, fun y hy => ?_⟩
  have hle := hleast _ ⟨fun v => ⌊y v⌋, hy.floor, rfl⟩
  calc ∑ v ∈ s, (x v : K) = ((∑ v ∈ s, x v : ℤ) : K) := (Int.cast_sum s x).symm
    _ ≤ ((∑ v ∈ s, ⌊y v⌋ : ℤ) : K) := Int.cast_le.mpr hle
    _ = ∑ v ∈ s, ((⌊y v⌋ : ℤ) : K) := Int.cast_sum s _
    _ ≤ ∑ v ∈ s, y v := Finset.sum_le_sum fun v _ => Int.floor_le _

theorem exists_isMaximal (hsome : ∃ x : V → K, Solves S x)
    (hbdd : ∀ v ∈ s, ∃ c : ℤ, ∀ x : V → K, Solves S x → x v ≤ (c : K)) : ∃ x : V → K, IsMaximal S s x := by
  obtain ⟨x₀, hx₀⟩ := hsome
  have hneg : ∀ x : V → K, Solves (dual S) x → Solves S fun v => -x v := fun x hx => by
    rw [← solves_dual]
    simpa using hx
  obtain ⟨x, hx⟩ := exists_isMinimal (S := dual S) (s := s) ⟨_, solves_dual.mpr hx₀⟩ fun v hv => by
    obtain ⟨c, hc⟩ := hbdd v hv
    refine ⟨-c, fun x hx => ?_⟩
    have hle := hc _ (hneg x hx)
    rw [Int.cast_neg]
    exact neg_le.mpr hle
  refine ⟨fun v => -x v, isMinimal_dual.mp ?_⟩
  simpa using hx

end Floor

/-! ### Paths -/

/-- There is a path of steps. -/
def Reach (S : Set (Difference V)) : V → V → Prop := Relation.ReflTransGen fun u v => ∃ d, .step u v d ∈ S

/-- The weight of a step. -/
def Difference.weight : Difference V → ℤ
  | .step _ _ d => d
  | .above _ _ | .below _ _ => 0

/-- A number that is not below a lower bound. -/
def Difference.magnitude : Difference V → ℤ
  | .above _ c => |c|
  | .step _ _ _ | .below _ _ => 0

/-- The step is passed on the way to a variable. -/
def Passed (S : Set (Difference V)) (v : V) : Difference V → Prop
  | .step _ v' _ => Reach S v' v
  | .above _ _ | .below _ _ => False

/-- No step decreases. -/
def Forward (S : Set (Difference V)) : Prop := ∀ u v d, .step u v d ∈ S → 0 ≤ d

theorem Solves.le_of_reach {u v : V} (hx : Solves S x) (hS : Forward S) (h : Reach S u v) : x u ≤ x v := by
  induction h with
  | refl => exact le_refl _
  | tail _ hstep ih =>
    obtain ⟨d, hd⟩ := hstep
    have hle : x _ + (d : K) ≤ x _ := hx _ hd
    have hd0 : (0 : K) ≤ d := Int.cast_nonneg (hS _ _ d hd)
    linarith

section Potential

variable (hfin : S.Finite)

open Classical in
/-- The bounds, and the weights of the steps that are passed before a variable. -/
noncomputable def potential (v : V) : ℤ :=
  ∑ c ∈ hfin.toFinset, c.magnitude + ∑ c ∈ hfin.toFinset with Passed S v c, c.weight

theorem weight_nonneg (hS : Forward S) : ∀ c ∈ hfin.toFinset, 0 ≤ c.weight := by
  intro c hc
  rw [Set.Finite.mem_toFinset] at hc
  cases c with
  | step u v d => exact hS u v d hc
  | above | below => exact le_refl 0

theorem magnitude_nonneg (c : Difference V) : 0 ≤ c.magnitude := by
  cases c with
  | above v c => exact abs_nonneg c
  | step | below => exact le_refl 0

theorem le_potential (hS : Forward S) {v : V} {c : ℤ} (hc : .above v c ∈ S) : c ≤ potential hfin v := by
  classical
  have h1 : |c| ≤ ∑ c ∈ hfin.toFinset, c.magnitude := Finset.single_le_sum (f := Difference.magnitude)
    (fun c _ => magnitude_nonneg c) (hfin.mem_toFinset.mpr hc)
  have h2 : 0 ≤ ∑ c ∈ hfin.toFinset with Passed S v c, c.weight :=
    Finset.sum_nonneg fun c hc' => weight_nonneg hfin hS c (Finset.mem_filter.mp hc').1
  calc c ≤ |c| := le_abs_self c
    _ ≤ _ := h1.trans (le_add_of_nonneg_right h2)

/-- What is passed before the first variable of a step is passed before the second one. -/
theorem Passed.step {u v : V} {d : ℤ} (hd : .step u v d ∈ S) {c : Difference V} (h : Passed S u c) : Passed S v c := by
  cases c with
  | step u' v' d' => exact Relation.ReflTransGen.tail h ⟨d, hd⟩
  | above | below => exact h

/-- The potential goes up along the steps, when no increasing one is on a cycle. -/
theorem potential_add_le (hS : Forward S) (hcycle : ∀ u v d, .step u v d ∈ S → 0 < d → ¬ Reach S v u) {u v : V} {d : ℤ}
    (hd : .step u v d ∈ S) : potential hfin u + d ≤ potential hfin v := by
  classical
  have hsub : hfin.toFinset.filter (Passed S u) ⊆ hfin.toFinset.filter (Passed S v) :=
    Finset.monotone_filter_right _ fun c _ hc => hc.step hd
  have hnonneg : ∀ c ∈ hfin.toFinset.filter (Passed S v), 0 ≤ c.weight := fun c hc =>
    weight_nonneg hfin hS c (Finset.mem_filter.mp hc).1
  rw [potential, potential, add_assoc]
  refine add_le_add_right ?_ _
  rcases (hS u v d hd).eq_or_lt with rfl | hpos
  · rw [add_zero]
    exact Finset.sum_le_sum_of_subset_of_nonneg hsub fun c hc _ => hnonneg c hc
  · -- the step is passed before `v` and not before `u`
    have hnot : Difference.step u v d ∉ hfin.toFinset.filter (Passed S u) := fun hin =>
      hcycle u v d hd hpos (Finset.mem_filter.mp hin).2
    have hin : Difference.step u v d ∈ hfin.toFinset.filter (Passed S v) :=
      Finset.mem_filter.mpr ⟨hfin.mem_toFinset.mpr hd, Relation.ReflTransGen.refl⟩
    calc ∑ c ∈ hfin.toFinset with Passed S u c, c.weight + d
        = ∑ c ∈ insert (Difference.step u v d) (hfin.toFinset.filter (Passed S u)), c.weight := by
          rw [Finset.sum_insert hnot, add_comm]
          rfl
      _ ≤ _ := Finset.sum_le_sum_of_subset_of_nonneg (Finset.insert_subset hin hsub) fun c hc _ => hnonneg c hc

end Potential

/-- **When there is a solution**: exactly when no increasing step is on a cycle. -/
theorem exists_solves_iff (hfin : S.Finite) (hS : Forward S) (hbelow : ∀ v c, .below v c ∉ S) :
    (∃ x : V → K, Solves S x) ↔ ∀ u v d, .step u v d ∈ S → 0 < d → ¬ Reach S v u := by
  constructor
  · rintro ⟨x, hx⟩ u v d hd hpos hreach
    have hle : x u + (d : K) ≤ x v := hx _ hd
    have hback := hx.le_of_reach hS hreach
    have hd0 : (0 : K) < d := Int.cast_pos.mpr hpos
    linarith
  · intro hcycle
    refine ⟨fun v => (potential hfin v : K), fun c hc => ?_⟩
    cases c with
    | step u v d =>
      show (potential hfin u : K) + (d : K) ≤ (potential hfin v : K)
      exact_mod_cast potential_add_le hfin hS hcycle hc
    | above v c => exact Int.cast_le.mpr (le_potential hfin hS hc)
    | below v c => exact absurd hc (hbelow v c)

/-- Variables that reach no bound above can be raised. -/
theorem Solves.raise (hx : Solves S x) (hnone : ∀ v c, Reach S w v → .below v c ∉ S) [DecidablePred (Reach S w)] :
    Solves S fun v => if Reach S w v then x v + 1 else x v := by
  intro c hc
  have h := hx c hc
  cases c with
  | step u v d =>
    show (if Reach S w u then x u + 1 else x u) + (d : K) ≤ if Reach S w v then x v + 1 else x v
    have hle : x u + (d : K) ≤ x v := h
    by_cases hu : Reach S w u
    · have hv : Reach S w v := Relation.ReflTransGen.tail hu ⟨d, hc⟩
      rw [if_pos hu, if_pos hv]
      linarith
    · rw [if_neg hu]
      split
      · linarith
      · exact hle
  | above v c =>
    show (c : K) ≤ if Reach S w v then x v + 1 else x v
    have hle : (c : K) ≤ x v := h
    split
    · linarith
    · exact hle
  | below v c =>
    show (if Reach S w v then x v + 1 else x v) ≤ (c : K)
    rw [if_neg fun hreach => hnone v c hreach hc]
    exact h

/-- **A greatest solution needs a bound above every variable.** -/
theorem IsMaximal.exists_below (h : IsMaximal S s x) (hw : w ∈ s) : ∃ v c, Reach S w v ∧ .below v c ∈ S := by
  classical
  by_contra hnone
  have hraise := h.solves.raise (w := w) fun v c hreach hmem => hnone ⟨v, c, hreach, hmem⟩
  have hle := h.le hraise hw
  rw [if_pos (show Reach S w w from Relation.ReflTransGen.refl)] at hle
  linarith

end Octantis.Lib
