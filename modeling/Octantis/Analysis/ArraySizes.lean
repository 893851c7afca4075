import Mathlib.Order.Interval.Finset.Nat
import Mathlib.Data.Int.Interval
import Mathlib.Data.Finset.Prod
import Mathlib.Tactic.Ring
import Mathlib.Tactic.Linarith
import Octantis.Analysis.CollectInfo
import Octantis.Utils.AddressList

/-!
# The sizes of the arrays

`parseAllocaInstructions` records the rows and columns of the arrays declared,
`setPointerInfo` copies them for a pointer, the binder allocates `getArraySize` rows,
and the position of the element `[i][j]` among them is `i * arrayCols + j`.

## The model

An allocated type is an array of elements of some type, or another type. The sizes are
values of type `int`. `ElementsPlaced` says that the elements of an array have positions
of their own among the rows allocated.

## What is proved

* `sizes_of_alloca`: for `T A[R][C]` there are `C` rows and `R` columns;
* `elementsPlaced_iff`: the elements of a matrix are placed exactly when it is square and
  the number of them is an `int`.

## Honest scope

Of a matrix of two rows and three columns the elements `[0][2]` and `[1][0]` share the
position 2 (`two_by_three_shared`).
-/

namespace Octantis

open Std Lib

/-- An allocated type. -/
inductive AllocatedType where
  /-- An array type. -/
  | array (numElements : ℕ) (elementType : AllocatedType)
  /-- Another type. -/
  | other
  deriving DecidableEq, Repr

/-- The rows and columns that `parseAllocaInstructions` saves for an array. -/
def AllocatedType.sizeList : AllocatedType → Option (List ℤ)
  | .array numElements (.array numElements' _) => some [CInt.ofUInt64 numElements', CInt.ofUInt64 numElements]
  | .array numElements .other => some [1, CInt.ofUInt64 numElements]
  | .other => none

namespace CollectInfo

/-- An alloca instruction of `parseAllocaInstructions`: its register and the allocated type. -/
def parseAlloca (info : CollectInfo) (I : Reg × AllocatedType) : CollectInfo :=
  { info with
    arraysInfoMap := match I.2.sizeList with
      | some sizeList => info.arraysInfoMap.insertIfNew I.1 sizeList
      | none => info.arraysInfoMap
    aliasInfoMap := info.aliasInfoMap.insertIfNew I.1 [] }

/-- `parseAllocaInstructions`, on the alloca instructions of the block. -/
def parseAllocaInstructions (info : CollectInfo) (BB : List (Reg × AllocatedType)) : CollectInfo :=
  BB.foldl parseAlloca info

/-- `getArraySize`. -/
def getArraySize (info : CollectInfo) (reg : Reg) : Option ℤ :=
  match info.arraysInfoMap[reg]? with
  | none => some 1
  | some sizes => (sizes.head?).bind fun front => (sizes.getLast?).bind fun back => CInt.mul front back

/-- The rows and columns that `setPointerInfo` copies for a pointer. -/
def arraySizes (info : CollectInfo) (pointer : Reg) : Option (ℤ × ℤ) :=
  (info.arraysInfoMap[info.getAllocatedReg pointer]?).bind fun sizes =>
    (sizes.head?).bind fun arrayRows => (sizes.getLast?).map fun arrayCols => (arrayRows, arrayCols)

/-- The position of the element `[i][j]` that the pointer goes over. -/
def elementOffset (info : CollectInfo) (pointer : Reg) (i j : ℕ) : Option ℤ :=
  (info.arraySizes pointer).bind fun sizes =>
    AddressList.extractIteratorAdvancement .rowMajor i j 0 0 sizes.2

/-- **The elements of an array of `R` by `C` have positions of their own** among the rows
allocated. -/
structure ElementsPlaced (info : CollectInfo) (A pointer : Reg) (R C : ℕ) : Prop where
  inRange : ∃ size, info.getArraySize A = some size ∧
    ∀ i < R, ∀ j < C, ∃ o, info.elementOffset pointer i j = some o ∧ 0 ≤ o ∧ o < size
  injective : ∀ i < R, ∀ j < C, ∀ i' < R, ∀ j' < C,
    info.elementOffset pointer i j = info.elementOffset pointer i' j' → i = i' ∧ j = j'

variable {info info' : CollectInfo} {A pointer : Reg} {R C : ℕ} {ty elementType : AllocatedType}
  {BB : List (Reg × AllocatedType)} {sizes : List ℤ}

/-! ### The declarations -/

theorem getElem?_parseAlloca (info : CollectInfo) (I : Reg × AllocatedType) (A : Reg) :
    (info.parseAlloca I).arraysInfoMap[A]? =
      if I.1 = A then info.arraysInfoMap[A]? <|> I.2.sizeList else info.arraysInfoMap[A]? := by
  unfold parseAlloca
  cases hty : I.2.sizeList with
  | none =>
    simp only
    split <;> simp
  | some sizeList =>
    simp only [ExtTreeMap.getElem?_insertIfNew, Std.compare_eq_iff_eq, ExtTreeMap.mem_iff_isSome_getElem?]
    by_cases h : I.1 = A
    · subst h
      cases info.arraysInfoMap[I.1]? <;> simp
    · simp [h]

/-- The sizes of an array that is declared once. -/
theorem sizes_of_alloca (hmem : (A, ty) ∈ BB) (hnodup : (BB.map (·.1)).Nodup)
    (hfresh : info.arraysInfoMap[A]? = none) :
    (info.parseAllocaInstructions BB).arraysInfoMap[A]? = ty.sizeList := by
  have hother : ∀ (BB : List (Reg × AllocatedType)) (info : CollectInfo), A ∉ BB.map (·.1) →
      (info.parseAllocaInstructions BB).arraysInfoMap[A]? = info.arraysInfoMap[A]? := by
    intro BB
    induction BB with
    | nil => exact fun _ _ => rfl
    | cons I rest ih =>
      intro info hA
      simp only [List.map_cons, List.mem_cons, not_or] at hA
      refine (ih _ hA.2).trans ?_
      rw [getElem?_parseAlloca, if_neg (Ne.symm hA.1)]
  induction BB generalizing info with
  | nil => simp at hmem
  | cons I rest ih =>
    rw [List.map_cons, List.nodup_cons] at hnodup
    rcases List.mem_cons.mp hmem with rfl | hmem
    · refine (hother rest _ hnodup.1).trans ?_
      rw [getElem?_parseAlloca, if_pos rfl, hfresh]
      rfl
    · refine ih hmem hnodup.2 ?_
      rw [getElem?_parseAlloca, if_neg, hfresh]
      rintro rfl
      exact hnodup.1 (List.mem_map.mpr ⟨_, hmem, rfl⟩)

/-! ### The positions -/

variable {rows cols : ℤ}

theorem getArraySize_of_sizes (h : info.arraysInfoMap[A]? = some [rows, cols]) :
    info.getArraySize A = CInt.mul rows cols := by
  rw [getArraySize, h]
  rfl

theorem elementOffset_of_sizes (h : info.arraysInfoMap[A]? = some [rows, cols])
    (hp : info.getAllocatedReg pointer = A) (i j : ℕ) :
    info.elementOffset pointer i j = (CInt.mul i cols).bind (CInt.add · j) := by
  rw [elementOffset, arraySizes, hp, h]
  rfl

theorem elementOffset_eq_some {o : ℤ} {i j : ℕ} (h : info.arraysInfoMap[A]? = some [rows, cols])
    (hp : info.getAllocatedReg pointer = A) (ho : info.elementOffset pointer i j = some o) :
    o = i * cols + j := by
  rw [elementOffset_of_sizes h hp] at ho
  obtain ⟨p, hp, ho⟩ := Option.bind_eq_some_iff.mp ho
  obtain ⟨rfl, -⟩ := CInt.checked_eq_some.mp hp
  exact (CInt.checked_eq_some.mp ho).1

theorem elementOffset_of_lt {i j : ℕ} (h : info.arraysInfoMap[A]? = some [rows, cols])
    (hp : info.getAllocatedReg pointer = A) (hcols : 0 ≤ cols) (hlt : i * cols + j < 2 ^ 31) :
    info.elementOffset pointer i j = some (i * cols + j) := by
  have hmul : 0 ≤ (i : ℤ) * cols := Int.mul_nonneg (Int.natCast_nonneg i) hcols
  rw [elementOffset_of_sizes h hp, CInt.mul, CInt.checked_of_nonneg hmul (by omega),
    Option.bind_some, CInt.add, CInt.checked_of_nonneg (by omega) hlt]

/-- There are no more elements than rows. -/
theorem ElementsPlaced.mul_le (h : info.ElementsPlaced A pointer R C) {size : ℤ}
    (hsize : info.getArraySize A = some size) : R * C ≤ size.toNat := by
  obtain ⟨size', hsize', hin⟩ := h.inRange
  obtain rfl : size = size' := Option.some.inj (hsize.symm.trans hsize')
  have hcard := Finset.card_le_card_of_injOn (s := Finset.range R ×ˢ Finset.range C) (t := Finset.Ico 0 size)
    (fun p => (info.elementOffset pointer p.1 p.2).getD 0) ?_ ?_
  · rwa [Finset.card_product, Finset.card_range, Finset.card_range, Int.card_Ico, Int.sub_zero] at hcard
  · rintro ⟨i, j⟩ hp
    rw [Finset.mem_coe, Finset.mem_product, Finset.mem_range, Finset.mem_range] at hp
    obtain ⟨o, ho, h0, hlt⟩ := hin i hp.1 j hp.2
    simp only [Finset.mem_coe, Finset.mem_Ico, ho, Option.getD_some]
    exact ⟨h0, hlt⟩
  · rintro ⟨i, j⟩ hp ⟨i', j'⟩ hp' heq
    rw [Finset.mem_coe, Finset.mem_product, Finset.mem_range, Finset.mem_range] at hp hp'
    obtain ⟨o, ho, -⟩ := hin i hp.1 j hp.2
    obtain ⟨o', ho', -⟩ := hin i' hp'.1 j' hp'.2
    simp only [ho, ho', Option.getD_some] at heq
    obtain ⟨rfl, rfl⟩ := h.injective i hp.1 j hp.2 i' hp'.1 j' hp'.2 (by rw [ho, ho', heq])
    rfl

/-- **The elements of a matrix `T A[R][C]` have positions of their own among the rows allocated
exactly when it is square** and their number is an `int`. `info'` is what is known when a pointer
into the matrix is used. -/
theorem elementsPlaced_iff (hR : 2 ≤ R) (hC : 2 ≤ C) (hmem : (A, .array R (.array C elementType)) ∈ BB)
    (hnodup : (BB.map (·.1)).Nodup) (hfresh : info.arraysInfoMap[A]? = none)
    (hinfo : info'.arraysInfoMap[A]? = (info.parseAllocaInstructions BB).arraysInfoMap[A]?)
    (hp : info'.getAllocatedReg pointer = A) :
    info'.ElementsPlaced A pointer R C ↔ R = C ∧ R * C < 2 ^ 31 := by
  have hsizes : info'.arraysInfoMap[A]? = some [CInt.ofUInt64 C, CInt.ofUInt64 R] := by
    rw [hinfo, sizes_of_alloca hmem hnodup hfresh]
    rfl
  -- in both directions the sizes are those of the declaration
  have hdecl : R * C < 2 ^ 31 → info'.arraysInfoMap[A]? = some [(C : ℤ), (R : ℤ)] := by
    intro hlt
    have hRlt : R < 2 ^ 31 := Nat.lt_of_le_of_lt (Nat.le_mul_of_pos_right R (by omega)) hlt
    have hClt : C < 2 ^ 31 := Nat.lt_of_le_of_lt (Nat.le_mul_of_pos_left C (by omega)) hlt
    rw [hsizes, CInt.ofUInt64_of_lt hRlt, CInt.ofUInt64_of_lt hClt]
  constructor
  · intro hplaced
    have hlt : R * C < 2 ^ 31 := by
      obtain ⟨size, hsize, -⟩ := hplaced.inRange
      have hle := hplaced.mul_le hsize
      rw [getArraySize_of_sizes hsizes] at hsize
      obtain ⟨heq, -, hmax⟩ := CInt.checked_eq_some.mp hsize
      rw [← heq] at hmax
      generalize R * C = n at hle ⊢
      omega
    have hs := hdecl hlt
    refine ⟨Nat.le_antisymm ?_ ?_, hlt⟩
    · -- the last element is in range
      obtain ⟨size, hsize, hin⟩ := hplaced.inRange
      rw [getArraySize_of_sizes hs] at hsize
      obtain ⟨rfl, -⟩ := CInt.checked_eq_some.mp hsize
      obtain ⟨o, ho, -, hmax⟩ := hin (R - 1) (by omega) (C - 1) (by omega)
      rw [elementOffset_eq_some hs hp ho] at hmax
      by_contra hnot
      obtain ⟨r, rfl⟩ : ∃ r, R = r + 1 := ⟨R - 1, by omega⟩
      obtain ⟨c, rfl⟩ : ∃ c, C = c + 1 := ⟨C - 1, by omega⟩
      push_cast [Nat.add_sub_cancel] at hmax
      nlinarith
    · -- the elements `[0][R]` and `[1][0]` have the same position
      by_contra hnot
      have hsame : info'.elementOffset pointer 0 R = info'.elementOffset pointer 1 0 := by
        rw [elementOffset_of_lt hs hp (Int.natCast_nonneg R) (by push_cast; nlinarith),
          elementOffset_of_lt hs hp (Int.natCast_nonneg R) (by push_cast; nlinarith)]
        push_cast
        rw [Int.zero_mul, Int.zero_add, Int.one_mul, Int.add_zero]
      exact absurd (hplaced.injective 0 (by omega) R (by omega) 1 (by omega) 0 (by omega) hsame).1 (by decide)
  · rintro ⟨rfl, hlt⟩
    have hs := hdecl hlt
    have hltZ : (R : ℤ) * R < 2 ^ 31 := by exact_mod_cast hlt
    have hbound : ∀ i < R, ∀ j < R, (i : ℤ) * R + j < R * R := by
      intro i hi j hj
      have : i * R + j < R * R := by nlinarith
      exact_mod_cast this
    have hoff : ∀ i < R, ∀ j < R, info'.elementOffset pointer i j = some ((i : ℤ) * R + j) := fun i hi j hj =>
      elementOffset_of_lt hs hp (Int.natCast_nonneg R) ((hbound i hi j hj).trans hltZ)
    refine ⟨⟨(R : ℤ) * R, ?_, fun i hi j hj => ⟨_, hoff i hi j hj, ?_, hbound i hi j hj⟩⟩, ?_⟩
    · rw [getArraySize_of_sizes hs, CInt.mul, CInt.checked_of_nonneg _ hltZ]
      exact Int.mul_nonneg (Int.natCast_nonneg R) (Int.natCast_nonneg R)
    · exact Int.add_nonneg (Int.mul_nonneg (Int.natCast_nonneg i) (Int.natCast_nonneg R)) (Int.natCast_nonneg j)
    · intro i hi j hj i' hi' j' hj' heq
      rw [hoff i hi j hj, hoff i' hi' j' hj', Option.some.injEq] at heq
      have hnat : i * R + j = i' * R + j' := by exact_mod_cast heq
      have hdiv : i = i' := by
        have hdiv := congrArg (· / R) hnat
        simpa [Nat.mul_comm i R, Nat.mul_comm i' R, Nat.mul_add_div (show 0 < R by omega),
          Nat.div_eq_of_lt hj, Nat.div_eq_of_lt hj'] using hdiv
      subst hdiv
      exact ⟨rfl, Nat.add_left_cancel hnat⟩

/-- Nothing has been parsed. -/
def empty : CollectInfo :=
  { aliasInfoMap := ∅, arraysInfoMap := ∅, loopBodyList := [], iteratorsAliasMap := ∅, combinedIterators := []
    PIT := ∅ }

/-- The elements of a matrix of two rows and two columns are placed. -/
theorem elementsPlaced_iff_twoByTwo :
    (empty.parseAllocaInstructions [(16, .array 2 (.array 2 .other))]).ElementsPlaced 16 16 2 2 :=
  (elementsPlaced_iff (by decide) (by decide) (List.mem_singleton.mpr rfl) (by decide)
    (by decide +kernel) rfl (by decide +kernel)).mpr (by decide)

/-- Of a matrix of two rows and three columns, `[0][2]` and `[1][0]` have the same position. -/
theorem two_by_three_shared :
    (empty.parseAllocaInstructions [(16, .array 2 (.array 3 .other))]).elementOffset 16 0 2 = some 2 ∧
      (empty.parseAllocaInstructions [(16, .array 2 (.array 3 .other))]).elementOffset 16 1 0 = some 2 ∧
      ¬ (empty.parseAllocaInstructions [(16, .array 2 (.array 3 .other))]).ElementsPlaced 16 16 2 3 := by
  have h02 : (empty.parseAllocaInstructions [(16, .array 2 (.array 3 .other))]).elementOffset 16 0 2 = some 2 := by
    decide +kernel
  have h10 : (empty.parseAllocaInstructions [(16, .array 2 (.array 3 .other))]).elementOffset 16 1 0 = some 2 := by
    decide +kernel
  refine ⟨h02, h10, fun h => ?_⟩
  exact absurd (h.injective 0 (by decide) 2 (by decide) 1 (by decide) 0 (by decide) (h02.trans h10.symm)).1
    (by decide)

end CollectInfo

end Octantis
