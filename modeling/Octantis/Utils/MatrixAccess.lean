import Octantis.Utils.AddressList

/-!
# The accesses to a matrix

The rows that `shapeAddressList` selects for `A[i + c][j + d]` and `A[j + c][i + d]` in a
nest of two loops, `i` the outer iterator and `j` the inner one, and the rows of the
elements that the program accesses.

## The model

A loop is the initial value, the increment and the number of the iterations of its
iterator. The pointer info is filled as `setPointerInfo` does (`Filled`). The element
`[r][s]` is in the row `r * C + s` of the list of the array, for rows of length `C`.

## What is proved

`shapeAddressList_iff`: the rows are selected in program order when the outer iterator is in
the first subscript; when it is in the second, `shapeAddressList` goes over the matrix
with the inner iterator in its outer loop, and the order is that of the program only where
the two subscripts have the same values.
-/

namespace Octantis

open Lib CollectInfo

/-- A loop with constant bounds, by the values of its iterator. -/
structure CountedLoop where
  /-- The register of the iterator. -/
  iterator : Reg
  /-- Its initial value. -/
  initValue : ℤ
  /-- Its increment. -/
  increment : ℤ
  /-- The number of iterations. -/
  iterations : ℕ
  deriving DecidableEq, Repr

namespace CountedLoop

/-- The value of the iterator in an iteration. -/
def value (l : CountedLoop) (k : ℕ) : ℤ := l.initValue + l.increment * k

/-- The loop is recorded with its own values, its bounds being constants. -/
structure Recorded (l : CountedLoop) (LIT : LoopInfoTable) (info : LoopInfo) : Prop where
  getLoopInfo : LIT.getLoopInfo l.iterator = some info
  initValue : info.iteratorInitValue = l.initValue
  increment : info.iteratorIncrement = l.increment
  iterations : info.iterations = l.iterations
  constant : info.isInitValueConstant = true ∧ info.isFinalValueConstant = true

end CountedLoop

/-- An access to a matrix in a nest of two loops. -/
structure MatrixAccess where
  /-- The outer loop. -/
  outer : CountedLoop
  /-- The inner loop. -/
  inner : CountedLoop
  /-- The inner iterator is in the first subscript. -/
  transposed : Bool
  /-- The constant of the first subscript. -/
  c : ℤ
  /-- The constant of the second subscript. -/
  d : ℤ
  /-- The number of rows of the matrix. -/
  R : ℕ
  /-- Their length. -/
  C : ℕ

namespace MatrixAccess

variable (A : MatrixAccess)

/-- The loop of the first subscript. -/
def first : CountedLoop := if A.transposed then A.inner else A.outer

/-- The loop of the second subscript. -/
def second : CountedLoop := if A.transposed then A.outer else A.inner

/-- The first subscript, in an iteration of the outer and one of the inner loop. -/
def row (p q : ℕ) : ℤ := A.first.value (if A.transposed then q else p) + A.c

/-- The second subscript. -/
def col (p q : ℕ) : ℤ := A.second.value (if A.transposed then p else q) + A.d

/-- The increments are positive and the elements accessed are elements of the matrix. -/
structure WellFormed : Prop where
  outer : 0 < A.outer.increment
  inner : 0 < A.inner.increment
  inRange : ∀ p < A.outer.iterations, ∀ q < A.inner.iterations,
    (0 ≤ A.row p q ∧ A.row p q < A.R) ∧ 0 ≤ A.col p q ∧ A.col p q < A.C

/-- The positions of the elements accessed, in program order. -/
def programOrder : List ℤ :=
  (List.range A.outer.iterations).flatMap fun p =>
    (List.range A.inner.iterations).map fun q => A.row p q * A.C + A.col p q

/-- The two indexes. -/
def indexes : IndexInfo × IndexInfo :=
  (⟨[A.first.iterator], A.c, A.c ≠ 0⟩, ⟨[A.second.iterator], A.d, A.d ≠ 0⟩)

/-- The pointer info of the access. -/
structure Filled (LIT : LoopInfoTable) (pis : PointerInfoStruct) : Prop where
  recorded : ∃ info, A.first.Recorded LIT info
  recorded' : ∃ info, A.second.Recorded LIT info
  extent : matrixExtent LIT A.indexes.1 A.indexes.2 = some pis.extent
  arrayCols : pis.arrayCols = A.C
  apmType : pis.pointerAccessPattern.apmType = if A.transposed then .colMajor else .rowMajor
  initZeros : pis.pointerAccessPattern.initZerosM = 0

/-- The two subscripts of a transposed access have the same values, in the same order, or there is
only one column, or nothing is accessed. -/
def SameRanges : Prop :=
  A.outer.iterations = 0 ∨ A.inner.iterations = 0 ∨ A.C = 1 ∨
    A.inner.initValue + A.c = A.outer.initValue + A.d ∧ A.outer.iterations = A.inner.iterations ∧
      (A.outer.iterations = 1 ∨ A.outer.increment = A.inner.increment)

instance : Decidable A.SameRanges := by
  unfold SameRanges
  infer_instance

variable {A} {LIT : LoopInfoTable} {pis : PointerInfoStruct} {α : Type} {L : List α}

/-- The extent of the pointer. -/
theorem Filled.eq (h : A.Filled LIT pis) : ∃ e, pis.extent = some e ∧ e.spacingX = A.second.increment ∧
    e.spacingY = A.first.increment ∧ e.offsetX = A.second.initValue + A.d ∧
    e.offsetY = A.first.initValue + A.c ∧
    e.stopX = stop e.offsetX e.spacingX A.second.iterations ∧
    e.stopY = stop e.offsetY e.spacingY A.first.iterations := by
  obtain ⟨l1, h1⟩ := h.recorded
  obtain ⟨l3, h3⟩ := h.recorded'
  have hextent := h.extent
  simp only [matrixExtent, indexes, h1.getLoopInfo, h3.getLoopInfo, Option.bind_eq_bind,
    Option.bind_some, singleExtent, h1.constant.1, h1.constant.2, h3.constant.1, h3.constant.2,
    Bool.and_self, if_true] at hextent
  refine ⟨_, (Option.some.inj hextent).symm, h3.increment, h1.increment, ?_, ?_, ?_, ?_⟩
  · simp only [h3.initValue]
  · simp only [h1.initValue]
  · simp only [h3.iterations]
  · simp only [h1.iterations]

/-- The positions that `shapeAddressList` goes over. -/
def shaped (A : MatrixAccess) : List ℤ :=
  (List.range (A.first.iterations * A.second.iterations)).map fun k =>
    AddressList.position (if A.transposed then .colMajor else .rowMajor)
      (A.first.initValue + A.c + A.first.increment * (k / A.second.iterations : ℕ))
      (A.second.initValue + A.d + A.second.increment * (k % A.second.iterations : ℕ)) A.C

theorem WellFormed.increment_pos (hA : A.WellFormed) : 0 < A.first.increment ∧ 0 < A.second.increment := by
  cases h : A.transposed <;> simp [first, second, h, hA.outer, hA.inner]

theorem shapeAddressList_eq (hA : A.WellFormed) (h : A.Filled LIT pis) :
    AddressList.shapeAddressList pis L = A.shaped.mapM (AddressList.rowAt (AddressList.reachable L)) := by
  obtain ⟨e, he, hX, hY, hoffX, hoffY, hstopX, hstopY⟩ := h.eq
  have hap : pis.pointerAccessPattern.apmType = .rowMajor ∨ pis.pointerAccessPattern.apmType = .colMajor := by
    rw [h.apmType]
    cases A.transposed <;> simp
  have hshape : AddressList.shapeAddressList pis L =
      AddressList.shapeRows pis.pointerAccessPattern.apmType e pis.arrayCols L := by
    unfold AddressList.shapeAddressList
    rcases hap with hap | hap <;>
      simp only [hap, he, Option.bind_some, h.initZeros, if_neg (show ¬ (0 : ℤ) = 2 by decide)]
  obtain ⟨hfirst, hsecond⟩ := hA.increment_pos
  rw [hshape, AddressList.shapeRows_eq hap L (m := A.first.iterations) (n := A.second.iterations)
    (by rw [h.arrayCols]; exact Int.natCast_nonneg _) (hX ▸ hsecond) (hY ▸ hfirst) ?_ hstopX hstopY,
      h.arrayCols, h.apmType,
    hX, hY, hoffX, hoffY]
  · rfl
  · intro hm hn
    have houter : 0 < A.outer.iterations ∧ 0 < A.inner.iterations := by
      cases ht : A.transposed <;> simp only [first, second, ht, if_true, Bool.false_eq_true,
        if_false] at hm hn
      · exact ⟨hm, hn⟩
      · exact ⟨hn, hm⟩
    obtain ⟨⟨hrow, -⟩, hcol, -⟩ := hA.inRange 0 houter.1 0 houter.2
    simp only [row, col, CountedLoop.value, ite_self, Nat.cast_zero, mul_zero, add_zero] at hrow hcol
    rw [hoffX, hoffY]
    exact ⟨hcol, hrow⟩

/-- The program order, over the number of the iteration. -/
theorem programOrder_eq (A : MatrixAccess) : A.programOrder =
    (List.range (A.outer.iterations * A.inner.iterations)).map fun k =>
      A.row (k / A.inner.iterations) (k % A.inner.iterations) * A.C +
        A.col (k / A.inner.iterations) (k % A.inner.iterations) :=
  flatMap_range _ _ _

/-- With the outer iterator in the first subscript the positions are those of the program. -/
theorem shaped_of_not_transposed (h : A.transposed = false) : A.shaped = A.programOrder := by
  rw [programOrder_eq, shaped]
  simp only [row, col, first, second, h, Bool.false_eq_true, if_false, AddressList.position,
    CountedLoop.value]
  refine List.map_congr_left fun k _ => ?_
  rw [if_neg (by decide)]
  ring

/-- **Two loops of a square, one inside the other and the other way round**, over the rows of length
`C`. -/
theorem transposed_iff {X Y a b C : ℤ} {m n : ℕ} (ha : 0 < a) (hb : 0 < b) (hm : 0 < m) (hn : 0 < n)
    (hX : 0 ≤ X)
    (hC : X + a * ((m : ℤ) - 1) < C) :
    (∀ k < m * n, (X + a * (k % m : ℕ)) * C + (Y + b * (k / m : ℕ)) =
      (Y + b * (k % n : ℕ)) * C + (X + a * (k / n : ℕ))) ↔ C = 1 ∨ Y = X ∧ m = n ∧ (m = 1 ∨ a = b) := by
  constructor
  · intro h
    refine or_iff_not_imp_left.mpr fun hC1 => ?_
    have hC2 : 2 ≤ C := by
      have := mul_nonneg ha.le (show (0 : ℤ) ≤ m - 1 by omega)
      omega
    have hstart : Y = X := by
      have h0 := h 0 (Nat.mul_pos hm hn)
      simp only [Nat.zero_mod, Nat.zero_div, Nat.cast_zero, mul_zero, add_zero] at h0
      have hprod : (X - Y) * (C - 1) = 0 := by linarith
      rcases Int.mul_eq_zero.mp hprod with h0 | h0
      · omega
      · exact absurd h0 (by omega)
    subst hstart
    -- the first iteration in which one of the loops starts anew tells the two nests apart
    have hone : ∀ {k : ℕ} {u : ℤ}, 0 < u → 0 < k → u * (k * C) ≠ u := by
      intro k u hu hk heq
      have hk' : (1 : ℤ) ≤ k := by exact_mod_cast hk
      have : k * C = 1 := mul_left_cancel₀ hu.ne' (heq.trans (mul_one u).symm)
      nlinarith
    have heq : m = n := by
      rcases Nat.lt_trichotomy m n with hlt | heq | hgt
      · have hk := h m (by nlinarith)
        rw [Nat.mod_self, Nat.div_self hm, Nat.mod_eq_of_lt hlt, Nat.div_eq_of_lt hlt] at hk
        exact absurd (by push_cast at hk; linarith) (hone (k := m) hb hm)
      · exact heq
      · have hk := h n (by nlinarith)
        rw [Nat.mod_self, Nat.div_self hn, Nat.mod_eq_of_lt hgt, Nat.div_eq_of_lt hgt] at hk
        exact absurd (by push_cast at hk; linarith) (hone (k := n) ha hn)
    refine ⟨rfl, heq, or_iff_not_imp_left.mpr fun hm1 => ?_⟩
    subst heq
    have hk := h 1 (by nlinarith [Nat.lt_of_le_of_ne hm (Ne.symm hm1)])
    rw [Nat.mod_eq_of_lt (by omega), Nat.div_eq_of_lt (by omega)] at hk
    have hab : a * C = b * C := by
      push_cast at hk
      linarith
    exact mul_right_cancel₀ (by omega) hab
  · rintro (rfl | ⟨rfl, rfl, rfl | rfl⟩) k hk
    · -- the only column is the first, in the only iteration of its loop
      have hm1 : m = 1 := by
        by_contra hne
        have : (2 : ℤ) ≤ m := by omega
        nlinarith
      subst hm1
      rw [Nat.one_mul] at hk
      rw [Nat.mod_one, Nat.div_one, Nat.mod_eq_of_lt hk, Nat.div_eq_of_lt hk]
      ring
    · obtain rfl : k = 0 := by omega
      simp
    · ring

theorem shaped_of_transposed (hA : A.WellFormed) (h : A.transposed = true) :
    A.shaped = A.programOrder ↔ A.SameRanges := by
  rw [programOrder_eq, shaped]
  simp only [row, col, first, second, h, if_true, AddressList.position, CountedLoop.value]
  unfold SameRanges
  rcases Nat.eq_zero_or_pos A.outer.iterations with hm | hm
  · simp [hm]
  rcases Nat.eq_zero_or_pos A.inner.iterations with hn | hn
  · simp [hn]
  rw [Nat.mul_comm A.inner.iterations, List.map_inj_left]
  simp only [List.mem_range]
  have hrange := hA.inRange (A.outer.iterations - 1) (by omega) 0 hn
  have hrange0 := hA.inRange 0 hm 0 hn
  simp only [row, col, first, second, h, if_true, CountedLoop.value] at hrange hrange0
  have hiff := transposed_iff (X := A.outer.initValue + A.d) (Y := A.inner.initValue + A.c) (C := A.C) hA.outer hA.inner
    hm hn (by simpa using hrange0.2.1) (by
      have := hrange.2.2
      push_cast [Nat.cast_sub (show 1 ≤ A.outer.iterations from hm)] at this
      linarith)
  have hC : (A.C : ℤ) = 1 ↔ A.C = 1 := by omega
  rw [hC] at hiff
  rw [or_iff_right (by omega), or_iff_right (by omega), ← hiff]
  refine forall_congr' fun k => imp_congr_right fun _ => ?_
  constructor
  · intro heq
    linarith
  · intro heq
    linarith

/-- Every element accessed has a row. -/
theorem WellFormed.isSome_rowAt (hA : A.WellFormed) (hL : L.length = A.R * A.C) {n : ℤ}
    (hn : n ∈ A.programOrder) :
    (AddressList.rowAt L n).isSome := by
  simp only [programOrder, List.mem_flatMap, List.mem_map, List.mem_range] at hn
  obtain ⟨p, hp, q, hq, rfl⟩ := hn
  obtain ⟨⟨hrow, hrow'⟩, hcol, hcol'⟩ := hA.inRange p hp q hq
  have h0 : 0 ≤ A.row p q * A.C + A.col p q := by positivity
  have hlt : A.row p q * A.C + A.col p q < A.R * A.C := by nlinarith
  rw [AddressList.rowAt, if_pos h0,
    List.getElem?_eq_getElem (by rw [hL]; zify; rw [Int.toNat_of_nonneg h0]; exact hlt)]
  rfl

/-- **`shapeAddressList` selects the rows of the elements in program order exactly when** their
positions are values of type `int` and, for a transposed access, the two subscripts have the same
values. -/
theorem shapeAddressList_iff (hA : A.WellFormed) (h : A.Filled LIT pis) (hL : L.length = A.R * A.C) (hnodup : L.Nodup) :
    (∃ rows, AddressList.shapeAddressList pis L = some rows ∧
      rows.map some = A.programOrder.map (AddressList.rowAt L)) ↔
      (∀ n ∈ A.programOrder, n < 2 ^ 31) ∧ (A.transposed = true → A.SameRanges) := by
  rw [shapeAddressList_eq hA h, AddressList.selected_iff hnodup fun n hn => hA.isSome_rowAt hL hn, and_comm]
  refine and_congr_right fun _ => ?_
  cases ht : A.transposed with
  | false => simp [shaped_of_not_transposed ht]
  | true => rw [shaped_of_transposed hA ht]; simp

/-- What is known of two loops that start at zero. -/
def squareLoops (m n : ℕ) : LoopInfoTable :=
  { nestedLoopMap := ∅
    loopInfoMap :=
      ((∅ : Std.ExtTreeMap Reg LoopInfo).insert 4 ⟨[], 0, m, 1, m, nullptr, nullptr, true, true⟩).insert 8
        ⟨[], 0, n, 1, n, nullptr, nullptr, true, true⟩ }

/-- `A[j][i]`, `i < m` and `j < n`, in a matrix of three rows and three columns. -/
def transposedAccess (m n : ℕ) : MatrixAccess := ⟨⟨4, 0, 1, m⟩, ⟨8, 0, 1, n⟩, true, 0, 0, 3, 3⟩

/-- Its pointer info. -/
def transposedInfo (m n : ℕ) : PointerInfoStruct :=
  ⟨8, 3, 3, some ⟨-1, -1, -1, -1, 1, 1, 0, 0, m - 1, n - 1, 1, n * m⟩, ⟨2, 2, [0, 1, 1, 0], 0, 0, .colMajor⟩⟩

theorem getLoopInfo_squareLoops (m n : ℕ) :
    (squareLoops m n).getLoopInfo 4 = some ⟨[], 0, m, 1, m, nullptr, nullptr, true, true⟩ ∧
      (squareLoops m n).getLoopInfo 8 = some ⟨[], 0, n, 1, n, nullptr, nullptr, true, true⟩ := by
  simp only [squareLoops, LoopInfoTable.getLoopInfo, Std.ExtTreeMap.getElem?_insert, Std.compare_eq_iff_eq]
  exact ⟨rfl, rfl⟩

theorem filled_transposed (m n : ℕ) : (transposedAccess m n).Filled (squareLoops m n)
    (transposedInfo m n) := by
  obtain ⟨h4, h8⟩ := getLoopInfo_squareLoops m n
  refine ⟨⟨_, h8, rfl, rfl, rfl, rfl, rfl⟩, ⟨_, h4, rfl, rfl, rfl, rfl, rfl⟩, ?_, rfl, rfl, rfl⟩
  simp [matrixExtent, indexes, first, second, transposedAccess, h4, h8, singleExtent, transposedInfo, stop]

/-- The rows of `A[j][i]`, with as many iterations of `j` as of `i`. -/
theorem shapeAddressList_iff_square : ∃ rows, AddressList.shapeAddressList (transposedInfo 3 3) (List.range 9) = some rows ∧
    rows.map some = (transposedAccess 3 3).programOrder.map (AddressList.rowAt (List.range 9)) :=
  (shapeAddressList_iff ⟨by decide, by decide, by decide⟩ (filled_transposed 3 3) (by decide) (by decide)).mpr
    ⟨by decide, by decide⟩

/-- With two iterations of `i` and three of `j` the program goes down two columns, and
`shapeAddressList` along three rows. -/
theorem transposed_two_by_three : (transposedAccess 2 3).WellFormed ∧
    (transposedAccess 2 3).Filled (squareLoops 2 3) (transposedInfo 2 3) ∧
      (transposedAccess 2 3).programOrder.mapM (AddressList.rowAt (List.range 9)) = some [0, 3, 6, 1, 4, 7] ∧
        AddressList.shapeAddressList (transposedInfo 2 3) (List.range 9) = some [0, 3, 1, 4, 2, 5] :=
  ⟨⟨by decide, by decide, by decide⟩, filled_transposed 2 3, by decide, by decide⟩

end MatrixAccess

end Octantis
