import Octantis.Lib.Strides
import Octantis.Utils.MatrixAccess

/-!
# The windows over a matrix

The rows that `shapeAddressList` selects for `A[p + q][r + s]` in a nest of four loops,
when each subscript adds the iterator of one of the two outer loops and the iterator of
one of the two inner ones, and the rows of the elements that the program accesses.

## The model

The four patterns are the four ways to distribute the iterators; each subscript may have
its two iterators in either order. The sizes of the array are the ones that the collector
records: for `A[R][C]` it has `C` rows and `R` columns.

## What is proved

`shapeAddressList_window_iff`: the rows are selected in program order exactly when the
nest of `shapeAddressList` and that of the program go over the matrix with the same
strides.
-/

namespace Octantis

open Lib CollectInfo

/-- An access to a matrix in a nest of four loops. -/
structure WindowAccess where
  /-- The first loop. -/
  outer : CountedLoop
  /-- The loop in it. -/
  outer' : CountedLoop
  /-- The loop in that one. -/
  inner : CountedLoop
  /-- The innermost loop. -/
  inner' : CountedLoop
  /-- The iterator of the first loop is in the first subscript, and that of the second loop in the second. -/
  rowOuter : Bool
  /-- The iterator of the third loop is in the first subscript, and that of the fourth in the second. -/
  rowInner : Bool
  /-- The first subscript has the iterator of the inner loop first. -/
  swapped : Bool
  /-- The second subscript has. -/
  swapped' : Bool
  /-- The number of rows of the matrix. -/
  R : ℕ
  /-- Their length. -/
  C : ℕ

namespace WindowAccess

variable (A : WindowAccess)

/-- The outer loop of the first subscript. -/
def outerRow : CountedLoop := if A.rowOuter then A.outer else A.outer'

/-- The outer loop of the second subscript. -/
def outerCol : CountedLoop := if A.rowOuter then A.outer' else A.outer

/-- The inner loop of the first subscript. -/
def innerRow : CountedLoop := if A.rowInner then A.inner else A.inner'

/-- The inner loop of the second subscript. -/
def innerCol : CountedLoop := if A.rowInner then A.inner' else A.inner

/-- The first subscript, in an iteration of each loop. -/
def row (p q u v : ℕ) : ℤ :=
  A.outerRow.value (if A.rowOuter then p else q) + A.innerRow.value (if A.rowInner then u else v)

/-- The second subscript. -/
def col (p q u v : ℕ) : ℤ :=
  A.outerCol.value (if A.rowOuter then q else p) + A.innerCol.value (if A.rowInner then v else u)

/-- The increments are positive and the elements accessed are elements of the matrix. -/
structure WellFormed : Prop where
  outer : 0 < A.outer.increment
  outer' : 0 < A.outer'.increment
  inner : 0 < A.inner.increment
  inner' : 0 < A.inner'.increment
  inRange : ∀ p < A.outer.iterations, ∀ q < A.outer'.iterations, ∀ u < A.inner.iterations, ∀ v < A.inner'.iterations,
    (0 ≤ A.row p q u v ∧ A.row p q u v < A.R) ∧ 0 ≤ A.col p q u v ∧ A.col p q u v < A.C

/-- The positions of the elements accessed, in program order. -/
def programOrder : List ℤ :=
  (List.range A.outer.iterations).flatMap fun p => (List.range A.outer'.iterations).flatMap fun q =>
    (List.range A.inner.iterations).flatMap fun u => (List.range A.inner'.iterations).map fun v =>
      A.row p q u v * A.C + A.col p q u v

/-- The first iterator of the first index. -/
def it1 : CountedLoop := if A.swapped then A.innerRow else A.outerRow

/-- The second iterator of the first index. -/
def it2 : CountedLoop := if A.swapped then A.outerRow else A.innerRow

/-- The first iterator of the second index. -/
def it3 : CountedLoop := if A.swapped' then A.innerCol else A.outerCol

/-- The second iterator of the second index. -/
def it4 : CountedLoop := if A.swapped' then A.outerCol else A.innerCol

/-- The two indexes. -/
def indexes : IndexInfo × IndexInfo :=
  (⟨[A.it1.iterator, A.it2.iterator], 0, true⟩, ⟨[A.it3.iterator, A.it4.iterator], 0, true⟩)

/-- The pattern. -/
def apmType : ArrayAccessPattern :=
  match A.rowOuter, A.rowInner with
  | true, true => .rowMajorSet2RowMajor
  | true, false => .colMajorSet2RowMajor
  | false, true => .rowMajorSet2ColMajor
  | false, false => .colMajorSet2ColMajor

/-- The pointer info of the access. -/
structure Filled (LIT : LoopInfoTable) (pis : PointerInfoStruct) : Prop where
  recorded : ∀ l ∈ [A.it1, A.it2, A.it3, A.it4], ∃ info, l.Recorded LIT info
  extent : matrixExtent LIT A.indexes.1 A.indexes.2 = some pis.extent
  arrayRows : pis.arrayRows = A.C
  arrayCols : pis.arrayCols = A.R
  apmType : pis.pointerAccessPattern.apmType = A.apmType

/-- The first position that the program accesses. -/
def programBase : ℤ :=
  (A.outerRow.initValue + A.innerRow.initValue) * A.C + (A.outerCol.initValue + A.innerCol.initValue)

/-- The loops of the program, as strides over the positions. -/
def programLoops : List (ℕ × ℤ) :=
  [(A.outer.iterations, A.outer.increment * if A.rowOuter then A.C else 1),
    (A.outer'.iterations, A.outer'.increment * if A.rowOuter then 1 else A.C),
    (A.inner.iterations, A.inner.increment * if A.rowInner then A.C else 1),
    (A.inner'.iterations, A.inner'.increment * if A.rowInner then 1 else A.C)]

/-- The rows of a subset. -/
def setRows : ℤ := A.it2.iterations / A.it2.increment

/-- The columns of a subset. -/
def setCols : ℤ := A.it4.iterations / A.it4.increment

/-- The first position that `shapeAddressList` selects. -/
def selectedBase : ℤ :=
  (A.it1.initValue + A.it2.initValue) * (if A.rowInner then A.R else 1) +
    (A.it3.initValue + A.it4.initValue) * (if A.rowInner then 1 else A.R)

/-- The loops of `shapeAddressList`, as strides over the positions. The second ends where a set no
longer fits in the rows of the array, the last two at the sizes of a set. -/
def selectedLoops : List (ℕ × ℤ) :=
  [(A.it1.iterations, A.it1.increment * if A.rowInner then A.R else 1),
    (AddressList.trips (A.it3.initValue + A.it4.initValue) (A.C - A.setRows + 1) A.it3.increment,
      A.it3.increment * if A.rowInner then 1 else A.R),
    (AddressList.trips 0 A.setRows A.it2.increment, A.it2.increment * if A.rowOuter then A.R else 1),
    (AddressList.trips 0 A.setCols A.it4.increment, A.it4.increment * if A.rowOuter then 1 else A.R)]

variable {A} {LIT : LoopInfoTable} {pis : PointerInfoStruct} {α : Type} {L : List α}

/-! ### The positions -/

theorem programOrder_eq (A : WindowAccess) : A.programOrder = positions A.programBase A.programLoops := by
  simp only [programLoops, positions, programOrder, List.map_eq_flatMap]
  refine List.flatMap_congr fun p _ => List.flatMap_congr fun q _ => List.flatMap_congr fun u _ =>
    List.flatMap_congr fun v _ => ?_
  rw [List.singleton_inj, programBase]
  unfold row col CountedLoop.value outerRow outerCol innerRow innerCol
  cases A.rowOuter <;> cases A.rowInner <;> simp only [Bool.false_eq_true, if_true, if_false] <;> ring

theorem isSet2_apmType (A : WindowAccess) : AddressList.IsSet2 A.apmType := by
  unfold apmType
  cases A.rowOuter <;> cases A.rowInner <;> simp [AddressList.IsSet2]

/-- The increments of the loops of the two indexes. -/
theorem WellFormed.increment_pos (hA : A.WellFormed) : 0 < A.it1.increment ∧ 0 < A.it2.increment ∧
    0 < A.it3.increment ∧ 0 < A.it4.increment := by
  have := hA.outer
  have := hA.outer'
  have := hA.inner
  have := hA.inner'
  unfold it1 it2 it3 it4 outerRow outerCol innerRow innerCol
  refine ⟨?_, ?_, ?_, ?_⟩ <;> split_ifs <;> assumption

/-- The extent of the pointer. -/
theorem Filled.eq (hA : A.WellFormed) (h : A.Filled LIT pis) :
    ∃ e, pis.extent = some e ∧ e.setRows = A.setRows ∧
    e.setCols = A.setCols ∧ e.spacingInSubsetX = A.it4.increment ∧ e.spacingInSubsetY = A.it2.increment ∧
      e.spacingX = A.it3.increment ∧ e.spacingY = A.it1.increment ∧
      e.offsetX = A.it3.initValue + A.it4.initValue ∧
        e.offsetY = A.it1.initValue + A.it2.initValue ∧
        e.stopY = stop e.offsetY e.spacingY A.it1.iterations := by
  obtain ⟨l1, h1⟩ := h.recorded A.it1 (by simp)
  obtain ⟨l2, h2⟩ := h.recorded A.it2 (by simp)
  obtain ⟨l3, h3⟩ := h.recorded A.it3 (by simp)
  obtain ⟨l4, h4⟩ := h.recorded A.it4 (by simp)
  obtain ⟨-, hpos2, -, hpos4⟩ := hA.increment_pos
  have hrows : setLength l2 = some A.setRows := by
    rw [setLength, h2.increment, if_neg hpos2.ne', h2.iterations,
      Int.tdiv_eq_ediv_of_nonneg (Int.natCast_nonneg _)]
    rfl
  have hcols : setLength l4 = some A.setCols := by
    rw [setLength, h4.increment, if_neg hpos4.ne', h4.iterations,
      Int.tdiv_eq_ediv_of_nonneg (Int.natCast_nonneg _)]
    rfl
  have hextent := h.extent
  simp only [matrixExtent, indexes, h1.getLoopInfo, h2.getLoopInfo, h3.getLoopInfo, h4.getLoopInfo,
    Option.bind_eq_bind, Option.bind_some, doubleExtent, hrows, hcols, Bool.and_self,
    if_true] at hextent
  refine ⟨_, (Option.some.inj hextent).symm, rfl, rfl, h4.increment, h2.increment, h3.increment,
    h1.increment, ?_, ?_, ?_⟩
  · simp only [h3.initValue, h4.initValue, add_zero]
  · simp only [h1.initValue, h2.initValue, add_zero]
  · simp only [h1.iterations]

/-- The positions of the elements that the counters select. -/
theorem map_positionInSubset {e : Extent} {m : ℕ} {arrayRows : ℤ} (A : WindowAccess) :
    (AddressList.subsetIndexes e m arrayRows).map
        (fun x => AddressList.positionInSubset A.apmType x.1 x.2.1 x.2.2.1 x.2.2.2 A.R) =
      positions (e.offsetY * (if A.rowInner then A.R else 1) + e.offsetX * (if A.rowInner then 1 else A.R))
        [(m, e.spacingY * if A.rowInner then A.R else 1),
          (AddressList.trips e.offsetX (arrayRows - e.setRows + 1) e.spacingX, e.spacingX * if A.rowInner then 1 else A.R),
          (AddressList.trips 0 e.setRows e.spacingInSubsetY, e.spacingInSubsetY * if A.rowOuter then A.R else 1),
          (AddressList.trips 0 e.setCols e.spacingInSubsetX, e.spacingInSubsetX * if A.rowOuter then 1 else A.R)] := by
  simp only [AddressList.subsetIndexes, positions, List.map_eq_flatMap, List.flatMap_assoc,
    List.flatMap_singleton]
  refine List.flatMap_congr fun p _ => List.flatMap_congr fun q _ => List.flatMap_congr fun u _ =>
    List.flatMap_congr fun v _ => ?_
  rw [List.singleton_inj, AddressList.positionInSubset]
  unfold apmType
  cases A.rowOuter <;> cases A.rowInner <;> simp <;> ring

/-- Every element accessed has a row. -/
theorem WellFormed.isSome_rowAt (hA : A.WellFormed) (hL : L.length = A.R * A.C) {n : ℤ}
    (hn : n ∈ A.programOrder) :
    (AddressList.rowAt L n).isSome := by
  simp only [programOrder, List.mem_flatMap, List.mem_map, List.mem_range] at hn
  obtain ⟨p, hp, q, hq, u, hu, v, hv, rfl⟩ := hn
  obtain ⟨⟨hrow, hrow'⟩, hcol, hcol'⟩ := hA.inRange p hp q hq u hu v hv
  have h0 : 0 ≤ A.row p q u v * A.C + A.col p q u v := by positivity
  have hlt : A.row p q u v * A.C + A.col p q u v < A.R * A.C := by nlinarith
  rw [AddressList.rowAt, if_pos h0,
    List.getElem?_eq_getElem (by rw [hL]; zify; rw [Int.toNat_of_nonneg h0]; exact hlt)]
  rfl

/-- The offsets are those of an element of the matrix. -/
theorem WellFormed.offset_nonneg (hA : A.WellFormed) (hne : A.programOrder ≠ []) :
    0 ≤ A.it1.initValue + A.it2.initValue ∧ 0 ≤ A.it3.initValue + A.it4.initValue := by
  obtain ⟨n, hn⟩ := List.exists_mem_of_ne_nil _ hne
  simp only [programOrder, List.mem_flatMap, List.mem_map, List.mem_range] at hn
  obtain ⟨p, hp, q, hq, u, hu, v, hv, -⟩ := hn
  obtain ⟨⟨hrow, -⟩, hcol, -⟩ := hA.inRange 0 (by omega) 0 (by omega) 0 (by omega) 0 (by omega)
  simp only [row, col, CountedLoop.value, ite_self, Nat.cast_zero, mul_zero, add_zero] at hrow hcol
  unfold it1 it2 it3 it4
  constructor <;> split_ifs <;> omega

/-- **The rows selected**, by the values of the counters. -/
theorem shapeAddressList_eq (hA : A.WellFormed) (h : A.Filled LIT pis) : ∃ e : Extent,
    AddressList.shapeAddressList pis L = (AddressList.subsetIndexes e A.it1.iterations A.C).mapM (fun x =>
      (AddressList.extractIteratorAdvancement A.apmType x.1 x.2.1 x.2.2.1 x.2.2.2 A.R).bind (AddressList.rowAt L)) ∧
    (AddressList.subsetIndexes e A.it1.iterations A.C).map
      (fun x => AddressList.positionInSubset A.apmType x.1 x.2.1 x.2.2.1 x.2.2.2 A.R) =
        positions A.selectedBase A.selectedLoops ∧
    (A.programOrder ≠ [] → ∀ x ∈ AddressList.subsetIndexes e A.it1.iterations A.C,
      0 ≤ x.1 ∧ 0 ≤ x.2.1 ∧ 0 ≤ x.2.2.1 ∧ 0 ≤ x.2.2.2) := by
  obtain ⟨e, he, hrows, hcols, hsX, hsY, hX, hY, hoffX, hoffY, hstopY⟩ := h.eq hA
  obtain ⟨hpos1, hpos2, hpos3, hpos4⟩ := hA.increment_pos
  refine ⟨e, ?_, ?_, ?_⟩
  · have hshape : AddressList.shapeAddressList pis L =
        AddressList.shapeSubsets A.apmType e pis.arrayRows pis.arrayCols L := by
      unfold AddressList.shapeAddressList
      rw [h.apmType]
      rcases A.isSet2_apmType with hap | hap | hap | hap <;> simp only [hap, he, Option.bind_some]
    rw [hshape, h.arrayRows, h.arrayCols,
      AddressList.shapeSubsets_eq L (hX ▸ hpos3) (hY ▸ hpos1) (hsX ▸ hpos4) (hsY ▸ hpos2) hstopY]
  · rw [map_positionInSubset, hrows, hcols, hsX, hsY, hX, hY, hoffX, hoffY]
    rfl
  · intro hne x hx
    obtain ⟨h0Y, h0X⟩ := hA.offset_nonneg hne
    simp only [AddressList.subsetIndexes, List.mem_flatMap, List.mem_map, hsX, hsY, hX, hY, hoffX,
      hoffY] at hx
    obtain ⟨p, -, q, -, u, -, v, -, rfl⟩ := hx
    exact ⟨by positivity, by positivity, by positivity, by positivity⟩

/-- **`shapeAddressList` selects the rows of the elements in program order exactly when** its nest
and that of the program go over the matrix with the same strides, and the positions are values of
type `int`. -/
theorem shapeAddressList_window_iff (hA : A.WellFormed) (h : A.Filled LIT pis) (hL : L.length = A.R * A.C)
    (hnodup : L.Nodup) :
    (∃ rows, AddressList.shapeAddressList pis L = some rows ∧
      rows.map some = A.programOrder.map (AddressList.rowAt L)) ↔
      shapeOf A.selectedBase A.selectedLoops = shapeOf A.programBase A.programLoops ∧
        ∀ n ∈ A.programOrder, n < 2 ^ 31 := by
  obtain ⟨e, hshape, hmap, hnonneg⟩ := shapeAddressList_eq (L := L) hA h
  rw [hshape, ← positions_eq_iff, ← hmap, ← programOrder_eq]
  by_cases hne : A.programOrder = []
  · -- nothing is accessed: no counter may have a value
    rw [hne]
    simp only [List.map_nil, List.map_eq_nil_iff, exists_eq_right, List.not_mem_nil, false_imp_iff,
      implies_true, and_true]
    cases AddressList.subsetIndexes e A.it1.iterations A.C with
    | nil => simp
    | cons x xs =>
      simp only [List.mapM_cons, Option.bind_eq_bind, Option.bind_eq_some_iff, reduceCtorEq,
        iff_false, not_exists, not_and]
      rintro _ _ _ _ h
      cases h
  · have hrows : (AddressList.subsetIndexes e A.it1.iterations A.C).mapM (fun x =>
        (AddressList.extractIteratorAdvancement A.apmType x.1 x.2.1 x.2.2.1 x.2.2.2 A.R).bind (AddressList.rowAt L)) =
        ((AddressList.subsetIndexes e A.it1.iterations A.C).map
          (fun x => AddressList.positionInSubset A.apmType x.1 x.2.1 x.2.2.1 x.2.2.2 A.R)).mapM
            (AddressList.rowAt (AddressList.reachable L)) := by
      rw [List.mapM_map]
      refine mapM_congr fun x hx => ?_
      obtain ⟨hi, hj, hk, hl⟩ := hnonneg hne x hx
      exact AddressList.extractIteratorAdvancement_subset A.isSet2_apmType L hi hj hk hl (Int.natCast_nonneg _)
    rw [hrows, AddressList.selected_iff hnodup fun n hn => hA.isSome_rowAt hL hn]

/-- A window that slides over a whole square matrix, row by row and with rows first inside, has the
strides of the program when its own elements follow each other. -/
theorem shapeOf_sliding (hsquare : A.R = A.C) (hrow : A.rowOuter = true ∧ A.rowInner = true)
    (hswapped : A.swapped = false ∧ A.swapped' = false)
    (hone : A.inner.increment = 1 ∧ A.inner'.increment = 1)
    (hslide : AddressList.trips (A.outer'.initValue + A.inner'.initValue) (A.C - A.inner.iterations + 1)
      A.outer'.increment = A.outer'.iterations) :
    shapeOf A.selectedBase A.selectedLoops = shapeOf A.programBase A.programLoops := by
  have htrips : ∀ n : ℕ, AddressList.trips 0 n 1 = n := fun n => by simp [AddressList.trips]
  simp only [selectedBase, selectedLoops, programBase, programLoops, setRows, setCols, it1, it2,
    it3, it4, outerRow, outerCol, innerRow, innerCol, hrow.1, hrow.2, hswapped.1, hswapped.2,
    hone.1, hone.2, hsquare, if_true, Bool.false_eq_true, if_false, Int.ediv_one, htrips, hslide,
    Nat.cast_one, mul_one]

/-- What is known of four loops of two iterations. -/
def windowLoops : LoopInfoTable :=
  { nestedLoopMap := ∅
    loopInfoMap := [4, 8, 12, 16].foldl
      (fun loops it => loops.insert it ⟨[], 0, 2, 1, 2, nullptr, nullptr, true, true⟩) ∅ }

/-- A window of two rows and two columns over a matrix of three and three. -/
def window (rowInner : Bool) : WindowAccess :=
  ⟨⟨4, 0, 1, 2⟩, ⟨8, 0, 1, 2⟩, ⟨12, 0, 1, 2⟩, ⟨16, 0, 1, 2⟩, true, rowInner, false, false, 3, 3⟩

/-- Its pointer info. -/
def windowInfo (incrementVector : List ℤ) (apmType : ArrayAccessPattern) : PointerInfoStruct :=
  ⟨16, 3, 3, some ⟨2, 2, 1, 1, 1, 1, 0, 0, 1, 1, 4, 4⟩, ⟨2, 4, incrementVector, 0, 0, apmType⟩⟩

theorem wellFormed_window (rowInner : Bool) : (window rowInner).WellFormed := by
  cases rowInner <;> exact ⟨by decide, by decide, by decide, by decide, by decide⟩

theorem filled_window (rowInner : Bool) (incrementVector : List ℤ) :
    (window rowInner).Filled windowLoops (windowInfo incrementVector (window rowInner).apmType) := by
  have hget : ∀ it ∈ [4, 8, 12, 16],
      windowLoops.getLoopInfo it = some ⟨[], 0, 2, 1, 2, nullptr, nullptr, true, true⟩ := by
    intro it hit
    simp only [List.mem_cons, List.not_mem_nil, or_false] at hit
    simp only [windowLoops, LoopInfoTable.getLoopInfo, List.foldl_cons, List.foldl_nil,
      Std.ExtTreeMap.getElem?_insert, Std.compare_eq_iff_eq]
    rcases hit with rfl | rfl | rfl | rfl <;> rfl
  have hrecorded : ∀ l : CountedLoop,
    l ∈ [(⟨4, 0, 1, 2⟩ : CountedLoop), ⟨8, 0, 1, 2⟩, ⟨12, 0, 1, 2⟩, ⟨16, 0, 1, 2⟩] →
      ∃ info, l.Recorded windowLoops info := by
    intro l hl
    simp only [List.mem_cons, List.not_mem_nil, or_false] at hl
    rcases hl with rfl | rfl | rfl | rfl <;> exact ⟨_, hget _ (by decide), rfl, rfl, rfl, rfl, rfl⟩
  refine ⟨fun l hl => hrecorded l ?_, ?_, rfl, rfl, rfl⟩
  · cases rowInner <;> simp [window, it1, it2, it3, it4, outerRow, outerCol, innerRow,
      innerCol] at hl ⊢ <;> tauto
  · cases rowInner <;> simp [matrixExtent, indexes, window, it1, it2, it3, it4, outerRow, outerCol,
      innerRow, innerCol, hget, doubleExtent, setLength, windowInfo, stop]

/-- The rows of `A[i + k][j + l]`. -/
theorem shapeAddressList_window_iff_rowMajor :
    ∃ rows, AddressList.shapeAddressList (windowInfo [1, 0, 1, 0, 0, 1, 0, 1] .rowMajorSet2RowMajor) (List.range 9) =
      some rows ∧ rows.map some = (window true).programOrder.map (AddressList.rowAt (List.range 9)) :=
  (shapeAddressList_window_iff (wellFormed_window true) (filled_window true [1, 0, 1, 0, 0, 1, 0,
    1]) (by decide)
    (by decide)).mpr ⟨by decide, by decide⟩

/-- Of `A[i + l][j + k]` the transposed elements are selected. -/
theorem window_colMajorSet2RowMajor : (window false).WellFormed ∧
    (window false).Filled windowLoops (windowInfo [1, 0, 0, 1, 0, 1, 1, 0] .colMajorSet2RowMajor) ∧
      (window false).programOrder.mapM (AddressList.rowAt (List.range 9)) =
        some [0, 3, 1, 4, 1, 4, 2, 5, 3, 6, 4, 7, 4, 7, 5, 8] ∧
        AddressList.shapeAddressList (windowInfo [1, 0, 0, 1, 0, 1, 1, 0] .colMajorSet2RowMajor) (List.range 9) =
          some [0, 1, 3, 4, 3, 4, 6, 7, 1, 2, 4, 5, 4, 5, 7, 8] :=
  ⟨wellFormed_window false, filled_window false _, by decide, by decide⟩

end WindowAccess

end Octantis
