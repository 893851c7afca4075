import Octantis.Utils.AddressList

/-!
# The loops of `shapeAddressList`

Whether the nested loops of `shapeAddressList` end, for the pointer records that
`setPointerInfo` stores.

## The model

A loop of C ends when its counter reaches the bound after the bodies of all the values
before have ended (`LoopEnds`). A record of which the extent was never set leaves the
bounds of the loops undefined, and they are not said to end.

## What is proved

* `isSome_shapeAddressList_iff`: the model of `shapeAddressList` has a result exactly when
  the loops end and each advances to a row of the list;
* `shapeTerminates_iff`: for loops with constant bounds, when the loops end, by the
  iterators of the indexes and the pattern.
-/

namespace Octantis

open Lib CollectInfo

namespace AddressList

/-- `for (int i = start; i < stop; i = i + spacing)` ends, with bodies that do. -/
def LoopEnds (start stop spacing : ℤ) (body : ℤ → Prop) : Prop :=
  ∃ n : ℕ, stop ≤ start + spacing * n ∧ ∀ k < n, start + spacing * (k : ℕ) < stop ∧ body (start + spacing * (k : ℕ))

/-- The loops of a pattern without subsets end. -/
def RowLoops (e : Extent) (body : ℤ → ℤ → Prop) : Prop :=
  LoopEnds e.offsetY (e.stopY + 1) e.spacingY fun i => LoopEnds e.offsetX (e.stopX + 1) e.spacingX fun j => body i j

/-- The loops of a pattern without subsets and with two initial columns of zeros end. -/
def TriangleLoops (e : Extent) (body : ℤ → ℤ → Prop) : Prop :=
  LoopEnds e.offsetY e.stopX e.spacingX fun i => LoopEnds e.offsetX e.stopY e.spacingY fun j =>
    LoopEnds 0 (i + 1) e.spacingInSubsetX fun k => LoopEnds 0 (j + 1) e.spacingInSubsetY fun l => body k l

/-- The loops of a pattern with subsets end. -/
def SubsetLoops (e : Extent) (arrayRows : ℤ) (body : ℤ → ℤ → ℤ → ℤ → Prop) : Prop :=
  LoopEnds e.offsetY (e.stopY + 1) e.spacingY fun i =>
    LoopEnds e.offsetX (arrayRows - e.setRows + 1) e.spacingX fun j =>
      LoopEnds 0 e.setRows e.spacingInSubsetY fun k => LoopEnds 0 e.setCols e.spacingInSubsetX fun l => body i j k l

/-- The nested loops of `shapeAddressList` end, of which the body depends on the counters. -/
def ShapeLoops (pis : PointerInfoStruct) (triangle : ℤ → ℤ → Prop) (body : ℤ → ℤ → ℤ → ℤ → Prop) : Prop :=
  match pis.pointerAccessPattern.apmType with
  | .rowMajor | .colMajor => ∃ e, pis.extent = some e ∧
    if pis.pointerAccessPattern.initZerosM = 2 then TriangleLoops e triangle else RowLoops e fun i j => body i j 0 0
  | .colMajorSet1RowMajor | .rowMajorSet1ColMajor
  | .rowMajorSet2ColMajor | .rowMajorSet2RowMajor | .colMajorSet2RowMajor | .colMajorSet2ColMajor =>
    ∃ e, pis.extent = some e ∧ SubsetLoops e pis.arrayRows body
  | .colMajorSet1ColMajor | .rowMajorSet1RowMajor | .undefined => True

/-- **The nested loops of `shapeAddressList` end.** -/
def ShapeTerminates (pis : PointerInfoStruct) : Prop := ShapeLoops pis (fun _ _ => True) fun _ _ _ _ => True

variable {α : Type} {pis : PointerInfoStruct} {start stop spacing : ℤ} {body : ℤ → Prop}

/-! ### One loop -/

theorem lt_trips_iff (hspacing : 0 < spacing) {k : ℕ} :
    k < trips start stop spacing ↔ start + spacing * k < stop := by
  rw [trips, Int.lt_toNat, ← Int.add_one_le_iff, Int.le_ediv_iff_mul_le hspacing, Int.add_mul,
    Int.mul_comm spacing]
  omega

/-- **When a loop ends.** -/
theorem loopEnds_iff : LoopEnds start stop spacing body ↔
    stop ≤ start ∨ (0 < spacing ∧ ∀ k < trips start stop spacing, body (start + spacing * (k : ℕ))) := by
  constructor
  · rintro ⟨n, hn, hbody⟩
    rcases Nat.eq_zero_or_pos n with rfl | hpos
    · exact .inl (by simpa using hn)
    · have hstart := (hbody 0 hpos).1
      have hspacing : 0 < spacing := by
        by_contra hle
        have : spacing * n ≤ 0 := mul_nonpos_of_nonpos_of_nonneg (not_lt.mp hle) (Int.natCast_nonneg n)
        simp only [Nat.cast_zero, mul_zero, add_zero] at hstart
        omega
      refine .inr ⟨hspacing, fun k hk => (hbody k ?_).2⟩
      rw [lt_trips_iff hspacing] at hk
      by_contra hle
      have : spacing * (n : ℤ) ≤ spacing * k := mul_le_mul_of_nonneg_left (by omega) hspacing.le
      omega
  · rintro (hstop | ⟨hspacing, hbody⟩)
    · exact ⟨0, by simpa using hstop, fun k hk => absurd hk (Nat.not_lt_zero k)⟩
    · refine ⟨trips start stop spacing, ?_, fun k hk => ⟨(lt_trips_iff hspacing).mp hk, hbody k hk⟩⟩
      exact not_lt.mp fun hlt => lt_irrefl _ ((lt_trips_iff hspacing).mpr hlt)

/-- A loop whose body does not depend on its counter. -/
theorem loopEnds_const {P : Prop} :
    LoopEnds start stop spacing (fun _ => P) ↔ stop ≤ start ∨ (0 < spacing ∧ P) := by
  rw [loopEnds_iff]
  refine or_congr_right' fun hlt => and_congr_right fun hspacing => ⟨fun h => h 0 ?_, fun h _ _ => h⟩
  rw [lt_trips_iff hspacing]
  simpa using hlt

/-- The model of a loop has a result when the loop ends and the bodies have. -/
theorem isSome_pushed_iff {body : ℤ → Option (List α)} :
    (pushed (counter start stop spacing) body).isSome ↔
      LoopEnds start stop spacing fun i => (body i).isSome := by
  have hmap : ∀ values : List ℤ,
      (pushed (some values) body).isSome ↔ ∀ i ∈ values, (body i).isSome := by
    intro values
    have hpushed : pushed (some values) body = (values.mapM body).map List.flatten := by
      cases h : values.mapM body <;> simp [pushed, h]
    rw [hpushed, Option.isSome_map, isSome_mapM_iff]
  rw [loopEnds_iff]
  by_cases hstop : stop ≤ start
  · have hcounter : counter start stop spacing = some [] := by rw [counter, if_pos hstop]
    rw [hcounter, hmap]
    exact iff_of_true (fun i hi => absurd hi List.not_mem_nil) (.inl hstop)
  by_cases hspacing : spacing ≤ 0
  · have hcounter : counter start stop spacing = none := by rw [counter, if_neg hstop, if_pos hspacing]
    rw [hcounter]
    exact iff_of_false Bool.false_ne_true fun h => h.elim hstop fun h => hspacing.not_gt h.1
  · rw [counter_of_pos (not_le.mp hspacing), hmap, List.forall_mem_map]
    simp only [List.mem_range, hstop, not_le.mp hspacing, false_or, true_and]

/-- A body that pushes a row has a result when it advances to one. -/
theorem isSome_body {n : Option ℤ} {addrList : List α} :
    (do return [← rowAt addrList (← n)] : Option (List α)).isSome = (n.bind (rowAt addrList)).isSome := by
  cases n with
  | none => rfl
  | some n => cases h : rowAt addrList n <;> simp [h]

theorem isSome_body' {n : ℤ} {addrList : List α} :
    (do return [← rowAt addrList n] : Option (List α)).isSome = (rowAt addrList n).isSome := by
  cases rowAt addrList n <;> simp

/-- **`shapeAddressList` has a result exactly when its loops end** and each body advances to a row
of the list. -/
theorem isSome_shapeAddressList_iff (addrList : List α) : (shapeAddressList pis addrList).isSome ↔
    ShapeLoops pis (fun k l => (rowAt addrList (pis.arrayCols * k + l)).isSome) fun i j k l =>
      ((extractIteratorAdvancement pis.pointerAccessPattern.apmType i j k l pis.arrayCols).bind
        (rowAt addrList)).isSome := by
  have hextent : ∀ {f : Extent → Option (List α)} {P : Extent → Prop}, (∀ e, (f e).isSome ↔ P e) →
      ((pis.extent.bind f).isSome ↔ ∃ e, pis.extent = some e ∧ P e) := by
    intro f P h
    cases pis.extent with
    | none => simp
    | some e => simpa using h e
  have hsubsets : ∀ (ap : ArrayAccessPattern) (e : Extent),
    (shapeSubsets ap e pis.arrayRows pis.arrayCols addrList).isSome ↔
      SubsetLoops e pis.arrayRows fun i j k l =>
        ((extractIteratorAdvancement ap i j k l pis.arrayCols).bind (rowAt addrList)).isSome := fun ap e => by
    simp only [shapeSubsets, SubsetLoops, isSome_pushed_iff, isSome_body]
  have hrows : ∀ (ap : ArrayAccessPattern) (e : Extent), (if pis.pointerAccessPattern.initZerosM = 2
      then shapeTriangles e pis.arrayCols addrList else shapeRows ap e pis.arrayCols addrList).isSome ↔
      if pis.pointerAccessPattern.initZerosM = 2
        then TriangleLoops e fun k l => (rowAt addrList (pis.arrayCols * k + l)).isSome
        else RowLoops e fun i j =>
          ((extractIteratorAdvancement ap i j 0 0 pis.arrayCols).bind (rowAt addrList)).isSome :=
            fun ap e => by
    split_ifs
    · simp only [shapeTriangles, TriangleLoops, isSome_pushed_iff, isSome_body']
    · simp only [shapeRows, RowLoops, isSome_pushed_iff, isSome_body]
  unfold shapeAddressList ShapeLoops
  cases pis.pointerAccessPattern.apmType with
  | rowMajor => exact hextent (hrows .rowMajor)
  | colMajor => exact hextent (hrows .colMajor)
  | colMajorSet1RowMajor => exact hextent (hsubsets .colMajorSet1RowMajor)
  | rowMajorSet1ColMajor => exact hextent (hsubsets .rowMajorSet1ColMajor)
  | rowMajorSet2ColMajor => exact hextent (hsubsets .rowMajorSet2ColMajor)
  | rowMajorSet2RowMajor => exact hextent (hsubsets .rowMajorSet2RowMajor)
  | colMajorSet2RowMajor => exact hextent (hsubsets .colMajorSet2RowMajor)
  | colMajorSet2ColMajor => exact hextent (hsubsets .colMajorSet2ColMajor)
  | colMajorSet1ColMajor => exact iff_of_true rfl trivial
  | rowMajorSet1RowMajor => exact iff_of_true rfl trivial
  | undefined => exact iff_of_true rfl trivial

/-! ### The three kinds of loops -/

theorem rowLoops_iff {e : Extent} : RowLoops e (fun _ _ => True) ↔
    e.stopY < e.offsetY ∨ 0 < e.spacingY ∧ (e.stopX < e.offsetX ∨ 0 < e.spacingX) := by
  simp only [RowLoops, loopEnds_const, and_true, Int.add_one_le_iff]

theorem subsetLoops_iff {e : Extent} {arrayRows : ℤ} : SubsetLoops e arrayRows (fun _ _ _ _ => True) ↔
    e.stopY < e.offsetY ∨ 0 < e.spacingY ∧ (arrayRows - e.setRows < e.offsetX ∨ 0 < e.spacingX ∧
      (e.setRows ≤ 0 ∨ 0 < e.spacingInSubsetY ∧ (e.setCols ≤ 0 ∨ 0 < e.spacingInSubsetX))) := by
  simp only [SubsetLoops, loopEnds_const, and_true, Int.add_one_le_iff]

/-- The last value of the counter of a loop that is entered. -/
def lastValue (start stop spacing : ℤ) : ℤ := start + spacing * ((trips start stop spacing : ℤ) - 1)

/-- In a loop that is entered the counter is below zero throughout when its last value is. -/
theorem forall_neg_or_iff (hspacing : 0 < spacing) (hstart : start < stop) {Q : Prop} :
    (∀ k < trips start stop spacing, start + spacing * (k : ℕ) < 0 ∨ Q) ↔
    lastValue start stop spacing < 0 ∨ Q := by
  have hpos : 0 < trips start stop spacing := (lt_trips_iff hspacing).mpr (by simpa using hstart)
  constructor
  · intro h
    have := h (trips start stop spacing - 1) (by omega)
    rwa [Nat.cast_sub hpos, Nat.cast_one] at this
  · intro h k hk
    refine h.imp_left fun hlast => lt_of_le_of_lt ?_ hlast
    have : spacing * (k : ℤ) ≤ spacing * ((trips start stop spacing : ℤ) - 1) :=
      mul_le_mul_of_nonneg_left (by omega) hspacing.le
    rw [lastValue]
    omega

theorem triangleLoops_iff {e : Extent} : TriangleLoops e (fun _ _ => True) ↔
    e.stopX ≤ e.offsetY ∨ 0 < e.spacingX ∧ (e.stopY ≤ e.offsetX ∨ 0 < e.spacingY ∧
      (lastValue e.offsetY e.stopX e.spacingX < 0 ∨ 0 < e.spacingInSubsetX ∧
        (lastValue e.offsetX e.stopY e.spacingY < 0 ∨ 0 < e.spacingInSubsetY))) := by
  simp only [TriangleLoops, loopEnds_const, and_true, Int.add_one_le_iff]
  rw [loopEnds_iff]
  refine or_congr_right' fun hY => and_congr_right fun hsX => ?_
  have hstart := not_le.mp hY
  have hpos : 0 < trips e.offsetY e.stopX e.spacingX := (lt_trips_iff hsX).mpr (by simpa using hstart)
  by_cases hX : e.stopY ≤ e.offsetX
  · exact iff_of_true (fun _ _ => loopEnds_iff.mpr (.inl hX)) (.inl hX)
  by_cases hsY : 0 < e.spacingY
  · -- both loops are entered: what counts is the last value of each counter
    have hinner : ∀ i : ℤ, (LoopEnds e.offsetX e.stopY e.spacingY fun j =>
        i < 0 ∨ 0 < e.spacingInSubsetX ∧ (j < 0 ∨ 0 < e.spacingInSubsetY)) ↔
        i < 0 ∨ 0 < e.spacingInSubsetX ∧ (lastValue e.offsetX e.stopY e.spacingY < 0 ∨
          0 < e.spacingInSubsetY) := by
      intro i
      rw [← forall_neg_or_iff hsY (not_le.mp hX), loopEnds_iff]
      simp only [hX, hsY, false_or, true_and]
      constructor
      · intro h
        refine or_iff_not_imp_left.mpr fun hi => ?_
        have hfirst := h 0 ((lt_trips_iff hsY).mpr (by simpa using hX))
        exact ⟨(hfirst.resolve_left hi).1, fun k hk => ((h k hk).resolve_left hi).2⟩
      · rintro (hi | ⟨hsub, h⟩) k hk
        · exact .inl hi
        · exact .inr ⟨hsub, h k hk⟩
    simp only [hinner, forall_neg_or_iff hsX hstart, hX, hsY, false_or, true_and]
  · refine iff_of_false (fun h => ?_) fun h => h.elim hX fun h => hsY h.1
    exact (loopEnds_iff.mp (h 0 hpos)).elim hX fun h => hsY h.1

end AddressList

/-! ### The records stored -/

/-- The loop of a subscript is skipped by a counter that goes from its first to its last value. -/
def LoopInfo.Skipped (l : LoopInfo) : Prop :=
  l.iteratorIncrement < 0 ∧ 2 ≤ l.iterations ∨ 0 < l.iteratorIncrement ∧ l.iterations ≤ 0

/-- The rows or the columns of the subsets of a loop, `iterations / increment`. -/
def LoopInfo.subsetLength (l : LoopInfo) : ℤ := l.iterations.tdiv l.iteratorIncrement

/-- The bounds of the loops are constants, and the increments are not zero. -/
def LoopInfoTable.Constant (LIT : LoopInfoTable) : Prop :=
  ∀ it info, LIT.getLoopInfo it = some info →
    info.isInitValueConstant = true ∧ info.isFinalValueConstant = true ∧ info.iteratorIncrement ≠ 0

/-- The loops of the iterators that the extent of a pointer is computed from. -/
inductive IndexLoops where
  /-- `A[i][j]`. -/
  | single (l1 l3 : LoopInfo)
  /-- `A[i + k][j + l]`. -/
  | double (l1 l2 l3 l4 : LoopInfo)
  /-- `A[i][j + k]`. -/
  | secondDouble (l1 l3 l4 : LoopInfo)
  /-- `A[i + k][j + c]`. -/
  | firstDouble (l1 l2 l3 : LoopInfo)
  /-- `x[i]`. -/
  | vectorSingle (l1 : LoopInfo)
  /-- `x[i + j]`. -/
  | vectorDouble (l1 l2 : LoopInfo)
  /-- The extent is not set. -/
  | unset

/-- The loops of the iterators of two indexes. -/
def matrixLoops (LIT : LoopInfoTable) (first second : IndexInfo) : Option IndexLoops :=
  match first.iterators, second.iterators with
  | [it1], [it3] => do return .single (← LIT.getLoopInfo it1) (← LIT.getLoopInfo it3)
  | [it1, it2], [it3, it4] =>
    if first.isAdd && second.isAdd then do
      return .double (← LIT.getLoopInfo it1) (← LIT.getLoopInfo it2) (← LIT.getLoopInfo it3) (← LIT.getLoopInfo it4)
    else return .unset
  | [it1], [it3, it4] =>
    if second.isAdd then do
      return .secondDouble (← LIT.getLoopInfo it1) (← LIT.getLoopInfo it3) (← LIT.getLoopInfo it4)
    else return .unset
  | [it1, it2], [it3] =>
    if second.isAdd then do
      return .firstDouble (← LIT.getLoopInfo it1) (← LIT.getLoopInfo it2) (← LIT.getLoopInfo it3)
    else return .unset
  | _, _ => return .unset

/-- The loops of the iterators of one index. -/
def vectorLoops (LIT : LoopInfoTable) (first : IndexInfo) : Option IndexLoops :=
  match first.iterators with
  | [] => return .unset
  | [it1] => do return .vectorSingle (← LIT.getLoopInfo it1)
  | it1 :: it2 :: rest =>
    if first.isAdd then do
      return .vectorDouble (← LIT.getLoopInfo it1) (← LIT.getLoopInfo ((it2 :: rest).getLastD it2))
    else return .unset

/-- The loops of the iterators of the indexes of a pointer. -/
def indexLoops (LIT : LoopInfoTable) (arrayRows : ℤ) (first second : IndexInfo) : Option IndexLoops :=
  if arrayRows > 1 then matrixLoops LIT first second else vectorLoops LIT first

namespace IndexLoops

/-- The extent computed from the loops. -/
def extent (LIT : LoopInfoTable) (first second : IndexInfo) : IndexLoops → Option (Option Extent)
  | single l1 l3 => do return some (← singleExtent LIT first second l1 l3)
  | double l1 l2 l3 l4 => do return some (← doubleExtent first second l1 l2 l3 l4)
  | secondDouble l1 l3 l4 => do return some (← secondDoubleExtent first second l1 l3 l4)
  | firstDouble l1 l2 l3 => do return some (← firstDoubleExtent first second l1 l2 l3)
  | vectorSingle l1 => some (some (vectorSingleExtent first l1))
  | vectorDouble l1 l2 => do return some (← vectorDoubleExtent first l1 l2)
  | unset => some none

/-- The loops. -/
def loops : IndexLoops → List LoopInfo
  | single l1 l3 => [l1, l3]
  | double l1 l2 l3 l4 => [l1, l2, l3, l4]
  | secondDouble l1 l3 l4 => [l1, l3, l4]
  | firstDouble l1 l2 l3 => [l1, l2, l3]
  | vectorSingle l1 => [l1]
  | vectorDouble l1 l2 => [l1, l2]
  | unset => []

/-- The loops of a pattern without subsets end: a negative increment is one of a loop of two
iterations or more, which is skipped. With two iterators in the index of a vector the vertical
spacing is -1. -/
def RowsEnd : IndexLoops → Prop
  | single l1 l3 | double l1 _ l3 _ | secondDouble l1 l3 _ | firstDouble l1 _ l3 =>
    l1.Skipped ∨ 0 < l1.iteratorIncrement ∧ (l3.Skipped ∨ 0 < l3.iteratorIncrement)
  | vectorSingle l1 => l1.Skipped ∨ 0 < l1.iteratorIncrement
  | vectorDouble _ _ | unset => False

/-- The loops of a pattern with subsets end. A spacing of -1 is met in the rows of a subset with two
iterators in the second index only, in its columns with two in the first index only, and in the
outer loop with two in the index of a vector; with one in each there is no subset to go over. -/
def SubsetsEnd (arrayRows : ℤ) (first second : IndexInfo) : IndexLoops → Prop
  | single l1 l3 => l1.Skipped ∨ 0 < l1.iteratorIncrement ∧
    (arrayRows + 1 < l3.iteratorInitValue + second.constant ∨ 0 < l3.iteratorIncrement)
  | double l1 l2 l3 l4 => l1.Skipped ∨ 0 < l1.iteratorIncrement ∧
    (arrayRows - l2.subsetLength < l3.iteratorInitValue + l4.iteratorInitValue + second.constant ∨
      0 < l3.iteratorIncrement ∧ (l2.subsetLength ≤ 0 ∨ 0 < l2.iteratorIncrement ∧
        (l4.subsetLength ≤ 0 ∨ 0 < l4.iteratorIncrement)))
  | secondDouble l1 l3 l4 => l1.Skipped ∨ 0 < l1.iteratorIncrement ∧
    arrayRows - 1 < l3.iteratorInitValue + l4.iteratorInitValue + second.constant
  | firstDouble l1 l2 l3 => l1.Skipped ∨ 0 < l1.iteratorIncrement ∧
    (arrayRows - l2.subsetLength < l1.iteratorInitValue + second.constant ∨
      0 < l3.iteratorIncrement ∧ l2.subsetLength ≤ 0)
  | vectorSingle l1 => arrayRows + 1 < l1.iteratorInitValue + first.constant ∨ 0 < l1.iteratorIncrement
  | vectorDouble _ _ | unset => False

end IndexLoops

/-- The loops of a pattern without subsets and with two initial columns of zeros end. -/
def Extent.TrianglesEnd (e : Extent) : Prop :=
  e.stopX ≤ e.offsetY ∨ 0 < e.spacingX ∧ (e.stopY ≤ e.offsetX ∨ 0 < e.spacingY ∧
    (AddressList.lastValue e.offsetY e.stopX e.spacingX < 0 ∨ 0 < e.spacingInSubsetX ∧
      (AddressList.lastValue e.offsetX e.stopY e.spacingY < 0 ∨ 0 < e.spacingInSubsetY)))

/-- The loops of `shapeAddressList` end, by the iterators of the indexes and the pattern. -/
def Terminating (LIT : LoopInfoTable) (arrayRows : ℤ) (first second : IndexInfo) (ap : AccessPattern) : Prop :=
  match ap.apmType with
  | .rowMajor | .colMajor => ∃ x, indexLoops LIT arrayRows first second = some x ∧
    if ap.initZerosM = 2 then ∃ e, x.extent LIT first second = some (some e) ∧ e.TrianglesEnd else x.RowsEnd
  | .colMajorSet1RowMajor | .rowMajorSet1ColMajor
  | .rowMajorSet2ColMajor | .rowMajorSet2RowMajor | .colMajorSet2RowMajor | .colMajorSet2ColMajor =>
    ∃ x, indexLoops LIT arrayRows first second = some x ∧ x.SubsetsEnd arrayRows first second
  | .colMajorSet1ColMajor | .rowMajorSet1RowMajor | .undefined => True

variable {LIT : LoopInfoTable} {outside : OutOfRange} {instrLoopBody : Reg} {arrayRows arrayCols : ℤ}
  {first second : IndexInfo} {pis : PointerInfoStruct}

theorem matrixExtent_eq : matrixExtent LIT first second =
    (matrixLoops LIT first second).bind (·.extent LIT first second) := by
  unfold matrixExtent matrixLoops
  rcases first.iterators with _ | ⟨a, _ | ⟨b, _ | ⟨c, r⟩⟩⟩ <;>
    rcases second.iterators with _ | ⟨a', _ | ⟨b', _ | ⟨c', r'⟩⟩⟩ <;>
    first
      | rfl
      | (dsimp only
         split_ifs <;> simp only [Option.bind_eq_bind, Option.pure_def, Option.bind_assoc,
           Option.bind_some, IndexLoops.extent])
      | simp only [Option.bind_eq_bind, Option.pure_def, Option.bind_assoc, Option.bind_some,
        IndexLoops.extent]

theorem vectorExtent_eq : vectorExtent LIT first = (vectorLoops LIT first).bind
    (·.extent LIT first second) := by
  unfold vectorExtent vectorLoops
  rcases first.iterators with _ | ⟨a, _ | ⟨b, r⟩⟩
  · rfl
  · simp only [Option.bind_eq_bind, Option.pure_def, Option.bind_assoc, Option.bind_some, IndexLoops.extent]
  · dsimp only
    split_ifs <;> simp only [Option.bind_eq_bind, Option.pure_def, Option.bind_assoc,
      Option.bind_some, IndexLoops.extent]

/-- The extent that `setPointerInfo` stores. -/
theorem extent_of_setPointerInfo (h : setPointerInfo LIT outside instrLoopBody arrayRows arrayCols first second = some pis) :
    pis.arrayRows = arrayRows ∧ ∃ x, indexLoops LIT arrayRows first second = some x ∧
      x.extent LIT first second = some pis.extent := by
  obtain ⟨_, -, h⟩ := Option.bind_eq_some_iff.mp h
  obtain ⟨_, -, h⟩ := Option.bind_eq_some_iff.mp h
  obtain ⟨_, -, h⟩ := Option.bind_eq_some_iff.mp h
  obtain ⟨_, -, h⟩ := Option.bind_eq_some_iff.mp h
  dsimp only at h
  unfold indexLoops
  split_ifs at h ⊢ with hrows
  · obtain ⟨extent, hextent, h⟩ := Option.bind_eq_some_iff.mp h
    obtain rfl := Option.some.inj h
    rw [matrixExtent_eq] at hextent
    exact ⟨rfl, Option.bind_eq_some_iff.mp hextent⟩
  · obtain ⟨extent, hextent, h⟩ := Option.bind_eq_some_iff.mp h
    obtain rfl := Option.some.inj h
    have hloops : (vectorLoops LIT first).bind (·.extent LIT first second) = some extent :=
      vectorExtent_eq.symm.trans hextent
    exact ⟨rfl, Option.bind_eq_some_iff.mp hloops⟩

theorem mem_loops_of_matrixLoops {x : IndexLoops} (h : matrixLoops LIT first second = some x) {l : LoopInfo}
    (hl : l ∈ x.loops) : ∃ it, LIT.getLoopInfo it = some l := by
  unfold matrixLoops at h
  generalize first.iterators = xs, second.iterators = ys at h
  rcases xs with _ | ⟨a, _ | ⟨b, _ | ⟨c, r⟩⟩⟩ <;> rcases ys with _ | ⟨a', _ | ⟨b', _ | ⟨c', r'⟩⟩⟩ <;>
    dsimp only at h <;> (try split_ifs at h) <;>
    simp only [Option.bind_eq_bind, Option.pure_def, Option.bind_eq_some_iff, Option.some.injEq] at h <;>
    grind [IndexLoops.loops]

theorem mem_loops_of_vectorLoops {x : IndexLoops} (h : vectorLoops LIT first = some x) {l : LoopInfo}
    (hl : l ∈ x.loops) : ∃ it, LIT.getLoopInfo it = some l := by
  unfold vectorLoops at h
  generalize first.iterators = xs at h
  rcases xs with _ | ⟨a, _ | ⟨b, r⟩⟩ <;>
    dsimp only at h <;> (try split_ifs at h) <;>
    simp only [Option.bind_eq_bind, Option.pure_def, Option.bind_eq_some_iff, Option.some.injEq] at h <;>
    grind [IndexLoops.loops]

/-- The loops of the indexes are loops of the table. -/
theorem mem_loops_of_indexLoops {x : IndexLoops}
    (h : indexLoops LIT arrayRows first second = some x) {l : LoopInfo}
    (hl : l ∈ x.loops) : ∃ it, LIT.getLoopInfo it = some l := by
  unfold indexLoops at h
  split_ifs at h
  · exact mem_loops_of_matrixLoops h hl
  · exact mem_loops_of_vectorLoops h hl

namespace IndexLoops

/-- A loop ends before it begins where its subscript is skipped. -/
theorem stop_lt_iff {l : LoopInfo} {offset : ℤ} :
    stop offset l.iteratorIncrement l.iterations < offset ↔ l.Skipped := by
  have hmul : l.iteratorIncrement * (l.iterations - 1) < 0 ↔ l.Skipped := by
    rw [mul_neg_iff, LoopInfo.Skipped]
    omega
  rw [← hmul, stop]
  omega

theorem setLength_eq {l : LoopInfo} (hl : l.iteratorIncrement ≠ 0) :
    setLength l = some l.subsetLength := if_neg hl

/-- The bounds of a loop are constants, and its increment is not zero. -/
abbrev Constant (l : LoopInfo) : Prop :=
  l.isInitValueConstant = true ∧ l.isFinalValueConstant = true ∧ l.iteratorIncrement ≠ 0

variable {x : IndexLoops} {extent : Option Extent}

/-- **The loops of a pattern, by the loops of the indexes.** -/
theorem loops_iff (hx : x.extent LIT first second = some extent) (hloops : ∀ l ∈ x.loops, Constant l) :
    ((∃ e, extent = some e ∧ AddressList.RowLoops e fun _ _ => True) ↔ x.RowsEnd) ∧
      ((∃ e, extent = some e ∧ AddressList.SubsetLoops e arrayRows fun _ _ _ _ => True) ↔
        x.SubsetsEnd arrayRows first second) := by
  simp only [AddressList.rowLoops_iff, AddressList.subsetLoops_iff]
  cases x with
  | single l1 l3 =>
    obtain ⟨h1, h3⟩ : Constant l1 ∧ Constant l3 := ⟨hloops l1 (by simp [loops]), hloops l3 (by simp [loops])⟩
    simp only [IndexLoops.extent, singleExtent, h1.1, h1.2.1, h3.1, h3.2.1, Bool.and_self, if_true,
      Option.bind_eq_bind, Option.bind_some, Option.pure_def, Option.some.injEq] at hx
    subst hx
    simp only [Option.some.injEq, exists_eq_left', RowsEnd, SubsetsEnd, stop_lt_iff]
    exact ⟨trivial, by norm_num⟩
  | double l1 l2 l3 l4 =>
    obtain ⟨h1, h2, h3, h4⟩ : Constant l1 ∧ Constant l2 ∧ Constant l3 ∧ Constant l4 :=
      ⟨hloops l1 (by simp [loops]), hloops l2 (by simp [loops]), hloops l3 (by simp [loops]),
        hloops l4 (by simp [loops])⟩
    simp only [IndexLoops.extent, doubleExtent, setLength_eq h2.2.2, setLength_eq h4.2.2, Option.bind_eq_bind,
      Option.bind_some, Option.pure_def, Option.some.injEq] at hx
    subst hx
    simp only [Option.some.injEq, exists_eq_left', RowsEnd, SubsetsEnd, stop_lt_iff, and_self]
  | secondDouble l1 l3 l4 =>
    obtain ⟨h1, h3, h4⟩ : Constant l1 ∧ Constant l3 ∧ Constant l4 :=
      ⟨hloops l1 (by simp [loops]), hloops l3 (by simp [loops]), hloops l4 (by simp [loops])⟩
    simp only [IndexLoops.extent, secondDoubleExtent, setLength_eq h4.2.2, Option.bind_eq_bind,
      Option.bind_some, Option.pure_def, Option.some.injEq] at hx
    subst hx
    simp only [Option.some.injEq, exists_eq_left', RowsEnd, SubsetsEnd, stop_lt_iff]
    exact ⟨trivial, by norm_num⟩
  | firstDouble l1 l2 l3 =>
    obtain ⟨h1, h2, h3⟩ : Constant l1 ∧ Constant l2 ∧ Constant l3 :=
      ⟨hloops l1 (by simp [loops]), hloops l2 (by simp [loops]), hloops l3 (by simp [loops])⟩
    simp only [IndexLoops.extent, firstDoubleExtent, setLength_eq h2.2.2, Option.bind_eq_bind,
      Option.bind_some, Option.pure_def, Option.some.injEq] at hx
    subst hx
    simp only [Option.some.injEq, exists_eq_left', RowsEnd, SubsetsEnd, stop_lt_iff]
    exact ⟨trivial, by norm_num⟩
  | vectorSingle l1 =>
    have h1 : Constant l1 := hloops l1 (by simp [loops])
    simp only [IndexLoops.extent, vectorSingleExtent, Option.some.injEq] at hx
    subst hx
    simp only [Option.some.injEq, exists_eq_left', RowsEnd, SubsetsEnd, stop_lt_iff]
    exact ⟨by norm_num, by norm_num⟩
  | vectorDouble l1 l2 =>
    have h2 : Constant l2 := hloops l2 (by simp [loops])
    simp only [IndexLoops.extent, vectorDoubleExtent, setLength_eq h2.2.2, Option.bind_eq_bind,
      Option.bind_some, Option.pure_def, Option.some.injEq] at hx
    subst hx
    simp only [Option.some.injEq, exists_eq_left', RowsEnd, SubsetsEnd]
    exact ⟨by norm_num, by norm_num⟩
  | unset =>
    obtain rfl := Option.some.inj hx
    simp [RowsEnd, SubsetsEnd]

end IndexLoops

/-- **The nested loops of `shapeAddressList` end exactly when** no loop that is entered has a
spacing below zero: by the increments and the iterations of the loops of the indexes, and the
pattern. -/
theorem shapeTerminates_iff (hLIT : LIT.Constant)
    (h : setPointerInfo LIT outside instrLoopBody arrayRows arrayCols first second = some pis) :
    AddressList.ShapeTerminates pis ↔ Terminating LIT arrayRows first second pis.pointerAccessPattern := by
  obtain ⟨hrows, x, hx, hextent⟩ := extent_of_setPointerInfo h
  have hloops : ∀ l ∈ x.loops, IndexLoops.Constant l := fun l hl =>
    (mem_loops_of_indexLoops hx hl).elim fun it hit => hLIT it l hit
  obtain ⟨hrow, hsubset⟩ := @IndexLoops.loops_iff LIT arrayRows first second x pis.extent hextent hloops
  have htriangle : (∃ e, pis.extent = some e ∧ if pis.pointerAccessPattern.initZerosM = 2
        then AddressList.TriangleLoops e fun _ _ => True else AddressList.RowLoops e fun _ _ => True) ↔
      ∃ x, indexLoops LIT arrayRows first second = some x ∧ if pis.pointerAccessPattern.initZerosM = 2
        then ∃ e, x.extent LIT first second = some (some e) ∧ e.TrianglesEnd else x.RowsEnd := by
    simp only [hx, Option.some.injEq, exists_eq_left', hextent]
    split_ifs
    · simp only [AddressList.triangleLoops_iff]
      rfl
    · exact hrow
  have hsubsets : (∃ e, pis.extent = some e ∧ AddressList.SubsetLoops e pis.arrayRows fun _ _ _ _ => True) ↔
      ∃ x, indexLoops LIT arrayRows first second = some x ∧ x.SubsetsEnd arrayRows first second := by
    simp only [hx, Option.some.injEq, exists_eq_left', hrows]
    exact hsubset
  unfold AddressList.ShapeTerminates AddressList.ShapeLoops Terminating
  cases pis.pointerAccessPattern.apmType with
  | rowMajor => exact htriangle
  | colMajor => exact htriangle
  | colMajorSet1RowMajor => exact hsubsets
  | rowMajorSet1ColMajor => exact hsubsets
  | rowMajorSet2ColMajor => exact hsubsets
  | rowMajorSet2RowMajor => exact hsubsets
  | colMajorSet2RowMajor => exact hsubsets
  | colMajorSet2ColMajor => exact hsubsets
  | colMajorSet1ColMajor => exact Iff.rfl
  | rowMajorSet1RowMajor => exact Iff.rfl
  | undefined => exact Iff.rfl

/-- What is known of two loops of two iterations, one in the other, with a body of the inner one. -/
def twoLoops : LoopInfoTable :=
  { nestedLoopMap := ((∅ : Std.ExtTreeMap Reg (List Reg)).insert 4 []).insert 8 [4]
    loopInfoMap :=
      ((∅ : Std.ExtTreeMap Reg LoopInfo).insert 4 ⟨[16], 0, 2, 1, 2, nullptr, nullptr, true, true⟩).insert 8
        ⟨[20], 0, 2, 1, 2, nullptr, nullptr, true, true⟩ }

theorem getElem?_twoLoops (it : Reg) : twoLoops.loopInfoMap[it]? =
    if 8 = it then some ⟨[20], 0, 2, 1, 2, nullptr, nullptr, true, true⟩
    else if 4 = it then some ⟨[16], 0, 2, 1, 2, nullptr, nullptr, true, true⟩ else none := by
  simp only [twoLoops, Std.ExtTreeMap.getElem?_insert, Std.compare_eq_iff_eq, Std.ExtTreeMap.getElem?_empty]

theorem constant_twoLoops : twoLoops.Constant := by
  intro it info h
  rw [LoopInfoTable.getLoopInfo, getElem?_twoLoops] at h
  split_ifs at h
  all_goals
    obtain rfl := Option.some.inj h
    exact ⟨rfl, rfl, one_ne_zero⟩

theorem getLoopIteratorFromLoopBody_twoLoops : twoLoops.getLoopIteratorFromLoopBody 20 = some 8 := by
  refine LoopInfoTable.getLoopIteratorFromLoopBody_of_unique ((getElem?_twoLoops 8).trans rfl) (by decide)
    fun it info h hbody => ?_
  rw [getElem?_twoLoops] at h
  split_ifs at h with h8 h4
  · exact h8.symm
  · obtain rfl := Option.some.inj h
    exact absurd hbody (by decide)

theorem getIterationVector_twoLoops : twoLoops.getIterationVector 8 = [4, 8] := by
  simp [LoopInfoTable.getIterationVector, twoLoops]

/-- What is read outside of a vector, when it is always zero. -/
def zeroOutside : OutOfRange := ⟨fun _ => some 0, fun _ => some 0, fun _ => some 0⟩

/-- `x[j]` in the body of the inner loop. -/
theorem setPointerInfo_vectorSingle : setPointerInfo twoLoops zeroOutside 20 1 3 ⟨[8], 0, false⟩ .empty =
    some ⟨8, 1, 3, some ⟨-1, -1, -1, -1, 1, 1, 0, 0, 1, 0, 1, 2⟩, ⟨1, 2, [0, 1], 1, 0, .rowMajor⟩⟩ := by
  simp [setPointerInfo, getLoopIteratorFromLoopBody_twoLoops, getIterationVector_twoLoops,
    LoopInfoTable.getLoopInfo, getElem?_twoLoops, increments, vectorExtent]
  decide

/-- `x[i + j]`. -/
theorem setPointerInfo_vectorDouble : setPointerInfo twoLoops zeroOutside 20 1 3 ⟨[4, 8], 0, true⟩ .empty =
    some ⟨8, 1, 3, some ⟨1, 2, 1, -1, 1, -1, 0, -1, 1, -1, 2, 2⟩, ⟨1, 2, [1, 1], 0, 0, .rowMajor⟩⟩ := by
  simp [setPointerInfo, getLoopIteratorFromLoopBody_twoLoops, getIterationVector_twoLoops,
    LoopInfoTable.getLoopInfo, getElem?_twoLoops, increments, vectorExtent]
  decide

/-- The rows of `x[j]`. -/
theorem shapeTerminates_iff_vectorSingle : AddressList.ShapeTerminates
    ⟨8, 1, 3, some ⟨-1, -1, -1, -1, 1, 1, 0, 0, 1, 0, 1, 2⟩, ⟨1, 2, [0, 1], 1, 0, .rowMajor⟩⟩ :=
  (shapeTerminates_iff constant_twoLoops setPointerInfo_vectorSingle).mpr
    ⟨.vectorSingle ⟨[20], 0, 2, 1, 2, nullptr, nullptr, true, true⟩, by
      simp [indexLoops, vectorLoops, LoopInfoTable.getLoopInfo, getElem?_twoLoops], .inr one_pos⟩

/-- Those of `x[i + j]` are never all found: the outer loop goes down from -1. -/
theorem vectorDouble_not_terminates : ∃ pis,
    setPointerInfo twoLoops zeroOutside 20 1 3 ⟨[4, 8], 0, true⟩ .empty = some pis ∧ ¬ AddressList.ShapeTerminates pis := by
  refine ⟨_, setPointerInfo_vectorDouble, ?_⟩
  rintro ⟨e, he, hloops⟩
  obtain rfl := Option.some.inj he
  rw [if_neg (by decide), AddressList.rowLoops_iff] at hloops
  exact absurd hloops (by decide)

end Octantis
