import Mathlib.Tactic.Linarith
import Mathlib.Tactic.Positivity
import Mathlib.Tactic.Ring
import Octantis.Lib.CInt
import Octantis.Lib.LoopNest
import Octantis.Analysis.PointerInfo

/-!
# The address lists

`AddressList` picks, of the rows of an array, those that a pointer goes over, in the
order in which it does. `extractIteratorAdvancement` gives the position of an element.

## The model

A list of addresses is a list of any elements. An iterator advanced past the end of the
list, or before its begin, is undefined (`none`), and so is a loop whose counter never
reaches its bound.
-/

namespace Octantis

open Lib

namespace AddressList

/-- `extractIteratorAdvancement`, which returns nothing for the other patterns. -/
def extractIteratorAdvancement (ap : ArrayAccessPattern) (i j k l arrayCols : ℤ) : Option ℤ :=
  match ap with
  | .rowMajor => (CInt.mul i arrayCols).bind (CInt.add · j)
  | .colMajor => (CInt.mul j arrayCols).bind (CInt.add · i)
  | .colMajorSet1RowMajor => ((CInt.mul i arrayCols).bind (CInt.add · j)).bind (CInt.add · k)
  | .rowMajorSet1ColMajor => ((CInt.add j k).bind (CInt.mul · arrayCols)).bind (CInt.add i ·)
  | .rowMajorSet2RowMajor =>
    ((CInt.mul i arrayCols).bind (CInt.add · j)).bind fun a =>
      ((CInt.mul arrayCols k).bind (CInt.add a ·)).bind (CInt.add · l)
  | .rowMajorSet2ColMajor =>
    ((CInt.mul i arrayCols).bind (CInt.add · j)).bind fun a =>
      ((CInt.mul arrayCols l).bind (CInt.add a ·)).bind (CInt.add · k)
  | .colMajorSet2ColMajor =>
    ((CInt.mul j arrayCols).bind (CInt.add · i)).bind fun a =>
      ((CInt.mul arrayCols l).bind (CInt.add a ·)).bind (CInt.add · k)
  | .colMajorSet2RowMajor =>
    ((CInt.mul j arrayCols).bind (CInt.add · i)).bind fun a =>
      ((CInt.mul arrayCols k).bind (CInt.add a ·)).bind (CInt.add · l)
  | .colMajorSet1ColMajor | .rowMajorSet1RowMajor | .undefined => none

variable {α : Type}

/-- `addrListIT = addrList.begin(); advance(addrListIT, n); *addrListIT`. -/
def rowAt (addrList : List α) (n : ℤ) : Option α := if 0 ≤ n then addrList[n.toNat]? else none

/-- The values of the counter of `for (int i = start; i < stop; i = i + spacing)`. -/
def counter (start stop spacing : ℤ) : Option (List ℤ) :=
  if stop ≤ start then some []
  else if spacing ≤ 0 then none
  else some ((List.range ((stop - start + spacing - 1) / spacing).toNat).map fun (k : ℕ) => start + spacing * k)

/-- A loop that pushes rows to a list in each iteration. -/
def pushed (values : Option (List ℤ)) (body : ℤ → Option (List α)) : Option (List α) := do
  return (← (← values).mapM body).flatten

/-- The loops of a pattern without subsets. -/
def shapeRows (ap : ArrayAccessPattern) (e : Extent) (arrayCols : ℤ) (addrList : List α) : Option (List α) :=
  pushed (counter e.offsetY (e.stopY + 1) e.spacingY) fun i =>
    pushed (counter e.offsetX (e.stopX + 1) e.spacingX) fun j => do
      return [← rowAt addrList (← extractIteratorAdvancement ap i j 0 0 arrayCols)]

/-- The loops of a pattern without subsets and with two initial columns of zeros. -/
def shapeTriangles (e : Extent) (arrayCols : ℤ) (addrList : List α) : Option (List α) :=
  pushed (counter e.offsetY e.stopX e.spacingX) fun i =>
    pushed (counter e.offsetX e.stopY e.spacingY) fun j =>
      pushed (counter 0 (i + 1) e.spacingInSubsetX) fun k =>
        pushed (counter 0 (j + 1) e.spacingInSubsetY) fun l => do
          return [← rowAt addrList (arrayCols * k + l)]

/-- The loops of a pattern with subsets. -/
def shapeSubsets (ap : ArrayAccessPattern) (e : Extent) (arrayRows arrayCols : ℤ) (addrList : List α) :
    Option (List α) :=
  pushed (counter e.offsetY (e.stopY + 1) e.spacingY) fun i =>
    pushed (counter e.offsetX (arrayRows - e.setRows + 1) e.spacingX) fun j =>
      pushed (counter 0 e.setRows e.spacingInSubsetY) fun k =>
        pushed (counter 0 e.setCols e.spacingInSubsetX) fun l => do
          return [← rowAt addrList (← extractIteratorAdvancement ap i j k l arrayCols)]

/-- `shapeAddressList`: the rows that the pointer goes over, of the rows of its register. -/
def shapeAddressList (pis : PointerInfoStruct) (addrList : List α) : Option (List α) :=
  match pis.pointerAccessPattern.apmType with
  | .rowMajor | .colMajor => pis.extent.bind fun e =>
    if pis.pointerAccessPattern.initZerosM = 2 then shapeTriangles e pis.arrayCols addrList
    else shapeRows pis.pointerAccessPattern.apmType e pis.arrayCols addrList
  | .colMajorSet1RowMajor | .rowMajorSet1ColMajor
  | .rowMajorSet2ColMajor | .rowMajorSet2RowMajor | .colMajorSet2RowMajor | .colMajorSet2ColMajor =>
    pis.extent.bind fun e =>
      shapeSubsets pis.pointerAccessPattern.apmType e pis.arrayRows pis.arrayCols addrList
  | .colMajorSet1ColMajor | .rowMajorSet1RowMajor | .undefined => some []

/-- The product of the first `n` of the iterations. -/
def repetitions (loopIterations : List ℤ) (n : ℤ) : Option ℤ :=
  if n.toNat ≤ loopIterations.length then some (loopIterations.take n.toNat).prod else none

/-- `expandAddressList`: each row as often as the loops of the last columns of zeros iterate, and
the list as often as those of the first. -/
def expandAddressList (pis : PointerInfoStruct) (loopIterations : List ℤ) (addrList : List α) : Option (List α) :=
  let nInitZeroCols := pis.pointerAccessPattern.initZerosM
  let nFinalZeroCols := pis.pointerAccessPattern.finalZerosM
  if nInitZeroCols ≠ 0 ∨ nFinalZeroCols ≠ 0 then do
    let nRepeatList ← repetitions loopIterations nInitZeroCols
    let nRepeatEachElement ← repetitions loopIterations.reverse nFinalZeroCols
    let tmpList := addrList.flatMap fun row => List.replicate nRepeatEachElement.toNat row
    return (List.replicate nRepeatList.toNat tmpList).flatten
  else some addrList

/-- The loop of `getSubset`, from an index and the position of its iterator: the elements are pushed
in the iteration in which `currSubsetNumber` is the one asked for, which is the second at the
latest. -/
def getSubsetFrom (addrList : List α) (subsetNumber nSubsetElements skipElements : ℤ) :
    ℕ → (j position currSubsetNumber : ℤ) → Option (List α)
  | 0, _, _, _ => none
  | fuel + 1, j, position, currSubsetNumber =>
    if j < addrList.length then
      if currSubsetNumber = subsetNumber ∧ 0 < nSubsetElements then
        (List.range nSubsetElements.toNat).mapM fun (k : ℕ) => rowAt addrList (position + k)
      else
        getSubsetFrom addrList subsetNumber nSubsetElements skipElements fuel (j + nSubsetElements)
          (position + if subsetNumber = 1 then 1 else skipElements) subsetNumber
    else some []

/-- `getSubset`. A loop that goes on after two iterations does so for ever. -/
def getSubset (addrList : List α) (subsetNumber nSubsetElements skipElements : ℤ) : Option (List α) :=
  getSubsetFrom addrList subsetNumber nSubsetElements skipElements 3 0 0 0

/-! ### The rows selected -/

/-- How often `for (int i = start; i < stop; i = i + spacing)` iterates. -/
def trips (start stop spacing : ℤ) : ℕ := ((stop - start + spacing - 1) / spacing).toNat

/-- A counter with a spacing above zero has the values of a loop of so many iterations. -/
theorem counter_of_pos {start stop spacing : ℤ} (hspacing : 0 < spacing) :
    counter start stop spacing = some ((List.range (trips start stop spacing)).map fun (k : ℕ) =>
      start + spacing * k) := by
  unfold counter
  split_ifs with hstop
  · have hle : (stop - start + spacing - 1) / spacing ≤ 0 := by
      have := Int.ediv_lt_of_lt_mul hspacing (show stop - start + spacing - 1 < 1 * spacing by linarith)
      omega
    rw [trips, Int.toNat_of_nonpos hle]
    rfl
  · omega
  · rfl

/-- A counter with another spacing counts nothing, or for ever. -/
theorem counter_of_nonpos {start stop spacing : ℤ} (hspacing : spacing ≤ 0) :
    counter start stop spacing = some [] ∨ counter start stop spacing = none := by
  unfold counter
  split_ifs
  · exact .inl rfl
  · exact .inr rfl

/-- A counter up to the last element in a direction counts all the elements. -/
theorem trips_stop {spacing : ℤ} (hspacing : 0 < spacing) (start : ℤ) (n : ℕ) :
    trips start (CollectInfo.stop start spacing n + 1) spacing = n := by
  have hdiff : CollectInfo.stop start spacing n + 1 - start + spacing - 1 = n * spacing := by
    rw [CollectInfo.stop]
    ring
  rw [trips, hdiff, Int.mul_ediv_cancel _ hspacing.ne', Int.toNat_natCast]

theorem counter_stop {start spacing : ℤ} (hspacing : 0 < spacing) (n : ℕ) :
    counter start (CollectInfo.stop start spacing n + 1) spacing =
      some ((List.range n).map fun (k : ℕ) => start + spacing * k) := by
  rw [counter_of_pos hspacing, trips_stop hspacing]

/-- **A loop that selects rows** selects those of all its iterations. -/
theorem pushed_mapM {β : Type} {f : β → Option α} {values : Option (List ℤ)} {start spacing : ℤ} {n : ℕ}
    (hvalues : values = some ((List.range n).map fun (k : ℕ) => start + spacing * k))
    {body : ℤ → Option (List α)}
    {g : ℕ → List β} (hbody : ∀ k < n, body (start + spacing * k) = (g k).mapM f) :
    pushed values body = ((List.range n).flatMap g).mapM f := by
  have hcongr : (List.range n).mapM (body ∘ fun (k : ℕ) => start + spacing * k) =
      (List.range n).mapM fun k => (g k).mapM f :=
    mapM_congr fun k hk => hbody k (List.mem_range.mp hk)
  rw [mapM_flatMap, hvalues, pushed, Option.bind_eq_bind, Option.bind_some, List.mapM_map, hcongr]
  cases (List.range n).mapM fun k => (g k).mapM f <;> rfl

/-- Where the row of the element `(i, j)` is in a pattern without subsets. -/
def position (ap : ArrayAccessPattern) (i j arrayCols : ℤ) : ℤ :=
  if ap = .colMajor then j * arrayCols + i else i * arrayCols + j

/-- The rows that an advancement of type `int` reaches. -/
def reachable (addrList : List α) : List α := addrList.take (2 ^ 31)

theorem rowAt_reachable (addrList : List α) (n : ℤ) :
    rowAt (reachable addrList) n = if n < 2 ^ 31 then rowAt addrList n else none := by
  unfold rowAt reachable
  by_cases h0 : 0 ≤ n
  · rw [if_pos h0, if_pos h0, List.getElem?_take]
    by_cases hlt : n < 2 ^ 31
    · rw [if_pos hlt, if_pos (by omega)]
    · rw [if_neg hlt, if_neg (by omega)]
  · rw [if_neg h0, if_neg h0, ite_self]

/-- The rows of a list without duplicates are told apart. -/
theorem rowAt_inj {addrList : List α} (hnodup : addrList.Nodup) {m n : ℤ} {row : α}
    (hm : rowAt addrList m = some row)
    (hn : rowAt addrList n = some row) : m = n := by
  unfold rowAt at hm hn
  split at hm
  · split at hn
    · obtain ⟨hlt, -⟩ := List.getElem?_eq_some_iff.mp hm
      have := (List.getElem?_inj hlt hnodup).mp (hm.trans hn.symm)
      omega
    · cases hn
  · cases hm

theorem bind_rowAt (addrList : List α) {a b : ℤ} (ha : 0 ≤ a) (hb : 0 ≤ b) :
    ((CInt.checked a).bind (CInt.add · b)).bind (rowAt addrList) = rowAt (reachable addrList) (a + b) := by
  rw [rowAt_reachable]
  rcases lt_or_ge (a + b) (2 ^ 31) with hlt | hge
  · rw [CInt.checked_of_nonneg ha (by omega), Option.bind_some, CInt.add,
      CInt.checked_of_nonneg (by omega) hlt, Option.bind_some, if_pos hlt]
  · have hnone : (CInt.checked a).bind (CInt.add · b) = none := by
      rw [Option.bind_eq_none_iff]
      intro a' ha'
      obtain ⟨rfl, -⟩ := CInt.checked_eq_some.mp ha'
      rw [CInt.add, CInt.checked, if_neg (by omega)]
    rw [hnone, Option.bind_none, if_neg (not_lt.mpr hge)]

theorem extractIteratorAdvancement_rowAt {ap : ArrayAccessPattern} (hap : ap = .rowMajor ∨ ap = .colMajor)
    (addrList : List α) {i j arrayCols : ℤ} (hi : 0 ≤ i) (hj : 0 ≤ j) (hcols : 0 ≤ arrayCols) :
    (extractIteratorAdvancement ap i j 0 0 arrayCols).bind (rowAt addrList) =
      rowAt (reachable addrList) (position ap i j arrayCols) := by
  rcases hap with rfl | rfl
  · exact bind_rowAt addrList (Int.mul_nonneg hi hcols) hj
  · exact bind_rowAt addrList (Int.mul_nonneg hj hcols) hi

/-- The rows that a pattern without subsets goes over. -/
def height (e : Extent) : ℕ := trips e.offsetY (e.stopY + 1) e.spacingY

/-- The columns that it goes over. -/
def width (e : Extent) : ℕ := trips e.offsetX (e.stopX + 1) e.spacingX

/-- Where it looks for the row of an iteration of its two loops. -/
def selectedPlace (ap : ArrayAccessPattern) (e : Extent) (arrayCols : ℤ) (k : ℕ) : Option ℤ :=
  extractIteratorAdvancement ap (e.offsetY + e.spacingY * (k / width e : ℕ)) (e.offsetX + e.spacingX * (k % width e : ℕ))
    0 0 arrayCols

/-- **The rows of a pattern without subsets**, over the number of the iteration of the two loops. -/
theorem shapeRows_selectedPlace {ap : ArrayAccessPattern} {e : Extent} {arrayCols : ℤ} (addrList : List α)
    (hX : 0 < e.spacingX) (hY : 0 < e.spacingY) : shapeRows ap e arrayCols addrList =
      (List.range (height e * width e)).mapM fun k =>
        (selectedPlace ap e arrayCols k).bind (rowAt addrList) := by
  have hpair : (List.range (height e * width e)).mapM
      (fun k => (selectedPlace ap e arrayCols k).bind (rowAt addrList)) =
      ((List.range (height e)).flatMap fun a => (List.range (width e)).map fun b => (a, b)).mapM
        fun (x : ℕ × ℕ) =>
          (extractIteratorAdvancement ap (e.offsetY + e.spacingY * x.1) (e.offsetX + e.spacingX * x.2)
            0 0 arrayCols).bind (rowAt addrList) := by
    rw [flatMap_range (height e) (width e) fun a b => (a, b), List.mapM_map]
    rfl
  rw [hpair, shapeRows]
  refine pushed_mapM (counter_of_pos hY) fun a _ => ?_
  rw [List.map_eq_flatMap]
  refine pushed_mapM (counter_of_pos hX) fun b _ => ?_
  rw [List.mapM_cons]
  cases extractIteratorAdvancement ap (e.offsetY + e.spacingY * a) (e.offsetX + e.spacingX * b) 0 0 arrayCols with
  | none => rfl
  | some p => cases h : rowAt addrList p <;> simp [h]

/-- The positions selected, of elements without negative indexes. -/
theorem shapeRows_eq {ap : ArrayAccessPattern} (hap : ap = .rowMajor ∨ ap = .colMajor) {e : Extent}
    {arrayCols : ℤ}
    (addrList : List α) {m n : ℕ} (hcols : 0 ≤ arrayCols)
    (hX : 0 < e.spacingX) (hY : 0 < e.spacingY) (h0 : 0 < m → 0 < n → 0 ≤ e.offsetX ∧ 0 ≤ e.offsetY)
    (hstopX : e.stopX = CollectInfo.stop e.offsetX e.spacingX n)
    (hstopY : e.stopY = CollectInfo.stop e.offsetY e.spacingY m) :
    shapeRows ap e arrayCols addrList = ((List.range (m * n)).map fun k =>
      position ap (e.offsetY + e.spacingY * (k / n : ℕ)) (e.offsetX + e.spacingX * (k % n : ℕ)) arrayCols).mapM
        (rowAt (reachable addrList)) := by
  have hheight : height e = m := by rw [height, hstopY, trips_stop hY]
  have hwidth : width e = n := by rw [width, hstopX, trips_stop hX]
  rw [shapeRows_selectedPlace addrList hX hY, hheight, List.mapM_map]
  simp only [selectedPlace, hwidth]
  refine mapM_congr fun k hk => ?_
  have hm : 0 < m := Nat.pos_of_ne_zero (by rintro rfl; simp at hk)
  have hn : 0 < n := Nat.pos_of_ne_zero (by rintro rfl; simp at hk)
  obtain ⟨h0X, h0Y⟩ := h0 hm hn
  have hi : 0 ≤ e.offsetY + e.spacingY * (k / n : ℕ) := by positivity
  have hj : 0 ≤ e.offsetX + e.spacingX * (k % n : ℕ) := by positivity
  exact extractIteratorAdvancement_rowAt hap addrList hi hj hcols

/-- Where the row of an element of a subset is. -/
def positionInSubset (ap : ArrayAccessPattern) (i j k l arrayCols : ℤ) : ℤ :=
  (if ap = .rowMajorSet2RowMajor ∨ ap = .rowMajorSet2ColMajor then i * arrayCols + j else j * arrayCols + i) +
    (if ap = .rowMajorSet2RowMajor ∨ ap = .colMajorSet2RowMajor then arrayCols * k + l else arrayCols * l + k)

theorem bind_bind_rowAt (addrList : List α) {a b c d : ℤ} (ha : 0 ≤ a) (hb : 0 ≤ b) (hc : 0 ≤ c)
    (hd : 0 ≤ d) :
    (((CInt.checked a).bind (CInt.add · b)).bind fun x =>
      ((CInt.checked c).bind (CInt.add x ·)).bind (CInt.add · d)).bind
      (rowAt addrList) = rowAt (reachable addrList) (a + b + (c + d)) := by
  rw [rowAt_reachable]
  by_cases hlt : a + b + (c + d) < 2 ^ 31
  · rw [CInt.checked_of_nonneg ha (by omega), CInt.checked_of_nonneg hc (by omega)]
    simp only [Option.bind_some, CInt.add]
    rw [CInt.checked_of_nonneg (by omega) (show a + b < 2 ^ 31 by omega)]
    simp only [Option.bind_some]
    rw [CInt.checked_of_nonneg (by omega) (show a + b + c < 2 ^ 31 by omega)]
    simp only [Option.bind_some]
    rw [CInt.checked_of_nonneg (by omega) (show a + b + c + d < 2 ^ 31 by omega), Option.bind_some,
      if_pos hlt, Int.add_assoc]
  · rw [if_neg hlt, Option.bind_eq_none_iff]
    intro x hx
    exfalso
    obtain ⟨y, hy, hsum⟩ := Option.bind_eq_some_iff.mp hx
    obtain ⟨a', ha', hadd⟩ := Option.bind_eq_some_iff.mp hy
    obtain ⟨z, hz, hadd''⟩ := Option.bind_eq_some_iff.mp hsum
    obtain ⟨c', hc', hadd'⟩ := Option.bind_eq_some_iff.mp hz
    have h₁ := (CInt.checked_eq_some.mp ha').1
    have h₂ := (CInt.checked_eq_some.mp hc').1
    have h₃ := (CInt.checked_eq_some.mp hadd).1
    have h₄ := (CInt.checked_eq_some.mp hadd').1
    have h₅ := CInt.checked_eq_some.mp hadd''
    omega

/-- A pattern with two-dimensional subsets. -/
def IsSet2 (ap : ArrayAccessPattern) : Prop :=
  ap = .rowMajorSet2RowMajor ∨ ap = .rowMajorSet2ColMajor ∨ ap = .colMajorSet2RowMajor ∨ ap = .colMajorSet2ColMajor

theorem extractIteratorAdvancement_subset {ap : ArrayAccessPattern} (hap : IsSet2 ap) (addrList : List α)
    {i j k l arrayCols : ℤ} (hi : 0 ≤ i) (hj : 0 ≤ j) (hk : 0 ≤ k) (hl : 0 ≤ l) (hcols : 0 ≤ arrayCols) :
    (extractIteratorAdvancement ap i j k l arrayCols).bind (rowAt addrList) =
      rowAt (reachable addrList) (positionInSubset ap i j k l arrayCols) := by
  have hik : 0 ≤ arrayCols * k := Int.mul_nonneg hcols hk
  have hil : 0 ≤ arrayCols * l := Int.mul_nonneg hcols hl
  rcases hap with rfl | rfl | rfl | rfl
  · exact bind_bind_rowAt addrList (Int.mul_nonneg hi hcols) hj hik hl
  · exact bind_bind_rowAt addrList (Int.mul_nonneg hi hcols) hj hil hk
  · exact bind_bind_rowAt addrList (Int.mul_nonneg hj hcols) hi hik hl
  · exact bind_bind_rowAt addrList (Int.mul_nonneg hj hcols) hi hil hk

/-- The values of the four counters of a pattern with subsets. -/
def subsetIndexes (e : Extent) (m : ℕ) (arrayRows : ℤ) : List (ℤ × ℤ × ℤ × ℤ) :=
  (List.range m).flatMap fun a =>
    (List.range (trips e.offsetX (arrayRows - e.setRows + 1) e.spacingX)).flatMap fun b =>
      (List.range (trips 0 e.setRows e.spacingInSubsetY)).flatMap fun c =>
        (List.range (trips 0 e.setCols e.spacingInSubsetX)).map fun d =>
          (e.offsetY + e.spacingY * (a : ℕ), e.offsetX + e.spacingX * (b : ℕ), e.spacingInSubsetY * (c : ℕ),
            e.spacingInSubsetX * (d : ℕ))

/-- **The rows of a pattern with subsets**, by the values of the counters. -/
theorem shapeSubsets_eq {ap : ArrayAccessPattern} {e : Extent} {arrayRows arrayCols : ℤ}
    (addrList : List α) {m : ℕ}
    (hX : 0 < e.spacingX) (hY : 0 < e.spacingY) (hsX : 0 < e.spacingInSubsetX) (hsY : 0 < e.spacingInSubsetY)
    (hstopY : e.stopY = CollectInfo.stop e.offsetY e.spacingY m) :
    shapeSubsets ap e arrayRows arrayCols addrList = (subsetIndexes e m arrayRows).mapM fun x =>
      (extractIteratorAdvancement ap x.1 x.2.1 x.2.2.1 x.2.2.2 arrayCols).bind (rowAt addrList) := by
  rw [shapeSubsets, subsetIndexes, hstopY, CollectInfo.stop]
  refine pushed_mapM (counter_stop hY m) fun a _ => pushed_mapM (counter_of_pos hX) fun b _ =>
    pushed_mapM (counter_of_pos hsY) fun c _ => ?_
  rw [List.map_eq_flatMap]
  refine pushed_mapM (counter_of_pos hsX) fun d _ => ?_
  rw [List.mapM_cons, Int.zero_add, Int.zero_add]
  cases extractIteratorAdvancement ap (e.offsetY + e.spacingY * a) (e.offsetX + e.spacingX * b) (e.spacingInSubsetY * c)
      (e.spacingInSubsetX * d) arrayCols with
  | none => rfl
  | some p => cases h : rowAt addrList p <;> simp [h]

/-- **The rows selected are those expected** exactly when their positions are, and are values of
type `int`. -/
theorem selected_iff {addrList : List α} (hnodup : addrList.Nodup) {selected expected : List ℤ}
    (hsome : ∀ n ∈ expected, (rowAt addrList n).isSome) :
    (∃ rows, selected.mapM (rowAt (reachable addrList)) = some rows ∧
      rows.map some = expected.map (rowAt addrList)) ↔
      selected = expected ∧ ∀ n ∈ expected, n < 2 ^ 31 := by
  have hselected : (∃ rows, selected.mapM (rowAt (reachable addrList)) = some rows ∧
      rows.map some = expected.map (rowAt addrList)) ↔
        selected.mapM (rowAt (reachable addrList)) = expected.mapM (rowAt addrList) := by
    constructor
    · rintro ⟨rows, hrows, hmap⟩
      rw [hrows, mapM_eq_some_iff_map.mpr hmap]
    · intro heq
      obtain ⟨rows, hrows⟩ := exists_mapM_eq_some hsome
      exact ⟨rows, heq.trans hrows, mapM_eq_some_iff_map.mp hrows⟩
  have hreach : (∀ n ∈ expected, (rowAt (reachable addrList) n).isSome) ↔ ∀ n ∈ expected, n < 2 ^ 31 := by
    refine forall₂_congr fun n hn => ?_
    rw [rowAt_reachable]
    by_cases hlt : n < 2 ^ 31
    · rw [if_pos hlt]
      exact iff_of_true (hsome n hn) hlt
    · rw [if_neg hlt]
      exact iff_of_false Bool.false_ne_true hlt
  rw [hselected, mapM_eq_mapM_iff hsome ?_ fun n n' row hrow hrow' => rowAt_inj hnodup hrow hrow', hreach]
  intro n row hrow
  rw [rowAt_reachable] at hrow
  split at hrow
  · exact hrow
  · cases hrow

end AddressList

end Octantis
