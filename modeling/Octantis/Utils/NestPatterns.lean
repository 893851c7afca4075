import Octantis.Utils.AccessPattern

/-!
# The patterns of small nests

What `detectAccessPatternType` and `detectZeroCols` find for a pointer in a nest of one or two loops
whose increments are one: a column for each loop, with a one where the index of the row has its
iterator.

## What is proved

* `detected_used`, `detected_unused`, `detected_column`: the patterns of a matrix, from what is found at
  one of its elements (`detectAt_of_entries`);
* `detected_single`, `detected_outer`, `detected_inner`, `detected_none`, `initZerosM_of_detected`: those
  of a vector (`detectAt_of_row`, `detected_pruned`).

## Honest scope

A vector has one increment left, and the next one is read past the end. So is the fourth or the fifth
of a matrix whose first index does not have the iterator of the outer loop: the value found there
decides between the rows and the columns.
-/

namespace Octantis

open Lib

namespace AccessPattern

variable {o1 i1 o2 i2 : Bool} (outside : OutOfRange)

/-- The increment of a loop, where its iterator is used. -/
def unitIncrement (used : Bool) : ℤ := if used then 1 else 0

/-- The pattern with its columns of zeros. -/
def detected (ap : AccessPattern) : Option AccessPattern :=
  (ap.detectAccessPatternType outside).bind detectZeroCols

/-- The order of a matrix pattern with both loops: the first index has the iterators of the outer and
the inner loop, the second that of the inner one. -/
def unitOrder (o1 i1 i2 : Bool) : Option ArrayAccessPattern :=
  if o1 then some (if i2 then .rowMajor else .colMajor)
  else (outside.incrementVector (if i1 then 4 else 5)).map fun x => if x ≠ 0 then .rowMajor else .colMajor

/-! ### Two rows -/

/-- What is found at an element of a matrix of two rows and two columns. -/
theorem detectAt_of_entries {ap : AccessPattern} {junk : ℤ → Option ℤ} {i j : ℕ} (hrows : ap.rowsM = 2)
    (hcols : ap.colsM = 2) : ap.detectAt junk i j = (ap.entry junk i j).bind fun x =>
      if x = 0 then some none
      else (ap.entry junk (i + 1) (j + 1)).bind fun y =>
        if y ≠ 0 then some (some (ArrayAccessPattern.rowMajor, (i : ℤ), 2 - (i : ℤ) - 2))
        else (ap.entry junk (i + 1) (j - 1)).map fun z =>
          if z ≠ 0 then some (ArrayAccessPattern.colMajor, (i : ℤ) - 1, 2 - (i : ℤ) - 1) else none := by
  have hone : ∀ e : ℤ × ℤ, ap.allNonzero junk [e] = (ap.entry junk e.1 e.2).map fun x => decide (x ≠ 0) := by
    intro e
    cases h : ap.entry junk e.1 e.2 with
    | none => simp [allNonzero, h]
    | some x => by_cases hx : x = 0 <;> simp [allNonzero, h, hx]
  rw [detectAt, if_pos (by omega), hcols, alternatives, if_neg (by decide), if_neg (by decide), if_pos rfl]
  simp only [firstNonzero, hone, Option.bind_eq_bind]
  cases ap.entry junk i j with
  | none => rfl
  | some x =>
    cases ap.entry junk (i + 1) (j + 1) with
    | none => by_cases hx : x = 0 <;> simp [hx]
    | some y =>
      cases ap.entry junk (i + 1) (j - 1) with
      | none => by_cases hx : x = 0 <;> by_cases hy : y = 0 <;> simp [hx, hy]
      | some z => by_cases hx : x = 0 <;> by_cases hy : y = 0 <;> by_cases hz : z = 0 <;> simp [hx, hy, hz]

/-- A matrix without columns of zeros is not pruned. -/
theorem pruneIncrementVector_two {a b c d : ℤ} (hac : a ≠ 0 ∨ c ≠ 0) (hbd : b ≠ 0 ∨ d ≠ 0) :
    (ofIncrements 2 2 [a, b, c, d]).pruneIncrementVector outside = some (ofIncrements 2 2 [a, b, c, d]) := by
  have hpruned : (ofIncrements 2 2 [a, b, c, d]).pruneIncrementVector outside =
      some { ofIncrements 2 2 [a, b, c, d] with
        incrementVector := ([(a, c), (b, d)].filter fun c => c.1 ≠ 0 || c.2 ≠ 0).map (·.1) ++
          ([(a, c), (b, d)].filter fun c => c.1 ≠ 0 || c.2 ≠ 0).map (·.2)
        colsM := ([(a, c), (b, d)].filter fun c => c.1 ≠ 0 || c.2 ≠ 0).length } := rfl
  have hfilter : ([(a, c), (b, d)].filter fun c => c.1 ≠ 0 || c.2 ≠ 0) = [(a, c), (b, d)] :=
    List.filter_eq_self.mpr (by simp [hac, hbd])
  rw [hpruned, hfilter]
  rfl

/-- No columns of zeros are found in it. -/
theorem detectZeroCols_two {a b c d : ℤ} (hac : a ≠ 0 ∨ c ≠ 0) (hbd : b ≠ 0 ∨ d ≠ 0) (initZeros finalZeros : ℤ)
    (apmType : ArrayAccessPattern) : detectZeroCols ⟨2, 2, [a, b, c, d], initZeros, finalZeros, apmType⟩ =
      some ⟨2, 2, [a, b, c, d], 0, 0, apmType⟩ := by
  rw [detectZeroCols, if_pos (.inr rfl), mapM_isZeroCol rfl rfl rfl, decide_eq_false (not_and_or.mpr hac),
    decide_eq_false (not_and_or.mpr hbd)]
  rfl

/-- The order of a matrix without columns of zeros is found at its first element that is not zero. -/
theorem detected_two {a b c d : ℤ} (hac : a ≠ 0 ∨ c ≠ 0) (hbd : b ≠ 0 ∨ d ≠ 0) :
    (ofIncrements 2 2 [a, b, c, d]).detected outside =
      (if a ≠ 0 then some (if d ≠ 0 then ArrayAccessPattern.rowMajor else .colMajor)
        else (outside.incrementVector (if b ≠ 0 then 4 else 5)).map fun x =>
          if x ≠ 0 then .rowMajor else .colMajor).map fun apmType => ⟨2, 2, [a, b, c, d], 0, 0, apmType⟩ := by
  have hat := fun i j => @detectAt_of_entries (ofIncrements 2 2 [a, b, c, d]) outside.incrementVector i j rfl rfl
  have hfirst : (ofIncrements 2 2 [a, b, c, d]).detectAt outside.incrementVector 0 0 =
      if a = 0 then some none else if d ≠ 0 then some (some (.rowMajor, 0, 0)) else
        some (if b ≠ 0 then some (.colMajor, -1, 1) else none) := hat 0 0
  have hsecond : (ofIncrements 2 2 [a, b, c, d]).detectAt outside.incrementVector 0 1 =
      if b = 0 then some none else (outside.incrementVector 4).bind fun x =>
        if x ≠ 0 then some (some (.rowMajor, 0, 0)) else some (if c ≠ 0 then some (.colMajor, -1, 1) else none) :=
    hat 0 1
  have hthird : (ofIncrements 2 2 [a, b, c, d]).detectAt outside.incrementVector 1 0 =
      if c = 0 then some none else (outside.incrementVector 5).bind fun x =>
        if x ≠ 0 then some (some (.rowMajor, 1, -1)) else some (if d ≠ 0 then some (.colMajor, 0, 0) else none) :=
    hat 1 0
  have helements : (ofIncrements 2 2 [a, b, c, d]).elements = [(0, 0), (0, 1), (1, 0), (1, 1)] := rfl
  rw [detected, detectAccessPatternType, pruneIncrementVector_two outside hac hbd]
  simp only [Option.bind_eq_bind, Option.bind_some, helements, List.findSomeM?]
  by_cases ha : a = 0
  · have hc : c ≠ 0 := hac.resolve_left (not_not_intro ha)
    rw [hfirst, hsecond, hthird, if_pos ha, if_neg (not_not_intro ha)]
    by_cases hb : b = 0
    · have hd : d ≠ 0 := hbd.resolve_left (not_not_intro hb)
      rw [if_pos hb, if_neg hc, if_neg (not_not_intro hb)]
      cases outside.incrementVector 5 with
      | none => rfl
      | some x => by_cases hx : x = 0 <;> simp [hx, hd, ofIncrements, detectZeroCols_two hac hbd]
    · rw [if_neg hb, if_pos hb]
      cases outside.incrementVector 4 with
      | none => rfl
      | some x => by_cases hx : x = 0 <;> simp [hx, hc, ofIncrements, detectZeroCols_two hac hbd]
  · rw [hfirst, if_neg ha, if_pos ha]
    by_cases hd : d = 0
    · have hb : b ≠ 0 := hbd.resolve_right (not_not_intro hd)
      subst hd
      simp [hb, ofIncrements, detectZeroCols_two hac hbd]
    · simp [hd, ofIncrements, detectZeroCols_two hac hbd]

/-- **Both loops are used**: there are no columns of zeros. -/
theorem detected_used (ho : (o1 || o2) = true) (hi : (i1 || i2) = true) :
    (ofIncrements 2 2 [unitIncrement o1, unitIncrement i1, unitIncrement o2, unitIncrement i2]).detected outside =
      (unitOrder outside o1 i1 i2).map fun apmType =>
        ⟨2, 2, [unitIncrement o1, unitIncrement i1, unitIncrement o2, unitIncrement i2], 0, 0, apmType⟩ := by
  have hne : ∀ used, unitIncrement used ≠ 0 ↔ used = true := by decide
  rw [detected_two outside (by simpa [hne] using ho) (by simpa [hne] using hi)]
  simp only [hne, unitOrder]

/-- A loop that is not used leaves no pattern. -/
theorem detected_unused (h : (o1 || o2) = false ∨ (i1 || i2) = false) :
    ∃ ap, (ofIncrements 2 2 [unitIncrement o1, unitIncrement i1, unitIncrement o2, unitIncrement i2]).detected
      outside = some ap ∧ ap.apmType = .undefined := by
  cases o1 <;> cases i1 <;> cases o2 <;> cases i2 <;> first | exact ⟨_, rfl, rfl⟩ | simp at h

/-- One loop has no pattern of two rows. -/
theorem detected_column (used1 used2 : Bool) :
    ∃ ap, (ofIncrements 2 1 [unitIncrement used1, unitIncrement used2]).detected outside = some ap ∧
      ap.apmType = .undefined := by
  cases used1 <;> cases used2 <;> exact ⟨_, rfl, rfl⟩

/-! ### One row -/

/-- What is found at an element of a matrix of one row. -/
theorem detectAt_of_row {ap : AccessPattern} {junk : ℤ → Option ℤ} {i j : ℕ} (hrows : ap.rowsM = 1) :
    ap.detectAt junk i j = (ap.entry junk 0 j).bind fun x =>
      if x = 0 then some none else (ap.entry junk 0 (j + 1)).map fun y => some (ArrayAccessPattern.rowMajor, (j : ℤ),
        if y = 0 then (ap.colsM : ℤ) - j - 1 else ap.colsM - j - 2) := by
  rw [detectAt, if_neg (by omega)]
  cases ap.entry junk 0 j with
  | none => rfl
  | some x =>
    cases ap.entry junk 0 (j + 1) with
    | none => by_cases hx : x = 0 <;> simp [hx]
    | some y => by_cases hx : x = 0 <;> by_cases hy : y = 0 <;> simp [hx, hy]

/-- Of the pruned row only the one is left: the next increment is read past the end. -/
theorem detected_pruned {cols : ℕ} {vector : List ℤ} {initZeros finalZeros : ℤ}
    (hpruned : (ofIncrements 1 (cols + 1) vector).pruneIncrementVector outside =
      some (ofIncrements 1 (cols + 1) [1]))
    (hzeros : ∀ i f apmType, detectZeroCols ⟨1, cols + 1, vector, i, f, apmType⟩ =
      some ⟨1, cols + 1, vector, initZeros, finalZeros, apmType⟩) :
    (ofIncrements 1 (cols + 1) vector).detected outside =
      (outside.incrementVector 1).map fun _ => ⟨1, cols + 1, vector, initZeros, finalZeros, .rowMajor⟩ := by
  have hfirst : (ofIncrements 1 (cols + 1) [1]).detectAt outside.incrementVector 0 0 =
      (outside.incrementVector 1).map fun y => some (ArrayAccessPattern.rowMajor, (0 : ℤ),
        if y = 0 then ((cols + 1 : ℕ) : ℤ) - 0 - 1 else ((cols + 1 : ℕ) : ℤ) - 0 - 2) := by
    rw [detectAt_of_row rfl]
    simp [entry, element, ofIncrements]
  have helements : (ofIncrements 1 (cols + 1) [1]).elements = (0, 0) :: ((List.range cols).map (0, · + 1)) := by
    simp [elements, ofIncrements, List.range_succ_eq_map]
  rw [detected, detectAccessPatternType, hpruned]
  simp only [Option.bind_eq_bind, Option.bind_some, helements, List.findSomeM?, hfirst]
  cases outside.incrementVector 1 with
  | none => rfl
  | some x => exact hzeros _ _ _

/-- **The loop is used.** -/
theorem detected_single : (ofIncrements 1 1 [1]).detected outside =
    (outside.incrementVector 1).map fun _ => ⟨1, 1, [1], 0, 0, .rowMajor⟩ :=
  detected_pruned outside rfl fun _ _ _ => rfl

/-- The outer loop is used. -/
theorem detected_outer : (ofIncrements 1 2 [1, 0]).detected outside =
    (outside.incrementVector 1).map fun _ => ⟨1, 2, [1, 0], 0, 1, .rowMajor⟩ :=
  detected_pruned outside rfl fun _ _ _ => rfl

/-- The inner loop is used. -/
theorem detected_inner : (ofIncrements 1 2 [0, 1]).detected outside =
    (outside.incrementVector 1).map fun _ => ⟨1, 2, [0, 1], 1, 0, .rowMajor⟩ :=
  detected_pruned outside rfl fun _ _ _ => rfl

/-- The only loop is not used: the pattern is read past the end. -/
theorem detected_none : (ofIncrements 1 1 [0]).detected outside = (outside.incrementVector 0).bind fun x =>
    if x = 0 then some ⟨1, 1, [0], 1, 0, .undefined⟩
    else (outside.incrementVector 1).map fun _ => ⟨1, 1, [0], 1, 0, .rowMajor⟩ := by
  have hpruned : (ofIncrements 1 1 [0]).pruneIncrementVector outside = some (ofIncrements 1 1 []) := rfl
  have helements : (ofIncrements 1 1 []).elements = [(0, 0)] := rfl
  have hfirst : (ofIncrements 1 1 []).detectAt outside.incrementVector 0 0 =
      (outside.incrementVector 0).bind fun x => if x = 0 then some none else
        (outside.incrementVector 1).map fun y =>
          some (ArrayAccessPattern.rowMajor, (0 : ℤ), if y = 0 then (1 : ℤ) - 0 - 1 else 1 - 0 - 2) :=
    detectAt_of_row rfl
  have hzeros : ∀ i f apmType, detectZeroCols ⟨1, 1, [0], i, f, apmType⟩ = some ⟨1, 1, [0], 1, 0, apmType⟩ :=
    fun _ _ _ => rfl
  rw [detected, detectAccessPatternType, hpruned]
  simp only [Option.bind_eq_bind, Option.bind_some, helements, List.findSomeM?, hfirst]
  cases outside.incrementVector 0 with
  | none => rfl
  | some x =>
    by_cases hx : x = 0
    · simp [hx, ofIncrements, hzeros]
    · cases outside.incrementVector 1 with
      | none => simp [hx]
      | some y => simp [hx, ofIncrements, hzeros]

/-- Neither of two loops is used: both columns are zeros. -/
theorem initZerosM_of_detected {ap : AccessPattern} (h : (ofIncrements 1 2 [0, 0]).detected outside = some ap) :
    ap.initZerosM = 2 := by
  obtain ⟨ap', hap', h⟩ := Option.bind_eq_some_iff.mp h
  obtain ⟨hrows, hcols, hvector⟩ := matrix_detectAccessPatternType hap'
  obtain ⟨rowsM, colsM, vector, i, f, apmType⟩ := ap'
  obtain rfl : rowsM = 1 := hrows
  obtain rfl : colsM = 2 := hcols
  obtain rfl : vector = [0, 0] := hvector
  exact Option.some.inj h ▸ rfl

end AccessPattern

end Octantis
