import Octantis.Utils.AccessPattern

/-!
# The pruned matrix

`pruneIncrementVector` is to remove the columns of zeros. Its iterators go `i` elements
further in the iteration `i`, so they are on the columns 0, 1, 3, 6 and so on.

## The result

The function reads elements of its vectors and leaves the other columns exactly when there
are at most two columns (`pruneIncrementVector_iff`) and, in a matrix of one row, none is
zero: there `colsM` stays the number of the columns before the pruning.
-/

namespace Octantis

open Lib

namespace AccessPattern

variable {ap ap' : AccessPattern} {outside : OutOfRange}

/-- The element in the row `i` and the column `j`. -/
def elementAt (ap : AccessPattern) (i j : ℕ) : ℤ := ap.incrementVector.getD (i * ap.colsM + j) 0

/-- The columns that are not all zero, in order. -/
def nonzeroColumns (ap : AccessPattern) : List ℕ :=
  (List.range ap.colsM).filter fun j => (List.range ap.rowsM).any fun i => ap.elementAt i j ≠ 0

/-- The matrix `ap'` is what is left of `ap` without its columns of zeros. -/
structure Prunes (ap ap' : AccessPattern) : Prop where
  /-- The rows are those before. -/
  rowsM : ap'.rowsM = ap.rowsM
  /-- Each row is the row before in the columns that are not all zero. -/
  incrementVector : ap'.incrementVector =
    (List.range ap.rowsM).flatMap fun i => ap.nonzeroColumns.map fun j => ap.elementAt i j
  /-- The matrix has as many elements as its vector. -/
  length : ap'.rowsM * ap'.colsM = ap'.incrementVector.length

/-- From the third column on, the last position of the iterators is past the row. -/
theorem le_advanced {c : ℕ} (hc : 3 ≤ c) : (c : ℤ) ≤ advanced (c - 1) := by
  obtain ⟨n, rfl⟩ := Nat.exists_eq_add_of_le hc
  have hdouble : 2 * (3 + n) ≤ (2 + n) * (2 + n + 1) := by
    rw [show (2 + n) * (2 + n + 1) = (2 + n) * (3 + n) by ring]
    exact Nat.mul_le_mul_right _ (by omega)
  rw [advanced, show 3 + n - 1 = 2 + n by omega]
  exact_mod_cast (Nat.le_div_iff_mul_le (by omega)).mpr (by omega)

/-- Reading all positions of the iterators is reading one past a row of three elements or more. -/
theorem colsM_le_two_of_mapM {row : List ℤ} {α : Type} {g : ℕ → Option α} {c : ℕ} {l : List α}
    (hg : ∀ i, (g i).isSome → (element row (fun _ => none) (advanced i)).isSome) (hlength : row.length = c)
    (h : (List.range c).mapM g = some l) : c ≤ 2 := by
  by_contra hc
  have hmem : c - 1 ∈ List.range c := List.mem_range.mpr (by omega)
  have hsome : (g (c - 1)).isSome := by
    obtain ⟨a, -, ha⟩ := List.mem_map.mp
      ((mapM_eq_some_iff_map.mp h).symm ▸ List.mem_map_of_mem hmem : g (c - 1) ∈ l.map some)
    rw [← ha]
    rfl
  have hpast := le_advanced (show 3 ≤ c by omega)
  have hnone : element row (fun _ => none) (advanced (c - 1)) = none := by
    rw [element, if_pos (by omega), List.getElem?_eq_none (by omega)]
    rfl
  have hread := hg _ hsome
  rw [hnone] at hread
  cases hread

/-- **Pruning within the vectors** is pruning at most two columns. -/
theorem colsM_le_two_of_pruned (hrows : ap.rowsM = 1 ∨ ap.rowsM = 2)
    (hlength : ap.incrementVector.length = ap.rowsM * ap.colsM)
    (h : ap.pruneIncrementVector .undefined = some ap') : ap.colsM ≤ 2 := by
  unfold pruneIncrementVector at h
  split at h
  next htwo =>
    obtain ⟨columns, hcolumns, -⟩ := Option.bind_eq_some_iff.mp h
    have hrow : (ap.incrementVector.take ap.colsM).length = ap.colsM := by
      rw [List.length_take, hlength, htwo]
      omega
    refine colsM_le_two_of_mapM ?_ hrow hcolumns
    intro i hi
    obtain ⟨column, hcolumn⟩ := Option.isSome_iff_exists.mp hi
    obtain ⟨x, hx, -⟩ := Option.bind_eq_some_iff.mp hcolumn
    exact Option.isSome_iff_exists.mpr ⟨x, hx⟩
  next htwo =>
    obtain ⟨columns, hcolumns, -⟩ := Option.bind_eq_some_iff.mp h
    have hone : ap.rowsM = 1 := hrows.resolve_right htwo
    exact colsM_le_two_of_mapM (fun _ => id) (by rw [hlength, hone, Nat.one_mul]) hcolumns

/-- On the first two columns the iterators are where they are to be. -/
theorem advanced_of_lt_two {i : ℕ} (hi : i < 2) : advanced i = i := by
  obtain rfl | rfl : i = 0 ∨ i = 1 := by omega
  · rfl
  · rfl

/-- An element of a row, read in the row. -/
theorem element_of_lt {row : List ℤ} {junk : ℤ → Option ℤ} {i : ℕ} (hi : i < row.length) :
    element row junk i = some row[i] := by
  rw [element, if_pos (Int.natCast_nonneg i), Int.toNat_natCast, List.getElem?_eq_getElem hi]
  rfl

/-- What is read of a row of at most two elements is the row. -/
theorem element_advanced {row : List ℤ} {i : ℕ} (hrow : row.length ≤ 2) (hi : i < row.length) :
    element row (fun _ => none) (advanced i) = some row[i] := by
  rw [advanced_of_lt_two (hi.trans_le hrow), element_of_lt hi]

/-- **Pruning a matrix of two rows** and at most two columns removes its columns of zeros. -/
theorem prunes_of_two_rows (hrows : ap.rowsM = 2) (hcols : ap.colsM ≤ 2)
    (hlength : ap.incrementVector.length = ap.rowsM * ap.colsM) :
    ∃ ap', ap.pruneIncrementVector .undefined = some ap' ∧ ap.Prunes ap' := by
  have hfirst : (ap.incrementVector.take ap.colsM).length = ap.colsM := by
    rw [List.length_take, hlength, hrows]
    omega
  have hsecond : (ap.incrementVector.drop ap.colsM).length = ap.colsM := by
    rw [List.length_drop, hlength, hrows]
    omega
  have hcolumns : ((List.range ap.colsM).mapM fun i => do
      let x ← element (ap.incrementVector.take ap.colsM) (fun _ => none) (advanced i)
      let y ← element (ap.incrementVector.drop ap.colsM) (fun _ => none) (advanced i)
      return (x, y)) = some ((List.range ap.colsM).map fun i => (ap.elementAt 0 i, ap.elementAt 1 i)) := by
    refine mapM_eq_some_iff_map.mpr ?_
    rw [List.map_map]
    refine List.map_congr_left fun i hi => ?_
    have hlt := List.mem_range.mp hi
    rw [element_advanced (by omega) (by omega), element_advanced (by omega) (by omega)]
    have htotal : ap.colsM + i < ap.incrementVector.length := by
      rw [List.length_drop] at hsecond
      omega
    simp [elementAt, List.getD_eq_getElem?_getD, List.getElem?_eq_getElem htotal,
      List.getElem?_eq_getElem (show i < ap.incrementVector.length by omega)]
  rw [pruneIncrementVector, if_pos hrows]
  refine ⟨_, Option.bind_eq_some_iff.mpr ⟨_, hcolumns, rfl⟩, rfl, ?_, ?_⟩
  · simp [nonzeroColumns, hrows, List.range_succ, List.filter_map, Function.comp_def]
  · simp [hrows, two_mul]

/-- **Pruning a matrix of one row** and at most two columns removes its zeros, but not from
`colsM`. -/
theorem pruneIncrementVector_of_one_row (hrows : ap.rowsM = 1) (hcols : ap.colsM ≤ 2)
    (hlength : ap.incrementVector.length = ap.rowsM * ap.colsM) :
    ap.pruneIncrementVector .undefined =
      some { ap with incrementVector := ap.incrementVector.filter (· ≠ 0) } := by
  rw [hrows, Nat.one_mul] at hlength
  have hcolumns : ((List.range ap.colsM).mapM fun i =>
      element ap.incrementVector (fun _ => none) (advanced i)) = some ap.incrementVector := by
    refine mapM_eq_some_iff_map.mpr (List.ext_getElem (by simp [hlength]) fun i hi _ => ?_)
    rw [List.length_map] at hi
    rw [List.getElem_map, List.getElem_map, List.getElem_range, element_advanced (by omega) hi]
  rw [pruneIncrementVector, if_neg (by omega)]
  exact Option.bind_eq_some_iff.mpr ⟨_, hcolumns, rfl⟩

/-- A matrix of one row is pruned, with the number of its columns, when none of them is zero. -/
theorem prunes_of_one_row (hrows : ap.rowsM = 1) (hlength : ap.incrementVector.length = ap.rowsM * ap.colsM) :
    ap.Prunes { ap with incrementVector := ap.incrementVector.filter (· ≠ 0) } ↔ 0 ∉ ap.incrementVector := by
  have hrow : (List.range ap.colsM).map (ap.elementAt 0) = ap.incrementVector := by
    refine List.ext_getElem (by simp [hlength, hrows]) fun i hi hi' => ?_
    simp [elementAt, List.getD_eq_getElem?_getD, List.getElem?_eq_getElem hi']
  have hcolumns : ap.nonzeroColumns.map (ap.elementAt 0) = ap.incrementVector.filter (· ≠ 0) := by
    conv_rhs => rw [← hrow, List.filter_map]
    simp [nonzeroColumns, hrows, Function.comp_def]
  have hall : (ap.incrementVector.filter (· ≠ 0)).length = ap.incrementVector.length ↔
    0 ∉ ap.incrementVector := by
    rw [List.length_filter_eq_length_iff]
    exact ⟨fun h hmem => of_decide_eq_true (h 0 hmem) rfl,
      fun h x hx => decide_eq_true fun hzero => h (hzero ▸ hx)⟩
  rw [← hall]
  constructor
  · intro h
    exact (h.length.symm.trans hlength.symm)
  · intro h
    exact ⟨rfl, by simp [hrows, hcolumns], hlength.symm.trans h.symm⟩

/-- **The pruned matrix.** Pruning reads elements of its vectors and removes the columns of zeros
exactly when there are at most two columns and, in a matrix of one row, none of them is zero. -/
theorem pruneIncrementVector_iff (hrows : ap.rowsM = 1 ∨ ap.rowsM = 2)
    (hlength : ap.incrementVector.length = ap.rowsM * ap.colsM) :
    (∃ ap', ap.pruneIncrementVector .undefined = some ap' ∧ ap.Prunes ap') ↔
      ap.colsM ≤ 2 ∧ (ap.rowsM = 1 → 0 ∉ ap.incrementVector) := by
  constructor
  · rintro ⟨ap', hpruned, h⟩
    have hcols := colsM_le_two_of_pruned hrows hlength hpruned
    refine ⟨hcols, fun hone => ?_⟩
    obtain rfl := Option.some.inj ((pruneIncrementVector_of_one_row hone hcols hlength).symm.trans hpruned)
    exact (prunes_of_one_row hone hlength).mp h
  · rintro ⟨hcols, hzero⟩
    rcases hrows with hone | htwo
    · exact ⟨_, pruneIncrementVector_of_one_row hone hcols hlength,
        (prunes_of_one_row hone hlength).mpr (hzero hone)⟩
    · exact prunes_of_two_rows htwo hcols hlength

/-- The matrix of `x[i][j]` in two loops. -/
theorem pruneIncrementVector_iff_square :
    (∃ ap', (ofIncrements 2 2 [1, 0, 0, 1]).pruneIncrementVector .undefined = some ap' ∧
      (ofIncrements 2 2 [1, 0, 0, 1]).Prunes ap') :=
  (pruneIncrementVector_iff (.inr rfl) rfl).mpr ⟨Nat.le_refl 2, fun h => nomatch h⟩

/-- In three loops the third column that the pruning reads is past the end of the row. -/
theorem pruned_past_the_row : ¬ ∃ ap', (ofIncrements 2 3 [1, 0, 0, 0, 0, 1]).pruneIncrementVector .undefined = some ap' ∧
    (ofIncrements 2 3 [1, 0, 0, 0, 0, 1]).Prunes ap' := by
  rintro ⟨ap', hpruned, -⟩
  cases hpruned

end AccessPattern

end Octantis
