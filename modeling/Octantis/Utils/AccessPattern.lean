import Mathlib.Data.Int.Notation
import Mathlib.Data.Nat.Notation
import Octantis.Lib.LoopNest

/-!
# The access patterns

`AccessPattern` is the matrix of the increments of a pointer: a row for each index, a
column for each loop of the nest, outermost first.

## The model

`operator()` does not check its arguments, and `pruneIncrementVector` advances its
iterators by `i` in the iteration `i`. What the elements past the end of a vector hold is
an argument (`OutOfRange`): so a statement over every such argument is a statement over
whatever the program finds there, and with no value there (`OutOfRange.undefined`) a
function returns a value only if it reads elements of its vectors.
-/

namespace Octantis

open Lib

/-- `AccessPattern::arrayAccessPattern`. -/
inductive ArrayAccessPattern where
  | rowMajor
  | colMajor
  | colMajorSet1ColMajor | colMajorSet1RowMajor | rowMajorSet1RowMajor | rowMajorSet1ColMajor
  | colMajorSet2RowMajor | rowMajorSet2ColMajor | colMajorSet2ColMajor | rowMajorSet2RowMajor
  | undefined
  deriving DecidableEq, Repr

/-- What is read outside of the vectors, by its index. -/
structure OutOfRange where
  /-- Outside of `row1Vector`. -/
  row1Vector : ℤ → Option ℤ
  /-- Outside of `row2Vector`. -/
  row2Vector : ℤ → Option ℤ
  /-- Outside of the pruned `incrementVector`. -/
  incrementVector : ℤ → Option ℤ

/-- Reading outside of a vector is undefined. -/
def OutOfRange.undefined : OutOfRange := ⟨fun _ => none, fun _ => none, fun _ => none⟩

/-- The element `k` of a vector. -/
def element (vector : List ℤ) (outside : ℤ → Option ℤ) (k : ℤ) : Option ℤ :=
  if 0 ≤ k then vector[k.toNat]? <|> outside k else outside k

/-- The matrix of the increments. -/
structure AccessPattern where
  /-- The rows of the matrix. -/
  rowsM : ℕ
  /-- The columns of the matrix. -/
  colsM : ℕ
  /-- The elements, row by row. -/
  incrementVector : List ℤ
  /-- The columns of zeros before the first other one. -/
  initZerosM : ℤ
  /-- The columns of zeros after it. -/
  finalZerosM : ℤ
  /-- The type of the pattern. -/
  apmType : ArrayAccessPattern
  deriving DecidableEq, Repr

namespace AccessPattern

/-- A matrix of which the rest is not yet detected. -/
def ofIncrements (rowsM colsM : ℕ) (incrementVector : List ℤ) : AccessPattern :=
  ⟨rowsM, colsM, incrementVector, 0, 0, .undefined⟩

/-- `operator()`. -/
def entry (ap : AccessPattern) (outside : ℤ → Option ℤ) (i j : ℤ) : Option ℤ :=
  element ap.incrementVector outside (i * ap.colsM + j)

/-- Where the iterators of `pruneIncrementVector` are in the iteration `i`, after `advance(i)` in
each iteration so far. -/
def advanced (i : ℕ) : ℤ := (i * (i + 1) / 2 : ℕ)

/-- `pruneIncrementVector`. With one row the number of columns stays as it was: the loop counts
down a variable of its own. -/
def pruneIncrementVector (ap : AccessPattern) (outside : OutOfRange) : Option AccessPattern :=
  if ap.rowsM = 2 then do
    let columns ← (List.range ap.colsM).mapM fun i => do
      let x ← element (ap.incrementVector.take ap.colsM) outside.row1Vector (advanced i)
      let y ← element (ap.incrementVector.drop ap.colsM) outside.row2Vector (advanced i)
      return (x, y)
    let kept := columns.filter fun c => c.1 ≠ 0 || c.2 ≠ 0
    return { ap with incrementVector := kept.map (·.1) ++ kept.map (·.2), colsM := kept.length }
  else do
    let columns ← (List.range ap.colsM).mapM fun i => element ap.incrementVector outside.row1Vector (advanced i)
    return { ap with incrementVector := columns.filter (· ≠ 0) }

/-- Whether no entry is zero, read one by one. -/
def allNonzero (ap : AccessPattern) (outside : ℤ → Option ℤ) (entries : List (ℤ × ℤ)) : Option Bool :=
  entries.allM fun e => (ap.entry outside e.1 e.2).map (· ≠ 0)

/-- The first alternative of which no entry is zero. -/
def firstNonzero {α : Type} (ap : AccessPattern) (outside : ℤ → Option ℤ) :
    List (List (ℤ × ℤ) × α) → Option (Option α)
  | [] => some none
  | (entries, a) :: rest => do
    if ← ap.allNonzero outside entries then return some a else ap.firstNonzero outside rest

/-- The alternatives that `detectAccessPatternType` tries at a nonzero element `(i, j)` of a matrix
of two rows: the other nonzero elements, the type, `initZeros` and `finalZeros`. -/
def alternatives (cols : ℕ) (i j : ℤ) : List (List (ℤ × ℤ) × ArrayAccessPattern × ℤ × ℤ) :=
  if cols = 4 then
    [([(i + 1, j - 1), (i + 1, j + 1), (i, j + 2)], .colMajorSet2ColMajor, i - 1, cols - i - 3),
      ([(i, j + 2), (i + 1, j + 1), (i + 1, j + 3)], .rowMajorSet2RowMajor, i, cols - i - 4),
      ([(i, j + 1), (i + 1, j - 1), (i + 1, j + 2)], .rowMajorSet2ColMajor, i - 1, cols - i - 3),
      ([(i, j + 3), (i + 1, j + 1), (i + 1, j + 2)], .colMajorSet2RowMajor, i, cols - i - 4)]
  else if cols = 3 then
    [([(i, j + 2), (i + 1, j + 1)], .colMajorSet1RowMajor, i, cols - i - 3),
      ([(i + 1, j - 1), (i + 1, j + 1)], .rowMajorSet1ColMajor, i - 1, cols - i - 2)]
  else if cols = 2 then
    [([(i + 1, j + 1)], .rowMajor, i, cols - i - 2), ([(i + 1, j - 1)], .colMajor, i - 1, cols - i - 1)]
  else []

/-- What `detectAccessPatternType` finds at the element `(i, j)`. -/
def detectAt (ap : AccessPattern) (outside : ℤ → Option ℤ) (i j : ℕ) :
    Option (Option (ArrayAccessPattern × ℤ × ℤ)) := do
  if ap.rowsM > 1 then
    if (← ap.entry outside i j) ≠ 0 then ap.firstNonzero outside (alternatives ap.colsM i j) else return none
  else if (← ap.entry outside 0 j) ≠ 0 then
    if (← ap.entry outside 0 (j + 1)) = 0 then return some (.rowMajor, j, ap.colsM - j - 1)
    else return some (.rowMajor, j, ap.colsM - j - 2)
  else return none

/-- The elements that `detectAccessPatternType` goes over. -/
def elements (ap : AccessPattern) : List (ℕ × ℕ) :=
  if ap.rowsM > 1 then (List.range ap.rowsM).flatMap fun i => (List.range ap.colsM).map fun j => (i, j)
  else (List.range ap.colsM).map fun j => (0, j)

/-- `detectAccessPatternType`. -/
def detectAccessPatternType (ap : AccessPattern) (outside : OutOfRange) : Option AccessPattern := do
  let tmpAccessPattern ← ap.pruneIncrementVector outside
  match ← tmpAccessPattern.elements.findSomeM? fun e => tmpAccessPattern.detectAt outside.incrementVector e.1 e.2 with
  | some (tmpPattern, initZeros, finalZeros) =>
    return { ap with apmType := tmpPattern, initZerosM := initZeros, finalZerosM := finalZeros }
  | none => return { ap with apmType := .undefined, initZerosM := 0, finalZerosM := 0 }

/-- Whether the column is one of zeros, in the rows that `detectZeroCols` reads. -/
def isZeroCol (ap : AccessPattern) (i : ℕ) : Option Bool :=
  ((List.range ap.rowsM).map fun (r : ℕ) => ((r : ℤ), (i : ℤ))).allM fun e =>
    (ap.entry (fun _ => none) e.1 e.2).map (· = 0)

/-- `detectZeroCols`: a matrix of neither one nor two rows has none. -/
def detectZeroCols (ap : AccessPattern) : Option AccessPattern :=
  if ap.rowsM = 1 ∨ ap.rowsM = 2 then do
    let zero ← (List.range ap.colsM).mapM ap.isZeroCol
    return { ap with
      initZerosM := (zero.takeWhile (· = true)).length
      finalZerosM := ((zero.dropWhile (· = true)).tail.filter (· = true)).length }
  else return { ap with initZerosM := 0, finalZerosM := 0 }

/-! ### What is detected -/

variable {ap ap' : AccessPattern} {outside : OutOfRange}

/-- The alternative taken is one of those tried. -/
theorem mem_of_firstNonzero {α : Type} {junk : ℤ → Option ℤ} {l : List (List (ℤ × ℤ) × α)} {a : α}
    (h : ap.firstNonzero junk l = some (some a)) : ∃ entries, (entries, a) ∈ l := by
  induction l with
  | nil => cases h
  | cons x rest ih =>
    rw [firstNonzero] at h
    obtain ⟨found, -, h⟩ := Option.bind_eq_some_iff.mp h
    cases found with
    | true =>
      obtain rfl := Option.some.inj (Option.some.inj h)
      exact ⟨x.1, List.mem_cons_self⟩
    | false =>
      obtain ⟨entries, hmem⟩ := ih h
      exact ⟨entries, List.mem_cons_of_mem _ hmem⟩

/-- What is found is found at an element. -/
theorem exists_of_findSomeM? {α β : Type} {f : α → Option (Option β)} {l : List α} {b : β}
    (h : l.findSomeM? f = some (some b)) : ∃ a ∈ l, f a = some (some b) := by
  induction l with
  | nil => cases h
  | cons a rest ih =>
    rw [List.findSomeM?] at h
    obtain ⟨found, hfound, h⟩ := Option.bind_eq_some_iff.mp h
    cases found with
    | some b' => exact ⟨a, List.mem_cons_self, hfound.trans h⟩
    | none =>
      obtain ⟨a', hmem, ha'⟩ := ih h
      exact ⟨a', List.mem_cons_of_mem _ hmem, ha'⟩

/-- Pruning removes columns. -/
theorem colsM_pruneIncrementVector_le (h : ap.pruneIncrementVector outside = some ap') :
    ap'.colsM ≤ ap.colsM := by
  unfold pruneIncrementVector at h
  split at h
  · obtain ⟨columns, hcolumns, h⟩ := Option.bind_eq_some_iff.mp h
    obtain rfl := Option.some.inj h
    have hlength := congrArg List.length (mapM_eq_some_iff_map.mp hcolumns)
    rw [List.length_map, List.length_map, List.length_range] at hlength
    exact hlength ▸ List.length_filter_le _ _
  · obtain ⟨columns, -, h⟩ := Option.bind_eq_some_iff.mp h
    obtain rfl := Option.some.inj h
    exact Nat.le_refl _

/-- An element of a matrix of at most two columns begins no subset. -/
theorem apmType_of_detectAt {junk : ℤ → Option ℤ} {i j : ℕ} {found : ArrayAccessPattern × ℤ × ℤ}
    (hcols : ap.colsM ≤ 2)
    (h : ap.detectAt junk i j = some (some found)) : found.1 = .rowMajor ∨ found.1 = .colMajor := by
  unfold detectAt at h
  split at h
  · obtain ⟨x, -, h⟩ := Option.bind_eq_some_iff.mp h
    split at h
    · obtain ⟨entries, hmem⟩ := mem_of_firstNonzero h
      unfold alternatives at hmem
      rw [if_neg (by omega), if_neg (by omega)] at hmem
      split at hmem
      · rcases List.mem_cons.mp hmem with heq | hmem
        · exact .inl ((Prod.mk.inj heq).2 ▸ rfl)
        · exact .inr ((Prod.mk.inj (List.mem_singleton.mp hmem)).2 ▸ rfl)
      · cases hmem
    · cases h
  · obtain ⟨x, -, h⟩ := Option.bind_eq_some_iff.mp h
    split at h
    · obtain ⟨y, -, h⟩ := Option.bind_eq_some_iff.mp h
      split at h <;> exact .inl (Option.some.inj (Option.some.inj h) ▸ rfl)
    · cases h

/-- **A matrix of at most two columns** has no subsets. -/
theorem apmType_of_colsM_le_two (hcols : ap.colsM ≤ 2) (h : ap.detectAccessPatternType outside = some ap') :
    ap'.apmType = .rowMajor ∨ ap'.apmType = .colMajor ∨ ap'.apmType = .undefined := by
  obtain ⟨pruned, hpruned, h⟩ := Option.bind_eq_some_iff.mp h
  obtain ⟨found, hfound, h⟩ := Option.bind_eq_some_iff.mp h
  cases found with
  | none =>
    obtain rfl := Option.some.inj h
    exact .inr (.inr rfl)
  | some found =>
    obtain rfl := Option.some.inj h
    obtain ⟨e, -, he⟩ := exists_of_findSomeM? hfound
    have hle := (colsM_pruneIncrementVector_le hpruned).trans hcols
    rcases apmType_of_detectAt hle he with h | h
    · exact .inl h
    · exact .inr (.inl h)

/-- The columns of zeros are columns. -/
theorem zeros_le_colsM (h : ap.detectZeroCols = some ap') : ap'.apmType = ap.apmType ∧
    ∃ p ≤ ap.colsM, ∃ f ≤ ap.colsM, ap'.initZerosM = (p : ℕ) ∧ ap'.finalZerosM = (f : ℕ) := by
  unfold detectZeroCols at h
  split at h
  · obtain ⟨zero, hzero, h⟩ := Option.bind_eq_some_iff.mp h
    obtain rfl := Option.some.inj h
    have hlength := congrArg List.length (mapM_eq_some_iff_map.mp hzero)
    rw [List.length_map, List.length_map, List.length_range] at hlength
    refine ⟨rfl, _, ?_, _, ?_, rfl, rfl⟩
    · exact hlength ▸ (List.takeWhile_sublist _).length_le
    · exact hlength ▸ (List.filter_sublist.trans ((List.tail_sublist _).trans (List.dropWhile_sublist _))).length_le
  · obtain rfl := Option.some.inj h
    exact ⟨rfl, 0, Nat.zero_le _, 0, Nat.zero_le _, rfl, rfl⟩

/-- Detecting the type leaves the matrix. -/
theorem matrix_detectAccessPatternType (h : ap.detectAccessPatternType outside = some ap') :
    ap'.rowsM = ap.rowsM ∧ ap'.colsM = ap.colsM ∧ ap'.incrementVector = ap.incrementVector := by
  obtain ⟨pruned, -, h⟩ := Option.bind_eq_some_iff.mp h
  obtain ⟨found, -, h⟩ := Option.bind_eq_some_iff.mp h
  cases found with
  | none =>
    obtain rfl := Option.some.inj h
    exact ⟨rfl, rfl, rfl⟩
  | some found =>
    obtain rfl := Option.some.inj h
    exact ⟨rfl, rfl, rfl⟩

/-- The columns of a matrix of two rows and two columns. -/
theorem mapM_isZeroCol {a b c d : ℤ} (hrows : ap.rowsM = 2) (hcols : ap.colsM = 2)
    (hvector : ap.incrementVector = [a, b, c, d]) :
    (List.range ap.colsM).mapM ap.isZeroCol = some [decide (a = 0 ∧ c = 0), decide (b = 0 ∧ d = 0)] := by
  have hfirst : ap.isZeroCol 0 = some (decide (a = 0 ∧ c = 0)) := by
    by_cases ha : a = 0 <;> by_cases hc : c = 0 <;>
      simp [isZeroCol, hrows, hcols, hvector, List.range_succ, entry, element, ha, hc]
  have hsecond : ap.isZeroCol 1 = some (decide (b = 0 ∧ d = 0)) := by
    by_cases hb : b = 0 <;> by_cases hd : d = 0 <;>
      simp [isZeroCol, hrows, hcols, hvector, List.range_succ, entry, element, hb, hd]
  rw [hcols]
  simp [List.range_succ, hfirst, hsecond]

/-- **Two columns of zeros** have no pattern. -/
theorem apmType_of_zeros {a b c d : ℤ} {ap'' : AccessPattern}
    (h : (ofIncrements 2 2 [a, b, c, d]).detectAccessPatternType outside = some ap')
    (hzeros : ap'.detectZeroCols = some ap'') (htwo : ap''.initZerosM = 2) : ap''.apmType = .undefined := by
  obtain ⟨hrows, hcols, hvector⟩ := matrix_detectAccessPatternType h
  have hmapM := mapM_isZeroCol hrows hcols hvector
  have hap'' : ap''.initZerosM = (([decide (a = 0 ∧ c = 0),
    decide (b = 0 ∧ d = 0)].takeWhile (· = true)).length : ℕ) := by
    rw [detectZeroCols, if_pos (.inr hrows), hmapM] at hzeros
    exact Option.some.inj hzeros ▸ rfl
  obtain ⟨⟨rfl, rfl⟩, rfl, rfl⟩ : (a = 0 ∧ c = 0) ∧ b = 0 ∧ d = 0 := by
    by_contra hcon
    rw [hap''] at htwo
    by_cases hac : a = 0 ∧ c = 0 <;> by_cases hbd : b = 0 ∧ d = 0 <;> simp [hac, hbd] at htwo hcon
  rw [(zeros_le_colsM hzeros).1]
  have hpruned : (ofIncrements 2 2 [0, 0, 0, 0]).pruneIncrementVector outside =
      some (ofIncrements 2 0 []) := rfl
  rw [detectAccessPatternType, hpruned] at h
  exact Option.some.inj h ▸ rfl

end AccessPattern

end Octantis
