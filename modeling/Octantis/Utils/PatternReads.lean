import Octantis.Analysis.PointerInfo
import Octantis.Utils.Pruning

/-!
# The elements that the detection reads

`detectAccessPatternType` goes over the elements of the pruned matrix up to the first one
around which it finds a pattern, and looks for it at columns up to one before and three
after the element, in its row and the next one.

## The model

The reads are listed as the function makes them: those of a condition up to its first zero,
those of the alternatives up to the first that holds, those of the elements up to the first
around which a pattern is found.
-/

namespace Octantis

open Lib

/-- The memory past the vectors, with these values. -/
def OutOfRange.holding (row1Vector row2Vector incrementVector : ℤ → ℤ) : OutOfRange :=
  ⟨fun k => some (row1Vector k), fun k => some (row2Vector k), fun k => some (incrementVector k)⟩

/-- An element of a vector with memory past it. -/
theorem element_holding (row : List ℤ) (junk : ℤ → ℤ) (k : ℕ) :
    element row (fun k => some (junk k)) k = some (if k < row.length then row.getD k 0 else junk k) := by
  rw [element, if_pos (Int.natCast_nonneg k), Int.toNat_natCast]
  split
  next hk => simp [List.getElem?_eq_getElem hk]
  next hk => simp [List.getElem?_eq_none (Nat.le_of_not_lt hk)]

namespace AccessPattern

variable {ap ap' : AccessPattern}

/-- The elements read to see whether none of them is zero. -/
def readsNonzero (ap : AccessPattern) (outside : ℤ → Option ℤ) : List (ℤ × ℤ) → List (ℤ × ℤ)
  | [] => []
  | e :: rest => e :: if ap.entry outside e.1 e.2 = some 0 then [] else ap.readsNonzero outside rest

/-- The elements read to find the first alternative of which no entry is zero. -/
def readsFirstNonzero {α : Type} (ap : AccessPattern) (outside : ℤ → Option ℤ) :
    List (List (ℤ × ℤ) × α) → List (ℤ × ℤ)
  | [] => []
  | (entries, _) :: rest =>
    ap.readsNonzero outside entries ++
      if ap.allNonzero outside entries = some true then [] else ap.readsFirstNonzero outside rest

/-- The elements that `detectAccessPatternType` reads at the element `(i, j)`. -/
def readsAt (ap : AccessPattern) (outside : ℤ → Option ℤ) (i j : ℕ) : List (ℤ × ℤ) :=
  if ap.rowsM > 1 then
    ((i : ℤ), (j : ℤ)) :: if ap.entry outside i j = some 0 then []
      else ap.readsFirstNonzero outside (alternatives ap.colsM i j)
  else (0, (j : ℤ)) :: if ap.entry outside 0 j = some 0 then [] else [(0, (j + 1 : ℤ))]

/-- The elements read at these elements, up to the first around which a pattern is found. -/
def readsFrom (ap : AccessPattern) (outside : ℤ → Option ℤ) : List (ℕ × ℕ) → List (ℤ × ℤ)
  | [] => []
  | e :: rest =>
    ap.readsAt outside e.1 e.2 ++ if ap.detectAt outside e.1 e.2 = some none then ap.readsFrom outside rest else []

/-- The elements that `detectAccessPatternType` reads of the pruned matrix. -/
def reads (ap : AccessPattern) (outside : ℤ → Option ℤ) : List (ℤ × ℤ) := ap.readsFrom outside ap.elements

/-! ### The reads are those of the detection -/

variable {outside : ℤ → Option ℤ}

/-- A condition has a value when each element read for it has one. -/
theorem isSome_allNonzero {entries : List (ℤ × ℤ)} : (ap.allNonzero outside entries).isSome ↔
    ∀ e ∈ ap.readsNonzero outside entries, (ap.entry outside e.1 e.2).isSome := by
  induction entries with
  | nil => exact ⟨fun _ _ h => (nomatch h), fun _ => rfl⟩
  | cons e rest ih =>
    rw [readsNonzero, List.forall_mem_cons]
    cases he : ap.entry outside e.1 e.2 with
    | none => simp [allNonzero, List.allM, he]
    | some x =>
      by_cases hx : x = 0
      · subst hx
        simp [allNonzero, List.allM, he]
      · rw [if_neg (by simp [hx]), ← ih]
        simp [allNonzero, List.allM, he, hx]

/-- An alternative is found, or none is, when each element read has a value. -/
theorem isSome_firstNonzero {α : Type} {l : List (List (ℤ × ℤ) × α)} : (ap.firstNonzero outside l).isSome ↔
    ∀ e ∈ ap.readsFirstNonzero outside l, (ap.entry outside e.1 e.2).isSome := by
  induction l with
  | nil => exact ⟨fun _ _ h => (nomatch h), fun _ => rfl⟩
  | cons x rest ih =>
    rw [readsFirstNonzero, List.forall_mem_append, ← isSome_allNonzero, firstNonzero]
    cases hx : ap.allNonzero outside x.1 with
    | none => simp
    | some found =>
      cases found with
      | false => simpa using ih
      | true => simp

/-- The detection at an element has a result when each element read has a value. -/
theorem isSome_detectAt {i j : ℕ} : (ap.detectAt outside i j).isSome ↔
    ∀ e ∈ ap.readsAt outside i j, (ap.entry outside e.1 e.2).isSome := by
  unfold detectAt readsAt
  split
  · rw [List.forall_mem_cons]
    cases hij : ap.entry outside i j with
    | none => simp
    | some x =>
      by_cases hx : x = 0
      · simp [hx]
      · simp [hx, isSome_firstNonzero]
  · rw [List.forall_mem_cons]
    cases hij : ap.entry outside 0 j with
    | none => simp
    | some x =>
      by_cases hx : x = 0
      · simp [hx]
      · cases hnext : ap.entry outside 0 (j + 1) with
        | none => simp [hx, hnext]
        | some y =>
          simp only [hx, Option.bind_eq_bind, Option.bind_some, ne_eq, not_false_eq_true, if_true]
          split <;> simp [hx, hnext]

/-- **The reads are those of the detection**: it has a result when each of them has a value. -/
theorem isSome_findSomeM?_detectAt {l : List (ℕ × ℕ)} :
    (l.findSomeM? fun e => ap.detectAt outside e.1 e.2).isSome ↔
      ∀ e ∈ ap.readsFrom outside l, (ap.entry outside e.1 e.2).isSome := by
  induction l with
  | nil => exact ⟨fun _ _ h => (nomatch h), fun _ => rfl⟩
  | cons x rest ih =>
    rw [readsFrom, List.forall_mem_append, ← isSome_detectAt, List.findSomeM?]
    cases hx : ap.detectAt outside x.1 x.2 with
    | none => simp
    | some found =>
      cases found with
      | none => simpa using ih
      | some pattern => simp

/-! ### Inside the pruned matrix -/

/-- The element `e` is one of the matrix. -/
def Inside (ap : AccessPattern) (e : ℤ × ℤ) : Prop :=
  (0 ≤ e.1 ∧ e.1 < ap.rowsM) ∧ (0 ≤ e.2 ∧ e.2 < ap.colsM) ∧
    e.1 * ap.colsM + e.2 < ap.incrementVector.length

/-- What the iterators of `pruneIncrementVector` are on in the iteration `i`: a column, or what
memory holds past the rows. A vector has no second row. -/
def columnAt (ap : AccessPattern) (row1Vector row2Vector : ℤ → ℤ) (i : ℕ) : ℤ × ℤ :=
  let k := i * (i + 1) / 2
  if k < ap.colsM then (ap.elementAt 0 k, if ap.rowsM = 2 then ap.elementAt 1 k else 0)
  else (row1Vector k, if ap.rowsM = 2 then row2Vector k else 0)

/-- The columns that the pruning visits and that are not all zero. -/
def visitedColumns (ap : AccessPattern) (row1Vector row2Vector : ℤ → ℤ) : List (ℤ × ℤ) :=
  ((List.range ap.colsM).map (ap.columnAt row1Vector row2Vector)).filter fun c => c.1 ≠ 0 || c.2 ≠ 0

/-- The columns of two rows around whose first nonzero element the detection does not leave them. -/
def Enclosed : List (ℤ × ℤ) → Prop
  | [c₀, c₁] => c₀.1 ≠ 0 ∧ c₁.2 ≠ 0
  | [c₀, c₁, c₂] => c₀.1 ≠ 0 ∧ c₁.2 ≠ 0 ∧ c₂.1 ≠ 0
  | [c₀, c₁, c₂, c₃] => c₀.1 = 0 ∧ c₁.1 ≠ 0 ∧ (c₂.2 ≠ 0 ∧ c₃.1 ≠ 0 ∨ c₂.1 ≠ 0 ∧ c₃.2 ≠ 0)
  | _ => True

instance decidableEnclosed : (columns : List (ℤ × ℤ)) → Decidable (Enclosed columns)
  | [] | [_] | _ :: _ :: _ :: _ :: _ :: _ => isTrue trivial
  | [_, _] | [_, _, _] | [_, _, _, _] => inferInstanceAs (Decidable (_ ∧ _))

/-- A matrix of two rows with these columns. -/
def ofColumns (ap : AccessPattern) (columns : List (ℤ × ℤ)) : AccessPattern :=
  { ap with incrementVector := columns.map (·.1) ++ columns.map (·.2), colsM := columns.length }

/-- What is pruned of a matrix of two rows. -/
theorem pruneIncrementVector_eq_ofColumns {row1Vector row2Vector junk : ℤ → ℤ} (hrows : ap.rowsM = 2)
    (hlength : ap.incrementVector.length = ap.rowsM * ap.colsM) :
    ap.pruneIncrementVector (OutOfRange.holding row1Vector row2Vector junk) =
      some (ap.ofColumns (ap.visitedColumns row1Vector row2Vector)) := by
  have hcolumns : ((List.range ap.colsM).mapM fun i => do
      let x ← element (ap.incrementVector.take ap.colsM) (fun k => some (row1Vector k)) (advanced i)
      let y ← element (ap.incrementVector.drop ap.colsM) (fun k => some (row2Vector k)) (advanced i)
      return (x, y)) = some ((List.range ap.colsM).map (ap.columnAt row1Vector row2Vector)) := by
    refine mapM_eq_some_iff_map.mpr ?_
    rw [List.map_map]
    refine List.map_congr_left fun i _ => ?_
    rw [advanced, element_holding, element_holding, List.length_take, List.length_drop, hlength, hrows]
    by_cases hk : i * (i + 1) / 2 < ap.colsM
    · simp [columnAt, elementAt, hrows, hk, two_mul]
    · simp [columnAt, hrows, hk, two_mul]
  rw [pruneIncrementVector, if_pos hrows]
  exact Option.bind_eq_some_iff.mpr ⟨_, hcolumns, rfl⟩

/-- What is pruned of a matrix of one row. -/
theorem pruneIncrementVector_eq_of_one_row {row1Vector row2Vector junk : ℤ → ℤ} (hrows : ap.rowsM = 1)
    (hlength : ap.incrementVector.length = ap.rowsM * ap.colsM) :
    ap.pruneIncrementVector (OutOfRange.holding row1Vector row2Vector junk) =
      some { ap with incrementVector := (ap.visitedColumns row1Vector row2Vector).map (·.1) } := by
  have hcolumns : ((List.range ap.colsM).mapM fun i =>
      element ap.incrementVector (fun k => some (row1Vector k)) (advanced i)) =
      some (((List.range ap.colsM).map (ap.columnAt row1Vector row2Vector)).map (·.1)) := by
    refine mapM_eq_some_iff_map.mpr ?_
    rw [List.map_map, List.map_map]
    refine List.map_congr_left fun i _ => ?_
    rw [advanced, element_holding, hlength, hrows, Nat.one_mul]
    by_cases hk : i * (i + 1) / 2 < ap.colsM
    · simp [columnAt, elementAt, hrows, hk]
    · simp [columnAt, hrows, hk]
  have hsecond : ∀ c ∈ (List.range ap.colsM).map (ap.columnAt row1Vector row2Vector), c.2 = 0 := by
    intro c hc
    obtain ⟨i, -, rfl⟩ := List.mem_map.mp hc
    simp only [columnAt, hrows]
    split <;> rfl
  have hkept : (((List.range ap.colsM).map (ap.columnAt row1Vector row2Vector)).map (·.1)).filter (· ≠ 0) =
      (ap.visitedColumns row1Vector row2Vector).map (·.1) := by
    rw [List.filter_map, visitedColumns]
    congr 1
    refine List.filter_congr fun c hc => ?_
    simp [hsecond c hc]
  rw [pruneIncrementVector, if_neg (by omega)]
  exact Option.bind_eq_some_iff.mpr ⟨_, hcolumns, by rw [hkept]; rfl⟩

section

variable {junk : ℤ → Option ℤ}

/-- An element that is zero is read alone. -/
theorem readsFrom_of_zero {e : ℕ × ℕ} {rest : List (ℕ × ℕ)} (hrows : ap.rowsM = 2)
    (he : ap.entry junk e.1 e.2 = some 0) :
    ap.readsFrom junk (e :: rest) = ((e.1 : ℤ), (e.2 : ℤ)) :: ap.readsFrom junk rest := by
  rw [readsFrom, readsAt, detectAt]
  simp [hrows, he]

/-- The reads around an element that is not zero. -/
theorem readsFrom_of_ne_zero {e : ℕ × ℕ} {rest : List (ℕ × ℕ)} {x : ℤ} (hrows : ap.rowsM = 2)
    (he : ap.entry junk e.1 e.2 = some x) (hx : x ≠ 0) :
    ap.readsFrom junk (e :: rest) = ((e.1 : ℤ), (e.2 : ℤ)) ::
      (ap.readsFirstNonzero junk (alternatives ap.colsM e.1 e.2) ++
        if ap.firstNonzero junk (alternatives ap.colsM e.1 e.2) = some none then ap.readsFrom junk rest else []) := by
  rw [readsFrom, readsAt, detectAt]
  simp [hrows, he, hx]

/-- The matrix has two rows, with these columns. -/
structure HasColumns (M : AccessPattern) (junk : ℤ → Option ℤ) (columns : List (ℤ × ℤ)) : Prop where
  rowsM : M.rowsM = 2
  colsM : M.colsM = columns.length
  length : M.incrementVector.length = 2 * columns.length
  first : ∀ j (hj : j < columns.length), M.entry junk 0 j = some columns[j].1
  second : ∀ j (hj : j < columns.length), M.entry junk 1 j = some columns[j].2

/-- What is pruned has the columns that are kept. -/
theorem hasColumns_ofColumns (hrows : ap.rowsM = 2) (columns : List (ℤ × ℤ)) :
    HasColumns (ap.ofColumns columns) junk columns where
  rowsM := hrows
  colsM := rfl
  length := by
    rw [ofColumns, List.length_append, List.length_map, List.length_map, two_mul]
  first j hj := by
    rw [entry, Int.zero_mul, Int.zero_add, ofColumns, element, if_pos (Int.natCast_nonneg j),
      Int.toNat_natCast, List.getElem?_append_left (by rwa [List.length_map]), List.getElem?_map,
      List.getElem?_eq_getElem hj]
    rfl
  second j hj := by
    have hindex : (1 : ℤ) * ((ap.ofColumns columns).colsM : ℤ) + j = (columns.length + j : ℕ) := by
      rw [ofColumns]
      push_cast
      ring
    rw [entry, hindex, ofColumns, element, if_pos (Int.natCast_nonneg _), Int.toNat_natCast,
      List.getElem?_append_right (by rw [List.length_map]; omega), List.length_map, Nat.add_sub_cancel_left,
      List.getElem?_map, List.getElem?_eq_getElem hj]
    rfl

variable {M : AccessPattern}

/-- With two rows, an element in a row and a column is in the vector. -/
theorem HasColumns.inside_iff {columns : List (ℤ × ℤ)} (h : HasColumns M junk columns) (e : ℤ × ℤ) :
    M.Inside e ↔ (0 ≤ e.1 ∧ e.1 < 2) ∧ 0 ≤ e.2 ∧ e.2 < columns.length := by
  rw [Inside, h.rowsM, h.colsM, h.length]
  constructor
  · exact fun ⟨hi, hj, _⟩ => ⟨hi, hj⟩
  · rintro ⟨hi, hj⟩
    refine ⟨hi, hj, ?_⟩
    obtain h0 | h1 : e.1 = 0 ∨ e.1 = 1 := by omega
    · rw [h0]
      omega
    · rw [h1]
      omega

/-- The first read around the first nonzero element is one of the reads. -/
theorem mem_reads_of_first {i j : ℕ} {x : ℤ} {e : ℤ × ℤ} {entries : List (ℤ × ℤ)}
    {a : ArrayAccessPattern × ℤ × ℤ}
    {others : List (List (ℤ × ℤ) × ArrayAccessPattern × ℤ × ℤ)} {rest : List (ℕ × ℕ)} (hrows : M.rowsM = 2)
    (hij : M.entry junk i j = some x) (hx : x ≠ 0)
    (halternatives : alternatives M.colsM i j = (e :: entries, a) :: others) :
    e ∈ M.readsFrom junk ((i, j) :: rest) := by
  rw [readsFrom_of_ne_zero hrows hij hx]
  simp [halternatives, readsFirstNonzero, readsNonzero]

/-- **Two columns.** -/
theorem reads_of_two {c₀ c₁ : ℤ × ℤ} (h : HasColumns M junk [c₀, c₁])
    (hne : ∀ c ∈ [c₀, c₁], c.1 ≠ 0 ∨ c.2 ≠ 0) :
    (∀ e ∈ M.reads junk, M.Inside e) ↔ Enclosed [c₀, c₁] := by
  have hcols : M.colsM = 2 := h.colsM
  have e00 : M.entry junk 0 0 = some c₀.1 := h.first 0 (by simp)
  have e01 : M.entry junk 0 1 = some c₁.1 := h.first 1 (by simp)
  have e10 : M.entry junk 1 0 = some c₀.2 := h.second 0 (by simp)
  have e11 : M.entry junk 1 1 = some c₁.2 := h.second 1 (by simp)
  have helements : M.elements = [(0, 0), (0, 1), (1, 0), (1, 1)] := by
    simp [elements, h.rowsM, hcols, List.range_succ]
  have hinside := h.inside_iff
  simp only [List.forall_mem_cons] at hne
  obtain ⟨h₀, h₁, -⟩ := hne
  rw [reads, helements, Enclosed]
  by_cases ha : c₀.1 = 0
  · refine iff_of_false (fun hall => ?_) (fun hgood => hgood.1 ha)
    rw [readsFrom_of_zero h.rowsM (ha ▸ e00)] at hall
    replace hall := (List.forall_mem_cons.mp hall).2
    by_cases hb : c₁.1 = 0
    · rw [readsFrom_of_zero h.rowsM (hb ▸ e01)] at hall
      have hbelow := (List.forall_mem_cons.mp hall).2 (2, 1)
        (mem_reads_of_first h.rowsM e10 (h₀.resolve_left (not_not_intro ha)) (by rw [hcols]; rfl))
      simp [hinside] at hbelow
    · have hpast := hall (1, 2) (mem_reads_of_first h.rowsM e01 hb (by rw [hcols]; rfl))
      simp [hinside] at hpast
  · rw [readsFrom_of_ne_zero h.rowsM e00 ha]
    by_cases hd : c₁.2 = 0
    · refine iff_of_false (fun hall => ?_) (fun hgood => hgood.2 hd)
      have hbefore := hall (1, -1)
        (by simp [alternatives, hcols, readsFirstNonzero, readsNonzero, allNonzero, List.allM, e11, hd])
      simp [hinside] at hbefore
    · refine iff_of_true ?_ ⟨ha, hd⟩
      simp [alternatives, hcols, readsFirstNonzero, readsNonzero, allNonzero, List.allM,
        firstNonzero, e11, hd, hinside]

/-- **Three columns.** -/
theorem reads_of_three {c₀ c₁ c₂ : ℤ × ℤ} (h : HasColumns M junk [c₀, c₁, c₂])
    (hne : ∀ c ∈ [c₀, c₁, c₂], c.1 ≠ 0 ∨ c.2 ≠ 0) :
    (∀ e ∈ M.reads junk, M.Inside e) ↔ Enclosed [c₀, c₁, c₂] := by
  have hcols : M.colsM = 3 := h.colsM
  have e00 : M.entry junk 0 0 = some c₀.1 := h.first 0 (by simp)
  have e01 : M.entry junk 0 1 = some c₁.1 := h.first 1 (by simp)
  have e02 : M.entry junk 0 2 = some c₂.1 := h.first 2 (by simp)
  have e10 : M.entry junk 1 0 = some c₀.2 := h.second 0 (by simp)
  have e11 : M.entry junk 1 1 = some c₁.2 := h.second 1 (by simp)
  have e12 : M.entry junk 1 2 = some c₂.2 := h.second 2 (by simp)
  have helements : M.elements = [(0, 0), (0, 1), (0, 2), (1, 0), (1, 1), (1, 2)] := by
    simp [elements, h.rowsM, hcols, List.range_succ]
  have hinside := h.inside_iff
  simp only [List.forall_mem_cons] at hne
  obtain ⟨h₀, h₁, h₂, -⟩ := hne
  rw [reads, helements, Enclosed]
  by_cases ha : c₀.1 = 0
  · refine iff_of_false (fun hall => ?_) (fun hgood => hgood.1 ha)
    rw [readsFrom_of_zero h.rowsM (ha ▸ e00)] at hall
    replace hall := (List.forall_mem_cons.mp hall).2
    by_cases hb : c₁.1 = 0
    · rw [readsFrom_of_zero h.rowsM (hb ▸ e01)] at hall
      replace hall := (List.forall_mem_cons.mp hall).2
      by_cases hc : c₂.1 = 0
      · rw [readsFrom_of_zero h.rowsM (hc ▸ e02)] at hall
        replace hall := (List.forall_mem_cons.mp hall).2
        have hc' : c₂.2 ≠ 0 := h₂.resolve_left (not_not_intro hc)
        rw [readsFrom_of_ne_zero h.rowsM e10 (h₀.resolve_left (not_not_intro ha))] at hall
        have hbelow := hall (2, 1) (by simp [alternatives, hcols, readsFirstNonzero, readsNonzero, e12, hc'])
        simp [hinside] at hbelow
      · have hpast := hall (0, 4) (mem_reads_of_first h.rowsM e02 hc (by rw [hcols]; rfl))
        simp [hinside] at hpast
    · have hpast := hall (0, 3) (mem_reads_of_first h.rowsM e01 hb (by rw [hcols]; rfl))
      simp [hinside] at hpast
  · rw [readsFrom_of_ne_zero h.rowsM e00 ha]
    by_cases hgood : c₁.2 ≠ 0 ∧ c₂.1 ≠ 0
    · refine iff_of_true ?_ ⟨ha, hgood⟩
      simp [alternatives, hcols, readsFirstNonzero, readsNonzero, allNonzero, List.allM,
        firstNonzero, e11, e02, hgood, hinside]
    · refine iff_of_false (fun hall => ?_) (fun h => hgood h.2)
      have hbefore := hall (1, -1) (by
        by_cases hc : c₂.1 = 0 <;> by_cases hb' : c₁.2 = 0 <;>
          simp [alternatives, hcols, readsFirstNonzero, readsNonzero, allNonzero, List.allM, e11,
            e02, hc, hb'] at hgood ⊢)
      simp [hinside] at hbefore

/-- **Four columns.** -/
theorem reads_of_four {c₀ c₁ c₂ c₃ : ℤ × ℤ} (h : HasColumns M junk [c₀, c₁, c₂, c₃])
    (hne : ∀ c ∈ [c₀, c₁, c₂, c₃], c.1 ≠ 0 ∨ c.2 ≠ 0) :
    (∀ e ∈ M.reads junk, M.Inside e) ↔ Enclosed [c₀, c₁, c₂, c₃] := by
  have hcols : M.colsM = 4 := h.colsM
  have e00 : M.entry junk 0 0 = some c₀.1 := h.first 0 (by simp)
  have e01 : M.entry junk 0 1 = some c₁.1 := h.first 1 (by simp)
  have e02 : M.entry junk 0 2 = some c₂.1 := h.first 2 (by simp)
  have e03 : M.entry junk 0 3 = some c₃.1 := h.first 3 (by simp)
  have e10 : M.entry junk 1 0 = some c₀.2 := h.second 0 (by simp)
  have e11 : M.entry junk 1 1 = some c₁.2 := h.second 1 (by simp)
  have e12 : M.entry junk 1 2 = some c₂.2 := h.second 2 (by simp)
  have e13 : M.entry junk 1 3 = some c₃.2 := h.second 3 (by simp)
  have helements : M.elements = [(0, 0), (0, 1), (0, 2), (0, 3), (1, 0), (1, 1), (1, 2), (1, 3)] := by
    simp [elements, h.rowsM, hcols, List.range_succ]
  have hinside := h.inside_iff
  simp only [List.forall_mem_cons] at hne
  obtain ⟨h₀, h₁, h₂, h₃, -⟩ := hne
  rw [reads, helements, Enclosed]
  by_cases ha : c₀.1 = 0
  · rw [readsFrom_of_zero h.rowsM (ha ▸ e00), List.forall_mem_cons, and_iff_right (by simp [hinside])]
    have ha' : c₀.2 ≠ 0 := h₀.resolve_left (not_not_intro ha)
    by_cases hb : c₁.1 = 0
    · refine iff_of_false (fun hall => ?_) (fun hgood => hgood.2.1 hb)
      rw [readsFrom_of_zero h.rowsM (hb ▸ e01)] at hall
      replace hall := (List.forall_mem_cons.mp hall).2
      have hb' : c₁.2 ≠ 0 := h₁.resolve_left (not_not_intro hb)
      by_cases hc : c₂.1 = 0
      · rw [readsFrom_of_zero h.rowsM (hc ▸ e02)] at hall
        replace hall := (List.forall_mem_cons.mp hall).2
        have hc' : c₂.2 ≠ 0 := h₂.resolve_left (not_not_intro hc)
        by_cases hd : c₃.1 = 0
        · rw [readsFrom_of_zero h.rowsM (hd ▸ e03)] at hall
          have hbelow := (List.forall_mem_cons.mp hall).2 (2, -1)
            (mem_reads_of_first h.rowsM e10 ha' (by rw [hcols]; rfl))
          simp [hinside] at hbelow
        · rw [readsFrom_of_ne_zero h.rowsM e03 hd] at hall
          have hpast := hall (1, 4) (by simp [alternatives, hcols, readsFirstNonzero, readsNonzero, e12, hc'])
          simp [hinside] at hpast
      · rw [readsFrom_of_ne_zero h.rowsM e02 hc] at hall
        have hpast := hall (0, 4) (by
          by_cases hd' : c₃.2 = 0 <;>
            simp [alternatives, hcols, readsFirstNonzero, readsNonzero, allNonzero, List.allM, e11,
              e13, hb', hd'])
        simp [hinside] at hpast
    · rw [readsFrom_of_ne_zero h.rowsM e01 hb]
      by_cases hgood : c₂.2 ≠ 0 ∧ c₃.1 ≠ 0 ∨ c₂.1 ≠ 0 ∧ c₃.2 ≠ 0
      · refine iff_of_true ?_ ⟨ha, hb, hgood⟩
        by_cases hc : c₂.1 = 0 <;> by_cases hc' : c₂.2 = 0 <;> by_cases hd : c₃.1 = 0 <;>
          by_cases hd' : c₃.2 = 0 <;>
          simp [alternatives, hcols, readsFirstNonzero, readsNonzero, allNonzero, List.allM, firstNonzero,
            e02, e03, e10, e12, e13, ha', hc, hc', hd, hd', hinside] at hgood ⊢
      · refine iff_of_false (fun hall => ?_) (fun h => hgood h.2.2)
        have hpast := hall (0, 4) (by
          by_cases hc : c₂.1 = 0 <;> by_cases hc' : c₂.2 = 0 <;> by_cases hd : c₃.1 = 0 <;>
            by_cases hd' : c₃.2 = 0 <;>
            simp [alternatives, hcols, readsFirstNonzero, readsNonzero, allNonzero, List.allM,
              e02, e03, e10, e12, e13, ha', hc, hc', hd, hd'] at hgood h₂ h₃ ⊢)
        simp [hinside] at hpast
  · refine iff_of_false (fun hall => ?_) (fun hgood => ha hgood.1)
    have hbefore := hall (1, -1) (mem_reads_of_first h.rowsM e00 ha (by rw [hcols]; rfl))
    simp [hinside] at hbefore

/-- Without alternatives the elements gone over are the reads. -/
theorem mem_of_mem_readsFrom {l : List (ℕ × ℕ)} {e : ℤ × ℤ} (hrows : M.rowsM = 2)
    (hcols : M.colsM ≠ 2 ∧ M.colsM ≠ 3 ∧ M.colsM ≠ 4) (he : e ∈ M.readsFrom junk l) :
    ∃ x ∈ l, e = ((x.1 : ℤ), (x.2 : ℤ)) := by
  induction l with
  | nil => cases he
  | cons x rest ih =>
    rw [readsFrom, List.mem_append] at he
    rcases he with he | he
    · have halternatives : ∀ i j, alternatives M.colsM i j = [] := fun i j => by
        rw [alternatives, if_neg hcols.2.2, if_neg hcols.2.1, if_neg hcols.1]
      simp only [readsAt, hrows, halternatives, readsFirstNonzero, ite_self] at he
      exact ⟨x, List.mem_cons_self, List.mem_singleton.mp he⟩
    · split at he
      · obtain ⟨y, hy, rfl⟩ := ih he
        exact ⟨y, List.mem_cons_of_mem _ hy, rfl⟩
      · cases he

/-- **The other numbers of columns** have no alternatives. -/
theorem inside_of_no_alternatives {columns : List (ℤ × ℤ)} (h : HasColumns M junk columns)
    (hcols : columns.length ≠ 2 ∧ columns.length ≠ 3 ∧ columns.length ≠ 4) :
    ∀ e ∈ M.reads junk, M.Inside e := by
  intro e he
  obtain ⟨x, hx, rfl⟩ := mem_of_mem_readsFrom h.rowsM (h.colsM ▸ hcols) he
  rw [h.inside_iff]
  simp only [elements, h.rowsM, h.colsM, Nat.one_lt_ofNat, gt_iff_lt, if_true, List.mem_flatMap,
    List.mem_range, List.mem_map] at hx
  obtain ⟨i, hi, j, hj, rfl⟩ := hx
  simp only
  omega

/-- **The reads of a matrix of two rows** are inside when its columns are enclosed. -/
theorem reads_of_two_rows {columns : List (ℤ × ℤ)} (h : HasColumns M junk columns)
    (hne : ∀ c ∈ columns, c.1 ≠ 0 ∨ c.2 ≠ 0) :
    (∀ e ∈ M.reads junk, M.Inside e) ↔ Enclosed columns := by
  match columns, h, hne with
  | [], h, _ | [_], h, _ | _ :: _ :: _ :: _ :: _ :: _, h, _ =>
    refine iff_of_true (inside_of_no_alternatives h ?_) trivial
    simp
  | [_, _], h, hne => exact reads_of_two h hne
  | [_, _, _], h, hne => exact reads_of_three h hne
  | [_, _, _, _], h, hne => exact reads_of_four h hne

/-- **The reads of a vector** are inside when two elements are left: the first two are all that is
read. -/
theorem reads_of_one_row (hrows : M.rowsM = 1) (hcols : 0 < M.colsM)
    (hle : M.incrementVector.length ≤ M.colsM)
    (hne : 0 ∉ M.incrementVector) : (∀ e ∈ M.reads junk, M.Inside e) ↔ 2 ≤ M.incrementVector.length := by
  obtain ⟨n, hn⟩ := Nat.exists_eq_add_of_lt hcols
  rw [Nat.zero_add] at hn
  have helements : M.elements = (0, 0) :: (List.range n).map fun j => (0, j + 1) := by
    simp [elements, hrows, hn, List.range_succ_eq_map, Function.comp_def]
  rw [reads, helements, readsFrom]
  rcases hvector : M.incrementVector with _ | ⟨x, _ | ⟨y, rest⟩⟩
  · refine iff_of_false (fun hall => ?_) (by simp)
    have hfirst := hall (0, 0) (by simp [readsAt, hrows])
    simp [Inside, hvector] at hfirst
  · refine iff_of_false (fun hall => ?_) (by simp)
    have hx : x ≠ 0 := fun h => hne (by simp [hvector, h])
    have hnext := hall (0, 1) (by simp [readsAt, hrows, entry, element, hvector, hx])
    simp [Inside, hvector] at hnext
  · refine iff_of_true ?_ (by simp)
    have hx : x ≠ 0 := fun h => hne (by simp [hvector, h])
    have hy : y ≠ 0 := fun h => hne (by simp [hvector, h])
    rw [hvector] at hle
    have htwo : 1 < M.colsM := by simp at hle; omega
    have hfound :
        M.detectAt junk 0 0 = some (some (ArrayAccessPattern.rowMajor, 0, (M.colsM : ℤ) - 0 - 2)) := by
      simp [detectAt, hrows, entry, element, hvector, hx, hy]
    rw [hfound]
    simp [readsAt, hrows, entry, element, hvector, hx, Inside, hcols, htwo]
    omega

end

/-! ### The detection -/

/-- All elements that the detection reads of the pruned matrix are elements of it. -/
def ReadsInside (ap : AccessPattern) (outside : OutOfRange) : Prop :=
  ∃ pruned, ap.pruneIncrementVector outside = some pruned ∧
    ∀ e ∈ pruned.reads outside.incrementVector, pruned.Inside e

/-- **The elements that the detection reads** are inside the pruned matrix, whatever memory holds
past the rows, exactly when the pruning leaves two elements of a vector, and of a matrix columns
that enclose what is read around the first nonzero element. -/
theorem readsInside_iff (row1Vector row2Vector junk : ℤ → ℤ) (hrows : ap.rowsM = 1 ∨ ap.rowsM = 2)
    (hcols : 0 < ap.colsM) (hlength : ap.incrementVector.length = ap.rowsM * ap.colsM) :
    ap.ReadsInside (OutOfRange.holding row1Vector row2Vector junk) ↔
      (ap.rowsM = 1 → 2 ≤ (ap.visitedColumns row1Vector row2Vector).length) ∧
        (ap.rowsM = 2 → Enclosed (ap.visitedColumns row1Vector row2Vector)) := by
  have hne : ∀ c ∈ ap.visitedColumns row1Vector row2Vector, c.1 ≠ 0 ∨ c.2 ≠ 0 := by
    intro c hc
    simpa using (List.mem_filter.mp hc).2
  rcases hrows with hone | htwo
  · have hsecond : ∀ c ∈ ap.visitedColumns row1Vector row2Vector, c.2 = 0 := by
      intro c hc
      obtain ⟨i, -, rfl⟩ := List.mem_map.mp (List.mem_filter.mp hc).1
      simp only [columnAt, hone]
      split <;> rfl
    have hle : (ap.visitedColumns row1Vector row2Vector).length ≤ ap.colsM := by
      refine (List.length_filter_le _ _).trans ?_
      rw [List.length_map, List.length_range]
    rw [ReadsInside, pruneIncrementVector_eq_of_one_row hone hlength, and_iff_left (by omega),
      imp_iff_right hone]
    simp only [Option.some.injEq, exists_eq_left']
    rw [← List.length_map (fun c : ℤ × ℤ => c.1)] at hle ⊢
    refine reads_of_one_row (M := { ap with incrementVector := _ }) hone hcols hle fun hmem => ?_
    obtain ⟨c, hc, hzero⟩ := List.mem_map.mp hmem
    exact (hne c hc).elim (fun h => h hzero) (fun h => h (hsecond c hc))
  · rw [ReadsInside, pruneIncrementVector_eq_ofColumns htwo hlength, and_iff_right (by omega),
      imp_iff_right htwo]
    simp only [Option.some.injEq, exists_eq_left']
    exact reads_of_two_rows (hasColumns_ofColumns htwo _) hne

/-- The matrix of `x[i][j]` in two loops. -/
theorem readsInside_iff_square :
    (ofIncrements 2 2 [1, 0, 0, 1]).ReadsInside (OutOfRange.holding (fun _ => 0) (fun _ => 0) (fun _ => 0)) :=
  (readsInside_iff _ _ _ (.inr rfl) Nat.two_pos rfl).mpr ⟨fun h => (nomatch h), fun _ => by decide⟩

/-- For `x[i]` in one loop the element after the only one is read. -/
theorem next_read_past_the_vector :
    ¬ ∀ row1Vector row2Vector junk, (ofIncrements 1 1 [1]).ReadsInside (OutOfRange.holding row1Vector row2Vector junk) := by
  intro h
  obtain ⟨pruned, hpruned, hinside⟩ := h (fun _ => 0) (fun _ => 0) (fun _ => 0)
  obtain rfl := Option.some.inj hpruned
  have hpast := (hinside (0, 1) (by decide)).2.2
  exact absurd hpast (by decide)

/-- Detecting the columns of zeros leaves the matrix. -/
theorem matrix_detectZeroCols (h : ap.detectZeroCols = some ap') :
    ap'.rowsM = ap.rowsM ∧ ap'.colsM = ap.colsM ∧ ap'.incrementVector = ap.incrementVector := by
  unfold detectZeroCols at h
  split at h
  · obtain ⟨zero, -, h⟩ := Option.bind_eq_some_iff.mp h
    obtain rfl := Option.some.inj h
    exact ⟨rfl, rfl, rfl⟩
  · obtain rfl := Option.some.inj h
    exact ⟨rfl, rfl, rfl⟩

/-- The rows of an access pattern have an increment for each loop. -/
theorem length_flatten_increments {LIT : LoopInfoTable} {iterationVector : List Reg} {l : List IndexInfo}
    {rows : List (List ℤ)}
    (h : l.mapM (fun info => CollectInfo.increments LIT iterationVector info.iterators) = some rows) :
    rows.flatten.length = l.length * iterationVector.length := by
  have hmap := mapM_eq_some_iff_map.mp h
  have hrow : ∀ row ∈ rows, row.length = iterationVector.length := by
    intro row hrow
    obtain ⟨info, -, hinfo⟩ := List.mem_map.mp (hmap ▸ List.mem_map_of_mem hrow : some row ∈ l.map _)
    simpa using congrArg List.length (mapM_eq_some_iff_map.mp hinfo)
  have hlength : rows.length = l.length := by simpa using congrArg List.length hmap
  rw [List.length_flatten, List.map_congr_left hrow, List.map_const', List.sum_replicate_nat, hlength]

/-- **The matrix that `setPointerInfo` builds** has one or two rows and as many elements. -/
theorem matrix_of_setPointerInfo {LIT : LoopInfoTable} {outside : OutOfRange} {instrLoopBody : Reg}
    {arrayRows arrayCols : ℤ} {first second : IndexInfo} {p : PointerInfoStruct}
    (h : CollectInfo.setPointerInfo LIT outside instrLoopBody arrayRows arrayCols first second = some p) :
    (p.pointerAccessPattern.rowsM = 1 ∨ p.pointerAccessPattern.rowsM = 2) ∧
      p.pointerAccessPattern.incrementVector.length =
        p.pointerAccessPattern.rowsM * p.pointerAccessPattern.colsM := by
  obtain ⟨-, -, rows, ap, hrows, hap, hpattern⟩ := CollectInfo.setPointerInfo_eq_some h
  obtain ⟨hrowsM, hcolsM, hvector⟩ := matrix_detectAccessPatternType hap
  obtain ⟨hrowsM', hcolsM', hvector'⟩ := matrix_detectZeroCols hpattern
  rw [hrowsM', hcolsM', hvector', hrowsM, hcolsM, hvector]
  refine ⟨?_, length_flatten_increments hrows⟩
  by_cases hmatrix : arrayRows > 1
  · exact .inr (by simp [ofIncrements, hmatrix])
  · exact .inl (by simp [ofIncrements, hmatrix])

end AccessPattern

end Octantis
