import Octantis.Binding.Reachable
import Octantis.CodeGeneration.PrintDexFile

/-!
# The order of the rows

`printLiM` prints a row after the rows with smaller names. So a row that is looked up must
have been named before the row that reads it, and the binder names the rows in the order in
which it adds them, but gives logic to rows that are there.

## The model

`InOrder` is about the rows that one row reads: the memory input of a memory row, the second
and the last connection of a row with logic.

## What is proved

* `identifyLIMRowAndPrint_enters`: a row is entered exactly when the rows that it reads are;
* `printLiM_isOk_iff`: the printing of an array ends exactly when its rows are in order.
-/

namespace Octantis

open Std Lib

/-- Row `m` is printed before row `n`. -/
def LiMArray.PrintedBefore (A : LiMArray) (n m : Name) : Prop := (A.findRow m).isSome ∧ m < n

/-- The rows that row `n` reads are among the rows entered; a memory row may be its own memory
input. -/
def LiMRow.ReadsFrom (row : LiMRow) (n : Name) (entered : Name → Prop) : Prop :=
  if row.rowType = .load then
    ∃ m, row.inputConnections.head? = some m ∧ (m = noInput ∨ m = nullRow ∨ m = n ∨ entered m)
  else
    ∃ m, row.inputConnections[1]? = some m ∧ entered m ∧
      (2 < row.inputConnections.length → ∀ l, row.inputConnections.getLast? = some l → entered l)

/-- The rows that row `n` reads are printed before it. -/
def LiMArray.InOrder (A : LiMArray) (n : Name) (row : LiMRow) : Prop := row.ReadsFrom n (A.PrintedBefore n)

/-- Every row is in order. -/
def LiMArray.Ordered (A : LiMArray) : Prop := ∀ n row, A.findRow n = some row → A.InOrder n row

/-- A row with logic has an operation that is bound, and not the `switch`. -/
def LiMRow.Typed (row : LiMRow) : Prop :=
  row.rowType ≠ .load → row.rowType.isBound = true ∧ row.rowType ≠ .switch

namespace PrintDexFile

/-! ### One row -/

variable {A : LiMArray} {namesMap namesMap' : NamesMap} {currentRow : ℕ} {cellName : String}
  {rowName source last m : Name} {row : LiMRow}

/-- A row is found when it has been entered. -/
theorem exists_getName_iff : (∃ entry, getNameAndIndexOfSourceRow namesMap m = .ok entry) ↔ m ∈ namesMap := by
  unfold getNameAndIndexOfSourceRow
  rw [ExtTreeMap.mem_iff_isSome_getElem?]
  cases namesMap[m]? with
  | none => simp
  | some entry => simp

theorem mem_insertNamesMap :
    m ∈ insertNamesMap namesMap rowName cellName currentRow ↔ m = rowName ∨ m ∈ namesMap := by
  unfold insertNamesMap
  rw [ExtTreeMap.mem_insertIfNew, Nat.compare_eq_eq, eq_comm]

/-- The map after a row is printed. -/
def Enters (namesMap : NamesMap) (rowName : Name) (result : Except Stop NamesMap) (ready : Prop) : Prop :=
  (∀ namesMap', result = .ok namesMap' → ∀ m, m ∈ namesMap' ↔ m = rowName ∨ m ∈ namesMap) ∧
    ((∃ namesMap', result = .ok namesMap') ↔ ready)

theorem printCells_enters :
    Enters namesMap rowName (printCells namesMap cellName currentRow rowName source) (source ∈ namesMap) := by
  rw [← exists_getName_iff]
  unfold printCells
  cases getNameAndIndexOfSourceRow namesMap source with
  | error stop => exact ⟨fun _ h => (nomatch h), by simp [bind, Except.bind]⟩
  | ok entry =>
    refine ⟨fun namesMap' h m => ?_, by simp [bind, Except.bind, pure, Except.pure]⟩
    cases h
    exact mem_insertNamesMap

theorem printCellsMux2to1_enters :
    Enters namesMap rowName (printCellsMux2to1 namesMap cellName currentRow rowName source last)
      (source ∈ namesMap ∧ last ∈ namesMap) := by
  rw [← exists_getName_iff, ← exists_getName_iff (m := last)]
  unfold printCellsMux2to1
  cases getNameAndIndexOfSourceRow namesMap source with
  | error stop => exact ⟨fun _ h => (nomatch h), by simp [bind, Except.bind]⟩
  | ok entry =>
    cases getNameAndIndexOfSourceRow namesMap last with
    | error stop => exact ⟨fun _ h => (nomatch h), by simp [bind, Except.bind]⟩
    | ok entry' =>
      refine ⟨fun namesMap' h m => ?_, by simp [bind, Except.bind, pure, Except.pure]⟩
      cases h
      exact mem_insertNamesMap

theorem addDataRow_enters :
    Enters namesMap rowName (addDataRow namesMap currentRow rowName source)
      (source = nullRow ∨ source = rowName ∨ source ∈ namesMap) := by
  unfold addDataRow
  by_cases hnull : source = nullRow
  · rw [if_neg (not_not.mpr hnull)]
    refine ⟨fun namesMap' h m => ?_, iff_of_true ⟨_, rfl⟩ (.inl hnull)⟩
    cases h
    exact mem_insertNamesMap
  · rw [if_pos hnull]
    have hfound : (∃ entry,
        getNameAndIndexOfSourceRow (insertNamesMap namesMap rowName "Memory" currentRow) source = .ok entry) ↔
          source ∈ insertNamesMap namesMap rowName "Memory" currentRow := exists_getName_iff
    rw [mem_insertNamesMap] at hfound
    cases hget : getNameAndIndexOfSourceRow (insertNamesMap namesMap rowName "Memory" currentRow) source with
    | error stop =>
      rw [hget] at hfound
      refine ⟨fun _ h => (nomatch h), iff_of_false (by simp [bind, Except.bind]) ?_⟩
      rintro (h | h)
      · exact hnull h
      · simpa using hfound.mpr h
    | ok entry =>
      rw [hget] at hfound
      refine ⟨fun namesMap' h m => ?_, iff_of_true ⟨_, rfl⟩ (.inr (hfound.mp ⟨_, rfl⟩))⟩
      cases h
      exact mem_insertNamesMap

/-- A list that has the element. -/
theorem element_bind {connection : Option Name} {next : Name → Except Stop NamesMap} {ready : Name → Prop}
    (h : ∀ m, connection = some m → Enters namesMap rowName (next m) (ready m)) :
    Enters namesMap rowName (element connection >>= next) (∃ m, connection = some m ∧ ready m) := by
  cases connection with
  | none => exact ⟨fun _ h => (nomatch h),
    iff_of_false (fun ⟨_, h⟩ => nomatch h) (fun ⟨_, h, _⟩ => nomatch h)⟩
  | some m =>
    obtain ⟨hmem, hready⟩ := h m rfl
    refine ⟨hmem, hready.trans ⟨fun h => ⟨m, rfl, h⟩, ?_⟩⟩
    rintro ⟨m', hm, h⟩
    cases hm
    exact h

theorem Enters.congr {result : Except Stop NamesMap} {ready ready' : Prop}
    (h : Enters namesMap rowName result ready)
    (hiff : ready ↔ ready') : Enters namesMap rowName result ready' :=
  ⟨h.1, h.2.trans hiff⟩

/-- A row with logic, by whether it has a mux. -/
theorem logic_enters (hlogic : row.rowType ≠ .load) {mux : Name → Name → Except Stop NamesMap}
    {plain : Name → Except Stop NamesMap}
    (hmux : ∀ m l, Enters namesMap rowName (mux m l) (m ∈ namesMap ∧ l ∈ namesMap))
    (hplain : ∀ m, Enters namesMap rowName (plain m) (m ∈ namesMap)) :
    Enters namesMap rowName (element row.inputConnections[1]? >>= fun source =>
      if decide (2 < row.inputConnections.length) = true then
        element row.inputConnections.getLast? >>= fun last => mux source last
      else plain source) (row.ReadsFrom rowName (· ∈ namesMap)) := by
  rw [LiMRow.ReadsFrom, if_neg hlogic]
  refine element_bind fun m hm => ?_
  by_cases hlen : 2 < row.inputConnections.length
  · rw [if_pos (decide_eq_true hlen)]
    refine (element_bind fun l _ => hmux m l).congr ?_
    have hne : row.inputConnections ≠ [] := List.ne_nil_of_length_pos (by omega)
    rw [List.getLast?_eq_some_getLast hne]
    simp [hlen]
  · rw [if_neg (by simp [hlen])]
    exact (hplain m).congr (by simp [hlen])

/-- The types of the rows with logic. -/
theorem limOperations_of_typed (htyped : row.Typed) (hlogic : row.rowType ≠ .load) :
    LimOperations row.rowType = some .bitwise ∨ LimOperations row.rowType = some .arith := by
  obtain ⟨hbound, -⟩ := htyped hlogic
  cases htype : row.rowType with
  | load => exact absurd htype hlogic
  | null | lshr =>
    rw [htype] at hbound
    cases hbound
  | add | sub | shl | shr | ashr | sdiv | mul => exact .inr rfl
  | and | nand | or | nor | xnor | xor | switch => exact .inl rfl

/-- **A row is printed** when the rows that it reads have been entered. -/
theorem identifyLIMRowAndPrint_enters (htyped : row.Typed) :
    Enters namesMap rowName (identifyLIMRowAndPrint namesMap currentRow rowName row)
      (row.ReadsFrom rowName (· ∈ namesMap)) := by
  unfold identifyLIMRowAndPrint
  by_cases hload : row.rowType = .load
  · rw [LiMRow.ReadsFrom, if_pos hload, hload]
    refine element_bind fun m hm => ?_
    split
    · next hno => exact addDataRow_enters.congr (iff_of_true (.inl rfl) (.inl hno))
    · next hno => exact addDataRow_enters.congr (by simp [hno])
  · rcases limOperations_of_typed htyped hload with htype | htype
    · rw [htype]
      refine logic_enters hload (fun m l => printCellsMux2to1_enters) fun m => ?_
      rw [if_neg (htyped hload).2]
      exact printCells_enters
    · rw [htype]
      exact logic_enters hload (fun m l => printCellsMux2to1_enters) fun m => printCells_enters

/-! ### The array -/

/-- The first row is printed, and then the others. -/
theorem printRows_cons {r : Name × LiMRow} {rows : List (Name × LiMRow)}
    (h : printRows (r :: rows) currentRow namesMap = .ok namesMap') :
    ∃ namesMap₁, identifyLIMRowAndPrint namesMap currentRow r.1 r.2 = .ok namesMap₁ ∧
      printRows rows (currentRow + 1) namesMap₁ = .ok namesMap' := by
  rw [printRows] at h
  cases hfirst : identifyLIMRowAndPrint namesMap currentRow r.1 r.2 with
  | error stop =>
    rw [hfirst] at h
    cases h
  | ok namesMap₁ =>
    rw [hfirst] at h
    exact ⟨namesMap₁, rfl, h⟩

/-- The rows are printed when each reads rows entered before it. -/
theorem printRows_isOk_iff {rows : List (Name × LiMRow)} (htyped : ∀ r ∈ rows, r.2.Typed) :
    (∃ namesMap', printRows rows currentRow namesMap = .ok namesMap') ↔
      ∀ before r after, rows = before ++ r :: after →
        r.2.ReadsFrom r.1 fun m => m ∈ namesMap ∨ m ∈ before.map (·.1) := by
  induction rows generalizing currentRow namesMap with
  | nil => exact iff_of_true ⟨_, rfl⟩ (by simp)
  | cons r rows ih =>
    have henters : Enters namesMap r.1 (identifyLIMRowAndPrint namesMap currentRow r.1 r.2)
        (r.2.ReadsFrom r.1 (· ∈ namesMap)) := identifyLIMRowAndPrint_enters (htyped r List.mem_cons_self)
    obtain ⟨hmem, hready⟩ := henters
    have hfirst : (∃ namesMap', identifyLIMRowAndPrint namesMap currentRow r.1 r.2 = .ok namesMap') ↔
        r.2.ReadsFrom r.1 fun m => m ∈ namesMap ∨ m ∈ ([] : List (Name × LiMRow)).map (·.1) := by
      simpa using hready
    constructor
    · rintro ⟨namesMap', h⟩ before r' after hsplit
      obtain ⟨namesMap₁, h₁, h⟩ := printRows_cons h
      cases before with
      | nil =>
        obtain ⟨rfl, -⟩ := List.cons.inj hsplit
        exact hfirst.mp ⟨namesMap₁, h₁⟩
      | cons r₀ before =>
        obtain ⟨rfl, htail⟩ := List.cons.inj hsplit
        have hrest := (ih fun r' hr' => htyped r' (List.mem_cons_of_mem _ hr')).mp ⟨namesMap', h⟩ before r' after htail
        simpa only [hmem namesMap₁ h₁, List.map_cons, List.mem_cons, or_left_comm, or_assoc] using hrest
    · intro hall
      obtain ⟨namesMap₁, h₁⟩ := hfirst.mpr (hall [] r rows rfl)
      have hrest : ∃ namesMap', printRows rows (currentRow + 1) namesMap₁ = .ok namesMap' :=
        (ih fun r' hr' => htyped r' (List.mem_cons_of_mem _ hr')).mpr fun before r' after hsplit => by
          have hrest := hall (r :: before) r' after (by rw [hsplit]; rfl)
          simpa only [hmem namesMap₁ h₁, List.map_cons, List.mem_cons, or_left_comm, or_assoc] using hrest
      obtain ⟨namesMap', h⟩ := hrest
      exact ⟨namesMap', by rw [printRows, h₁]; exact h⟩

/-- The rows before a row are those with smaller names. -/
theorem mem_before_iff {before after : List (Name × LiMRow)}
    (hsplit : A.limArray.toList = before ++ (rowName, row) :: after) :
    m ∈ before.map (·.1) ↔ A.PrintedBefore rowName m := by
  have hsorted := A.limArray.ordered_keys_toList
  rw [hsplit, List.pairwise_append, List.pairwise_cons] at hsorted
  obtain ⟨-, ⟨hafter, -⟩, hbefore⟩ := hsorted
  have hlt : ∀ r ∈ before, r.1 < rowName := fun r hr =>
    Nat.compare_eq_lt.mp (hbefore r hr (rowName, row) List.mem_cons_self)
  constructor
  · intro hm
    obtain ⟨r, hr, rfl⟩ := List.mem_map.mp hm
    have hentry : r ∈ A.limArray.toList := by
      rw [hsplit]
      exact List.mem_append_left _ hr
    exact ⟨Option.isSome_of_eq_some (ExtTreeMap.mem_toList_iff_getElem?_eq_some.mp hentry), hlt r hr⟩
  · rintro ⟨hsome, hm⟩
    obtain ⟨r, hr⟩ := Option.isSome_iff_exists.mp hsome
    have hentry : (m, r) ∈ A.limArray.toList := ExtTreeMap.mem_toList_iff_getElem?_eq_some.mpr hr
    rw [hsplit, List.mem_append, List.mem_cons] at hentry
    rcases hentry with hentry | hentry | hentry
    · exact List.mem_map.mpr ⟨_, hentry, rfl⟩
    · cases hentry
      exact absurd hm (Nat.lt_irrefl _)
    · exact absurd hm (Nat.not_lt_of_lt (Nat.compare_eq_lt.mp (hafter _ hentry)))

/-- **An array is printed** exactly when its rows are in order. -/
theorem printLiM_isOk_iff (htyped : ∀ n row, A.findRow n = some row → row.Typed) :
    (∃ namesMap, printLiM A = .ok namesMap) ↔ A.Ordered := by
  have hentry : ∀ r, r ∈ A.limArray.toList ↔ A.findRow r.1 = some r.2 := fun r =>
    ExtTreeMap.mem_toList_iff_getElem?_eq_some
  rw [printLiM, printRows_isOk_iff fun r hr => htyped r.1 r.2 ((hentry r).mp hr)]
  constructor
  · intro hall n row hrow
    obtain ⟨before, after, hsplit⟩ := List.append_of_mem ((hentry (n, row)).mpr hrow)
    rw [LiMArray.InOrder]
    simpa only [ExtTreeMap.not_mem_empty, false_or, mem_before_iff hsplit] using hall before (n,
      row) after hsplit
  · intro hordered before r after hsplit
    have hrow := (hentry r).mp (by rw [hsplit]; simp)
    simpa only [ExtTreeMap.not_mem_empty, false_or, mem_before_iff hsplit, LiMArray.InOrder] using
      hordered r.1 r.2 hrow

end PrintDexFile

end Octantis
