import Octantis.Binding.BindingProcess

/-!
# What a mapping does

The ways in which `performBinding` and `performAccBinding` give two rows their
logic — a memory row is converted, a row that has the logic already gets a mux,
a copy row is generated — and the effect of each on the array and on the times
(`Realizes`). The invariants above are derived from it, without unfolding the
functions again.

## What is proved

* `performBinding_cases`: the four outcomes of the binding of one element.
* `mapOperation_realizes`, `bindPair_realizes`: a mapping changes the row with the
  logic and adds the result row, and nothing else.
* `mapOperation_isSome`, `bindPair_isSome`: it is defined on rows that have a time.
-/

namespace Octantis

open Std

/-- Give a row the logic of an operation. -/
def LiMRow.withLogic (row : LiMRow) (operation : Operation) (specifications : List String) : LiMRow :=
  { row with
    rowType := operation
    additionalLogic := if specifications.isEmpty then row.additionalLogic else specifications }

/-- Connect a source to a row. -/
def LiMRow.connect (row : LiMRow) (src : Name) (conType : ConnectionType) : LiMRow :=
  if row.inputConnections.length = 1 ∨ src ∉ row.inputConnections then
    { row with
      inputConnections := row.inputConnections ++ [src]
      inputConnectionsType := row.inputConnectionsType ++ [conType] }
  else row

/-- A row whose type can be changed. -/
def LiMRow.convertible (row : LiMRow) : Bool :=
  !(LiMArray.checkIfRowIsLiM row || row.additionalLogic.contains "input_line")

/-- The memory row with the result of the logic of row `src`. -/
def resultRow (par : ℤ) (src : Name) : LiMRow := ⟨.load, par, [src], [.OLiM], []⟩

/-- The way an operation gets its logic. -/
inductive Way where
  /-- A memory row is converted. -/
  | convert
  /-- A row that has the logic gets a mux. -/
  | mux
  /-- A copy row is generated. -/
  | copy
  deriving DecidableEq, Repr

@[simp] theorem LiMRow.connect_rowType (row : LiMRow) (src : Name) (c : ConnectionType) :
    (row.connect src c).rowType = row.rowType := by
  unfold connect
  split <;> rfl

/-- Connections are only added, at the end. -/
theorem LiMRow.connect_prefix (row : LiMRow) (src : Name) (c : ConnectionType) :
    row.inputConnections <+: (row.connect src c).inputConnections := by
  unfold connect
  split
  · exact List.prefix_append _ _
  · exact List.prefix_rfl

theorem LiMRow.connect_types_prefix (row : LiMRow) (src : Name) (c : ConnectionType) :
    row.inputConnectionsType <+: (row.connect src c).inputConnectionsType := by
  unfold connect
  split
  · exact List.prefix_append _ _
  · exact List.prefix_rfl

theorem LiMRow.connect_of_length_one {row : LiMRow} (h : row.inputConnections.length = 1) (src : Name)
    (c : ConnectionType) : (row.connect src c).inputConnections = row.inputConnections ++ [src] := by
  rw [connect, if_pos (.inl h)]

namespace LiMArray

variable {A A' : LiMArray} {n : Name} {row : LiMRow}

theorem changeLiMRowType_of_findRow (h : A.findRow n = some row) (operation : Operation)
    (specifications : List String) :
    A.changeLiMRowType n operation specifications =
      some (if row.convertible then (A.setRow n (row.withLogic operation specifications), true)
        else (A, false)) := by
  unfold changeLiMRowType
  rw [h]
  cases hc : checkIfRowIsLiM row || row.additionalLogic.contains "input_line" <;>
    simp only [Option.bind_eq_bind, Option.bind_some, LiMRow.convertible, hc] <;> rfl

/-- A connection changes the row connected to only. -/
theorem findRow_addNewInputConnection (h : A.findRow n = some row) (src : Name) (c : ConnectionType) :
    ∃ A', A.addNewInputConnection n src c = some A' ∧
      (∀ m, A'.findRow m = if m = n then some (row.connect src c) else A.findRow m) ∧
      A'.getDimensions = A.getDimensions := by
  unfold addNewInputConnection
  rw [h]
  have hn : n ∈ A.limArray := by
    rw [ExtTreeMap.mem_iff_isSome_getElem?]
    exact Option.isSome_of_eq_some h
  by_cases hc : row.inputConnections.length = 1 ∨ src ∉ row.inputConnections
  · refine ⟨_, by simp only [Option.bind_eq_bind, Option.bind_some, if_pos hc]; rfl, ?_, ?_⟩
    · intro m
      rw [findRow_setRow, LiMRow.connect, if_pos hc]
      simp only [eq_comm]
    · simp [getDimensions, setRow, ExtTreeMap.size_insert, hn]
  · refine ⟨A, by simp only [Option.bind_eq_bind, Option.bind_some, if_neg hc]; rfl, ?_, rfl⟩
    intro m
    rw [LiMRow.connect, if_neg hc]
    split
    · next hm => rw [hm, h]
    · rfl

theorem getDimensions_setRow (h : A.findRow n = some row) (row' : LiMRow) :
    (A.setRow n row').getDimensions = A.getDimensions := by
  have hn : n ∈ A.limArray := by
    rw [ExtTreeMap.mem_iff_isSome_getElem?]
    exact Option.isSome_of_eq_some h
  simp [getDimensions, setRow, ExtTreeMap.size_insert, hn]

theorem getDimensions_insertRow (h : A.findRow n = none) (row' : LiMRow) :
    (A.insertRow n row').getDimensions = A.getDimensions + 1 := by
  rw [findRow, getElem?_eq_none_iff] at h
  simp [getDimensions, insertRow, ExtTreeMap.size_insertIfNew, h]

/-- A row whose name is not taken is added. -/
theorem findRow_insertRow_of_none (h : A.findRow n = none) (row' : LiMRow) (m : Name) :
    (A.insertRow n row').findRow m = if m = n then some row' else A.findRow m := by
  rw [findRow_insertRow]
  simp only [h, and_true, eq_comm]

end LiMArray

/-! ### The place of the logic -/

namespace LiMBinder

/-- Where the logic of an operation on two rows goes: the way, the row, and the operand that is
connected to it. Accumulations make no mux. -/
def site (b : LiMBinder) (mux : Bool) (operation : Operation) (src1 src2 : Name) :
    Option (Way × Name × Name) := do
  let row2 ← b.MemArray.findRow src2
  if row2.convertible then return (.convert, src2, src1)
  let row1 ← b.MemArray.findRow src1
  if row1.convertible then return (.convert, src1, src2)
  if mux ∧ row2.rowType = operation ∧ row2.inputConnections.length < 3 then return (.mux, src2, src1)
  if mux ∧ row1.rowType = operation ∧ row1.inputConnections.length < 3 then return (.mux, src1, src2)
  return (.copy, b.zeroAddr, src2)

theorem site_isSome {b : LiMBinder} (mux : Bool) (operation : Operation) {src1 src2 : Name}
    (h1 : (b.MemArray.findRow src1).isSome) (h2 : (b.MemArray.findRow src2).isSome) :
    (b.site mux operation src1 src2).isSome := by
  obtain ⟨row1, h1⟩ := Option.isSome_iff_exists.mp h1
  obtain ⟨row2, h2⟩ := Option.isSome_iff_exists.mp h2
  simp only [site, h1, h2, Option.bind_eq_bind, Option.bind_some]
  split
  · rfl
  split
  · rfl
  split
  · rfl
  split <;> rfl

/-- Connect the logic at its place. -/
def connectAt (b : LiMBinder) (operation : Operation) (specifications : List String)
    (src1 src2 : Name) : Way × Name × Name → Option (LiMBinder × Feed)
  | (.convert, row, other) => do
    let (array, _) ← b.MemArray.changeLiMRowType row operation specifications
    let array ← array.addNewInputConnection row other .OC
    return ({ b with MemArray := array }, ⟨row, false, none⟩)
  | (.mux, row, other) => do
    let array ← b.MemArray.addNewInputConnection row other .OC
    return ({ b with MemArray := array }, ⟨row, true, none⟩)
  | (.copy, _, _) => b.copyRow operation specifications src1 src2

/-- `performBinding` connects its sources at their site. -/
theorem connectSources_eq (b : LiMBinder) (operation : Operation) (specifications : List String)
    (src1 src2 : Name) :
    b.connectSources operation specifications src1 src2 =
      (b.site true operation src1 src2).bind (b.connectAt operation specifications src1 src2) := by
  unfold connectSources site
  cases h2 : b.MemArray.findRow src2 with
  | none => simp [LiMArray.changeLiMRowType, h2]
  | some row2 =>
    rw [LiMArray.changeLiMRowType_of_findRow h2]
    by_cases hc2 : row2.convertible
    · simp [hc2, connectAt, LiMArray.changeLiMRowType_of_findRow h2]
    cases h1 : b.MemArray.findRow src1 with
    | none => simp [LiMArray.changeLiMRowType, h1, hc2]
    | some row1 =>
      rw [LiMArray.changeLiMRowType_of_findRow h1]
      by_cases hc1 : row1.convertible
      · simp [hc1, hc2, connectAt, LiMArray.changeLiMRowType_of_findRow h1]
      by_cases hm2 : row2.rowType = operation ∧ row2.inputConnections.length < 3
      · simp [hc1, hc2, hm2, connectAt, LiMArray.isLiMRowOfThisType, h2]
      by_cases hm1 : row1.rowType = operation ∧ row1.inputConnections.length < 3
      · simp [hc1, hc2, hm1, hm2, connectAt, LiMArray.isLiMRowOfThisType, h1, h2]
      · simp [hc1, hc2, hm1, hm2, connectAt, LiMArray.isLiMRowOfThisType, h1, h2]

/-- A pair of an accumulation connects its rows at their site. -/
theorem connectPair_eq (b : LiMBinder) (operation : Operation) (specifications : List String)
    (row1 row2 : Name) :
    b.connectPair operation specifications row1 row2 =
      (b.site false operation row1 row2).bind (b.connectAt operation specifications row1 row2) := by
  unfold connectPair site
  cases h2 : b.MemArray.findRow row2 with
  | none => simp [LiMArray.changeLiMRowType, h2]
  | some r2 =>
    rw [LiMArray.changeLiMRowType_of_findRow h2]
    by_cases hc2 : r2.convertible
    · simp [hc2, connectAt, LiMArray.changeLiMRowType_of_findRow h2]
    cases h1 : b.MemArray.findRow row1 with
    | none => simp [LiMArray.changeLiMRowType, h1, hc2]
    | some r1 =>
      rw [LiMArray.changeLiMRowType_of_findRow h1]
      by_cases hc1 : r1.convertible
      · simp [hc1, hc2, connectAt, LiMArray.changeLiMRowType_of_findRow h1]
      · simp [hc1, hc2, connectAt]

end LiMBinder

/-- **The row with the logic** of an operation on two rows, before the other operand is connected to
it: the way, the name of the row, the other operand, and the row. -/
inductive Site (b : LiMBinder) (operation : Operation) (specifications : List String)
    (src1 src2 : Name) : Way → Name → Name → LiMRow → Prop where
  | convert {row other : Name} {old : LiMRow}
      (operands : row = src2 ∧ other = src1 ∨ row = src1 ∧ other = src2)
      (found : b.MemArray.findRow row = some old) (convertible : old.convertible = true) :
      Site b operation specifications src1 src2 .convert row other
        (old.withLogic operation specifications)
  | mux {row other : Name} {old : LiMRow}
      (operands : row = src2 ∧ other = src1 ∨ row = src1 ∧ other = src2)
      (found : b.MemArray.findRow row = some old) (type : old.rowType = operation)
      (size : old.inputConnections.length < 3) :
      Site b operation specifications src1 src2 .mux row other old
  | copy :
      Site b operation specifications src1 src2 .copy b.zeroAddr src2
        ⟨operation, b.par, [src1], [.OC], specifications⟩

namespace Site

variable {b : LiMBinder} {operation : Operation} {specifications : List String}
  {src1 src2 row other : Name} {w : Way} {base : LiMRow}

theorem rowType (h : Site b operation specifications src1 src2 w row other base) :
    base.rowType = operation := by
  cases h with
  | convert => rfl
  | mux _ _ type => exact type
  | copy => rfl

/-- The site that the code chooses is one. -/
theorem of_site {mux : Bool} (specifications : List String)
    (h : b.site mux operation src1 src2 = some (w, row, other)) :
    ∃ base, Site b operation specifications src1 src2 w row other base := by
  unfold LiMBinder.site at h
  obtain ⟨row2, h2, h⟩ := Option.bind_eq_some_iff.mp h
  split at h
  · next hc =>
    cases h
    exact ⟨_, .convert (.inl ⟨rfl, rfl⟩) h2 hc⟩
  obtain ⟨row1, h1, h⟩ := Option.bind_eq_some_iff.mp h
  split at h
  · next hc =>
    cases h
    exact ⟨_, .convert (.inr ⟨rfl, rfl⟩) h1 hc⟩
  split at h
  · next hm =>
    cases h
    exact ⟨_, .mux (.inl ⟨rfl, rfl⟩) h2 hm.2.1 hm.2.2⟩
  split at h
  · next hm =>
    cases h
    exact ⟨_, .mux (.inr ⟨rfl, rfl⟩) h1 hm.2.1 hm.2.2⟩
  · cases h
    exact ⟨_, .copy⟩

/-- A row with logic is an operand, or the copy row, whose name is new. -/
theorem row_eq (h : Site b operation specifications src1 src2 w row other base) :
    if w = .copy then row = b.zeroAddr
    else (row = src1 ∨ row = src2) ∧ (b.MemArray.findRow row).isSome := by
  cases h with
  | convert operands found | mux operands found =>
    rw [if_neg (by decide)]
    exact ⟨by rcases operands with ⟨rfl, -⟩ | ⟨rfl, -⟩ <;> simp, Option.isSome_of_eq_some found⟩
  | copy => rfl

/-- A name that is no row and not the one of a copy is not the row with the logic. -/
theorem ne_row {dest : Name} (h : Site b operation specifications src1 src2 w row other base)
    (fresh : b.MemArray.findRow dest = none) (hne : dest ≠ b.zeroAddr) : dest ≠ row := by
  rintro rfl
  have hrow := h.row_eq
  split at hrow
  · exact hne hrow
  · rw [fresh] at hrow
    exact absurd hrow.2 (by decide)

end Site

namespace LiMBinder

/-- The effect of connecting the logic at its site. -/
structure Connected (b : LiMBinder) (src1 src2 : Name) (w : Way) (row other : Name) (base : LiMRow)
    (b' : LiMBinder) (feed : Feed) : Prop where
  /-- Only the row with the logic is changed. -/
  rows : ∀ n, b'.MemArray.findRow n =
    if n = row then some (base.connect other .OC) else b.MemArray.findRow n
  size : b'.MemArray.getDimensions = b.MemArray.getDimensions + if w = .copy then 1 else 0
  feeding : feed.effInForDestReg = row
  muxed : feed.isMuxRow = decide (w = .mux)
  /-- A copy row is written one time after the operands. -/
  times : if w = .copy then
      ∃ t, b.nextTime src1 src2 = some t ∧ feed.tCopy = some t ∧
        b'.FSMLim = b.FSMLim.addNewInstruction t row
    else feed.tCopy = none ∧ b'.FSMLim = b.FSMLim
  rest : b' = { b with
    zeroAddr := b.zeroAddr + if w = .copy then 4 else 0
    MemArray := b'.MemArray
    FSMLim := b'.FSMLim }

variable {b b' : LiMBinder} {operation : Operation} {specifications : List String}
  {src1 src2 row other : Name} {w : Way} {base : LiMRow} {feed : Feed}

theorem connectAt_connected (fresh : b.MemArray.findRow b.zeroAddr = none)
    (hs : Site b operation specifications src1 src2 w row other base)
    (h : b.connectAt operation specifications src1 src2 (w, row, other) = some (b', feed)) :
    Connected b src1 src2 w row other base b' feed := by
  cases hs with
  | @convert _ _ old operands found convertible =>
    simp only [connectAt, LiMArray.changeLiMRowType_of_findRow found, if_pos convertible,
      Option.bind_eq_bind, Option.bind_some] at h
    have hrow : (b.MemArray.setRow row (old.withLogic operation specifications)).findRow row =
        some (old.withLogic operation specifications) := by
      rw [LiMArray.findRow_setRow, if_pos rfl]
    obtain ⟨A', hA, hrows, hsize⟩ := LiMArray.findRow_addNewInputConnection hrow other .OC
    rw [hA] at h
    cases h
    refine ⟨?_, ?_, rfl, rfl, ⟨rfl, rfl⟩, rfl⟩
    · intro n
      rw [hrows, LiMArray.findRow_setRow]
      split
      · rfl
      · next hn => rw [if_neg (Ne.symm hn)]
    · rw [hsize, LiMArray.getDimensions_setRow found]
      rfl
  | mux operands found =>
    obtain ⟨A', hA, hrows, hsize⟩ := LiMArray.findRow_addNewInputConnection found other .OC
    simp only [connectAt, hA, Option.bind_eq_bind, Option.bind_some] at h
    cases h
    exact ⟨hrows, hsize, rfl, rfl, ⟨rfl, rfl⟩, rfl⟩
  | copy =>
    simp only [connectAt, copyRow, getNewName, Option.bind_eq_bind] at h
    have hrow : (b.MemArray.addNewLiMRow b.zeroAddr operation specifications b.par src1 .OC).findRow
        b.zeroAddr = some ⟨operation, b.par, [src1], [.OC], specifications⟩ := by
      rw [LiMArray.addNewLiMRow, LiMArray.findRow_insertRow_of_none fresh, if_pos rfl]
    obtain ⟨A', hA, hrows, hsize⟩ := LiMArray.findRow_addNewInputConnection hrow src2 .OC
    rw [hA, Option.bind_some] at h
    obtain ⟨t, ht, h⟩ := Option.bind_eq_some_iff.mp h
    cases h
    refine ⟨?_, ?_, rfl, rfl, ⟨t, ht, rfl, rfl⟩, rfl⟩
    · intro n
      rw [hrows, LiMArray.addNewLiMRow, LiMArray.findRow_insertRow_of_none fresh]
      split <;> rfl
    · rw [hsize, LiMArray.addNewLiMRow, LiMArray.getDimensions_insertRow fresh]
      rfl

/-- The connection is defined at every site of two rows that have a time. -/
theorem connectAt_isSome (hs : Site b operation specifications src1 src2 w row other base)
    (ht : (b.nextTime src1 src2).isSome) (fresh : b.MemArray.findRow b.zeroAddr = none) :
    (b.connectAt operation specifications src1 src2 (w, row, other)).isSome := by
  cases hs with
  | @convert _ _ old operands found convertible =>
    have hrow : (b.MemArray.setRow row (old.withLogic operation specifications)).findRow row =
        some (old.withLogic operation specifications) := by
      rw [LiMArray.findRow_setRow, if_pos rfl]
    obtain ⟨A', hA, -⟩ := LiMArray.findRow_addNewInputConnection hrow other .OC
    simp [connectAt, LiMArray.changeLiMRowType_of_findRow found, convertible, hA]
  | mux operands found =>
    obtain ⟨A', hA, -⟩ := LiMArray.findRow_addNewInputConnection found other .OC
    simp [connectAt, hA]
  | copy =>
    have hrow : (b.MemArray.addNewLiMRow b.zeroAddr operation specifications b.par src1 .OC).findRow
        b.zeroAddr = some ⟨operation, b.par, [src1], [.OC], specifications⟩ := by
      rw [LiMArray.addNewLiMRow, LiMArray.findRow_insertRow_of_none fresh, if_pos rfl]
    obtain ⟨A', hA, -⟩ := LiMArray.findRow_addNewInputConnection hrow src2 .OC
    obtain ⟨t, ht⟩ := Option.isSome_iff_exists.mp ht
    have ht : ({ b with zeroAddr := b.zeroAddr + 4 } : LiMBinder).nextTime src1 src2 = some t := ht
    simp only [connectAt, copyRow, getNewName, Option.bind_eq_bind, hA, Option.bind_some, ht]
    rfl

/-! ### A mapping and its result row -/

/-- The times of a mapping: the result row is written at `t`, or one time later when a mux or a copy
row comes before it. -/
def scheduleDest (F : FiniteStateMachine) (w : Way) (row dest : Name) (t : ℤ) : FiniteStateMachine :=
  match w with
  | .convert => F.addNewInstruction t dest
  | .mux => (F.addNewInstruction (t + 1) dest).insertSelectionSignal [t - 1, t + 1 - 1] row
  | .copy => (F.addNewInstruction t row).addNewInstruction (t + 1) dest

end LiMBinder

/-- **The effect of a mapping** on the array and on the times: the row with the logic is connected
to the other operand, and the result row is added. -/
structure Realizes (b : LiMBinder) (operation : Operation) (specifications : List String)
    (src1 src2 dest : Name) (w : Way) (row other : Name) (base : LiMRow) (t : ℤ) (A : LiMArray)
    (F : FiniteStateMachine) : Prop where
  site : Site b operation specifications src1 src2 w row other base
  /-- One time after both operands. -/
  time : b.nextTime src1 src2 = some t
  rows : ∀ n, A.findRow n =
    if n = dest then some (resultRow b.par row)
    else if n = row then some (base.connect other .OC)
    else b.MemArray.findRow n
  size : A.getDimensions = b.MemArray.getDimensions + if w = .copy then 2 else 1
  /-- The names of the result row and of a copy row are new. -/
  fresh : b.MemArray.findRow dest = none
  freshZero : b.MemArray.findRow b.zeroAddr = none
  ne_row : dest ≠ row
  times : F = LiMBinder.scheduleDest b.FSMLim w row dest t

namespace LiMBinder

variable {b b₁ b' : LiMBinder} {operation : Operation} {specifications : List String}
  {src1 src2 dest row other : Name} {w : Way} {base : LiMRow} {feed : Feed}

/-- The result row of a connection. -/
theorem Connected.realizes {F : FiniteStateMachine}
    (hs : Site b operation specifications src1 src2 w row other base)
    (hc : Connected b src1 src2 w row other base b₁ feed)
    (fresh : b.MemArray.findRow dest = none) (freshZero : b.MemArray.findRow b.zeroAddr = none)
    (hdest : dest ≠ row) (hF : b₁.insertDest src1 src2 dest feed = some F) :
    ∃ t, Realizes b operation specifications src1 src2 dest w row other base t
      (b₁.MemArray.addNewResultRow dest b.par feed.effInForDestReg .OLiM) F := by
  have hfresh : b₁.MemArray.findRow dest = none := by rw [hc.rows, if_neg hdest, fresh]
  have hrows : ∀ n, (b₁.MemArray.addNewResultRow dest b.par feed.effInForDestReg .OLiM).findRow n =
      if n = dest then some (resultRow b.par row)
      else if n = row then some (base.connect other .OC)
      else b.MemArray.findRow n := by
    intro n
    rw [LiMArray.addNewResultRow, LiMArray.findRow_insertRow_of_none hfresh, hc.rows, hc.feeding]
    rfl
  have hsize : (b₁.MemArray.addNewResultRow dest b.par feed.effInForDestReg .OLiM).getDimensions =
      b.MemArray.getDimensions + if w = .copy then 2 else 1 := by
    rw [LiMArray.addNewResultRow, LiMArray.getDimensions_insertRow hfresh, hc.size]
    split <;> omega
  have hmux := hc.muxed
  have htimes := hc.times
  cases w with
  | copy =>
    rw [if_pos rfl] at htimes
    obtain ⟨t, ht, htc, hfsm⟩ := htimes
    rw [insertDest, htc] at hF
    cases hF
    exact ⟨t, hs, ht, hrows, hsize, fresh, freshZero, hdest, by rw [hfsm]; rfl⟩
  | convert | mux =>
    rw [if_neg (by decide)] at htimes
    rw [insertDest, htimes.1] at hF
    obtain ⟨t, ht, hF⟩ := Option.bind_eq_some_iff.mp hF
    rw [nextTime, htimes.2] at ht
    rw [hmux, htimes.2, hc.feeding] at hF
    refine ⟨t, hs, ht, hrows, hsize, fresh, freshZero, hdest, ?_⟩
    simpa [scheduleDest] using hF.symm

/-- The times of a mapping are defined when those of its operands are. -/
theorem Connected.insertDest_isSome (hc : Connected b src1 src2 w row other base b₁ feed)
    (ht : (b.nextTime src1 src2).isSome) (dest : Name) :
    (b₁.insertDest src1 src2 dest feed).isSome := by
  have htimes := hc.times
  split at htimes
  · obtain ⟨t, -, htc, -⟩ := htimes
    rw [insertDest, htc]
    rfl
  · obtain ⟨t, ht⟩ := Option.isSome_iff_exists.mp ht
    have ht : b₁.nextTime src1 src2 = some t := by
      rw [nextTime, htimes.2]
      exact ht
    rw [insertDest, htimes.1]
    simp only [Option.bind_eq_bind, ht, Option.bind_some]
    split <;> rfl

/-- **A mapping** of `performBinding` realises the operation at the site the code chooses, and
records the result row as the destination of the operands that have none. -/
theorem mapOperation_realizes (fresh : b.MemArray.findRow dest = none)
    (freshZero : b.MemArray.findRow b.zeroAddr = none) (hne : dest ≠ b.zeroAddr)
    (h : b.mapOperation operation specifications src1 src2 dest = some b') :
    ∃ w row other base t, b.site true operation src1 src2 = some (w, row, other) ∧
      Realizes b operation specifications src1 src2 dest w row other base t b'.MemArray b'.FSMLim ∧
      b' = { b with
        zeroAddr := b.zeroAddr + if w = .copy then 4 else 0
        lastDestMap := (b.lastDestMap.insertIfNew src1 dest).insertIfNew src2 dest
        MemArray := b'.MemArray
        FSMLim := b'.FSMLim } := by
  rw [mapOperation, connectSources_eq] at h
  obtain ⟨⟨b₁, feed⟩, h₁, h⟩ := Option.bind_eq_some_iff.mp h
  obtain ⟨⟨w, row, other⟩, hsite, h₁⟩ := Option.bind_eq_some_iff.mp h₁
  obtain ⟨F, hF, h⟩ := Option.bind_eq_some_iff.mp h
  obtain ⟨base, hs⟩ := Site.of_site specifications hsite
  have hc := connectAt_connected freshZero hs h₁
  obtain ⟨t, hr⟩ := hc.realizes hs fresh freshZero (hs.ne_row fresh hne) hF
  have hpar : b₁.par = b.par := by rw [hc.rest]
  have hlast : b₁.lastDestMap = b.lastDestMap := by rw [hc.rest]
  cases h
  refine ⟨w, row, other, base, t, hsite, ?_, ?_⟩
  · rw [← hpar] at hr
    exact hr
  · rw [hc.rest]

/-- A mapping is defined on rows that have a time. -/
theorem mapOperation_isSome (operation : Operation) (specifications : List String) (dest : Name)
    (freshZero : b.MemArray.findRow b.zeroAddr = none)
    (h1 : (b.MemArray.findRow src1).isSome) (h2 : (b.MemArray.findRow src2).isSome)
    (ht : (b.nextTime src1 src2).isSome) :
    (b.mapOperation operation specifications src1 src2 dest).isSome := by
  obtain ⟨⟨w, row, other⟩, hsite⟩ := Option.isSome_iff_exists.mp (site_isSome true operation h1 h2)
  obtain ⟨base, hs⟩ := Site.of_site specifications hsite
  obtain ⟨⟨b₁, feed⟩, h₁⟩ := Option.isSome_iff_exists.mp (connectAt_isSome hs ht freshZero)
  have hc := connectAt_connected freshZero hs h₁
  obtain ⟨F, hF⟩ := Option.isSome_iff_exists.mp (hc.insertDest_isSome ht dest)
  rw [mapOperation, connectSources_eq, hsite, Option.bind_some, h₁]
  simp only [Option.bind_eq_bind, Option.bind_some, hF]
  rfl

/-- **A pair of an accumulation** realises the operation at its site; its result row takes the next
name, and goes to `addMap` unless it has a copy row. -/
theorem bindPair_realizes {row1 row2 tmpName : Name}
    (freshZero : b.MemArray.findRow b.zeroAddr = none)
    (freshNext : b.MemArray.findRow (b.zeroAddr + 4) = none)
    (h : b.bindPair operation specifications row1 row2 = some (b', tmpName)) :
    ∃ w row other base t, b.site false operation row1 row2 = some (w, row, other) ∧
      tmpName = b.zeroAddr + (if w = .copy then 4 else 0) ∧
      Realizes b operation specifications row1 row2 tmpName w row other base t b'.MemArray b'.FSMLim ∧
      b' = { b with
        zeroAddr := tmpName + 4
        addMap := if w = .copy then b.addMap else b.addMap.insertIfNew tmpName [row1, row2]
        MemArray := b'.MemArray
        FSMLim := b'.FSMLim } := by
  rw [bindPair, connectPair_eq] at h
  obtain ⟨⟨b₁, feed⟩, h₁, h⟩ := Option.bind_eq_some_iff.mp h
  obtain ⟨⟨w, row, other⟩, hsite, h₁⟩ := Option.bind_eq_some_iff.mp h₁
  obtain ⟨F, hF, h⟩ := Option.bind_eq_some_iff.mp h
  obtain ⟨base, hs⟩ := Site.of_site specifications hsite
  have hc := connectAt_connected freshZero hs h₁
  have hF : b₁.insertDest row1 row2 b₁.zeroAddr feed = some F := hF
  have hzero : b₁.zeroAddr = b.zeroAddr + if w = .copy then 4 else 0 := by rw [hc.rest]
  have hfresh : b.MemArray.findRow b₁.zeroAddr = none := by
    rw [hzero]
    split <;> assumption
  have hne : b₁.zeroAddr ≠ row := by
    have hrow := hs.row_eq
    split at hrow
    · next hw => simp [hzero, hrow, hw]
    · rintro rfl
      rw [hfresh] at hrow
      exact absurd hrow.2 (by decide)
  obtain ⟨t, hr⟩ := hc.realizes hs hfresh freshZero hne hF
  have hpar : b₁.par = b.par := by rw [hc.rest]
  have htimes := hc.times
  have hcopy : feed.tCopy.isNone = decide (w ≠ .copy) := by
    split at htimes
    · next hw =>
      obtain ⟨t, -, htc, -⟩ := htimes
      simp [htc, hw]
    · next hw => simp [htimes.1, hw]
  cases h
  refine ⟨w, row, other, base, t, hsite, hzero, ?_, ?_⟩
  · rw [← hpar] at hr
    exact hr
  · rw [hcopy, hc.rest]
    by_cases hw : w = .copy <;> simp [hw]

/-- A pair is bound when its rows have a time. -/
theorem bindPair_isSome {row1 row2 : Name} (operation : Operation) (specifications : List String)
    (freshZero : b.MemArray.findRow b.zeroAddr = none)
    (h1 : (b.MemArray.findRow row1).isSome) (h2 : (b.MemArray.findRow row2).isSome)
    (ht : (b.nextTime row1 row2).isSome) :
    (b.bindPair operation specifications row1 row2).isSome := by
  obtain ⟨⟨w, row, other⟩, hsite⟩ := Option.isSome_iff_exists.mp (site_isSome false operation h1 h2)
  obtain ⟨base, hs⟩ := Site.of_site specifications hsite
  obtain ⟨⟨b₁, feed⟩, h₁⟩ := Option.isSome_iff_exists.mp (connectAt_isSome hs ht freshZero)
  have hc := connectAt_connected freshZero hs h₁
  obtain ⟨F, hF⟩ := Option.isSome_iff_exists.mp (hc.insertDest_isSome ht b₁.zeroAddr)
  have hF : (b₁.getNewName.2).insertDest row1 row2 b₁.getNewName.1 feed = some F := hF
  rw [bindPair, connectPair_eq, hsite, Option.bind_some, h₁]
  simp only [Option.bind_eq_bind, Option.bind_some, hF]
  rfl

/-- **The outcomes of the binding of one element.** -/
theorem performBinding_cases {destReg : Reg} {junk : Indeterminate}
    (h : b.performBinding operation specifications destReg src1 src2 dest junk = some b') :
    (∃ d, b.commonDest src1 src2 = some d ∧ b.feedingType d = some operation ∧
      b' = (b.addNewItemInRefPos destReg dest d).adjustName) ∨
    (∃ d op, b.commonDest src1 src2 = some d ∧ b.feedingType d = some op ∧ op ≠ operation ∧ b' = b) ∨
    (b.commonDest src1 src2 = none ∧ operation.isShift = true ∧
      b.mapShift operation specifications src1 src2 dest junk = some b') ∨
    (b.commonDest src1 src2 = none ∧ operation.isShift = false ∧
      b.mapOperation operation specifications src1 src2 dest = some b') := by
  unfold performBinding at h
  cases hd : b.commonDest src1 src2 with
  | some d =>
    rw [hd] at h
    obtain ⟨op, hop, h⟩ := Option.bind_eq_some_iff.mp h
    split at h
    · next heq =>
      cases h
      exact .inl ⟨d, rfl, heq ▸ hop, rfl⟩
    · next hne =>
      cases h
      exact .inr (.inl ⟨d, op, rfl, hop, hne, rfl⟩)
  | none =>
    simp only [hd] at h
    split at h
    · next hs => exact .inr (.inr (.inl ⟨rfl, hs, h⟩))
    · next hs => exact .inr (.inr (.inr ⟨rfl, by simpa using hs, h⟩))

end LiMBinder

end Octantis
