import Octantis.CodeGeneration.PrintDexFile
import Octantis.Binding.FiniteStateMachine

/-!
# The instructions of the configuration file

`printInstructions` makes an instruction of every time but 0: its name, the cells that take power,
and the paths through them, one after another.

## The model

A line is the cells it is about (`CellUse`), with the bits that its `range` covers, the last one
included; the sections are the lists of the lines, the path section cut at each `break`. The same
names stand in the code section. `cells` are those that `printLiM` declares for a row, beside its
memory cells.

Where the code uses an iterator that is the end of its map, the model stops.
-/

namespace Octantis

open Std

namespace PrintDexFile

/-- `par` -/
def par : ℤ := 32

/-- The bits of a line. -/
inductive Bits where
  /-- `range(0,1,par-1)` -/
  | all
  /-- `range(0,1,par-2)` -/
  | carry
  /-- The last bit, `par-1`. -/
  | last
  /-- Bit 0. -/
  | first
  /-- The bits of a loop of the code. -/
  | below (n : ℕ)
  deriving DecidableEq, Repr

/-- What happens to the cells of a line. -/
inductive Access where
  | none | read | write | contamination
  deriving DecidableEq, Repr

/-- A line about the cells `name(rowIndex,bits)`. -/
structure CellUse where
  name : String
  rowIndex : ℕ
  bits : Bits
  access : Access
  deriving DecidableEq, Repr

/-- The power and the path section. -/
structure Sections where
  power : List CellUse
  path : List (List CellUse)
  deriving DecidableEq, Repr

/-! ### The cells of a row -/

/-- The cells that `printMIXED` declares. -/
def cellsMIXED (operators : List String) : List (String × Bits) :=
  operators.map (·, .below 31) ++ [("Mux", .below 31)]

/-- The cells that are declared for a row, beside the memory cells. -/
def cells (row : LiMRow) : List (String × Bits) :=
  let isMux := decide (2 < row.inputConnections.length)
  match LimOperations row.rowType with
  | some .bitwise =>
    if isMux then [(row.rowType.text, .below 32), ("Mux", .below 32)]
    else if row.rowType = .switch then cellsMIXED row.additionalLogic
    else [(row.rowType.text, .all)]
  | some .arith =>
    if isMux then [("Fa", .carry), ("Ha", .last), ("Mux", .all)]
    else [("Fa", .carry), ("Ha", .last)]
  | some .null | none => []

/-! ### The sections of one row -/

/-- `printBITWISEPowerPath` -/
def printBITWISEPowerPath (namesMap : NamesMap) (cellIndexWrite : ℕ) (nameRow nameSrc : Name) : Except Stop Sections := do
  let inside ← getNameAndIndexOfSourceRow namesMap nameRow
  let outside ← getNameAndIndexOfSourceRow namesMap nameSrc
  return {
    power := [
      ⟨"Memory", inside.rowIndex, .all, .read⟩,
      ⟨"Memory", outside.rowIndex, .all, .read⟩,
      ⟨inside.name, inside.rowIndex, .all, .none⟩,
      ⟨"Memory", cellIndexWrite, .all, .write⟩]
    path := [inside.rowIndex, outside.rowIndex].map fun cellIndex => [
      ⟨"Memory", cellIndex, .first, .read⟩,
      ⟨inside.name, inside.rowIndex, .first, .none⟩,
      ⟨"Memory", cellIndexWrite, .first, .write⟩] }

/-- `printBITWISEMux2to1PowerPath` -/
def printBITWISEMux2to1PowerPath (namesMap : NamesMap) (cellIndexWrite : ℕ) (nameRow nameSrc1 nameSrc2 : Name) :
    Except Stop Sections := do
  let inside ← getNameAndIndexOfSourceRow namesMap nameRow
  let outside1 ← getNameAndIndexOfSourceRow namesMap nameSrc1
  let outside2 ← getNameAndIndexOfSourceRow namesMap nameSrc2
  return {
    power := [
      ⟨"Memory", inside.rowIndex, .all, .read⟩,
      ⟨"Memory", outside1.rowIndex, .all, .read⟩,
      ⟨"Memory", outside2.rowIndex, .all, .read⟩,
      ⟨inside.name, inside.rowIndex, .all, .none⟩,
      ⟨"Mux", inside.rowIndex, .all, .none⟩,
      ⟨"Memory", cellIndexWrite, .all, .write⟩]
    path := [
        ⟨"Memory", inside.rowIndex, .first, .read⟩,
        ⟨inside.name, inside.rowIndex, .first, .none⟩,
        ⟨"Memory", cellIndexWrite, .first, .write⟩] ::
      [outside1.rowIndex, outside2.rowIndex].map fun cellIndex => [
        ⟨"Memory", cellIndex, .first, .read⟩,
        ⟨"Mux", inside.rowIndex, .first, .none⟩,
        ⟨inside.name, inside.rowIndex, .first, .none⟩,
        ⟨"Memory", cellIndexWrite, .first, .write⟩] }

/-- `printADDPowerPath` -/
def printADDPowerPath (namesMap : NamesMap) (cellIndexWrite : ℕ) (nameRow nameSrc : Name) : Except Stop Sections := do
  let inside ← getNameAndIndexOfSourceRow namesMap nameRow
  let outside ← getNameAndIndexOfSourceRow namesMap nameSrc
  return {
    power := [
      ⟨"Memory", inside.rowIndex, .all, .read⟩,
      ⟨"Memory", outside.rowIndex, .all, .read⟩,
      ⟨"Fa", inside.rowIndex, .carry, .none⟩,
      ⟨"Ha", inside.rowIndex, .last, .none⟩,
      ⟨"Memory", cellIndexWrite, .all, .write⟩]
    path := [inside.rowIndex, outside.rowIndex].map fun cellIndex => [
      ⟨"Memory", cellIndex, .first, .read⟩,
      ⟨"Fa", inside.rowIndex, .carry, .contamination⟩,
      ⟨"Ha", inside.rowIndex, .last, .none⟩,
      ⟨"Memory", cellIndexWrite, .first, .write⟩] }

/-- `printADDMux2to1PowerPath` -/
def printADDMux2to1PowerPath (namesMap : NamesMap) (cellIndexWrite : ℕ) (nameRow nameSrc1 nameSrc2 : Name) :
    Except Stop Sections := do
  let inside ← getNameAndIndexOfSourceRow namesMap nameRow
  let outside1 ← getNameAndIndexOfSourceRow namesMap nameSrc1
  let outside2 ← getNameAndIndexOfSourceRow namesMap nameSrc2
  return {
    power := [
      ⟨"Memory", inside.rowIndex, .all, .read⟩,
      ⟨"Memory", outside1.rowIndex, .all, .read⟩,
      ⟨"Memory", outside2.rowIndex, .all, .read⟩,
      ⟨"Fa", inside.rowIndex, .carry, .none⟩,
      ⟨"Ha", inside.rowIndex, .last, .none⟩,
      ⟨"Mux", inside.rowIndex, .all, .none⟩,
      ⟨"Memory", cellIndexWrite, .all, .write⟩]
    path := [
        ⟨"Memory", inside.rowIndex, .first, .read⟩,
        ⟨"Fa", inside.rowIndex, .carry, .contamination⟩,
        ⟨"Ha", inside.rowIndex, .last, .none⟩,
        ⟨"Memory", cellIndexWrite, .first, .write⟩] ::
      [outside1.rowIndex, outside2.rowIndex].map fun cellIndex => [
        ⟨"Memory", cellIndex, .first, .read⟩,
        ⟨"Mux", inside.rowIndex, .first, .none⟩,
        ⟨"Fa", inside.rowIndex, .carry, .contamination⟩,
        ⟨"Ha", inside.rowIndex, .last, .none⟩,
        ⟨"Memory", cellIndexWrite, .first, .write⟩] }

/-- The row at an iterator. -/
def found (row : Option LiMRow) : Except Stop LiMRow := row.elim (.error .noElement) .ok

/-- `printPowerPathSection`, once the row with the logic is there. -/
def printLogicPowerPath (namesMap : NamesMap) (cellIndexWrite : ℕ) (rowName : Name) (logic : LiMRow) : Except Stop Sections :=
  match LimOperations logic.rowType with
  | some .null => do
    let cell ← getNameAndIndexOfSourceRow namesMap rowName
    return {
      power := [⟨"Memory", cell.rowIndex, .all, .read⟩, ⟨"Memory", cellIndexWrite, .all, .write⟩]
      path := [[⟨"Memory", cell.rowIndex, .first, .read⟩, ⟨"Memory", cellIndexWrite, .first, .write⟩]] }
  | some .bitwise =>
    if 2 < logic.inputConnections.length then do
      let second ← element logic.inputConnections[1]?
      let last ← element logic.inputConnections.getLast?
      printBITWISEMux2to1PowerPath namesMap cellIndexWrite rowName second last
    else if logic.rowType = .switch then return ⟨[], [[]]⟩
    else do
      let second ← element logic.inputConnections[1]?
      printBITWISEPowerPath namesMap cellIndexWrite rowName second
  | some .arith =>
    if 2 < logic.inputConnections.length then do
      let second ← element logic.inputConnections[1]?
      let last ← element logic.inputConnections.getLast?
      printADDMux2to1PowerPath namesMap cellIndexWrite rowName second last
    else do
      let second ← element logic.inputConnections[1]?
      printADDPowerPath namesMap cellIndexWrite rowName second
  | none => .error .noElement

/-- `printPowerPathSection`, of row `rowName` with the memory input `source`. -/
def printPowerPathSection (namesMap : NamesMap) (A : LiMArray) (rowName source : Name) : Except Stop Sections := do
  let cell ← getNameAndIndexOfSourceRow namesMap rowName
  let logic ← found (A.findRow source)
  printLogicPowerPath namesMap cell.rowIndex source logic

/-! ### The instructions -/

/-- The sections of a row of a time: there are none where it has no memory input. -/
def rowSections (namesMap : NamesMap) (A : LiMArray) (rowName : Name) : Except Stop Sections := do
  let row ← found (A.findRow rowName)
  let source ← element row.inputConnections.head?
  if source ≠ noInput then printPowerPathSection namesMap A rowName source else return ⟨[], []⟩

/-- `powerPathSection`, of the rows of a time. -/
def powerPathSection (namesMap : NamesMap) (A : LiMArray) : List Name → Except Stop Sections
  | [] => return ⟨[], []⟩
  | rowName :: rows => do
    let sections ← rowSections namesMap A rowName
    let rest ← powerPathSection namesMap A rows
    return ⟨sections.power ++ rest.power, sections.path ++ rest.path⟩

/-- The loop over the rows of a time, after `i` of them. -/
def instrNameLoop (A : LiMArray) (time : ℤ) : List Name → ℕ → String → Except Stop String
  | [], _, instrName => return instrName
  | rowName :: rows, i, instrName => do
    let row ← found (A.findRow rowName)
    instrNameLoop A time rows (i + 1)
      ((if i ≠ 0 then instrName ++ "_" else instrName) ++ (row.rowType.text ++ toString time))

/-- The name of an instruction: the types of its rows, each with the time. -/
def instrName (A : LiMArray) (time : ℤ) (rows : List Name) : Except Stop String := instrNameLoop A time rows 0 ""

/-- An instruction. -/
structure DexInstruction where
  time : ℤ
  name : String
  sections : Sections
  deriving DecidableEq, Repr

/-- One time of the finite state machine. -/
def printInstruction (namesMap : NamesMap) (A : LiMArray) (entry : ℤ × List Name) : Except Stop DexInstruction := do
  let name ← instrName A entry.1 entry.2
  let sections ← powerPathSection namesMap A entry.2
  return ⟨entry.1, name, sections⟩

/-- **`printInstructions`**: what happens at time 0 is made, and not printed. -/
def printInstructions (namesMap : NamesMap) (A : LiMArray) (F : FiniteStateMachine) : Except Stop (List DexInstruction) := do
  let instructions ← F.FSM.toList.mapM (printInstruction namesMap A)
  return instructions.filter (·.time ≠ 0)

end PrintDexFile

end Octantis
