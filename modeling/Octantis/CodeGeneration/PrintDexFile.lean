import Mathlib.Data.List.Infix
import Octantis.Binding.LiMArray

/-!
# The rows of the configuration file of DExIMA

`printLiM` goes over the rows in the order of their names, prints the cells of each and
enters the row in `namesMap`; the rows that a row reads are looked up there.

## The model

The functions return the map; the texts that they print are left out, and with them
`getOutPinName`. A name is an address, so row 0 is `nullptr`. `Stop` is an
`llvm_unreachable`, or the use of an element that a list does not have.
-/

namespace Octantis

open Std

/-- The text of an operation. -/
def Operation.text : Operation → String
  | .null => "null"
  | .load => "load"
  | .add => "add"
  | .sub => "sub"
  | .shl => "shl"
  | .shr => "shr"
  | .lshr => "lshr"
  | .ashr => "ashr"
  | .sdiv => "sdiv"
  | .mul => "mul"
  | .and => "and"
  | .nand => "nand"
  | .or => "or"
  | .nor => "nor"
  | .xnor => "xnor"
  | .xor => "xor"
  | .switch => "switch"

/-- `nullptr`, as a row. -/
def nullRow : Name := 0

namespace PrintDexFile

/-- An entry of `namesMap`. -/
structure NameAndIndex where
  name : String
  rowIndex : ℕ
  deriving DecidableEq, Repr

/-- `namesMap`. -/
abbrev NamesMap := ExtTreeMap Name NameAndIndex

/-- Where the printing stops. -/
inductive Stop where
  /-- "Reference to namesMap NOT VALID." -/
  | notValid
  /-- "unknown compiled operation." -/
  | unknownOperation
  /-- "the mux of the LiM row is not properly defined!" -/
  | muxNotDefined
  /-- A list has no such element. -/
  | noElement
  deriving DecidableEq, Repr

/-- `insertNamesMap`. -/
def insertNamesMap (namesMap : NamesMap) (rowName : Name) (cellName : String) (cellRow : ℕ) : NamesMap :=
  namesMap.insertIfNew rowName ⟨cellName, cellRow⟩

/-- `getNameAndIndexOfSourceRow`. -/
def getNameAndIndexOfSourceRow (namesMap : NamesMap) (sourceRow : Name) : Except Stop NameAndIndex :=
  match namesMap[sourceRow]? with
  | some source =>
    .ok { source with name := if "Mux".toList <:+: source.name.toList then "Mux" else source.name }
  | none => .error .notValid

/-- `addDataRow`: the row is entered before its source is looked up. -/
def addDataRow (namesMap : NamesMap) (currentRow : ℕ) (nameRow nameSrc : Name) : Except Stop NamesMap :=
  let namesMap := insertNamesMap namesMap nameRow "Memory" currentRow
  if nameSrc ≠ nullRow then do
    let _source ← getNameAndIndexOfSourceRow namesMap nameSrc
    return namesMap
  else return namesMap

/-- A row with logic and one other input: the source is looked up and the row is entered. -/
def printCells (namesMap : NamesMap) (cellName : String) (currentRow : ℕ) (nameRow nameSrc : Name) :
    Except Stop NamesMap := do
  let _source ← getNameAndIndexOfSourceRow namesMap nameSrc
  return insertNamesMap namesMap nameRow cellName currentRow

/-- A row with logic and a mux for two other inputs. -/
def printCellsMux2to1 (namesMap : NamesMap) (cellName : String) (currentRow : ℕ)
    (nameRow nameSrc1 nameSrc2 : Name) : Except Stop NamesMap := do
  let _source1 ← getNameAndIndexOfSourceRow namesMap nameSrc1
  let _source2 ← getNameAndIndexOfSourceRow namesMap nameSrc2
  return insertNamesMap namesMap nameRow cellName currentRow

/-- `printBITWISE` -/
def printBITWISE (namesMap : NamesMap) (bitwiseOp : String) (currentRow : ℕ) (nameRow nameSrc : Name) :
    Except Stop NamesMap :=
  printCells namesMap bitwiseOp currentRow nameRow nameSrc

/-- `printBITWISEMux2to1` -/
def printBITWISEMux2to1 (namesMap : NamesMap) (bitwiseOp : String) (currentRow : ℕ)
    (nameRow nameSrc1 nameSrc2 : Name) : Except Stop NamesMap :=
  printCellsMux2to1 namesMap (bitwiseOp ++ "Mux") currentRow nameRow nameSrc1 nameSrc2

/-- `printADD` -/
def printADD (namesMap : NamesMap) (currentRow : ℕ) (nameRow nameSrc : Name) : Except Stop NamesMap :=
  printCells namesMap "Add" currentRow nameRow nameSrc

/-- `printADDMux2to1` -/
def printADDMux2to1 (namesMap : NamesMap) (currentRow : ℕ) (nameRow nameSrc1 nameSrc2 : Name) :
    Except Stop NamesMap :=
  printCellsMux2to1 namesMap "AddMux" currentRow nameRow nameSrc1 nameSrc2

/-- `printMIXED`: the number of operators is to be a power of two. -/
def printMIXED (namesMap : NamesMap) (currentRow : ℕ) (nameRow nameSrc : Name) (operators : List String) :
    Except Stop NamesMap :=
  if operators.length &&& (operators.length - 1) ≠ 0 then .error .muxNotDefined
  else printCells namesMap ("Mux_" ++ "_".intercalate operators) currentRow nameRow nameSrc

/-- An element of a list that the code takes to be there. -/
def element (connection : Option Name) : Except Stop Name := connection.elim (.error .noElement) .ok

/-- `identifyLIMRowAndPrint` -/
def identifyLIMRowAndPrint (namesMap : NamesMap) (currentRow : ℕ) (rowName : Name) (row : LiMRow) :
    Except Stop NamesMap := do
  let isMux := decide (2 < row.inputConnections.length)
  match LimOperations row.rowType with
  | some .null =>
    let source ← element row.inputConnections.head?
    if source = noInput then addDataRow namesMap currentRow rowName nullRow
    else addDataRow namesMap currentRow rowName source
  | some .bitwise =>
    let source ← element row.inputConnections[1]?
    if isMux then
      let last ← element row.inputConnections.getLast?
      printBITWISEMux2to1 namesMap row.rowType.text currentRow rowName source last
    else if row.rowType = .switch then printMIXED namesMap currentRow rowName source row.additionalLogic
    else printBITWISE namesMap row.rowType.text currentRow rowName source
  | some .arith =>
    let source ← element row.inputConnections[1]?
    if isMux then
      let last ← element row.inputConnections.getLast?
      printADDMux2to1 namesMap currentRow rowName source last
    else printADD namesMap currentRow rowName source
  | none => .error .unknownOperation

/-- The loop of `printLiM`, from a row on. -/
def printRows : List (Name × LiMRow) → ℕ → NamesMap → Except Stop NamesMap
  | [], _, namesMap => return namesMap
  | (rowName, row) :: rows, currentRow, namesMap => do
    let namesMap ← identifyLIMRowAndPrint namesMap currentRow rowName row
    printRows rows (currentRow + 1) namesMap

/-- **`printLiM`**. -/
def printLiM (A : LiMArray) : Except Stop NamesMap := printRows A.limArray.toList 0 ∅

/-- Where the printing of an array stops. -/
def stopOf (A : LiMArray) : Option Stop :=
  match printLiM A with
  | .error stop => some stop
  | .ok _ => none

theorem stopOf_eq_some_iff {A : LiMArray} {stop : Stop} :
    stopOf A = some stop ↔ printLiM A = .error stop := by
  unfold stopOf
  cases printLiM A <;> simp

theorem stopOf_eq_none_iff {A : LiMArray} : stopOf A = none ↔ ∃ namesMap, printLiM A = .ok namesMap := by
  unfold stopOf
  cases printLiM A <;> simp

end PrintDexFile

end Octantis
