import Std.Data.ExtTreeMap
import Mathlib.Data.Int.Notation
import Octantis.Utils.OperationsImplemented

/-!
# The LiM array

The rows of the Logic-in-Memory array (`LiMArray`): a map from row names to rows,
each with its type, the row connected to its memory input (the head of
`inputConnections`) and the rows connected to its logic (the positions after the
head).

## The model

A row name is the `int *` label that the binder generates, kept as its address;
`noInput` is the label `0xDEF` of a cell with no memory input. `std::map` is
`ExtTreeMap`, ordered by key, and `map::insert` is `insertIfNew`: it does nothing
when the key is present. `findRow` of a missing row ends in `llvm_unreachable`,
which is `none` here and in every function that calls it.

The debug printers, `addLogicToRow` and `deleteLiMRow` (which nothing calls) and
the counters `numRows` and `nOutputs` are left out.
-/

namespace Octantis

open Std

/-- The name of a row: an `int *` label, as its address. -/
abbrev Name := ℕ

/-- `(int *) 0xdef`: a cell with no memory input. -/
def noInput : Name := 0xdef

/-- The type of a connection: `"none"`, `"OC"` (the memory cell of the source) or `"OLiM"` (the
output of its logic). -/
inductive ConnectionType where
  | none | OC | OLiM
  deriving DecidableEq, Repr

/-- A row of the LiM array. -/
structure LiMRow where
  /-- The type: `load` for a memory row, the operation of its logic otherwise. -/
  rowType : Operation
  /-- The parallelism. -/
  rowLength : ℤ
  /-- The memory input, then the logic inputs. -/
  inputConnections : List Name
  /-- The types of the connections. -/
  inputConnectionsType : List ConnectionType
  /-- Additional operators. -/
  additionalLogic : List String
  deriving DecidableEq, Repr

/-- The logic inputs of a row: the connections after the memory input. -/
def LiMRow.logicInputs (row : LiMRow) : List Name := row.inputConnections.tail

/-- The LiM array. -/
structure LiMArray where
  /-- The rows, by name. -/
  limArray : ExtTreeMap Name LiMRow

namespace LiMArray

/-- The array with no rows. -/
def empty : LiMArray := ⟨∅⟩

/-- Find a row; a missing one is an `llvm_unreachable`. -/
def findRow (A : LiMArray) (rowName : Name) : Option LiMRow := A.limArray[rowName]?

/-- `limArray.insert({rowName, row})`: nothing happens when the name is taken. -/
def insertRow (A : LiMArray) (rowName : Name) (row : LiMRow) : LiMArray :=
  ⟨A.limArray.insertIfNew rowName row⟩

/-- Overwrite a row through its iterator. -/
def setRow (A : LiMArray) (rowName : Name) (row : LiMRow) : LiMArray := ⟨A.limArray.insert rowName row⟩

/-- The number of rows. -/
def getDimensions (A : LiMArray) : ℕ := A.limArray.size

/-- Add a new memory row. -/
def addNewRow (A : LiMArray) (rowName : Name) (rowType : Operation) (rowLength : ℤ) : LiMArray :=
  A.insertRow rowName ⟨rowType, rowLength, [noInput], [.none], []⟩

/-- Add a new LiM row. -/
def addNewLiMRow (A : LiMArray) (rowName : Name) (rowType : Operation) (addLogic : List String)
    (rowLength : ℤ) (src : Name) (conType : ConnectionType) : LiMArray :=
  A.insertRow rowName ⟨rowType, rowLength, [src], [conType], addLogic⟩

/-- Add a new partial result row. -/
def addNewResultRow (A : LiMArray) (rowName : Name) (rowLength : ℤ) (src : Name)
    (conType : ConnectionType) : LiMArray :=
  A.insertRow rowName ⟨.load, rowLength, [src], [conType], []⟩

/-- A row is LiM when its type is not `load`. -/
def checkIfRowIsLiM (row : LiMRow) : Bool := row.rowType ≠ .load

/-- Change the type of a row, unless it is LiM already or an input line: the new array, and
whether the row was changed. -/
def changeLiMRowType (A : LiMArray) (rowName : Name) (newRowType : Operation)
    (additionalOperators : List String) : Option (LiMArray × Bool) := do
  let row ← A.findRow rowName
  if checkIfRowIsLiM row || row.additionalLogic.contains "input_line" then
    return (A, false)
  else
    return (A.setRow rowName
      { row with
        rowType := newRowType
        additionalLogic :=
          if additionalOperators.isEmpty then row.additionalLogic else additionalOperators }, true)

/-- Add a new input connection to a row, if the source is not in its list or the list has only the
memory input. -/
def addNewInputConnection (A : LiMArray) (rowName srcRowName : Name) (conType : ConnectionType) :
    Option LiMArray := do
  let row ← A.findRow rowName
  if row.inputConnections.length = 1 ∨ srcRowName ∉ row.inputConnections then
    return A.setRow rowName
      { row with
        inputConnections := row.inputConnections ++ [srcRowName]
        inputConnectionsType := row.inputConnectionsType ++ [conType] }
  else
    return A

/-- Whether a row has the type requested. -/
def isLiMRowOfThisType (A : LiMArray) (rowName : Name) (type : Operation) : Option Bool := do
  let row ← A.findRow rowName
  return row.rowType == type

/-! ### What the operations do to the rows -/

@[simp] theorem findRow_empty (n : Name) : empty.findRow n = none := by simp [findRow, empty]

theorem findRow_insertRow (A : LiMArray) (m n : Name) (row : LiMRow) :
    (A.insertRow m row).findRow n = if m = n ∧ A.findRow m = none then some row else A.findRow n := by
  unfold findRow insertRow
  rw [ExtTreeMap.getElem?_insertIfNew]
  simp only [Nat.compare_eq_eq, getElem?_eq_none_iff]

theorem findRow_setRow (A : LiMArray) (m n : Name) (row : LiMRow) :
    (A.setRow m row).findRow n = if m = n then some row else A.findRow n := by
  unfold findRow setRow
  rw [ExtTreeMap.getElem?_insert]
  simp only [Nat.compare_eq_eq]

end LiMArray

end Octantis
