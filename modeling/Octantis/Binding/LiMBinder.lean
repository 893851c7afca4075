import Octantis.Binding.FiniteStateMachine
import Octantis.Utils.InstructionTable

/-!
# The binder

The state of `LiMBinder` and the binding of one operation onto the LiM array
(`performBinding`): the reuse of a result already mapped, the conversion of a
memory row, the insertion of a 2-to-1 mux, the copy row, and the shifts.

## The model

The registers that `arrayNamesMap` is keyed by are addresses of LLVM values. The
member variables that hold the instruction at hand (`operation`, `src1`, `dest`,
…) are arguments. `none` is an `llvm_unreachable` or an operation that C++ leaves
undefined: `front()` of an empty list, the dereference of an end iterator, the
conversion of `log2` of a constant that is not positive.

The shift path reads the member `constant`, which nothing assigns, and the locals
`tCopy` and `effAddrDestReg`, which its branch leaves unset. What they hold is an
argument (`Indeterminate`), so a statement over every such argument is a
statement over whatever the program finds there.
-/

namespace Octantis

open Std

/-- What the variables that the shift path reads without setting hold. -/
structure Indeterminate where
  /-- The member `constant`. -/
  constant : ℤ
  /-- The local `tCopy`. -/
  tCopy : ℤ
  /-- The local `effAddrDestReg`. -/
  effAddrDestReg : Name

/-- The state of the binder. -/
structure LiMBinder where
  /-- The parallelism. -/
  par : ℤ
  /-- The optimisation target. -/
  optTarget : String
  /-- The next row name. -/
  zeroAddr : Name
  /-- The rows of each register. -/
  arrayNamesMap : ExtTreeMap Reg (List Name)
  /-- The result rows of the accumulations, with the two rows they add. -/
  addMap : ExtTreeMap Name (List Name)
  /-- The first result row bound with each operand row. -/
  lastDestMap : ExtTreeMap Name Name
  /-- The LiM array. -/
  MemArray : LiMArray
  /-- The finite state machine. -/
  FSMLim : FiniteStateMachine

/-- How an operation is bound: the row that computes it, and what came of it. -/
structure Feed where
  /-- The effective input of the destination row. -/
  effInForDestReg : Name
  /-- A connection was made through a mux. -/
  isMuxRow : Bool
  /-- The time of the copy row, when one was generated. -/
  tCopy : Option ℤ

namespace LiMBinder

/-- The binder before the first instruction. -/
def init (par : ℤ) (optTarget : String) : LiMBinder :=
  ⟨par, optTarget, 0, ∅, ∅, ∅, .empty, .empty⟩

/-- A new row name: `zeroAddr++`, an `int *`. -/
def getNewName (b : LiMBinder) : Name × LiMBinder := (b.zeroAddr, { b with zeroAddr := b.zeroAddr + 4 })

/-- `zeroAddr--`. -/
def adjustName (b : LiMBinder) : LiMBinder := { b with zeroAddr := b.zeroAddr - 4 }

/-- Append a row to the rows of a register. -/
def addNewItem (b : LiMBinder) (origSrc : Reg) (genName : Name) : LiMBinder :=
  { b with
    arrayNamesMap :=
      match b.arrayNamesMap[origSrc]? with
      | some names => b.arrayNamesMap.insert origSrc (names ++ [genName])
      | none => b.arrayNamesMap.insertIfNew origSrc [genName] }

/-- Insert a row before the first occurrence of `dest` among the rows of a register, and remove
every `dest`. -/
def addNewItemInRefPos (b : LiMBinder) (origSrc : Reg) (dest genName : Name) : LiMBinder :=
  match b.arrayNamesMap[origSrc]? with
  | some names =>
    { b with
      arrayNamesMap := b.arrayNamesMap.insert origSrc
        ((names.takeWhile (· ≠ dest) ++ genName :: names.dropWhile (· ≠ dest)).filter (· ≠ dest)) }
  | none => b

/-- The rows of a register; a register with none is an `llvm_unreachable`. -/
def findInANM (b : LiMBinder) (srcReg : Reg) : Option (List Name) := b.arrayNamesMap[srcReg]?

/-- `(t1 > t2) ? (t1 + 1) : (t2 + 1)`, for the times of two rows. -/
def nextTime (b : LiMBinder) (src1 src2 : Name) : Option ℤ := do
  let t1 ← b.FSMLim.getTime src1
  let t2 ← b.FSMLim.getTime src2
  return if t1 > t2 then t1 + 1 else t2 + 1

/-- The row type of the row whose output is given in input to row `d`. -/
def feedingType (b : LiMBinder) (d : Name) : Option Operation := do
  let row ← b.MemArray.findRow d
  let effInDest ← row.inputConnections.head?
  let effRow ← b.MemArray.findRow effInDest
  return effRow.rowType

/-- The row that both operands last went to, when there is one. -/
def commonDest (b : LiMBinder) (src1 src2 : Name) : Option Name :=
  match b.lastDestMap[src1]?, b.lastDestMap[src2]? with
  | some d1, some d2 => if d1 = d2 then some d1 else none
  | _, _ => none

/-- Generate a copy row: a new LiM row with the first source as memory input and the second as
logic input, one time after both. -/
def copyRow (b : LiMBinder) (operation : Operation) (specifications : List String)
    (src1 src2 : Name) : Option (LiMBinder × Feed) := do
  let (copy, b) := b.getNewName
  let array := b.MemArray.addNewLiMRow copy operation specifications b.par src1 .OC
  let array ← array.addNewInputConnection copy src2 .OC
  let tCopy ← b.nextTime src1 src2
  return ({ b with MemArray := array, FSMLim := b.FSMLim.addNewInstruction tCopy copy },
    ⟨copy, false, some tCopy⟩)

/-- The logic of the operation: the type of `src2` or of `src1` is changed, or an input is added
to the one that has the type already, or a copy row is generated. -/
def connectSources (b : LiMBinder) (operation : Operation) (specifications : List String)
    (src1 src2 : Name) : Option (LiMBinder × Feed) := do
  let (array, changed) ← b.MemArray.changeLiMRowType src2 operation specifications
  if changed then
    let array ← array.addNewInputConnection src2 src1 .OC
    return ({ b with MemArray := array }, ⟨src2, false, none⟩)
  else
    let (array, changed) ← b.MemArray.changeLiMRowType src1 operation specifications
    if changed then
      let array ← array.addNewInputConnection src1 src2 .OC
      return ({ b with MemArray := array }, ⟨src1, false, none⟩)
    else
      let row2 ← b.MemArray.findRow src2
      if (← b.MemArray.isLiMRowOfThisType src2 operation) ∧ row2.inputConnections.length < 3 then
        let array ← b.MemArray.addNewInputConnection src2 src1 .OC
        return ({ b with MemArray := array }, ⟨src2, true, none⟩)
      else
        let row1 ← b.MemArray.findRow src1
        if (← b.MemArray.isLiMRowOfThisType src1 operation) ∧ row1.inputConnections.length < 3 then
          let array ← b.MemArray.addNewInputConnection src1 src2 .OC
          return ({ b with MemArray := array }, ⟨src1, true, none⟩)
        else
          b.copyRow operation specifications src1 src2

/-- The time of the destination row, and the control signals of the mux. -/
def insertDest (b : LiMBinder) (src1 src2 dest : Name) (feed : Feed) : Option FiniteStateMachine :=
  match feed.tCopy with
  | none => do
    let t ← b.nextTime src1 src2
    if feed.isMuxRow then
      let tMux := t + 1
      return (b.FSMLim.addNewInstruction tMux dest).insertSelectionSignal [t - 1, tMux - 1]
        feed.effInForDestReg
    else
      return b.FSMLim.addNewInstruction t dest
  | some tCopy => some (b.FSMLim.addNewInstruction (tCopy + 1) dest)

/-- Map an operation that is not a shift: connect its sources and add the result row. -/
def mapOperation (b : LiMBinder) (operation : Operation) (specifications : List String)
    (src1 src2 dest : Name) : Option LiMBinder := do
  let (b, feed) ← b.connectSources operation specifications src1 src2
  let fsm ← b.insertDest src1 src2 dest feed
  return { b with
    MemArray := b.MemArray.addNewResultRow dest b.par feed.effInForDestReg .OLiM
    FSMLim := fsm
    lastDestMap := (b.lastDestMap.insertIfNew src1 dest).insertIfNew src2 dest }

/-- `floor(log2(constant))`. -/
def floorLog2 (constant : ℤ) : Option ℤ := if 0 < constant then some constant.toNat.log2 else none

/-- `for (i = tSrc1 + 1; i <= tSrc1 + realConstant + 1; ++i)`: the shifting row at every time but
the last, the destination at the last. -/
def insertShift (F : FiniteStateMachine) (tSrc1 realConstant : ℤ) (effInForDestReg effAddrDestReg : Name) :
    FiniteStateMachine :=
  ((List.range realConstant.toNat).foldl
    (fun F (i : ℕ) => F.addNewInstruction (tSrc1 + 1 + i) effInForDestReg) F).addNewInstruction
    (tSrc1 + realConstant + 1) effAddrDestReg

/-- Map a shift. -/
def mapShift (b : LiMBinder) (operation : Operation) (specifications : List String)
    (src1 src2 dest : Name) (junk : Indeterminate) : Option LiMBinder := do
  if ← b.MemArray.isLiMRowOfThisType src1 .load then
    let (array, _) ← b.MemArray.changeLiMRowType src1 operation [toString junk.constant]
    let array := array.addNewResultRow dest b.par src1 .OC
    let realConstant ← floorLog2 junk.constant
    let tSrc1 ← b.FSMLim.getTime src1
    return { b with MemArray := array, FSMLim := insertShift b.FSMLim tSrc1 realConstant src1 dest }
  else
    let (effInForDestReg, b) := b.getNewName
    let array := b.MemArray.addNewLiMRow effInForDestReg operation specifications b.par src1 .OC
    let array ← array.addNewInputConnection effInForDestReg src2 .OC
    let realConstant ← floorLog2 junk.constant
    return { b with
      MemArray := array
      FSMLim := insertShift b.FSMLim junk.tCopy realConstant effInForDestReg junk.effAddrDestReg }

/-- **The binding of one operation** onto the LiM array, with `dest` the name given to its result
in `destReg`. -/
def performBinding (b : LiMBinder) (operation : Operation) (specifications : List String)
    (destReg : Reg) (src1 src2 dest : Name) (junk : Indeterminate) : Option LiMBinder :=
  match b.commonDest src1 src2 with
  | some d => do
    let op ← b.feedingType d
    if op = operation then
      -- the two operands already generated `d` with this operation
      return (b.addNewItemInRefPos destReg dest d).adjustName
    else
      return b
  | none =>
    if operation.isShift then b.mapShift operation specifications src1 src2 dest junk
    else b.mapOperation operation specifications src1 src2 dest

end LiMBinder

end Octantis
