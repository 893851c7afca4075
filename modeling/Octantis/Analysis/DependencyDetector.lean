import Octantis.Lib.Run
import Octantis.Analysis.CollectInfo

/-!
# The dependency detector

`DependencyDetector` goes over the loads, binary operators and stores of the blocks
to be scheduled and fills the instruction table: an entry for every register loaded
and for every operator, whose sources are the registers that the operands were last
computed in.

## The model

The members of the class are the fields of `DependencyDetector`; `isNegated`, a local
of `detectDependencies`, is one of them. `tmpAccumulationOp`,
`tmpLogicOperatorDestReg` and `tmpSrcReg2`, which no constructor sets, are `none`
until they are assigned. A step is one instruction, with the address of its block; it
is `none` where C++ leaves the outcome undefined: where the end of a map is
dereferenced, or where `tmpSrcReg2` is read before it is assigned.

The members that are written and never read (`backUpSrcReg1Type`, `isSrc1Constant`,
`tSrcReg1`, …) and the debug output are left out, and the counters do not overflow.
-/

namespace Octantis

open Std Lib

/-- The state of the detector. -/
structure DependencyDetector where
  /-- The instruction table. -/
  IM : InstructionTable
  /-- The register in which an allocated register was last computed. -/
  lastUsedRegMap : ExtTreeMap Reg Reg
  /-- The pointer of the last load. -/
  tmpAccumulationOp : Option Reg
  /-- The loads since the last store, and one more for an addition after the first of them. -/
  accumulationValidityCount : ℕ
  /-- The last complement. -/
  tmpLogicOperatorDestReg : Option Reg
  /-- The first source. -/
  srcReg1 : Reg
  /-- The second source. -/
  srcReg2 : Reg
  /-- The operand of the last complement made by an `and` or an `or`. -/
  tmpSrcReg2 : Option Reg
  /-- The last operator inserted. -/
  destReg : Reg
  /-- The first source is in an array. -/
  isSrc1Array : Bool
  /-- The second source is in an array. -/
  isSrc2Array : Bool
  /-- The type of the first source. -/
  srcReg1Type : OperandType
  /-- The type of the second source. -/
  srcReg2Type : OperandType
  /-- The type of the result. -/
  destRegType : OperandType
  /-- The pointer of the first source. -/
  tmpPtrSrc1 : Reg
  /-- The pointer of the second source. -/
  tmpPtrSrc2 : Reg
  /-- The pointer of the result. -/
  tmpPtrDest : Reg
  /-- The loads since the last store. -/
  loadCount : ℕ
  /-- The operation. -/
  operation : Operation
  /-- A complement is waiting for the operator that it belongs to. -/
  isNegated : Bool

namespace DependencyDetector

/-- The detector when `detectDependencies` starts. -/
def init : DependencyDetector :=
  { IM := .empty, lastUsedRegMap := ∅, tmpAccumulationOp := none, accumulationValidityCount := 0
    tmpLogicOperatorDestReg := none, srcReg1 := nullptr, srcReg2 := nullptr, tmpSrcReg2 := none
    destReg := nullptr, isSrc1Array := false, isSrc2Array := false, srcReg1Type := .undefined
    srcReg2Type := .undefined, destRegType := .undefined, tmpPtrSrc1 := nullptr, tmpPtrSrc2 := nullptr
    tmpPtrDest := nullptr, loadCount := 0, operation := .null, isNegated := false }

variable (info : CollectInfo) (s : DependencyDetector)

/-- The type that `setRegType` gives a source. -/
def regType (isArray : Bool) : OperandType := if isArray then .array else .singleVariable

/-- `getRealSrcReg`. -/
def getRealSrcReg (allocatedReg : Reg) : Reg := s.lastUsedRegMap[allocatedReg]?.getD allocatedReg

/-! ### The operators -/

/-- `Multi-operand`: the result of the last operator is put in the first source that is free. -/
def takeDestReg (reg : Reg) : DependencyDetector :=
  if s.srcReg1 = nullptr then
    { s with
      srcReg1 := reg, srcReg1Type := s.destRegType, tmpPtrSrc1 := s.tmpPtrDest
      srcReg2Type := regType s.isSrc2Array }
  else if s.srcReg2 = nullptr then
    { s with
      srcReg2 := reg, srcReg2Type := s.destRegType, tmpPtrSrc2 := s.tmpPtrDest
      srcReg1Type := regType s.isSrc1Array }
  else s

/-- `array` or `fakeArray`. -/
def isArrayType (type : OperandType) : Bool := type == .array || type == .fakeArray

/-- `singleVariable` or `constant`. -/
def isSingleType (type : OperandType) : Bool := type == .singleVariable || type == .constant

/-- The pointer of a multi-operand result: of two arrays, that of the one with fewer subsets. -/
def multiOperandPtr : Option DependencyDetector :=
  if s.tmpPtrSrc1 ≠ nullptr ∨ s.tmpPtrSrc2 ≠ nullptr then
    if isArrayType s.srcReg1Type && isSingleType s.srcReg2Type then
      some { s with tmpPtrDest := s.tmpPtrSrc1 }
    else if isSingleType s.srcReg1Type && isArrayType s.srcReg2Type then
      some { s with tmpPtrDest := s.tmpPtrSrc2 }
    else if isArrayType s.srcReg1Type && isArrayType s.srcReg2Type then
      info.PIT[s.tmpPtrSrc1]?.bind fun pisSrc1 => info.PIT[s.tmpPtrSrc2]?.map fun pisSrc2 =>
        { s with
          tmpPtrDest := if pisSrc2.numberOfSubsets > pisSrc1.numberOfSubsets then s.tmpPtrSrc1
            else s.tmpPtrSrc2 }
    else some s
  else some s

/-- The first source of a `Two-operand` instruction. -/
def takeOperand0 : Operand → DependencyDetector
  | .constantInt address _ => { s with srcReg1Type := .constant, srcReg1 := address }
  | .value _ => { s with srcReg1Type := regType s.isSrc1Array, tmpPtrDest := s.tmpPtrSrc1 }

/-- The second source of a `Two-operand` instruction. -/
def takeOperand1 : Operand → DependencyDetector
  | .constantInt address _ => { s with srcReg2Type := .constant, srcReg2 := address }
  | .value _ => { s with srcReg2Type := regType s.isSrc2Array, tmpPtrDest := s.tmpPtrSrc2 }

/-- The sources of an operator. -/
def takeOperands (operand0 operand1 : Operand) : Option DependencyDetector :=
  if operand0.address = s.destReg then (s.takeDestReg operand0.address).multiOperandPtr info
  else if operand1.address = s.destReg then (s.takeDestReg operand1.address).multiOperandPtr info
  else some ((s.takeOperand0 operand0).takeOperand1 operand1)

/-- The type of a result. -/
def resultType : OperandType :=
  if isArrayType s.srcReg1Type || isArrayType s.srcReg2Type then .fakeArray else .singleVariable

/-- The entry of an operator whose sources have been taken. -/
def entry (result : Reg) (isInLoopBody : Bool) : InstructionData :=
  { ti := 0, di := 0, operation := s.operation, specifications := [], destinationReg := result
    destRegType := s.resultType, destRegPrt := s.tmpPtrDest
    sourceReg1 := s.srcReg1, srcReg1Type := s.srcReg1Type, srcReg1Ptr := s.tmpPtrSrc1
    sourceReg2 := s.srcReg2, srcReg2Type := s.srcReg2Type, srcReg2Ptr := s.tmpPtrSrc2
    isInLoopBody := isInLoopBody }

/-- The insertion of an operator whose sources have been taken. -/
def insert (result : Reg) (isInLoopBody : Bool) : DependencyDetector :=
  { s with
    IM := s.IM.insertInstruction (s.entry result isInLoopBody)
    destRegType := s.resultType, destReg := result
    srcReg1 := nullptr, srcReg2 := nullptr, tmpPtrSrc1 := nullptr, tmpPtrSrc2 := nullptr
    isSrc1Array := false, isSrc2Array := false, srcReg1Type := .undefined, srcReg2Type := .undefined }

/-- `handleInstructionInserting`. -/
def handleInstructionInserting (isInLoopBody : Bool) (result : Reg) (operand0 operand1 : Operand) :
    Option DependencyDetector :=
  if s.operation ≠ .null ∧ s.operation ≠ .load then
    (s.takeOperands info operand0 operand1).map fun s => s.insert result isInLoopBody
  else some s

/-- An `and` or an `or`, whose complement is `negated`. -/
def recogniseLogic (operation negated : Operation) (result : Reg) (operand0 operand1 : Operand) :
    Option DependencyDetector :=
  let s := { s with operation := operation }
  match operand1 with
  | .constantInt _ sExtValue =>
    if sExtValue = -1 then
      some { s with
        isNegated := true, tmpLogicOperatorDestReg := some result, tmpSrcReg2 := some operand0.address }
    else some s
  | .value address =>
    if s.isNegated ∧ s.tmpLogicOperatorDestReg = some address then
      s.tmpSrcReg2.map fun reg => { s with srcReg2 := reg, operation := negated, isNegated := false }
    else some s

/-- An `xor`. -/
def recogniseXor (result : Reg) (operand1 : Operand) : DependencyDetector :=
  let s := { s with operation := .xor }
  match operand1 with
  | .constantInt _ sExtValue =>
    if sExtValue = -1 then { s with isNegated := true, tmpLogicOperatorDestReg := some result } else s
  | .value address =>
    if s.isNegated ∧ s.tmpLogicOperatorDestReg = some address then
      { s with operation := .xnor, isNegated := false }
    else s

/-- The operation of a binary operator. -/
def recogniseOperation (result : Reg) (opcode : Opcode) (operand0 operand1 : Operand) :
    Option DependencyDetector :=
  match opcode with
  | .add =>
    some { s with
      operation := .add
      accumulationValidityCount :=
        if s.accumulationValidityCount = 1 then 2 else s.accumulationValidityCount }
  | .sdiv => some { s with operation := .sdiv }
  | .mul => some { s with operation := .mul }
  | .shl => some { s with operation := .shl }
  | .lshr => some { s with operation := .lshr }
  | .ashr => some { s with operation := .ashr }
  | .sub => some { s with operation := .sub }
  | .xor => some (s.recogniseXor result operand1)
  | .and => s.recogniseLogic .and .nand result operand0 operand1
  | .or => s.recogniseLogic .or .nor result operand0 operand1
  | .unrecognised => some s

/-- A binary operator of `detectDependencies`. -/
def handleBinaryOperator (isInLoopBody : Bool) (result : Reg) (opcode : Opcode)
    (operand0 operand1 : Operand) : Option DependencyDetector :=
  (s.recogniseOperation result opcode operand0 operand1).bind fun s =>
    if s.isNegated then some s else s.handleInstructionInserting info isInLoopBody result operand0 operand1

/-! ### The loads -/

/-- The source of a load: the first one for every other load. -/
def takeLoad (pointer allocatedReg : Reg) : DependencyDetector :=
  if s.loadCount % 2 = 0 then
    { s with
      tmpPtrSrc1 := if info.isArray allocatedReg then pointer else s.tmpPtrSrc1
      isSrc1Array := info.isArray allocatedReg || s.isSrc1Array
      srcReg1 := s.getRealSrcReg allocatedReg }
  else
    { s with
      tmpPtrSrc2 := if info.isArray allocatedReg then pointer else s.tmpPtrSrc2
      isSrc2Array := info.isArray allocatedReg || s.isSrc2Array
      srcReg2 := s.getRealSrcReg allocatedReg }

/-- A load of `detectDependencies`. -/
def handleLoad (pointer : Reg) : DependencyDetector :=
  let allocatedReg := info.getAllocatedReg pointer
  { takeLoad info
      { s with
        operation := .load
        tmpAccumulationOp := some pointer
        accumulationValidityCount := s.accumulationValidityCount + 1
        IM := s.IM.insertLoadInstruction allocatedReg (regType (info.isArray allocatedReg)) }
      pointer allocatedReg with
    loadCount := s.loadCount + 1 }

/-! ### The stores -/

/-- The pointer and the type of the result that is stored. -/
def setStored (IM : InstructionTable) (reg : Reg) (isArray : Bool) (ptr : Reg) : InstructionTable :=
  (IM.modifyGivenField reg .destRegPtr (if isArray then ptr else nullptr) .undefined).modifyGivenField
    reg .destRegType nullptr (regType isArray)

/-- The entry of a store that follows two loads or more: an accumulation if the register stored to
is the last one loaded. -/
def storeOperation (storeDest : Reg) (isArray : Bool) : Option InstructionTable :=
  if s.accumulationValidityCount ≥ 2 ∧ s.tmpAccumulationOp = some storeDest then
    (s.IM.find s.destReg).bind fun d =>
      if d.isInLoopBody then
        let IM := s.IM.addSpecToInstruction s.destReg "accumulation"
        (if s.loadCount > 2 then IM.swapOperands s.destReg else some IM).map fun IM =>
          setStored IM s.destReg isArray s.tmpPtrDest
      else some s.IM
  else some (setStored s.IM s.destReg isArray s.tmpPtrDest)

/-- The entry of a store that follows a load alone: the entry of the register that was loaded. -/
def storeCopy (operand0 : Operand) (isArray : Bool) : InstructionTable :=
  ((setStored s.IM s.srcReg1 isArray s.tmpPtrDest).modifyGivenField
    s.srcReg1 .srcReg2Type nullptr (regType isArray)).modifyGivenField
    s.srcReg1 .destReg operand0.address .undefined

/-- The entry that a store changes, and the register that it records. -/
def recordStore (operand0 : Operand) (storeDest : Reg) (isArray : Bool) : Option DependencyDetector :=
  if s.loadCount ≥ 2 then
    (s.storeOperation storeDest isArray).map fun IM => { s with IM := IM }
  else if s.loadCount = 1 then
    if s.operation = .load then
      some { s with destReg := operand0.address, IM := s.storeCopy operand0 isArray }
    else some { s with IM := setStored s.IM s.destReg isArray s.tmpPtrDest }
  else some s

/-- The pointer of the result of a store to an array. -/
def startStore (storeDest : Reg) (isArray : Bool) : DependencyDetector :=
  { s with tmpPtrDest := if isArray then storeDest else s.tmpPtrDest }

/-- The end of a store: the register is recorded, and the temporary variables are reset. -/
def endStore (allocatedReg : Reg) : DependencyDetector :=
  { s with
    lastUsedRegMap := s.lastUsedRegMap.insert allocatedReg s.destReg
    accumulationValidityCount := 0, loadCount := 0, srcReg1 := nullptr, srcReg2 := nullptr
    destReg := nullptr, tmpPtrSrc1 := nullptr, tmpPtrSrc2 := nullptr, tmpPtrDest := nullptr
    operation := .null, srcReg1Type := .undefined, srcReg2Type := .undefined, destRegType := .undefined
    isSrc1Array := false, isSrc2Array := false }

/-- `handleStoreInstruction`. -/
def handleStoreInstruction (operand0 : Operand) (storeDest : Reg) : Option DependencyDetector :=
  let allocatedReg := info.getAllocatedReg storeDest
  let isArray := info.isArray allocatedReg
  let s := s.startStore storeDest isArray
  if s.operation = .null then some s
  else
    (s.recordStore operand0 storeDest isArray).map fun s =>
      s.endStore (if isArray then allocatedReg else storeDest)

/-! ### The detection -/

/-- One instruction, of the block `BB`. -/
def step (s : DependencyDetector) (I : Reg × Instruction) : Option DependencyDetector :=
  if info.isValidInst I.2 then
    match I.2 with
    | .binaryOperator result opcode operand0 operand1 =>
      s.handleBinaryOperator info (info.isLoopBody I.1) result opcode operand0 operand1
    | .load _ pointer => some (s.handleLoad info pointer)
    | .store operand0 pointer => s.handleStoreInstruction info operand0 pointer
    | _ => some s
  else some s

/-- The instructions of the blocks, with the addresses of the blocks. -/
def instructions (basicBlocks : List BasicBlock) : List (Reg × Instruction) :=
  basicBlocks.flatMap fun BB => BB.instructions.map fun I => (BB.address, I)

/-- `detectDependencies`, which is called once. -/
def detectDependencies (basicBlocksToSchedule : List BasicBlock) : Option DependencyDetector :=
  (run (step info) init (instructions basicBlocksToSchedule)).map fun s =>
    { s with IM := s.IM.reorderInstructionVector }

end DependencyDetector

end Octantis
