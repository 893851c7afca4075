import Octantis.Utils.InstructionTable

/-!
# The information collected

The instructions of LLVM that the detector handles, and what it asks `CollectInfo`,
which has parsed the function before it: the register that an address belongs to,
whether it is an array, whether a block is the body of a loop, and whether an
instruction is to be scheduled.

## The model

An LLVM value is its address. An operand is a constant integer, with the value that
`getSExtValue` gives, or another value. `CollectInfo` is the maps and lists that
the queries read; how the parsing of the function fills them is not modelled here.
-/

namespace Octantis

open Std

/-- An operand of an instruction. -/
inductive Operand where
  /-- A `ConstantInt`, with its `getSExtValue`. -/
  | constantInt (address : Reg) (sExtValue : ℤ)
  /-- Another value: the result of an instruction, an argument. -/
  | value (address : Reg)
  deriving DecidableEq, Repr

/-- The address, which the passes take for a register. -/
def Operand.address : Operand → Reg
  | .constantInt address _ => address
  | .value address => address

/-- The opcodes of the binary operators. -/
inductive Opcode where
  | add | sub | mul | sdiv | shl | lshr | ashr | and | or | xor
  /-- An opcode that the detector does not recognise, such as `SRem`. -/
  | unrecognised
  deriving DecidableEq, Repr

/-- `and`, `or` or `xor`. -/
def Opcode.isLogic (opcode : Opcode) : Bool := opcode = .and || opcode = .or || opcode = .xor

/-- An instruction of LLVM, with the address of its result. -/
inductive Instruction where
  /-- A `BinaryOperator`. -/
  | binaryOperator (result : Reg) (opcode : Opcode) (operand0 operand1 : Operand)
  /-- A `LoadInst`. -/
  | load (result : Reg) (pointer : Reg)
  /-- A `StoreInst`. -/
  | store (operand0 : Operand) (pointer : Reg)
  /-- A `SExtInst`. -/
  | sExt (result : Reg)
  /-- A `GetElementPtrInst`. -/
  | getElementPtr (result : Reg)
  /-- A `BranchInst`. -/
  | branch
  /-- Another instruction. -/
  | other (result : Reg)
  deriving DecidableEq, Repr

/-- A basic block. -/
structure BasicBlock where
  /-- Its address. -/
  address : Reg
  /-- Its instructions. -/
  instructions : List Instruction

/-- `pointerInfoStruct`, with the field that the detector reads. -/
structure PointerInfo where
  /-- The number of subsets in the pointer array. -/
  numberOfSubsets : ℤ

/-- `CollectInfo`, after the function has been parsed. -/
structure CollectInfo where
  /-- The addresses that stand for an allocated register. -/
  aliasInfoMap : ExtTreeMap Reg (List Reg)
  /-- The rows and columns of the arrays. -/
  arraysInfoMap : ExtTreeMap Reg (List ℤ)
  /-- The bodies of the loops. -/
  loopBodyList : List Reg
  /-- The registers of the loop iterators, with their last alias. -/
  iteratorsAliasMap : ExtTreeMap Reg Reg
  /-- The operators that combine iterators. -/
  combinedIterators : List Reg
  /-- The pointer info table. -/
  PIT : ExtTreeMap Reg PointerInfo

namespace CollectInfo

variable (info : CollectInfo)

/-- `isLoopBody`. -/
def isLoopBody (BB : Reg) : Bool := info.loopBodyList.contains BB

/-- `isArray`. -/
def isArray (operand : Reg) : Bool := info.arraysInfoMap.contains operand

/-- `getAllocatedReg`: the first register that is the address or has it as an alias. -/
def getAllocatedReg (op : Reg) : Reg :=
  ((info.aliasInfoMap.toList.find? fun entry => entry.1 = op || entry.2.contains op).map (·.1)).getD nullptr

/-- `isValidInst`: what concerns iterators is not scheduled. -/
def isValidInst : Instruction → Bool
  | .store _ pointer => !info.iteratorsAliasMap.contains pointer
  | .load _ pointer => !info.iteratorsAliasMap.contains pointer
  | .binaryOperator result opcode _ _ =>
    !((opcode = .add || opcode = .sub) && info.combinedIterators.contains result)
  | .sExt _ | .getElementPtr _ | .branch => false
  | .other _ => true

end CollectInfo

end Octantis
