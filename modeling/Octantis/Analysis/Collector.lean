import Octantis.Analysis.ArraySizes
import Octantis.Analysis.PointerInfo

/-!
# The collector

How `CollectInfo` fills its maps while it parses a function: `collectLoopInfo` goes over
the loops, the preheader, the latch and the header of each, and `parseLoopBody` over the
instructions of a block.

## The model

`Instr` is an instruction with the operands that the collector reads. The fields of a
`loopInfoStruct` that nothing has set are `none`, and so is what the collector comes to
when it uses one of them, or the end of a map. `front()` of the empty list that stands for
the pointer into a row of a matrix is a parameter of `parseLoopBody`. What
`setPointerInfo` adds to the pointer entered is not part of it.
-/

namespace Octantis

open Std Lib

/-- An instruction, by the kind that `identifyInstr` returns. -/
inductive Instr where
  /-- A load of a register or through a pointer. -/
  | load (result pointer : Reg)
  /-- A store. -/
  | store (operand0 : Operand) (pointer : Reg)
  /-- A binary operator. -/
  | binary (result : Reg) (opcode : Opcode) (operand0 operand1 : Operand)
  /-- A comparison, with its predicate when it is one of the four that are counted with. -/
  | icmp (result : Reg) (predicate : Option Predicate) (operand0 operand1 : Operand)
  /-- A conditional branch, with its operand 2. -/
  | branch (operand2 : Reg)
  /-- A `GetElementPtrInst`, with its pointer operand and its operand 2. -/
  | ptr (result pointerOperand : Reg) (operand2 : Operand)
  /-- A sign extension. -/
  | sext (result : Reg) (operand0 : Operand)
  /-- Another instruction. -/
  | other
  deriving DecidableEq, Repr

/-- `loopInfoStruct`, with the fields that have been set. -/
structure LoopInfoStruct where
  /-- The block of the header. -/
  loopHeader : Reg
  /-- The block of the latch. -/
  loopLatch : Reg
  /-- The blocks of the body. -/
  loopBody : List Reg
  /-- The initial value of the iterator. -/
  iteratorInitValue : Option ℤ
  /-- Its final value. -/
  iteratorFinalValue : Option ℤ
  /-- Its increment. -/
  iteratorIncrement : Option ℤ
  /-- The number of iterations. -/
  iterations : Option ℤ
  /-- The alias of an iterator that the initial value refers to. -/
  variableInitValue : Option Reg
  /-- The iterator that the final value refers to. -/
  variableFinalValue : Option Reg
  /-- The initial value is a constant. -/
  isInitValueConstant : Option Bool
  /-- The final value is a constant. -/
  isFinalValueConstant : Option Bool
  deriving DecidableEq, Repr

/-- A basic block. -/
structure Block where
  /-- Its address. -/
  address : Reg
  /-- Its instructions. -/
  instrs : List Instr
  deriving DecidableEq, Repr

/-- A loop of the function. -/
structure Loop where
  /-- Its address. -/
  address : Reg
  /-- The instructions of its preheader. -/
  preheader : List Instr
  /-- Its header. -/
  header : Block
  /-- Its latch. -/
  latch : Block
  /-- `getSinglePredecessor` of the latch. -/
  latchPredecessor : Reg
  /-- The loops around it, the next one first. -/
  parents : List Reg
  deriving DecidableEq, Repr

/-- The members of `CollectInfo` while it parses the function. -/
structure Collector extends CollectInfo where
  /-- The first constant stored to a register. -/
  initValuesMap : ExtTreeMap Reg ℤ
  /-- `tmpVariableInitIterator`. -/
  tmpVariableInitIterator : Option Reg
  /-- The iterators of the loops. -/
  loopIteratorMap : ExtTreeMap Reg Reg
  /-- The loops around the loop of an iterator. -/
  nestedLoopMap : ExtTreeMap Reg (List Reg)
  /-- The info of the loop of an iterator. -/
  loopInfoMap : ExtTreeMap Reg LoopInfoStruct
  /-- The additions of iterators. -/
  combinedIteratorsMap : ExtTreeMap Reg IndexInfo
  /-- The index info in `tmpPointerStruct`. -/
  tmpPointerStruct : IndexInfo × IndexInfo
  /-- `ptrValid`. -/
  ptrValid : Bool
  /-- The index info of the pointers in the `PIT`. -/
  pointerInfoMap : ExtTreeMap Reg (IndexInfo × IndexInfo)

namespace Collector

/-- The members before the first loop: the allocated registers. -/
def start (allocas : List (Reg × AllocatedType)) : Collector :=
  { CollectInfo.parseAllocaInstructions ⟨∅, ∅, [], ∅, [], ∅⟩ allocas with
    initValuesMap := ∅
    tmpVariableInitIterator := none
    loopIteratorMap := ∅
    nestedLoopMap := ∅
    loopInfoMap := ∅
    combinedIteratorsMap := ∅
    tmpPointerStruct := (.empty, .empty)
    ptrValid := false
    pointerInfoMap := ∅ }

/-! ### The loops -/

/-- The iterator that an address is the alias of: the last one found. -/
def aliased (iteratorsAliasMap : ExtTreeMap Reg Reg) (address : Reg) : Option Reg :=
  (iteratorsAliasMap.toList.reverse.find? fun entry => entry.2 = address).map (·.1)

/-- A load of an iterator makes an alias of it. -/
def renewAlias (iteratorsAliasMap : ExtTreeMap Reg Reg) (pointer result : Reg) : ExtTreeMap Reg Reg :=
  iteratorsAliasMap.modify pointer fun _ => result

/-- An instruction of `parseLoopPreheader`. -/
def preheaderStep (c : Collector) : Instr → Collector
  | .store (.constantInt _ value) pointer => { c with initValuesMap := c.initValuesMap.insertIfNew pointer value }
  | .store (.value address) _ =>
    if (aliased c.iteratorsAliasMap address).isSome then { c with tmpVariableInitIterator := some address } else c
  | .load result pointer => { c with iteratorsAliasMap := renewAlias c.iteratorsAliasMap pointer result }
  | _ => c

/-- `parseLoopPreheader`. -/
def parseLoopPreheader (c : Collector) (preheader : List Instr) : Collector := preheader.foldl preheaderStep c

/-- The increment that the latch gives: the constant of the last addition. -/
def latchIncrement (increment : Option ℤ) : List Instr → Option (Option ℤ)
  | [] => some increment
  | .binary _ .add _ (.constantInt _ value) :: rest => latchIncrement (some value) rest
  | .binary _ .add _ (.value _) :: _ => none
  | _ :: rest => latchIncrement increment rest

/-- The iterations counted for a constant final value, which are not set for another predicate when
the increment divides the difference. -/
def countIterations (predicate : Option Predicate) (initValue finalValue increment : ℤ) : Option (Option ℤ) :=
  match predicate with
  | some predicate => (ConstantLoop.iterations ⟨nullptr, initValue, finalValue, predicate, increment, nullptr, nullptr⟩).map some
  | none => do
    let difference ← CInt.sub finalValue initValue
    if increment = 0 then none
    else if difference % increment = 0 then some none
    else (CInt.add (difference.tdiv increment) 1).map some

/-- The members and the locals of `parseLoopHeaderAndLatch`. -/
structure Header where
  /-- The members. -/
  c : Collector
  /-- `loopInfo`. -/
  loopInfo : LoopInfoStruct
  /-- `it`. -/
  it : Option Reg

/-- A register loaded is taken for the iterator. -/
def Header.enter (h : Header) (result pointer : Reg) (initValue : ℤ) : Header :=
  { c := { h.c with
      iteratorsAliasMap := h.c.iteratorsAliasMap.insert pointer result
      aliasInfoMap := h.c.aliasInfoMap.erase pointer }
    loopInfo := { h.loopInfo with iteratorInitValue := some initValue, isInitValueConstant := some true }
    it := some pointer }

/-- A load of the header. An iterator that is new is taken for that of the loop, and with no
constant initial value it is read from the end of `initValuesMap`. -/
def headerLoad (h : Header) (result pointer : Reg) : Option Header :=
  match h.c.initValuesMap[pointer]?, h.c.iteratorsAliasMap[pointer]? with
  | some initValue, none => if pointer ∈ h.c.aliasInfoMap then some (h.enter result pointer initValue) else none
  | none, none => none
  | _, some _ => some { h with c := { h.c with iteratorsAliasMap := renewAlias h.c.iteratorsAliasMap pointer result } }

/-- The comparison of the header. -/
def headerIcmp (h : Header) (predicate : Option Predicate) : Operand → Option Header
  | .constantInt _ finalValue => do
    let initValue ← h.loopInfo.iteratorInitValue
    let increment ← h.loopInfo.iteratorIncrement
    let iterations ← countIterations predicate initValue finalValue increment
    return { h with loopInfo := { h.loopInfo with
      iteratorFinalValue := some finalValue, iterations, isFinalValueConstant := some true } }
  | .value address =>
    match aliased h.c.iteratorsAliasMap address with
    | some iterator =>
      some { h with loopInfo := { h.loopInfo with
        variableFinalValue := some iterator, isFinalValueConstant := some false } }
    | none => some h

/-- An instruction of the header. -/
def headerStep (latchPredecessor : Reg) (h : Header) : Instr → Option Header
  | .load result pointer => headerLoad h result pointer
  | .icmp _ predicate _ operand1 => headerIcmp h predicate operand1
  | .branch operand2 =>
    some { h with
      c := { h.c with loopBodyList := h.c.loopBodyList ++ [operand2, latchPredecessor] }
      loopInfo := { h.loopInfo with loopBody := h.loopInfo.loopBody ++ [operand2, latchPredecessor] } }
  | .store .. | .binary .. | .ptr .. | .sext .. | .other => none

/-- The info of a loop of which nothing has been parsed but the latch. -/
def latchInfo (LH LL : Block) (iteratorIncrement : Option ℤ) : LoopInfoStruct :=
  ⟨LH.address, LL.address, [], none, none, iteratorIncrement, none, none, none, none, none⟩

/-- `parseLoopHeaderAndLatch`, with the iterator that it returns. -/
def parseLoopHeaderAndLatch (c : Collector) (LH LL : Block) (latchPredecessor : Reg) : Option (Collector × Reg) := do
  let iteratorIncrement ← latchIncrement none LL.instrs
  let h ← LH.instrs.foldlM (headerStep latchPredecessor) ⟨c, latchInfo LH LL iteratorIncrement, none⟩
  let it ← h.it
  return ({ h.c with loopInfoMap := h.c.loopInfoMap.insertIfNew it h.loopInfo }, it)

/-- A loop of `collectLoopInfo`. -/
def collectLoop (c : Collector) (L : Loop) : Option Collector := do
  let (c, iteratorOp) ← (c.parseLoopPreheader L.preheader).parseLoopHeaderAndLatch L.header L.latch L.latchPredecessor
  let loopIteratorMap := c.loopIteratorMap.insertIfNew L.address iteratorOp
  let parentIts ← L.parents.mapM fun parent => loopIteratorMap[parent]?
  return { c with
    loopIteratorMap
    nestedLoopMap := (c.nestedLoopMap.insertIfNew iteratorOp []).modify iteratorOp (· ++ parentIts) }

/-- `collectLoopInfo`, on the loops in preorder. -/
def collectLoopInfo (c : Collector) (loops : List Loop) : Option Collector := loops.foldlM collectLoop c

/-- `getLoopInfo`. -/
def getLoopInfo (c : Collector) (iteratorOp : Reg) : Option LoopInfoStruct := c.loopInfoMap[iteratorOp]?

/-- `getLoopIteratorFromLoopBody`. -/
def getLoopIteratorFromLoopBody (c : Collector) (loopBody : Reg) : Option Reg :=
  (c.loopInfoMap.toList.find? fun entry => entry.2.loopBody.contains loopBody).map (·.1)

/-! ### The blocks -/

/-- A load of `parseLoopBody`. -/
def bodyLoad (c : Collector) (result pointer : Reg) : Collector :=
  match c.iteratorsAliasMap[pointer]? with
  | some _ => { c with iteratorsAliasMap := renewAlias c.iteratorsAliasMap pointer result }
  | none => { c with aliasInfoMap := c.aliasInfoMap.modify pointer (· ++ [result]) }

/-- The index info of an addition: of two iterators, or of an iterator and a constant. -/
def sumInfo (iteratorsAliasMap : ExtTreeMap Reg Reg) (op1 op2 : Operand) : Option IndexInfo :=
  let firstOpIt := aliased iteratorsAliasMap op1.address
  let secondOpIt := if op2.address = op1.address then none else aliased iteratorsAliasMap op2.address
  match firstOpIt, secondOpIt, op2 with
  | some first, some second, _ => some ⟨[first, second], 0, true⟩
  | some first, none, .constantInt _ value => some ⟨[first], value, true⟩
  | _, _, _ => none

/-- A binary operator of `parseLoopBody`. -/
def bodyBinary (c : Collector) (result : Reg) (opcode : Opcode) (op1 op2 : Operand) : Collector :=
  if opcode = .add then
    match sumInfo c.iteratorsAliasMap op1 op2 with
    | some idxInfo => { c with combinedIteratorsMap := c.combinedIteratorsMap.insertIfNew result idxInfo }
    | none => c
  else c

/-- The index info of operand 2 of a pointer, when it is recognised. -/
def operandInfo (c : Collector) (operand2 : Operand) : Option IndexInfo :=
  match c.combinedIteratorsMap[operand2.address]? with
  | some idxInfo => some idxInfo
  | none =>
    match operand2 with
    | .constantInt _ value => some ⟨[], value, false⟩
    | .value address => (aliased c.iteratorsAliasMap address).map fun it => ⟨[it], 0, false⟩

/-- The pointer is an alias of an allocated register. -/
def pushAlias (c : Collector) (register result : Reg) : Collector :=
  { c with aliasInfoMap := c.aliasInfoMap.modify register (· ++ [result]) }

/-- The index info of operand 2 goes to the second index when the array is a pointer into a row, and
to the first otherwise. When it is not recognised `tmpPointerStruct` stays as it is. -/
def takeIndex (c : Collector) (sizes : List ℤ) (operand2 : Operand) : Collector :=
  match c.operandInfo operand2 with
  | some idxInfo =>
    if sizes = [] then { c with tmpPointerStruct := (c.tmpPointerStruct.1, idxInfo), ptrValid := true }
    else { c with tmpPointerStruct := (idxInfo, c.tmpPointerStruct.2) }
  | none => c

/-- The pointer is entered in the `PIT`. -/
def enterPointer (c : Collector) (result : Reg) : Collector :=
  { c with pointerInfoMap := c.pointerInfoMap.insertIfNew result c.tmpPointerStruct }

/-- A pointer of `parseLoopBody`. `emptyFront` is what `front()` of an empty list is. -/
def bodyPtr (emptyFront : ℤ) (c : Collector) (result pointerOperand : Reg) (operand2 : Operand) : Collector :=
  match c.arraysInfoMap[pointerOperand]? with
  | none => c
  | some sizes =>
    let c := c.takeIndex sizes operand2
    if sizes.headD emptyFront = 1 then
      (({ c with tmpPointerStruct := (c.tmpPointerStruct.1, .empty) }).enterPointer result).pushAlias pointerOperand result
    else if c.ptrValid then
      (({ c with ptrValid := false }).enterPointer result).pushAlias (c.getAllocatedReg pointerOperand) result
    else ({ c with arraysInfoMap := c.arraysInfoMap.insertIfNew result [] }).pushAlias pointerOperand result

/-- A sign extension of `parseLoopBody`: its result takes the place of the addition, or of the
alias. -/
def bodySext (c : Collector) (result : Reg) (operand0 : Operand) : Collector :=
  match c.combinedIteratorsMap[operand0.address]? with
  | some idxInfo =>
    { c with
      combinedIterators := c.combinedIterators ++ [operand0.address]
      combinedIteratorsMap := (c.combinedIteratorsMap.erase operand0.address).insertIfNew result idxInfo }
  | none =>
    { c with iteratorsAliasMap := c.iteratorsAliasMap.map fun _ a => if a = operand0.address then result else a }

/-- An instruction of `parseLoopBody`. -/
def bodyStep (emptyFront : ℤ) (c : Collector) : Instr → Collector
  | .store (.constantInt _ value) pointer => { c with initValuesMap := c.initValuesMap.insertIfNew pointer value }
  | .load result pointer => c.bodyLoad result pointer
  | .binary result opcode op1 op2 => c.bodyBinary result opcode op1 op2
  | .ptr result pointerOperand operand2 => bodyPtr emptyFront c result pointerOperand operand2
  | .sext result operand0 => c.bodySext result operand0
  | .store (.value _) _ | .icmp .. | .branch .. | .other => c

/-- `parseLoopBody`. -/
def parseLoopBody (emptyFront : ℤ) (c : Collector) (BB : List Instr) : Collector := BB.foldl (bodyStep emptyFront) c

end Collector

end Octantis
