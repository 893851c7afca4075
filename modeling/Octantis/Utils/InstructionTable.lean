import Std.Data.ExtTreeMap
import Mathlib.Data.Int.Notation
import Octantis.Utils.OperationsImplemented

/-!
# The instruction table

`InstructionTable`: the instructions to be scheduled, each under the register that
holds its result, and the order in which they were found. The detector fills it,
the scheduler sets the times, the binder reads it.

## The model

A register is the address of an LLVM value, and `nullptr` the address that no value
has. `std::map` is `ExtTreeMap`; `map::insert` is `insertIfNew`: it does nothing
when the key is present. `none` is the dereference of an end iterator.

`insertDestPtr`, `insertInstructionWithSpecs`, `insertNewInstructionDestReg`,
`modifyLoadInstruction` and `changeOperationOfInstruction`, which nothing calls, and
the debug printer are left out.
-/

namespace Octantis

open Std

/-- The address of an LLVM value: a register of the instruction table. -/
abbrev Reg := ℕ

/-- The address of no value. -/
def nullptr : Reg := 0

/-- `InstructionTable::operandType`. -/
inductive OperandType where
  | singleVariable | temporaryVariable | array | constant | fakeArray | undefined
  deriving DecidableEq, Repr

/-- `instructionData`: a scheduled instruction. -/
structure InstructionData where
  /-- The time at which it starts. -/
  ti : ℤ
  /-- Its delay. -/
  di : ℤ
  /-- The operation. -/
  operation : Operation
  /-- The specifications, such as `"accumulation"`. -/
  specifications : List String
  /-- The register of the result. -/
  destinationReg : Reg
  /-- Its type. -/
  destRegType : OperandType
  /-- The pointer through which it is stored. -/
  destRegPrt : Reg
  /-- The first source. -/
  sourceReg1 : Reg
  /-- Its type. -/
  srcReg1Type : OperandType
  /-- The pointer through which it is loaded. -/
  srcReg1Ptr : Reg
  /-- The second source. -/
  sourceReg2 : Reg
  /-- Its type. -/
  srcReg2Type : OperandType
  /-- The pointer through which it is loaded. -/
  srcReg2Ptr : Reg
  /-- The instruction is in the body of a loop. -/
  isInLoopBody : Bool
  deriving DecidableEq, Repr

/-- The fields that `modifyGivenField` changes. -/
inductive InstructionField where
  | srcReg1 | srcReg1Ptr | srcReg2 | srcReg2Ptr | destReg | destRegPtr | destRegType | srcReg1Type
  | srcReg2Type
  deriving DecidableEq, Repr

/-- An instruction with one field changed: the registers and pointers to `newField`, the types to
`oT`. -/
def InstructionData.withField (d : InstructionData) (newField : Reg) (oT : OperandType) :
    InstructionField → InstructionData
  | .srcReg1 => { d with sourceReg1 := newField }
  | .srcReg1Ptr => { d with srcReg1Ptr := newField }
  | .srcReg2 => { d with sourceReg2 := newField }
  | .srcReg2Ptr => { d with srcReg2Ptr := newField }
  | .destReg => { d with destinationReg := newField }
  | .destRegPtr => { d with destRegPrt := newField }
  | .destRegType => { d with destRegType := oT }
  | .srcReg1Type => { d with srcReg1Type := oT }
  | .srcReg2Type => { d with srcReg2Type := oT }

/-- An instruction with its sources exchanged. The pointer of the result becomes that of the new
second source. -/
def InstructionData.swapped (d : InstructionData) : InstructionData :=
  { d with
    sourceReg1 := d.sourceReg2
    srcReg1Ptr := d.srcReg2Ptr
    srcReg1Type := d.srcReg2Type
    sourceReg2 := d.sourceReg1
    srcReg2Ptr := d.srcReg1Ptr
    srcReg2Type := d.srcReg1Type
    destRegPrt := d.srcReg1Ptr }

/-- The instruction of a load. -/
def InstructionData.ofLoad (destReg : Reg) (oT : OperandType) : InstructionData :=
  ⟨0, 0, .load, [], destReg, oT, nullptr, nullptr, .undefined, nullptr, nullptr, .undefined, nullptr, false⟩

/-- The instruction table. -/
structure InstructionTable where
  /-- The scheduled instructions, by register. -/
  instructionMap : ExtTreeMap Reg InstructionData
  /-- The registers with their operations, in the order found. -/
  instructionOrderVector : List (Reg × Operation)

namespace InstructionTable

/-- The default constructor. -/
def empty : InstructionTable := ⟨∅, []⟩

/-- `instructionMap.find`. -/
def find (T : InstructionTable) (reg : Reg) : Option InstructionData := T.instructionMap[reg]?

/-- `insertInstruction`: an instruction under the register of its result. -/
def insertInstruction (T : InstructionTable) (d : InstructionData) : InstructionTable :=
  { instructionMap := T.instructionMap.insertIfNew d.destinationReg d
    instructionOrderVector := T.instructionOrderVector ++ [(d.destinationReg, d.operation)] }

/-- `insertLoadInstruction`: the first load of a register. -/
def insertLoadInstruction (T : InstructionTable) (destReg : Reg) (oT : OperandType) : InstructionTable :=
  if destReg ∈ T.instructionMap then T else T.insertInstruction (.ofLoad destReg oT)

/-- A change of the instruction of a register, if there is one. -/
def modifyInstruction (T : InstructionTable) (reg : Reg) (f : InstructionData → InstructionData) :
    InstructionTable :=
  { T with instructionMap := T.instructionMap.modify reg f }

/-- `addSpecToInstruction`. -/
def addSpecToInstruction (T : InstructionTable) (destReg : Reg) (spec : String) : InstructionTable :=
  T.modifyInstruction destReg fun d => { d with specifications := d.specifications ++ [spec] }

/-- `modifyGivenField`. -/
def modifyGivenField (T : InstructionTable) (destReg : Reg) (field : InstructionField) (newField : Reg)
    (oT : OperandType) : InstructionTable :=
  T.modifyInstruction destReg fun d => d.withField newField oT field

/-- `swapOperands`, which dereferences the iterator it finds. -/
def swapOperands (T : InstructionTable) (destReg : Reg) : Option InstructionTable :=
  if destReg ∈ T.instructionMap then some (T.modifyInstruction destReg .swapped) else none

/-- `getAvailableTime`, which dereferences the iterator it finds. -/
def getAvailableTime (T : InstructionTable) (srcReg : Reg) : Option ℤ :=
  (T.find srcReg).map fun d => d.ti + d.di

/-- `setInstructionTimeAndDelay`. -/
def setInstructionTimeAndDelay (T : InstructionTable) (destReg : Reg) (time delay : ℤ) : InstructionTable :=
  T.modifyInstruction destReg fun d => { d with ti := time, di := delay }

/-- `reorderInstructionVector`: the loads first, then the others. -/
def reorderInstructionVector (T : InstructionTable) : InstructionTable :=
  { T with
    instructionOrderVector := T.instructionOrderVector.filter (·.2 = .load) ++
      T.instructionOrderVector.filter (·.2 ≠ .load) }

/-- The operation of an entry and its sources. -/
def recorded (T : InstructionTable) (reg : Reg) : Option (Operation × Reg × Reg) :=
  (T.find reg).map fun d => (d.operation, d.sourceReg1, d.sourceReg2)

/-! ### Lookups -/

variable (T : InstructionTable) (reg reg' : Reg) (d : InstructionData) (oT : OperandType)

@[simp] theorem find_empty : empty.find reg = none := by simp [empty, find]

theorem isSome_find : (T.find reg).isSome ↔ reg ∈ T.instructionMap := by
  rw [find, ← ExtTreeMap.mem_iff_isSome_getElem?]

theorem find_insertInstruction : (T.insertInstruction d).find reg =
    if reg = d.destinationReg ∧ T.find reg = none then some d else T.find reg := by
  simp only [find, insertInstruction, ExtTreeMap.getElem?_insertIfNew, ExtTreeMap.mem_iff_isSome_getElem?,
    Std.compare_eq_iff_eq]
  by_cases h : d.destinationReg = reg
  · simp [h]
  · simp [h, Ne.symm h]

theorem find_insertLoadInstruction : (T.insertLoadInstruction reg' oT).find reg =
    if reg = reg' ∧ T.find reg = none then some (.ofLoad reg' oT) else T.find reg := by
  unfold insertLoadInstruction
  split
  · next h =>
    rw [if_neg]
    rintro ⟨rfl, hnone⟩
    rw [← isSome_find, hnone] at h
    cases h
  · exact find_insertInstruction T reg (.ofLoad reg' oT)

theorem find_modifyInstruction (f : InstructionData → InstructionData) :
    (T.modifyInstruction reg' f).find reg = if reg = reg' then (T.find reg).map f else T.find reg := by
  simp only [find, modifyInstruction, ExtTreeMap.getElem?_modify, Std.compare_eq_iff_eq]
  by_cases h : reg' = reg
  · rw [if_pos h, if_pos h.symm, h]
  · rw [if_neg h, if_neg (Ne.symm h)]

theorem mem_insertInstruction :
    reg ∈ (T.insertInstruction d).instructionMap ↔ reg = d.destinationReg ∨ reg ∈ T.instructionMap := by
  rw [← isSome_find, ← isSome_find, find_insertInstruction]
  cases T.find reg <;> simp

theorem mem_insertLoadInstruction :
    reg ∈ (T.insertLoadInstruction reg' oT).instructionMap ↔ reg = reg' ∨ reg ∈ T.instructionMap := by
  rw [← isSome_find, ← isSome_find, find_insertLoadInstruction]
  cases T.find reg <;> simp

@[simp] theorem mem_modifyInstruction (f : InstructionData → InstructionData) :
    reg ∈ (T.modifyInstruction reg' f).instructionMap ↔ reg ∈ T.instructionMap := by
  rw [← isSome_find, ← isSome_find, find_modifyInstruction]
  split <;> simp

@[simp] theorem mem_modifyGivenField (field : InstructionField) (newField : Reg) :
    reg ∈ (T.modifyGivenField reg' field newField oT).instructionMap ↔ reg ∈ T.instructionMap :=
  mem_modifyInstruction T reg reg' _

theorem swapOperands_eq_some {T' : InstructionTable} (h : T.swapOperands reg = some T') :
    reg ∈ T.instructionMap ∧ T' = T.modifyInstruction reg .swapped := by
  obtain ⟨hmem, h⟩ := Option.ite_none_right_eq_some.mp h
  exact ⟨hmem, (Option.some.inj h).symm⟩

theorem recorded_eq_none : T.recorded reg = none ↔ T.find reg = none := Option.map_eq_none_iff

/-- A change that keeps the operation and the sources. -/
theorem recorded_modifyInstruction {f : InstructionData → InstructionData}
    (h : ∀ d, ((f d).operation, (f d).sourceReg1, (f d).sourceReg2) =
      (d.operation, d.sourceReg1, d.sourceReg2)) :
    (T.modifyInstruction reg' f).recorded reg = T.recorded reg := by
  rw [recorded, recorded, find_modifyInstruction]
  split
  · rw [Option.map_map]
    exact congrArg (Option.map · (T.find reg)) (funext h)
  · rfl

theorem recorded_modifyGivenField {field : InstructionField} (h1 : field ≠ .srcReg1) (h2 : field ≠ .srcReg2)
    (newField : Reg) : (T.modifyGivenField reg' field newField oT).recorded reg = T.recorded reg := by
  refine recorded_modifyInstruction T reg reg' fun d => ?_
  cases field with
  | srcReg1 => exact absurd rfl h1
  | srcReg2 => exact absurd rfl h2
  | srcReg1Ptr | srcReg2Ptr | destReg | destRegPtr | destRegType | srcReg1Type | srcReg2Type => rfl

theorem recorded_swapped : (T.modifyInstruction reg' .swapped).recorded reg =
    if reg = reg' then (T.recorded reg).map fun r => (r.1, r.2.2, r.2.1) else T.recorded reg := by
  rw [recorded, recorded, find_modifyInstruction]
  split
  · rw [Option.map_map, Option.map_map]
    rfl
  · rfl

@[simp] theorem find_reorderInstructionVector : T.reorderInstructionVector.find reg = T.find reg := rfl

end InstructionTable

end Octantis
