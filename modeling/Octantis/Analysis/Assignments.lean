import Octantis.Analysis.DependencyDetector

/-!
# Assignments

Programs of assignments over scalar variables, and what the detector does with their
code: the loads fill the two source slots in turn, an operator takes them and empties
them, a store records the last result and makes the state ready for the next assignment.

## The model

`Expr` is an expression with the addresses of its LLVM values, `Expr.code` its code at
`-O0`. `IsScalar` is what the detector is promised: the variables are allocated registers
that are no arrays and no iterators, and the operators are recognised. `Clean` is the
state within an assignment of scalar code, `Ready` the state between two of them.

## What is proved

* `step_load`, `step_binaryOperator`, `step_store_op`, `step_store_copy`: the steps in scalar code;
* `exists_run_exprCode`: the code of an expression runs and does what `Evaluates` says;
* `run_assignment_const`, `run_assignment_var`: the assignments without an operator.
-/

namespace Octantis

open Std Lib

/-- An expression over scalar variables and integer constants, with the addresses of the LLVM values
that it is made of. -/
inductive Expr where
  /-- A constant. -/
  | const (address : Reg) (sExtValue : ℤ)
  /-- A variable, by its allocated register, and the load of it. -/
  | var (allocated result : Reg)
  /-- A binary operator. -/
  | op (result : Reg) (opcode : Opcode) (l r : Expr)
  deriving DecidableEq, Repr

namespace Expr

/-- The operand that the expression is of the operator above it. -/
def operand : Expr → Operand
  | const address sExtValue => .constantInt address sExtValue
  | var _ result => .value result
  | op result _ _ _ => .value result

/-- The code of an expression at `-O0`: the operands from left to right, then the operator. -/
def code : Expr → List Instruction
  | const _ _ => []
  | var allocated result => [.load result allocated]
  | op result opcode l r => l.code ++ r.code ++ [.binaryOperator result opcode l.operand r.operand]

/-- The number of loads. -/
def loads : Expr → ℕ
  | const _ _ => 0
  | var _ _ => 1
  | op _ _ l r => l.loads + r.loads

/-- The variable of the last load. -/
def lastVariable : Expr → Option Reg
  | const _ _ => none
  | var allocated _ => some allocated
  | op _ _ l r => r.lastVariable.or l.lastVariable

/-- The variables loaded. -/
def vars : Expr → List Reg
  | const _ _ => []
  | var allocated _ => [allocated]
  | op _ _ l r => l.vars ++ r.vars

/-- The constants, with their values. -/
def constants : Expr → List (Reg × ℤ)
  | const address sExtValue => [(address, sExtValue)]
  | var _ _ => []
  | op _ _ l r => l.constants ++ r.constants

/-- The results of the instructions. -/
def results : Expr → List Reg
  | const _ _ => []
  | var _ result => [result]
  | op result _ l r => l.results ++ r.results ++ [result]

/-- The opcodes. -/
def opcodes : Expr → List Opcode
  | const _ _ => []
  | var _ _ => []
  | op _ opcode l r => l.opcodes ++ r.opcodes ++ [opcode]

/-- There is no operator. -/
def isLeaf : Expr → Bool
  | op _ _ _ _ => false
  | _ => true

end Expr

/-- An assignment. -/
structure Statement where
  /-- The variable assigned. -/
  dest : Reg
  /-- The expression. -/
  value : Expr
  deriving DecidableEq, Repr

/-- The code of an assignment. -/
def Statement.code (st : Statement) : List Instruction := st.value.code ++ [.store st.value.operand st.dest]

/-- A block of assignments, with its address. -/
abbrev AssignmentBlock := Reg × List Statement

/-- The basic blocks of a program. -/
def basicBlocks (program : List AssignmentBlock) : List BasicBlock :=
  program.map fun BB => ⟨BB.1, BB.2.flatMap (·.code)⟩

/-- The assignments of a program, each with the address of its block. -/
def assignments (program : List AssignmentBlock) : List (Reg × Statement) :=
  program.flatMap fun BB => BB.2.map (BB.1, ·)

/-- The code of an assignment of the block `st.1`. -/
def assignmentCode (st : Reg × Statement) : List (Reg × Instruction) := st.2.code.map (st.1, ·)

/-- The variables of an assignment. -/
def Statement.vars (st : Statement) : List Reg := st.dest :: st.value.vars

theorem instructions_basicBlocks (program : List AssignmentBlock) :
    DependencyDetector.instructions (basicBlocks program) = (assignments program).flatMap assignmentCode := by
  induction program with
  | nil => rfl
  | cons BB rest ih =>
    have hBB : (BB.2.flatMap (·.code)).map (BB.1, ·) = (BB.2.map (BB.1, ·)).flatMap assignmentCode := by
      rw [List.map_flatMap, List.flatMap_map]
      rfl
    rw [assignments, List.flatMap_cons, List.flatMap_append, ← hBB, ← assignments, ← ih]
    rfl

/-! ### Scalar code -/

/-- A scalar variable: an allocated register that is no array and no iterator of a loop. -/
def CollectInfo.IsScalar (info : CollectInfo) (v : Reg) : Prop :=
  info.getAllocatedReg v = v ∧ info.isArray v = false ∧ info.iteratorsAliasMap.contains v = false

instance (info : CollectInfo) (v : Reg) : Decidable (info.IsScalar v) := by
  unfold CollectInfo.IsScalar
  infer_instance

/-- What the detector is promised of an expression: its variables are scalar, its operators are
recognised and combine no iterators. -/
structure Expr.IsScalar (info : CollectInfo) (e : Expr) : Prop where
  vars : ∀ v ∈ e.vars, info.IsScalar v
  opcodes : .unrecognised ∉ e.opcodes
  results : ∀ r ∈ e.results, r ∉ info.combinedIterators

instance (info : CollectInfo) (e : Expr) : Decidable (e.IsScalar info) :=
  decidable_of_iff ((∀ v ∈ e.vars, info.IsScalar v) ∧ .unrecognised ∉ e.opcodes ∧
    ∀ r ∈ e.results, r ∉ info.combinedIterators)
    ⟨fun ⟨h1, h2, h3⟩ => ⟨h1, h2, h3⟩, fun ⟨h1, h2, h3⟩ => ⟨h1, h2, h3⟩⟩

theorem Expr.IsScalar.operands {info : CollectInfo} {result : Reg} {opcode : Opcode} {l r : Expr}
    (h : (Expr.op result opcode l r).IsScalar info) : l.IsScalar info ∧ r.IsScalar info := by
  constructor
  · exact ⟨fun v hv => h.vars v (by simp [Expr.vars, hv]), fun ho => h.opcodes (by simp [Expr.opcodes, ho]),
      fun k hk => h.results k (by simp [Expr.results, hk])⟩
  · exact ⟨fun v hv => h.vars v (by simp [Expr.vars, hv]), fun ho => h.opcodes (by simp [Expr.opcodes, ho]),
      fun k hk => h.results k (by simp [Expr.results, hk])⟩

/-- An operand that is the constant `-1`. -/
def Operand.isMinusOne : Operand → Bool
  | .constantInt _ sExtValue => sExtValue = -1
  | .value _ => false

/-- No constant is `-1`. -/
def Expr.NoMinusOne (e : Expr) : Prop := ∀ c ∈ e.constants, c.2 ≠ -1

instance (e : Expr) : Decidable e.NoMinusOne := by
  unfold Expr.NoMinusOne
  infer_instance

theorem Expr.NoMinusOne.operands {result : Reg} {opcode : Opcode} {l r : Expr}
    (h : (Expr.op result opcode l r).NoMinusOne) : l.NoMinusOne ∧ r.NoMinusOne :=
  ⟨fun c hc => h c (by simp [constants, hc]), fun c hc => h c (by simp [constants, hc])⟩

theorem Expr.NoMinusOne.operand {e : Expr} (h : e.NoMinusOne) : e.operand.isMinusOne = false := by
  cases e with
  | const address sExtValue =>
    have hne := h (address, sExtValue) (by simp [constants])
    simpa [Expr.operand, Operand.isMinusOne] using hne
  | var | op => rfl

/-- The operation of an opcode. -/
def Opcode.operation : Opcode → Operation
  | .add => .add
  | .sub => .sub
  | .mul => .mul
  | .sdiv => .sdiv
  | .shl => .shl
  | .lshr => .lshr
  | .ashr => .ashr
  | .and => .and
  | .or => .or
  | .xor => .xor
  | .unrecognised => .null

theorem Opcode.operation_ne {opcode : Opcode} (h : opcode ≠ .unrecognised) :
    opcode.operation ≠ .null ∧ opcode.operation ≠ .load := by
  cases opcode <;> simp [operation] at h ⊢

namespace DependencyDetector

variable {info : CollectInfo} {s s' : DependencyDetector} {BB result : Reg} {opcode : Opcode}
  {operand0 operand1 : Operand}

/-- The state in scalar code: no complement waits, there are no pointers, and the loads are
counted. -/
structure Clean (s : DependencyDetector) : Prop where
  isNegated : s.isNegated = false
  tmpPtrSrc1 : s.tmpPtrSrc1 = nullptr
  tmpPtrSrc2 : s.tmpPtrSrc2 = nullptr
  tmpPtrDest : s.tmpPtrDest = nullptr
  loadCount : s.loadCount ≤ s.accumulationValidityCount

/-- A constant, or what the slot of the operand holds. -/
def slot (reg : Reg) : Operand → Reg
  | .constantInt address _ => address
  | .value _ => reg

/-- The sources that an operator takes: the result of the last operator fills the first slot that is
free, and otherwise the slots stand as the loads left them, up to the constants. -/
def sources (s : DependencyDetector) (operand0 operand1 : Operand) : Reg × Reg :=
  if operand0.address = s.destReg ∨ operand1.address = s.destReg then
    if s.srcReg1 = nullptr then (s.destReg, s.srcReg2)
    else if s.srcReg2 = nullptr then (s.srcReg1, s.destReg)
    else (s.srcReg1, s.srcReg2)
  else (slot s.srcReg1 operand0, slot s.srcReg2 operand1)

theorem takeOperands_of_clean (info : CollectInfo) (hs : s.Clean) (operand0 operand1 : Operand) :
    ∃ type1 type2, s.takeOperands info operand0 operand1 = some { s with
      srcReg1 := (s.sources operand0 operand1).1, srcReg1Type := type1
      srcReg2 := (s.sources operand0 operand1).2, srcReg2Type := type2 } := by
  have htake : ∀ reg, reg = s.destReg → (operand0.address = s.destReg ∨ operand1.address = s.destReg) →
      ∃ type1 type2, (s.takeDestReg reg).multiOperandPtr info = some { s with
        srcReg1 := (s.sources operand0 operand1).1, srcReg1Type := type1
        srcReg2 := (s.sources operand0 operand1).2, srcReg2Type := type2 } := by
    rintro reg rfl hor
    rw [sources, if_pos hor, takeDestReg]
    split
    · refine ⟨s.destRegType, regType s.isSrc2Array, ?_⟩
      rw [multiOperandPtr, if_neg (by simp [hs.tmpPtrDest, hs.tmpPtrSrc2])]
      rw [hs.tmpPtrDest, hs.tmpPtrSrc1]
    split
    · refine ⟨regType s.isSrc1Array, s.destRegType, ?_⟩
      rw [multiOperandPtr, if_neg (by simp [hs.tmpPtrDest, hs.tmpPtrSrc1])]
      rw [hs.tmpPtrDest, hs.tmpPtrSrc2]
    · refine ⟨s.srcReg1Type, s.srcReg2Type, ?_⟩
      rw [multiOperandPtr, if_neg (by simp [hs.tmpPtrSrc2, hs.tmpPtrSrc1])]
  unfold takeOperands
  split
  · next h0 => exact htake _ h0 (.inl h0)
  split
  · next h1 => exact htake _ h1 (.inr h1)
  · next h0 h1 =>
    rw [sources, if_neg (not_or.mpr ⟨h0, h1⟩)]
    cases operand0 with
    | constantInt address value =>
      cases operand1 with
      | constantInt address' value' => exact ⟨.constant, .constant, rfl⟩
      | value address' =>
        refine ⟨.constant, regType s.isSrc2Array, ?_⟩
        rw [takeOperand0, takeOperand1, hs.tmpPtrSrc2, hs.tmpPtrDest]
        rfl
    | value address =>
      cases operand1 with
      | constantInt address' value' =>
        refine ⟨regType s.isSrc1Array, .constant, ?_⟩
        rw [takeOperand0, takeOperand1, hs.tmpPtrSrc1, hs.tmpPtrDest]
        rfl
      | value address' =>
        refine ⟨regType s.isSrc1Array, regType s.isSrc2Array, ?_⟩
        rw [takeOperand0, takeOperand1, hs.tmpPtrSrc2, hs.tmpPtrDest]
        rfl

theorem recogniseOperation_of_clean (result : Reg) (operand0 : Operand) (hs : s.Clean)
    (hop : opcode ≠ .unrecognised) (h1 : operand1.isMinusOne = false) :
    ∃ n, s.accumulationValidityCount ≤ n ∧ s.recogniseOperation result opcode operand0 operand1 =
      some { s with operation := opcode.operation, accumulationValidityCount := n } := by
  have hlogic : ∀ operation negated,
      s.recogniseLogic operation negated result operand0 operand1 =
        some { s with operation := operation } := by
    intro operation negated
    unfold recogniseLogic
    cases operand1 with
    | constantInt address value => exact if_neg (by simpa [Operand.isMinusOne] using h1)
    | value address => exact if_neg (by simp [hs.isNegated])
  have hxor : s.recogniseXor result operand1 = { s with operation := .xor } := by
    unfold recogniseXor
    cases operand1 with
    | constantInt address value => exact if_neg (by simpa [Operand.isMinusOne] using h1)
    | value address => exact if_neg (by simp [hs.isNegated])
  cases opcode with
  | unrecognised => exact absurd rfl hop
  | add => exact ⟨_, by split <;> omega, rfl⟩
  | and => exact ⟨_, Nat.le_refl _, hlogic .and .nand⟩
  | or => exact ⟨_, Nat.le_refl _, hlogic .or .nor⟩
  | xor => exact ⟨_, Nat.le_refl _, congrArg some hxor⟩
  | sub | mul | sdiv | shl | lshr | ashr => exact ⟨_, Nat.le_refl _, rfl⟩

/-- The data of the entry of an operator. -/
structure IsEntry (d : InstructionData) (operation : Operation) (result : Reg) (sources : Reg × Reg)
    (isInLoopBody : Bool) : Prop where
  operation : d.operation = operation
  destinationReg : d.destinationReg = result
  sources : (d.sourceReg1, d.sourceReg2) = sources
  isInLoopBody : d.isInLoopBody = isInLoopBody

/-- The state after an operator is inserted. -/
def inserted (s : DependencyDetector) (d : InstructionData) (n : ℕ) : DependencyDetector :=
  { s with
    IM := s.IM.insertInstruction d, operation := d.operation, accumulationValidityCount := n
    destRegType := d.destRegType, destReg := d.destinationReg
    srcReg1 := nullptr, srcReg2 := nullptr, tmpPtrSrc1 := nullptr, tmpPtrSrc2 := nullptr
    isSrc1Array := false, isSrc2Array := false, srcReg1Type := .undefined, srcReg2Type := .undefined }

/-- An operator in scalar code is inserted with the sources that it takes. -/
theorem handleInstructionInserting_of_clean (info : CollectInfo) (hs : s.Clean)
    (hop : s.operation ≠ .null ∧ s.operation ≠ .load) (isInLoopBody : Bool) (result : Reg)
    (operand0 operand1 : Operand) :
    ∃ d, IsEntry d s.operation result (s.sources operand0 operand1) isInLoopBody ∧
      s.handleInstructionInserting info isInLoopBody result operand0 operand1 =
        some (s.inserted d s.accumulationValidityCount) := by
  obtain ⟨type1, type2, htake⟩ := takeOperands_of_clean info hs operand0 operand1
  refine ⟨entry { s with
    srcReg1 := (s.sources operand0 operand1).1, srcReg1Type := type1
    srcReg2 := (s.sources operand0 operand1).2, srcReg2Type := type2 } result isInLoopBody,
    ⟨rfl, rfl, rfl, rfl⟩, ?_⟩
  rw [handleInstructionInserting, if_pos hop, htake]
  rfl

/-- **An operator in scalar code.** -/
theorem step_binaryOperator (BB : Reg) (operand0 : Operand) (hs : s.Clean) (hop : opcode ≠ .unrecognised)
    (h1 : operand1.isMinusOne = false) (hresult : result ∉ info.combinedIterators) :
    ∃ d n, IsEntry d opcode.operation result (s.sources operand0 operand1) (info.isLoopBody BB) ∧
      s.accumulationValidityCount ≤ n ∧
      step info s (BB, .binaryOperator result opcode operand0 operand1) = some (s.inserted d n) := by
  obtain ⟨n, hn, hrec⟩ := recogniseOperation_of_clean result operand0 hs hop h1
  have hclean : Clean { s with operation := opcode.operation, accumulationValidityCount := n } :=
    ⟨hs.isNegated, hs.tmpPtrSrc1, hs.tmpPtrSrc2, hs.tmpPtrDest, Nat.le_trans hs.loadCount hn⟩
  obtain ⟨d, hd, hinsert⟩ := handleInstructionInserting_of_clean info hclean
    (Opcode.operation_ne hop) (info.isLoopBody BB) result operand0 operand1
  refine ⟨d, n, hd, hn, ?_⟩
  have hvalid : info.isValidInst (.binaryOperator result opcode operand0 operand1) = true := by
    simp [CollectInfo.isValidInst, hresult]
  rw [step, if_pos hvalid]
  show s.handleBinaryOperator info (info.isLoopBody BB) result opcode operand0 operand1 = _
  rw [handleBinaryOperator, hrec, Option.bind_some, if_neg (by simp [hs.isNegated]), hinsert]
  rfl

/-- The state after a load of a scalar variable. -/
def loaded (s : DependencyDetector) (v : Reg) : DependencyDetector :=
  { s with
    operation := .load, tmpAccumulationOp := some v
    accumulationValidityCount := s.accumulationValidityCount + 1
    IM := s.IM.insertLoadInstruction v .singleVariable
    srcReg1 := if s.loadCount % 2 = 0 then s.getRealSrcReg v else s.srcReg1
    srcReg2 := if s.loadCount % 2 = 0 then s.srcReg2 else s.getRealSrcReg v
    loadCount := s.loadCount + 1 }

/-- **A load in scalar code.** -/
theorem step_load {v : Reg} (hv : info.IsScalar v) :
    step info s (BB, .load result v) = some (s.loaded v) := by
  obtain ⟨hreg, harray, hit⟩ := hv
  rw [step, if_pos (by rw [CollectInfo.isValidInst, hit]; rfl)]
  show some (s.handleLoad info v) = _
  rw [handleLoad, hreg, harray, takeLoad, harray, loaded]
  split <;> rfl

/-! ### The code of an expression -/

/-- What the code of an expression does to the state, and what it leaves. -/
structure Evaluates (e : Expr) (s s' : DependencyDetector) : Prop where
  clean : s'.Clean
  loadCount : s'.loadCount = s.loadCount + e.loads
  lastUsedRegMap : s'.lastUsedRegMap = s.lastUsedRegMap
  tmpSrcReg2 : s'.tmpSrcReg2 = s.tmpSrcReg2
  tmpAccumulationOp : s'.tmpAccumulationOp = e.lastVariable.or s.tmpAccumulationOp
  find_of_some : ∀ k d, s.IM.find k = some d → s'.IM.find k = some d
  find_of_not_mem : ∀ k, k ∉ e.vars → k ∉ e.results → s'.IM.find k = s.IM.find k

namespace Evaluates

theorem const (hs : s.Clean) (address : Reg) (sExtValue : ℤ) : Evaluates (.const address sExtValue) s s where
  clean := hs
  loadCount := rfl
  lastUsedRegMap := rfl
  tmpSrcReg2 := rfl
  tmpAccumulationOp := rfl
  find_of_some _ _ h := h
  find_of_not_mem _ _ _ := rfl

theorem var (hs : s.Clean) (allocated result : Reg) : Evaluates (.var allocated result) s
    (s.loaded allocated) where
  clean := ⟨hs.isNegated, hs.tmpPtrSrc1, hs.tmpPtrSrc2, hs.tmpPtrDest, Nat.succ_le_succ hs.loadCount⟩
  loadCount := rfl
  lastUsedRegMap := rfl
  tmpSrcReg2 := rfl
  tmpAccumulationOp := rfl
  find_of_some k d h := by
    show (s.IM.insertLoadInstruction _ _).find k = _
    rw [InstructionTable.find_insertLoadInstruction, if_neg (by simp [h]), h]
  find_of_not_mem k hk _ := by
    show (s.IM.insertLoadInstruction _ _).find k = _
    rw [InstructionTable.find_insertLoadInstruction, if_neg]
    rintro ⟨rfl, -⟩
    exact hk (List.mem_singleton.mpr rfl)

theorem op {l r : Expr} {s₁ s₂ : DependencyDetector} {d : InstructionData} {n : ℕ} (hl : Evaluates l s s₁)
    (hr : Evaluates r s₁ s₂) (hd : d.destinationReg = result) (hn : s₂.accumulationValidityCount ≤ n) :
    Evaluates (.op result opcode l r) s (s₂.inserted d n) where
  clean := ⟨hr.clean.isNegated, rfl, rfl, hr.clean.tmpPtrDest, Nat.le_trans hr.clean.loadCount hn⟩
  loadCount := by
    show s₂.loadCount = _
    rw [hr.loadCount, hl.loadCount, Expr.loads]
    omega
  lastUsedRegMap := hr.lastUsedRegMap.trans hl.lastUsedRegMap
  tmpSrcReg2 := hr.tmpSrcReg2.trans hl.tmpSrcReg2
  tmpAccumulationOp := by
    show s₂.tmpAccumulationOp = _
    rw [hr.tmpAccumulationOp, hl.tmpAccumulationOp, Expr.lastVariable, Option.or_assoc]
  find_of_some k d' h := by
    show (s₂.IM.insertInstruction d).find k = _
    have h₂ := hr.find_of_some k d' (hl.find_of_some k d' h)
    rw [InstructionTable.find_insertInstruction, if_neg (by simp [h₂]), h₂]
  find_of_not_mem k hk hk' := by
    simp only [Expr.vars, Expr.results, List.mem_append, List.mem_singleton, not_or] at hk hk'
    show (s₂.IM.insertInstruction d).find k = _
    rw [InstructionTable.find_insertInstruction, if_neg fun h => hk'.2 (h.1.trans hd),
      hr.find_of_not_mem k hk.2 hk'.1.2, hl.find_of_not_mem k hk.1 hk'.1.1]

end Evaluates

/-- The code of an expression, in the block `BB`. -/
def exprCode (BB : Reg) (e : Expr) : List (Reg × Instruction) := e.code.map (BB, ·)

theorem exprCode_op (BB : Reg) (l r : Expr) : exprCode BB (.op result opcode l r) =
    exprCode BB l ++ exprCode BB r ++ [(BB, .binaryOperator result opcode l.operand r.operand)] := by
  simp [exprCode, Expr.code]

/-- The code of an operator, from the codes of its operands. -/
theorem run_op {l r : Expr} {s₁ s₂ : DependencyDetector} (he : (Expr.op result opcode l r).IsScalar info)
    (hm : (Expr.op result opcode l r).NoMinusOne)
    (hl : run (step info) s (exprCode BB l) = some s₁) (hr : run (step info) s₁ (exprCode BB r) = some s₂)
    (h₂ : s₂.Clean) :
    ∃ d n, IsEntry d opcode.operation result (s₂.sources l.operand r.operand) (info.isLoopBody BB) ∧
      s₂.accumulationValidityCount ≤ n ∧
      run (step info) s (exprCode BB (.op result opcode l r)) = some (s₂.inserted d n) := by
  have hop : opcode ≠ .unrecognised := by
    rintro rfl
    exact he.opcodes (by simp [Expr.opcodes])
  obtain ⟨d, n, hd, hn, hstep⟩ := step_binaryOperator BB l.operand h₂ hop
    hm.operands.2.operand (he.results result (by simp [Expr.results]))
  refine ⟨d, n, hd, hn, ?_⟩
  rw [exprCode_op, run_append, run_append, hl, Option.bind_some, hr, Option.bind_some, run_cons, hstep]
  rfl

/-- **The code of an expression** runs in scalar code, and does what `Evaluates` says. -/
theorem exists_run_exprCode (BB : Reg) {e : Expr} (he : e.IsScalar info) (hm : e.NoMinusOne) (hs : s.Clean) :
    ∃ s', run (step info) s (exprCode BB e) = some s' ∧ Evaluates e s s' := by
  induction e generalizing s with
  | const address sExtValue => exact ⟨s, rfl, .const hs address sExtValue⟩
  | var allocated result =>
    refine ⟨s.loaded allocated, ?_, .var hs allocated result⟩
    show (step info s (BB, .load result allocated)).bind some = _
    rw [step_load (he.vars allocated (by simp [Expr.vars]))]
    rfl
  | op result opcode l r ihl ihr =>
    obtain ⟨s₁, h₁, hl⟩ := ihl he.operands.1 hm.operands.1 hs
    obtain ⟨s₂, h₂, hr⟩ := ihr he.operands.2 hm.operands.2 hl.clean
    obtain ⟨d, n, hd, hn, hrun⟩ := run_op he hm h₁ h₂ hr.clean
    exact ⟨_, hrun, hl.op hr hd.destinationReg hn⟩

/-! ### The stores -/

/-- The state between two assignments. -/
structure Ready (s : DependencyDetector) : Prop extends Clean s where
  operation : s.operation = .null
  noLoads : s.loadCount = 0
  srcReg1 : s.srcReg1 = nullptr
  srcReg2 : s.srcReg2 = nullptr
  destReg : s.destReg = nullptr

theorem ready_endStore (h : s.isNegated = false) (allocatedReg : Reg) : (s.endStore allocatedReg).Ready :=
  { isNegated := h, tmpPtrSrc1 := rfl, tmpPtrSrc2 := rfl, tmpPtrDest := rfl, loadCount := Nat.le_refl _
    operation := rfl, noLoads := rfl, srcReg1 := rfl, srcReg2 := rfl, destReg := rfl }

theorem recorded_setStored (IM : InstructionTable) (reg k ptr : Reg) (isArray : Bool) :
    (setStored IM reg isArray ptr).recorded k = IM.recorded k := by
  rw [setStored, InstructionTable.recorded_modifyGivenField _ _ _ _ (by decide) (by decide),
    InstructionTable.recorded_modifyGivenField _ _ _ _ (by decide) (by decide)]

/-- The store exchanges the sources of the operator it stores: an accumulation of a result of more
than two loads. -/
def Swaps (s : DependencyDetector) (d : InstructionData) (dest : Reg) : Prop :=
  s.loadCount > 2 ∧ s.tmpAccumulationOp = some dest ∧ d.isInLoopBody = true

instance (s : DependencyDetector) (d : InstructionData) (dest : Reg) : Decidable (s.Swaps d dest) := by
  unfold Swaps
  infer_instance

/-- The entry of an operator that is stored keeps its operation and its sources, exchanged if the
store exchanges them. -/
theorem storeOperation_of_clean (dest : Reg) {d : InstructionData} (htwo : s.loadCount ≥ 2) (hs : s.Clean)
    (hd : s.IM.find s.destReg = some d) :
    ∃ IM, s.storeOperation dest false = some IM ∧ ∀ k, IM.recorded k =
      if k = s.destReg ∧ s.Swaps d dest then (s.IM.recorded k).map fun r => (r.1, r.2.2, r.2.1)
      else s.IM.recorded k := by
  have hspec : ∀ k, (s.IM.addSpecToInstruction s.destReg "accumulation").recorded k = s.IM.recorded k :=
    fun k => InstructionTable.recorded_modifyInstruction _ _ _ fun _ => rfl
  have hcount := Nat.le_trans htwo hs.loadCount
  unfold storeOperation
  by_cases hacc : s.tmpAccumulationOp = some dest
  · rw [if_pos ⟨hcount, hacc⟩, hd, Option.bind_some]
    by_cases hloop : d.isInLoopBody = true
    · rw [if_pos hloop]
      by_cases hmany : s.loadCount > 2
      · have hswap : s.Swaps d dest := ⟨hmany, hacc, hloop⟩
        have hmem : s.destReg ∈ (s.IM.addSpecToInstruction s.destReg "accumulation").instructionMap := by
          rw [InstructionTable.addSpecToInstruction, InstructionTable.mem_modifyInstruction,
            ← InstructionTable.isSome_find, hd]
          rfl
        simp only [if_pos hmany, InstructionTable.swapOperands, if_pos hmem, Option.map_some]
        refine ⟨_, rfl, fun k => ?_⟩
        rw [recorded_setStored, InstructionTable.recorded_swapped, hspec]
        simp only [hswap, and_true]
      · simp only [if_neg hmany, Option.map_some]
        refine ⟨_, rfl, fun k => ?_⟩
        rw [recorded_setStored, hspec, if_neg fun h => hmany h.2.1]
    · rw [if_neg hloop]
      exact ⟨_, rfl, fun k => by rw [if_neg fun h => hloop h.2.2.2]⟩
  · rw [if_neg fun h => hacc h.2]
    exact ⟨_, rfl, fun k => by rw [recorded_setStored, if_neg fun h => hacc h.2.2.1]⟩

theorem recordStore_of_clean (operand0 : Operand) {dest : Reg} {d : InstructionData} (hs : s.Clean)
    (hop : s.operation ≠ .load)
    (hd : s.IM.find s.destReg = some d) :
    ∃ IM, s.recordStore operand0 dest false = some { s with IM := IM } ∧ ∀ k, IM.recorded k =
      if k = s.destReg ∧ s.Swaps d dest then (s.IM.recorded k).map fun r => (r.1, r.2.2, r.2.1)
      else s.IM.recorded k := by
  unfold recordStore
  by_cases htwo : s.loadCount ≥ 2
  · obtain ⟨IM, hIM, hall⟩ := storeOperation_of_clean dest htwo hs hd
    exact ⟨IM, by rw [if_pos htwo, hIM]; rfl, hall⟩
  · have hfew : ¬ s.Swaps d dest := fun h => htwo (Nat.le_of_lt h.1)
    rw [if_neg htwo]
    by_cases hone : s.loadCount = 1
    · rw [if_pos hone, if_neg hop]
      exact ⟨_, rfl, fun k => by rw [recorded_setStored, if_neg fun h => hfew h.2]⟩
    · rw [if_neg hone]
      exact ⟨s.IM, rfl, fun k => by rw [if_neg fun h => hfew h.2]⟩

theorem step_store {dest : Reg} (hdest : info.IsScalar dest) :
    step info s (BB, .store operand0 dest) =
      if s.operation = .null then some s
      else (s.recordStore operand0 dest false).map fun s => s.endStore dest := by
  obtain ⟨hreg, harray, hit⟩ := hdest
  rw [step, if_pos (by rw [CollectInfo.isValidInst, hit]; rfl)]
  show s.handleStoreInstruction info operand0 dest = _
  simp only [handleStoreInstruction, hreg, harray, startStore, Bool.false_eq_true, if_false]

/-- **The store of the result of an operator.** -/
theorem step_store_op (BB : Reg) (operand0 : Operand) {dest : Reg} {d : InstructionData}
    (hdest : info.IsScalar dest) (hs : s.Clean)
    (hop : s.operation ≠ .null ∧ s.operation ≠ .load) (hd : s.IM.find s.destReg = some d) :
    ∃ IM, step info s (BB, .store operand0 dest) = some (endStore { s with IM := IM } dest) ∧
      ∀ k, IM.recorded k =
        if k = s.destReg ∧ s.Swaps d dest then (s.IM.recorded k).map fun r => (r.1, r.2.2, r.2.1)
        else s.IM.recorded k := by
  obtain ⟨IM, hrec, hall⟩ := recordStore_of_clean operand0 hs hop.2 hd
  refine ⟨IM, ?_, hall⟩
  rw [step_store hdest, if_neg hop.1, hrec]
  rfl

/-- The store of a variable that was loaded: a copy. -/
theorem step_store_copy (BB : Reg) (operand0 : Operand) {dest : Reg} (hdest : info.IsScalar dest)
    (hop : s.operation = .load)
    (hload : s.loadCount = 1) :
    ∃ IM, step info s (BB, .store operand0 dest) =
        some (endStore { s with IM := IM, destReg := operand0.address } dest) ∧
      ∀ k, IM.recorded k = s.IM.recorded k := by
  refine ⟨s.storeCopy operand0 false, ?_, fun k => ?_⟩
  · rw [step_store hdest, if_neg (by simp [hop]), recordStore, if_neg (by omega), if_pos hload, if_pos hop]
    rfl
  · rw [storeCopy, InstructionTable.recorded_modifyGivenField _ _ _ _ (by decide) (by decide),
      InstructionTable.recorded_modifyGivenField _ _ _ _ (by decide) (by decide), recorded_setStored]

/-! ### Whole assignments -/

/-- What an assignment does to the state between two assignments: it records the address of the
value stored, unless that is a constant. -/
structure Assigns (st : Statement) (s s' : DependencyDetector) : Prop where
  ready : s'.Ready
  getRealSrcReg : ∀ v, s'.getRealSrcReg v =
    match st.value with
    | .const _ _ => s.getRealSrcReg v
    | e => if v = st.dest then e.operand.address else s.getRealSrcReg v
  tmpSrcReg2 : s'.tmpSrcReg2 = s.tmpSrcReg2
  recorded_of_some : ∀ k p, s.IM.recorded k = some p → s'.IM.recorded k = some p
  recorded_of_not_mem : ∀ k, k ∉ st.value.vars → k ∉ st.value.results → s'.IM.recorded k = s.IM.recorded k

theorem getRealSrcReg_endStore (s : DependencyDetector) (dest v : Reg) :
    (s.endStore dest).getRealSrcReg v = if v = dest then s.destReg else s.getRealSrcReg v := by
  simp only [DependencyDetector.getRealSrcReg, endStore, ExtTreeMap.getElem?_insert, Std.compare_eq_iff_eq]
  by_cases h : dest = v
  · rw [if_pos h, if_pos h.symm]
    rfl
  · rw [if_neg h, if_neg (Ne.symm h)]

theorem Evaluates.recorded_of_some {e : Expr} (h : Evaluates e s s') {k : Reg} {p : Operation × Reg × Reg}
    (hk : s.IM.recorded k = some p) : s'.IM.recorded k = some p := by
  obtain ⟨d, hd, rfl⟩ := Option.map_eq_some_iff.mp hk
  rw [InstructionTable.recorded, h.find_of_some k d hd]
  rfl

theorem Evaluates.recorded_of_not_mem {e : Expr} (h : Evaluates e s s') {k : Reg} (hv : k ∉ e.vars)
    (hr : k ∉ e.results) : s'.IM.recorded k = s.IM.recorded k := by
  rw [InstructionTable.recorded, h.find_of_not_mem k hv hr]
  rfl

/-- The assignment of a constant. -/
theorem run_assignment_const {address dest : Reg} {sExtValue : ℤ} (hs : s.Ready)
    (hdest : info.IsScalar dest) :
    run (step info) s (assignmentCode (BB, ⟨dest, .const address sExtValue⟩)) = some s ∧
      Assigns ⟨dest, .const address sExtValue⟩ s s := by
  refine ⟨?_, hs, fun _ => rfl, rfl, fun _ _ h => h, fun _ _ _ => rfl⟩
  show (step info s (BB, .store _ dest)).bind some = _
  rw [step_store hdest, if_pos hs.operation]
  rfl

/-- The assignment of a variable. -/
theorem run_assignment_var {allocated dest : Reg} (hs : s.Ready) (hv : info.IsScalar allocated)
    (hdest : info.IsScalar dest) :
    ∃ s', run (step info) s (assignmentCode (BB, ⟨dest, .var allocated result⟩)) = some s' ∧
      Assigns ⟨dest, .var allocated result⟩ s s' := by
  have hev := Evaluates.var hs.toClean allocated result
  obtain ⟨IM, hstep, hrec⟩ := step_store_copy (s := s.loaded allocated) BB (.value result) hdest rfl (by rw [loaded, hs.noLoads])
  refine ⟨endStore { s.loaded allocated with IM := IM, destReg := result } dest, ?_,
    ready_endStore (by exact hs.isNegated) dest, fun v => getRealSrcReg_endStore _ dest v, rfl,
    fun k p hk => ?_, fun k hv hr => ?_⟩
  · show (step info s (BB, .load result allocated)).bind (fun s' =>
      (step info s' (BB, .store _ dest)).bind some) = _
    rw [step_load hv, Option.bind_some]
    show (step info (s.loaded allocated) (BB, .store (.value result) dest)).bind some = _
    rw [hstep]
    rfl
  · exact (hrec k).trans (hev.recorded_of_some hk)
  · exact (hrec k).trans (hev.recorded_of_not_mem hv hr)

end DependencyDetector

end Octantis
