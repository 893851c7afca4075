import Mathlib.Data.List.Pairwise
import Mathlib.Tactic.IntervalCases
import Octantis.Analysis.AccumulationTags

/-!
# The stores of a program

Which stores leave every register of `lastUsedRegMap` with an entry in the table is a
question about the program: what was loaded, computed and held back before the store.

## The model

The conditions are on the instructions to be scheduled that come before a store, the
last one first (`CollectInfo.scheduled`). `waiting` is the complement that is held back,
`insertedResults` the operators that are not, `isCopy` a store that comes after a load
alone, and `Recordable` the condition on the store. `Follows` ties them to the state of
the detector.

## What is proved

* `follows_of_run`: the state of the detector follows the instructions before it;
* `sourcesKnown_iff_recordable`: the registers recorded are known in every state reached
  exactly when every store of the program is recordable;
* `not_recordable_copy`: where results are distinct, a copy `d = s` is not.

## Honest scope

The stores are those that the detector gets past. A store whose operators were all held
back records `nullptr`: so `d = ~x` is not recordable either, and no statement after it
is while the complement waits.
-/

namespace Octantis

open Std Lib

/-! ### The instructions before a store -/

namespace Instruction

/-- A store. -/
def isStore : Instruction → Bool
  | store _ _ => true
  | _ => false

/-- A load. -/
def isLoad : Instruction → Bool
  | load _ _ => true
  | _ => false

/-- A load, or an operator whose opcode the detector recognises. -/
def isRecognised : Instruction → Bool
  | load _ _ => true
  | binaryOperator _ opcode _ _ => opcode ≠ .unrecognised
  | _ => false

/-- The result of a complement: of a logic operator with the constant `-1`. -/
def complement : Instruction → Option Reg
  | binaryOperator result opcode _ (.constantInt _ sExtValue) =>
    if opcode.isLogic ∧ sExtValue = -1 then some result else none
  | _ => none

/-- A logic operator that has the register for its second operand. -/
def completes (c : Reg) : Instruction → Bool
  | binaryOperator _ opcode _ (.value address) => opcode.isLogic && address = c
  | _ => false

end Instruction

/-- The instructions to be scheduled of a program, the last one first. -/
def CollectInfo.scheduled (info : CollectInfo) (actions : List (Reg × Instruction)) : List Instruction :=
  ((actions.map (·.2)).filter info.isValidInst).reverse

theorem CollectInfo.scheduled_snoc (info : CollectInfo) (actions : List (Reg × Instruction))
    (I : Reg × Instruction) : info.scheduled (actions ++ [I]) =
      if info.isValidInst I.2 then I.2 :: info.scheduled actions else info.scheduled actions := by
  rw [CollectInfo.scheduled, List.map_append, List.filter_append, List.reverse_append, List.map_singleton,
    List.filter_singleton]
  cases info.isValidInst I.2 <;> rfl

/-- The instructions since the last store. -/
def sinceStore (past : List Instruction) : List Instruction := past.takeWhile fun I => !I.isStore

/-- The last load or recognised operator since the last store. -/
def lastRecognised (past : List Instruction) : Option Instruction :=
  (sinceStore past).find? Instruction.isRecognised

/-- The complement that waits for its operator: the last one, when no logic operator since has it for
its second operand. -/
def waiting : List Instruction → Option Reg
  | [] => none
  | I :: past =>
    match I.complement with
    | some c => some c
    | none => (waiting past).filter fun c => !I.completes c

/-- The result of an operator that is not held back: no complement waits after it, and it is
recognised, or takes the operation of one since the last store. -/
def insertedResult (past : List Instruction) (I : Instruction) : Option Reg :=
  match I with
  | .binaryOperator result _ _ _ =>
    if waiting (I :: past) = none ∧ (lastRecognised (I :: past)).any (!·.isLoad) then some result else none
  | _ => none

/-- The results of the operators that are not held back. -/
def insertedResults : List Instruction → List Reg
  | [] => []
  | I :: past => (insertedResult past I).toList ++ insertedResults past

/-- The last of them since the last store. -/
def lastInserted : List Instruction → Option Reg
  | [] => none
  | I :: past => if I.isStore then none else (insertedResult past I).or (lastInserted past)

/-- The registers loaded. -/
def loadedRegs (info : CollectInfo) (past : List Instruction) : List Reg :=
  past.filterMap fun
    | .load _ pointer => some (info.getAllocatedReg pointer)
    | _ => none

/-- A store now is a copy: one load since the last store, and no recognised operator after it. -/
def isCopy (past : List Instruction) : Bool :=
  (sinceStore past).countP Instruction.isLoad = 1 && (lastRecognised past).any Instruction.isLoad

/-- **The stores that record a register with an entry.** A store with nothing recognised since the
last one is skipped. A copy must store the result of an operator that was not held back, or a register
that was loaded; any other store must follow, since the last one, an operator that was not held back
(or `nullptr`, the register of an address that is not known, was loaded). -/
def Recordable (info : CollectInfo) (past : List Instruction) (operand0 : Operand) : Prop :=
  (lastRecognised past).isSome →
    if isCopy past then operand0.address ∈ insertedResults past ∨ operand0.address ∈ loadedRegs info past
    else (lastInserted past).isSome ∨ nullptr ∈ insertedResults past ∨ nullptr ∈ loadedRegs info past

instance (info : CollectInfo) (past : List Instruction) (operand0 : Operand) :
    Decidable (Recordable info past operand0) :=
  inferInstanceAs (Decidable ((lastRecognised past).isSome → if isCopy past then
    operand0.address ∈ insertedResults past ∨ operand0.address ∈ loadedRegs info past
    else (lastInserted past).isSome ∨ nullptr ∈ insertedResults past ∨ nullptr ∈ loadedRegs info past))

namespace DependencyDetector

variable {info : CollectInfo} {s s₁ s₂ s' : DependencyDetector} {past : List Instruction} {I : Instruction}

/-! ### What waits -/

theorem sinceStore_cons (h : I.isStore = false) : sinceStore (I :: past) = I :: sinceStore past := by
  rw [sinceStore, List.takeWhile_cons, h]
  rfl

theorem lastRecognised_cons (h : I.isStore = false) :
    lastRecognised (I :: past) = if I.isRecognised then some I else lastRecognised past := by
  rw [lastRecognised, sinceStore_cons h, List.find?_cons]
  cases I.isRecognised <;> rfl

/-- An instruction that is no logic operator leaves the complement waiting. -/
theorem waiting_cons (h : I.complement = none) (hc : ∀ c, I.completes c = false) :
    waiting (I :: past) = waiting past := by
  simp only [waiting, h, hc]
  cases waiting past <;> rfl

/-- What waits after an operator that is no logic operator. -/
theorem waiting_of_not_isLogic {result : Reg} {opcode : Opcode} {operand0 operand1 : Operand}
    (h : opcode.isLogic = false) :
    waiting (.binaryOperator result opcode operand0 operand1 :: past) = waiting past := by
  refine waiting_cons ?_ fun c => ?_ <;> cases operand1 <;>
    simp [Instruction.complement, Instruction.completes, h]

/-- What waits after a logic operator with a constant: itself, if that is `-1`. -/
theorem waiting_constantInt {result address : Reg} {opcode : Opcode} {operand0 : Operand} {sExtValue : ℤ}
    (h : opcode.isLogic = true) :
    waiting (.binaryOperator result opcode operand0 (.constantInt address sExtValue) :: past) =
      if sExtValue = -1 then some result else waiting past := by
  split
  · next hone => simp [waiting, Instruction.complement, h, hone]
  · next hone => exact waiting_cons (by simp [Instruction.complement, hone]) fun _ => rfl

/-- What waits after a logic operator with a variable: the complement, unless that is its operand. -/
theorem waiting_value {result address : Reg} {opcode : Opcode} {operand0 : Operand} (h : opcode.isLogic = true) :
    waiting (.binaryOperator result opcode operand0 (.value address) :: past) =
      if waiting past = some address then none else waiting past := by
  have hw : waiting (.binaryOperator result opcode operand0 (.value address) :: past) =
      (waiting past).filter fun c => !decide (address = c) := by
    simp only [waiting, Instruction.complement, Instruction.completes, h, Bool.true_and]
  rw [hw]
  cases hpast : waiting past with
  | none => rfl
  | some c =>
    by_cases hc : address = c
    · simp [hc]
    · simp [hc, Ne.symm hc]

/-- What waits, and in which register. -/
structure Waits (past : List Instruction) (s : DependencyDetector) : Prop where
  negated : s.isNegated = (waiting past).isSome
  complement : ∀ c, waiting past = some c → s.tmpLogicOperatorDestReg = some c

theorem Waits.of_eq {past' : List Instruction} (h : Waits past s) (hw : waiting past' = waiting past)
    (hneg : s'.isNegated = s.isNegated) (hreg : s'.tmpLogicOperatorDestReg = s.tmpLogicOperatorDestReg) :
    Waits past' s' := ⟨by rw [hneg, hw]; exact h.negated, by rw [hreg, hw]; exact h.complement⟩

/-- The test of the source for the operand of a complement that waits. -/
theorem Waits.iff (h : Waits past s) (address : Reg) :
    (s.isNegated = true ∧ s.tmpLogicOperatorDestReg = some address) ↔ waiting past = some address := by
  rw [h.negated]
  cases hpast : waiting past with
  | none => simp
  | some c => simp [h.complement c hpast]

theorem Waits.constantInt (h : Waits past s) {result address : Reg} {opcode : Opcode} {operand0 : Operand}
    {sExtValue : ℤ} (hop : opcode.isLogic = true)
    (hone : sExtValue = -1 → s₁.isNegated = true ∧ s₁.tmpLogicOperatorDestReg = some result)
    (hother : sExtValue ≠ -1 →
      s₁.isNegated = s.isNegated ∧ s₁.tmpLogicOperatorDestReg = s.tmpLogicOperatorDestReg) :
    Waits (.binaryOperator result opcode operand0 (.constantInt address sExtValue) :: past) s₁ := by
  by_cases hv : sExtValue = -1
  · refine ⟨?_, ?_⟩ <;> rw [waiting_constantInt hop, if_pos hv]
    · exact (hone hv).1
    · rintro c ⟨⟩
      exact (hone hv).2
  · exact h.of_eq (by rw [waiting_constantInt hop, if_neg hv]) (hother hv).1 (hother hv).2

theorem Waits.value (h : Waits past s) {result address : Reg} {opcode : Opcode} {operand0 : Operand}
    (hop : opcode.isLogic = true)
    (hends : (s.isNegated = true ∧ s.tmpLogicOperatorDestReg = some address) → s₁.isNegated = false)
    (hother : ¬ (s.isNegated = true ∧ s.tmpLogicOperatorDestReg = some address) →
      s₁.isNegated = s.isNegated ∧ s₁.tmpLogicOperatorDestReg = s.tmpLogicOperatorDestReg) :
    Waits (.binaryOperator result opcode operand0 (.value address) :: past) s₁ := by
  rw [h.iff] at hends hother
  by_cases hw : waiting past = some address
  · refine ⟨?_, ?_⟩ <;> rw [waiting_value hop, if_pos hw]
    · exact hends hw
    · simp
  · exact h.of_eq (by rw [waiting_value hop, if_neg hw]) (hother hw).1 (hother hw).2

theorem Waits.recogniseLogic (h : Waits past s) {result : Reg} {opcode : Opcode} {operation negated : Operation}
    {operand0 operand1 : Operand} (hop : opcode.isLogic = true)
    (h₁ : s.recogniseLogic operation negated result operand0 operand1 = some s₁) :
    Waits (.binaryOperator result opcode operand0 operand1 :: past) s₁ := by
  unfold DependencyDetector.recogniseLogic at h₁
  cases operand1 with
  | constantInt address sExtValue =>
    refine h.constantInt hop (fun hone => ?_) (fun hother => ?_)
    · simp only [hone, if_true] at h₁
      cases h₁
      exact ⟨rfl, rfl⟩
    · simp only [hother, if_false] at h₁
      cases h₁
      exact ⟨rfl, rfl⟩
  | value address =>
    refine h.value hop (fun hends => ?_) (fun hother => ?_)
    · simp only [hends, and_self, if_true] at h₁
      obtain ⟨reg, -, rfl⟩ := Option.map_eq_some_iff.mp h₁
      rfl
    · simp only [hother, if_false] at h₁
      cases h₁
      exact ⟨rfl, rfl⟩

theorem Waits.recogniseXor (h : Waits past s) (result : Reg) (operand0 operand1 : Operand) :
    Waits (.binaryOperator result .xor operand0 operand1 :: past) (s.recogniseXor result operand1) := by
  unfold DependencyDetector.recogniseXor
  cases operand1 with
  | constantInt address sExtValue =>
    refine h.constantInt rfl (fun hone => ?_) (fun hother => ?_)
    · simp [hone]
    · simp [hother]
  | value address =>
    refine h.value rfl (fun hends => ?_) (fun hother => ?_)
    · simp [hends]
    · simp [hother]

theorem Waits.recogniseOperation (h : Waits past s) {result : Reg} {opcode : Opcode}
    {operand0 operand1 : Operand} (h₁ : s.recogniseOperation result opcode operand0 operand1 = some s₁) :
    Waits (.binaryOperator result opcode operand0 operand1 :: past) s₁ := by
  cases opcode with
  | and => exact h.recogniseLogic rfl h₁
  | or => exact h.recogniseLogic rfl h₁
  | xor =>
    cases h₁
    exact h.recogniseXor result operand0 operand1
  | add | sub | mul | sdiv | shl | lshr | ashr | unrecognised =>
    cases h₁
    exact h.of_eq (waiting_of_not_isLogic rfl) rfl rfl

/-! ### The operations -/

/-- The operation, as the instructions before say. -/
structure Operates (past : List Instruction) (s : DependencyDetector) : Prop where
  null : s.operation = .null ↔ lastRecognised past = none
  load : s.operation = .load ↔ (lastRecognised past).any Instruction.isLoad

theorem Operates.recogniseOperation (h : Operates past s) {result : Reg} {opcode : Opcode}
    {operand0 operand1 : Operand} (h₁ : s.recogniseOperation result opcode operand0 operand1 = some s₁) :
    Operates (.binaryOperator result opcode operand0 operand1 :: past) s₁ := by
  by_cases hop : opcode = .unrecognised
  · subst hop
    cases h₁
    refine ⟨?_, ?_⟩ <;> rw [lastRecognised_cons rfl]
    · exact h.null
    · exact h.load
  · obtain ⟨hnull, hload⟩ := operation_recogniseOperation hop h₁
    refine ⟨?_, ?_⟩ <;> rw [lastRecognised_cons rfl]
    · simp [hnull, Instruction.isRecognised, hop]
    · simp [hload, Instruction.isRecognised, hop, Instruction.isLoad]

/-- The test of the source for an operator that can be inserted. -/
theorem Operates.iff (h : Operates past s) :
    (s.operation ≠ .null ∧ s.operation ≠ .load) ↔ (lastRecognised past).any (!·.isLoad) = true := by
  rw [ne_eq, ne_eq, h.null, h.load]
  cases lastRecognised past <;> simp

/-! ### The state after the instructions -/

/-- The state of the detector after the instructions to be scheduled. -/
structure Follows (info : CollectInfo) (past : List Instruction) (s : DependencyDetector) : Prop
    extends Waits past s, Operates past s where
  loads : s.loadCount = (sinceStore past).countP Instruction.isLoad
  destReg : s.destReg = (lastInserted past).getD nullptr
  keys : ∀ k, k ∈ s.IM.instructionMap ↔ k ∈ insertedResults past ∨ k ∈ loadedRegs info past

theorem follows_init (info : CollectInfo) : Follows info [] init where
  negated := rfl
  complement := by simp [waiting]
  null := by simp [init, lastRecognised, sinceStore]
  load := by simp [init, lastRecognised, sinceStore]
  loads := rfl
  destReg := rfl
  keys := by simp [init, insertedResults, loadedRegs, InstructionTable.empty]

theorem Follows.other (h : Follows info past s) (result : Reg) : Follows info (.other result :: past) s where
  toWaits := h.toWaits.of_eq (waiting_cons rfl fun _ => rfl) rfl rfl
  null := by rw [lastRecognised_cons rfl]; exact h.null
  load := by rw [lastRecognised_cons rfl]; exact h.load
  loads := by rw [sinceStore_cons rfl]; exact h.loads
  destReg := h.destReg
  keys := h.keys

theorem Follows.handleLoad (h : Follows info past s) (result pointer : Reg) :
    Follows info (.load result pointer :: past) (s.handleLoad info pointer) := by
  have hfields : (s.handleLoad info pointer).isNegated = s.isNegated ∧
      (s.handleLoad info pointer).tmpLogicOperatorDestReg = s.tmpLogicOperatorDestReg ∧
      (s.handleLoad info pointer).operation = .load ∧ (s.handleLoad info pointer).destReg = s.destReg ∧
      (s.handleLoad info pointer).loadCount = s.loadCount + 1 := by
    unfold DependencyDetector.handleLoad takeLoad
    simp only
    split <;> simp
  obtain ⟨hneg, hreg, hop, hdest, hcount⟩ := hfields
  have hlast : lastRecognised (.load result pointer :: past) = some (.load result pointer) :=
    lastRecognised_cons rfl
  refine ⟨h.toWaits.of_eq (waiting_cons rfl fun _ => rfl) hneg hreg, ⟨?_, ?_⟩, ?_, hdest.trans h.destReg,
    fun k => ?_⟩
  · simp [hop, hlast]
  · simp [hop, hlast, Instruction.isLoad]
  · rw [hcount, h.loads, sinceStore_cons rfl, List.countP_cons_of_pos rfl]
  · rw [IM_handleLoad, InstructionTable.mem_insertLoadInstruction, h.keys]
    show _ ↔ k ∈ insertedResults past ∨ k ∈ info.getAllocatedReg pointer :: loadedRegs info past
    rw [List.mem_cons]
    tauto

theorem loadCount_recogniseOperation {result : Reg} {opcode : Opcode} {operand0 operand1 : Operand}
    (h : s.recogniseOperation result opcode operand0 operand1 = some s₁) : s₁.loadCount = s.loadCount := by
  have hlogic : ∀ operation negated, s.recogniseLogic operation negated result operand0 operand1 = some s₁ →
      s₁.loadCount = s.loadCount := by
    intro operation negated h
    unfold recogniseLogic at h
    cases operand1 with
    | constantInt address sExtValue =>
      simp only at h
      split at h <;> cases h <;> rfl
    | value address =>
      simp only at h
      split at h
      · obtain ⟨reg, -, rfl⟩ := Option.map_eq_some_iff.mp h
        rfl
      · cases h
        rfl
  cases opcode with
  | and => exact hlogic _ _ h
  | or => exact hlogic _ _ h
  | xor =>
    cases h
    unfold recogniseXor
    cases operand1 <;> simp only <;> split <;> rfl
  | add | sub | mul | sdiv | shl | lshr | ashr | unrecognised =>
    cases h
    rfl

/-- Taking the operands changes the sources only. -/
theorem takeOperands_sources {operand0 operand1 : Operand} (h : s.takeOperands info operand0 operand1 = some s') :
    (s'.isNegated, s'.tmpLogicOperatorDestReg, s'.operation, s'.loadCount) =
      (s.isNegated, s.tmpLogicOperatorDestReg, s.operation, s.loadCount) := by
  have hboth : ∀ reg, (s.takeDestReg reg).multiOperandPtr info = some s' →
      (s'.isNegated, s'.tmpLogicOperatorDestReg, s'.operation, s'.loadCount) =
        (s.isNegated, s.tmpLogicOperatorDestReg, s.operation, s.loadCount) := by
    intro reg h
    obtain ⟨ptr, rfl⟩ := multiOperandPtr_eq_some h
    unfold takeDestReg
    split
    · rfl
    split <;> rfl
  unfold takeOperands at h
  split at h
  · exact hboth _ h
  split at h
  · exact hboth _ h
  · cases h
    cases operand0 <;> cases operand1 <;> rfl

theorem Follows.handleBinaryOperator (h : Follows info past s) {isInLoopBody : Bool} {result : Reg}
    {opcode : Opcode} {operand0 operand1 : Operand}
    (h' : s.handleBinaryOperator info isInLoopBody result opcode operand0 operand1 = some s') :
    Follows info (.binaryOperator result opcode operand0 operand1 :: past) s' := by
  obtain ⟨s₁, h₁, h'⟩ := Option.bind_eq_some_iff.mp h'
  have hwaits := h.toWaits.recogniseOperation h₁
  have hoperates := h.toOperates.recogniseOperation h₁
  obtain ⟨-, hT, hdest⟩ := recogniseOperation_eq_some h₁
  have hcount := loadCount_recogniseOperation h₁
  have hloads : s.loadCount = (sinceStore (.binaryOperator result opcode operand0 operand1 :: past)).countP
      Instruction.isLoad := by
    rw [sinceStore_cons rfl, List.countP_cons_of_neg (by simp [Instruction.isLoad])]
    exact h.loads
  -- the operator is held back
  have hheld : insertedResult past (.binaryOperator result opcode operand0 operand1) = none →
      Follows info (.binaryOperator result opcode operand0 operand1 :: past) s₁ := by
    intro hnone
    refine ⟨hwaits, hoperates, hcount.trans hloads, ?_, fun k => ?_⟩
    · rw [hdest, h.destReg, lastInserted, hnone]
      rfl
    · rw [hT, h.keys, insertedResults, hnone]
      rfl
  split at h'
  · next hneg =>
    cases h'
    refine hheld ?_
    rw [insertedResult, if_neg]
    rintro ⟨hnone, -⟩
    rw [hwaits.negated, hnone] at hneg
    cases hneg
  next hneg =>
  unfold handleInstructionInserting at h'
  have hnone : waiting (.binaryOperator result opcode operand0 operand1 :: past) = none := by
    rw [hwaits.negated, Option.isSome_iff_ne_none, not_not] at hneg
    exact hneg
  split at h'
  · next hop =>
    obtain ⟨s₂, h₂, rfl⟩ := Option.map_eq_some_iff.mp h'
    have hres : insertedResult past (.binaryOperator result opcode operand0 operand1) = some result := by
      rw [insertedResult, if_pos ⟨hnone, hoperates.iff.mp hop⟩]
    obtain ⟨hneg', hreg', hoperation, hcount'⟩ : s₂.isNegated = s₁.isNegated ∧
        s₂.tmpLogicOperatorDestReg = s₁.tmpLogicOperatorDestReg ∧ s₂.operation = s₁.operation ∧
        s₂.loadCount = s₁.loadCount := by simpa using takeOperands_sources h₂
    refine ⟨hwaits.of_eq rfl hneg' hreg', ⟨hoperation ▸ hoperates.null, hoperation ▸ hoperates.load⟩,
      hcount'.trans (hcount.trans hloads), ?_, fun k => ?_⟩
    · rw [lastInserted, hres]
      rfl
    · rw [insertedResults, hres]
      refine (InstructionTable.mem_insertInstruction _ _ _).trans ?_
      rw [(takeOperands_eq_some h₂).2.1, hT, h.keys]
      simp [entry, loadedRegs, or_assoc]
  · next hop =>
    cases h'
    refine hheld ?_
    rw [insertedResult, if_neg fun hboth => hop (hoperates.iff.mpr hboth.2)]

/-! ### The stores -/

theorem recordStore_waits {operand0 : Operand} {storeDest : Reg} {isArray : Bool}
    (h : s.recordStore operand0 storeDest isArray = some s') :
    s'.isNegated = s.isNegated ∧ s'.tmpLogicOperatorDestReg = s.tmpLogicOperatorDestReg := by
  unfold recordStore at h
  split at h
  · obtain ⟨IM, -, rfl⟩ := Option.map_eq_some_iff.mp h
    exact ⟨rfl, rfl⟩
  split at h
  · split at h <;> cases h <;> exact ⟨rfl, rfl⟩
  · cases h
    exact ⟨rfl, rfl⟩

/-- An operator inserted since the last store takes its operation from an instruction since then. -/
theorem lastInserted_eq_none (h : lastRecognised past = none) : lastInserted past = none := by
  induction past with
  | nil => rfl
  | cons I past ih =>
    rw [lastInserted]
    split
    · rfl
    · next hstore =>
      have hstore : I.isStore = false := Bool.not_eq_true _ ▸ hstore
      have hres : insertedResult past I = none := by
        unfold insertedResult
        split
        · rw [h, Option.any_none, if_neg (by simp)]
        · rfl
      rw [lastRecognised_cons hstore] at h
      split at h
      · cases h
      · rw [hres, Option.none_or, ih h]

theorem loads_eq_zero (h : lastRecognised past = none) : (sinceStore past).countP Instruction.isLoad = 0 := by
  rw [List.countP_eq_zero]
  intro I hI hload
  refine (List.find?_eq_none.mp h) I hI ?_
  cases I <;> simp_all [Instruction.isLoad, Instruction.isRecognised]

theorem Follows.handleStoreInstruction (h : Follows info past s) {operand0 : Operand} {pointer : Reg}
    (h' : s.handleStoreInstruction info operand0 pointer = some s') :
    Follows info (.store operand0 pointer :: past) s' := by
  have hsince : sinceStore (.store operand0 pointer :: past) = [] := rfl
  have hwait : waiting (.store operand0 pointer :: past) = waiting past := waiting_cons rfl fun _ => rfl
  simp only [DependencyDetector.handleStoreInstruction] at h'
  split at h'
  · next hnull =>
    have hlast := h.null.mp hnull
    cases h'
    refine ⟨h.toWaits.of_eq hwait rfl rfl, ⟨?_, ?_⟩, ?_, ?_, h.keys⟩
    · exact iff_of_true hnull rfl
    · exact iff_of_false (fun hload => by cases hnull.symm.trans hload) (by simp [lastRecognised, hsince])
    · exact h.loads.trans (loads_eq_zero hlast)
    · exact h.destReg.trans (by rw [lastInserted_eq_none hlast]; rfl)
  · obtain ⟨s₁, h₁, rfl⟩ := Option.map_eq_some_iff.mp h'
    obtain ⟨hneg, hreg⟩ := recordStore_waits h₁
    refine ⟨h.toWaits.of_eq hwait hneg hreg, ⟨?_, ?_⟩, rfl, rfl, fun k => ?_⟩
    · exact iff_of_true rfl rfl
    · exact iff_of_false (by simp [endStore]) (by simp [lastRecognised, hsince])
    · exact ((recordStore_eq_some h₁).2.2 k).trans (h.keys k)

/-! ### Every run -/

/-- **The state of the detector follows the instructions before it.** -/
theorem follows_of_run {actions : List (Reg × Instruction)} (h : run (step info) init actions = some s) :
    Follows info (info.scheduled actions) s := by
  refine run_induction (P := fun actions s => Follows info (info.scheduled actions) s)
    (follows_init info) ?_ h
  rintro actions s ⟨BB, I⟩ s' - hs hstep
  rw [CollectInfo.scheduled_snoc]
  unfold step at hstep
  split at hstep
  case isFalse hvalid =>
    cases hstep
    rw [if_neg hvalid]
    exact hs
  case isTrue hvalid =>
  rw [if_pos hvalid]
  cases I with
  | binaryOperator result opcode operand0 operand1 => exact hs.handleBinaryOperator hstep
  | load result pointer =>
    cases hstep
    exact hs.handleLoad result pointer
  | store operand0 pointer => exact hs.handleStoreInstruction hstep
  | other result =>
    cases hstep
    exact hs.other result
  | sExt | getElementPtr | branch => cases hvalid

/-- An operator inserted since the last store is one of those inserted. -/
theorem mem_insertedResults {r : Reg} (h : lastInserted past = some r) : r ∈ insertedResults past := by
  induction past with
  | nil => cases h
  | cons I past ih =>
    rw [lastInserted] at h
    split at h
    · cases h
    · rw [insertedResults, List.mem_append, Option.mem_toList]
      rcases Option.or_eq_some_iff.mp h with h | ⟨-, h⟩
      · exact .inl h
      · exact .inr (ih h)

theorem binaryOperator_mem_of_insertedResults {r : Reg} (h : r ∈ insertedResults past) :
    ∃ opcode operand0 operand1, .binaryOperator r opcode operand0 operand1 ∈ past := by
  induction past with
  | nil => cases h
  | cons I past ih =>
    rw [insertedResults, List.mem_append, Option.mem_toList] at h
    rcases h with h | h
    · unfold insertedResult at h
      split at h
      · obtain ⟨-, h⟩ := Option.ite_none_right_eq_some.mp h
        cases h
        exact ⟨_, _, _, List.mem_cons_self⟩
      · cases h
    · obtain ⟨opcode, operand0, operand1, hmem⟩ := ih h
      exact ⟨opcode, operand0, operand1, List.mem_cons_of_mem _ hmem⟩

/-- What a store records, from the instructions before it. -/
theorem Follows.recordsKnown_iff (h : Follows info past s) (operand0 : Operand) (pointer : Reg) :
    s.RecordsKnown info (.store operand0 pointer) ↔
      (info.isValidInst (.store operand0 pointer) → Recordable info past operand0) := by
  unfold RecordsKnown Recordable
  have hcopy : (s.loadCount = 1 ∧ s.operation = .load) ↔ isCopy past = true := by
    rw [h.loads, h.load, isCopy, Bool.and_eq_true, decide_eq_true_iff]
  have hop : s.operation ≠ .null ↔ (lastRecognised past).isSome := by
    rw [ne_eq, h.null, Option.isSome_iff_ne_none]
  have hdest : (s.destReg ≠ nullptr ∨ nullptr ∈ s.IM.instructionMap) ↔ ((lastInserted past).isSome ∨
      nullptr ∈ insertedResults past ∨ nullptr ∈ loadedRegs info past) := by
    rw [h.keys, h.destReg]
    cases hlast : lastInserted past with
    | none => simp
    | some r =>
      refine iff_of_true ?_ (.inl rfl)
      by_cases hr : r = nullptr
      · exact .inr (.inl (hr ▸ mem_insertedResults hlast))
      · exact .inl hr
  rw [hop]
  refine imp_congr_right fun _ => imp_congr_right fun _ => ?_
  by_cases hc : isCopy past = true
  · rw [if_pos (hcopy.mpr hc), if_pos hc, h.keys]
  · rw [if_neg (hcopy.not.mpr hc), if_neg hc, hdest]

/-- The value of a copy is what its load gives: where results are distinct, that is no result of an
operator and no register that was loaded, so the copy is not recordable. -/
theorem not_recordable_copy {actions : List (Reg × Instruction)} {operand0 : Operand} {pointer : Reg}
    (hl : DistinctResults info actions) (hcopy : isCopy (info.scheduled actions) = true)
    (hload : .load operand0.address pointer ∈ info.scheduled actions) :
    ¬ Recordable info (info.scheduled actions) operand0 := by
  have hmem : ∀ {J}, J ∈ info.scheduled actions → ∃ BB, (BB, J) ∈ actions := by
    intro J hJ
    obtain ⟨⟨BB, J⟩, hI, rfl⟩ := List.mem_map.mp (List.mem_of_mem_filter (List.mem_reverse.mp hJ))
    exact ⟨BB, hI⟩
  obtain ⟨BB, hI⟩ := hmem hload
  have hresult : operand0.address ∈ resultsIn actions := List.mem_filterMap.mpr ⟨_, hI, rfl⟩
  rw [isCopy, Bool.and_eq_true] at hcopy
  have hlast : (lastRecognised (info.scheduled actions)).isSome := by
    cases h : lastRecognised (info.scheduled actions) with
    | none => simp [h] at hcopy
    | some I => rfl
  intro hrec
  have hrec := hrec hlast
  rw [if_pos (by rw [isCopy, Bool.and_eq_true]; exact hcopy)] at hrec
  rcases hrec with hop | hreg
  · obtain ⟨opcode, operand0', operand1', hop⟩ := binaryOperator_mem_of_insertedResults hop
    obtain ⟨BB', hJ⟩ := hmem hop
    have hsymm : Std.Symm fun I J : Reg × Instruction =>
        ∀ k, I.2.result = some k → ∀ k', J.2.result = some k' → k ≠ k' :=
      ⟨fun _ _ h k hk k' hk' => (h k' hk' k hk).symm⟩
    exact (List.pairwise_filterMap.mp hl.nodup).forall hI hJ (by simp) _ rfl _ rfl rfl
  · refine hl.ne_allocated _ hresult ?_
    obtain ⟨J, hJ, hreg⟩ := List.mem_filterMap.mp hreg
    obtain ⟨BB', hJ⟩ := hmem hJ
    exact List.mem_filterMap.mpr ⟨_, hJ, hreg⟩

/-- A state in which the detector is after some of the instructions. -/
def Reached (info : CollectInfo) (basicBlocks : List BasicBlock) (s : DependencyDetector) : Prop :=
  ∃ before, before <+: instructions basicBlocks ∧ run (step info) init before = some s

/-- **The registers recorded are known in every state reached exactly when every store of the program**
that the detector gets past **is recordable.** -/
theorem sourcesKnown_iff_recordable (info : CollectInfo) (basicBlocks : List BasicBlock) :
    (∀ s, Reached info basicBlocks s → s.SourcesKnown) ↔
      ∀ before BB operand0 pointer, before ++ [(BB, .store operand0 pointer)] <+: instructions basicBlocks →
        (run (step info) init (before ++ [(BB, .store operand0 pointer)])).isSome →
        info.isValidInst (.store operand0 pointer) → Recordable info (info.scheduled before) operand0 := by
  have hdest : ∀ before s, run (step info) init before = some s → s.DestKnown := fun before s hrun =>
    run_invariant (Q := fun _ => True) (.inl rfl) (fun s I s' _ hs h => destKnown_step hs h)
      (fun _ _ => trivial) hrun
  constructor
  · intro hall before BB operand0 pointer hpre hsome
    obtain ⟨s', hrun'⟩ := Option.isSome_iff_exists.mp hsome
    obtain ⟨s, hrun, hstep⟩ := exists_of_run_snoc hrun'
    refine ((follows_of_run hrun).recordsKnown_iff operand0 pointer).mp ?_
    have hs := hall s ⟨before, (List.prefix_append before _).trans hpre, hrun⟩
    exact (sourcesKnown_step hs (hdest before s hrun) hstep).mp (hall s' ⟨_, hpre, hrun'⟩)
  · rintro hall s ⟨before, hpre, hrun⟩
    refine run_induction (P := fun before s => before <+: instructions basicBlocks → s.SourcesKnown)
      (fun _ => ?_) ?_ hrun hpre
    · simp [sourcesKnown_iff, init]
    · rintro before s ⟨BB, I⟩ s' hrun ih hstep hpre
      have hs := ih ((List.prefix_append before _).trans hpre)
      refine (sourcesKnown_step hs (hdest before s hrun) hstep).mpr ?_
      cases I with
      | store operand0 pointer =>
        refine ((follows_of_run hrun).recordsKnown_iff operand0 pointer).mpr ?_
        exact hall before BB operand0 pointer hpre (by rw [run_snoc hrun, hstep]; rfl)
      | _ => trivial

/-- Scalar variables at the addresses 16, 20 and 24. -/
def scalars : CollectInfo :=
  { aliasInfoMap := ExtTreeMap.ofList [(16, []), (20, []), (24, [])], arraysInfoMap := ∅, loopBodyList := []
    iteratorsAliasMap := ∅, combinedIterators := [], PIT := ∅ }

/-- `c = a & b; a = b ^ ~c`, and the result of the `xor` stored once more after a load. -/
def storesBlock : BasicBlock :=
  ⟨8, [.load 100 16, .load 104 20, .binaryOperator 108 .and (.value 100) (.value 104), .store (.value 108) 24,
    .load 112 20, .load 116 24, .binaryOperator 120 .xor (.value 116) (.constantInt 64 (-1)),
    .binaryOperator 124 .xor (.value 112) (.value 120), .store (.value 124) 16,
    .load 128 20, .store (.value 124) 24]⟩

/-- Its three stores are recordable, the one after a load alone too. -/
theorem sourcesKnown_iff_recordable_stores :
    (run (step scalars) init (instructions [storesBlock])).isSome ∧
      ∀ s, Reached scalars [storesBlock] s → s.SourcesKnown := by
  refine ⟨by decide +kernel, (sourcesKnown_iff_recordable scalars [storesBlock]).mpr ?_⟩
  intro before BB operand0 pointer hpre _ _
  have hlt : before.length < 11 := by
    have hlength := hpre.length_le
    rw [List.length_append, List.length_singleton] at hlength
    exact hlength
  have hbefore := List.prefix_iff_eq_take.mp ((List.prefix_append before _).trans hpre)
  have hget : (instructions [storesBlock])[before.length]? = some (BB, .store operand0 pointer) := by
    obtain ⟨after, hafter⟩ := hpre
    rw [← hafter, List.append_assoc, List.getElem?_append_right (Nat.le_refl _), Nat.sub_self]
    rfl
  rw [hbefore]
  generalize before.length = i at hlt hget
  interval_cases i <;> cases hget <;> decide

/-- Two scalar variables, at the addresses 16 and 20. -/
def twoScalars : CollectInfo :=
  { aliasInfoMap := ExtTreeMap.ofList [(16, []), (20, [])], arraysInfoMap := ∅, loopBodyList := []
    iteratorsAliasMap := ∅, combinedIterators := [], PIT := ∅ }

/-- `d = s`: the variable at 16 is loaded into 100, which is stored to the variable at 20. -/
def copyBlock : BasicBlock := ⟨8, [.load 100 16, .store (.value 100) 20]⟩

theorem copyBlock_isSome : (run (step twoScalars) init (instructions [copyBlock])).isSome := by
  decide +kernel

/-- A copy records the result of its load, which is no key of the table. -/
theorem copy_not_known :
    ∃ s, Reached twoScalars [copyBlock] s ∧ s.getRealSrcReg 20 = 100 ∧
      s.IM.getAvailableTime (s.getRealSrcReg 20) = none ∧ ¬ s.SourcesKnown := by
  have hreg : ((run (step twoScalars) init (instructions [copyBlock])).get copyBlock_isSome).getRealSrcReg 20 =
      100 := by decide +kernel
  have htime : ((run (step twoScalars) init (instructions [copyBlock])).get
      copyBlock_isSome).IM.getAvailableTime 100 = none := by decide +kernel
  have hmem : 20 ∈ ((run (step twoScalars) init (instructions [copyBlock])).get
      copyBlock_isSome).lastUsedRegMap := by decide +kernel
  refine ⟨_, ⟨_, List.prefix_refl _, (Option.some_get copyBlock_isSome).symm⟩, hreg, ?_, fun hknown => ?_⟩
  · rw [hreg, htime]
  · have hsome := hknown.2 20 hmem
    rw [hreg, htime] at hsome
    cases hsome

end DependencyDetector

end Octantis
