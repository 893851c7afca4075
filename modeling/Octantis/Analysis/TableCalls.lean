import Octantis.Analysis.AccumulationTags
import Octantis.Analysis.Entries
import Octantis.Analysis.Operands
import Octantis.Utils.InstructionOrder

/-!
# The calls of the detector

The detector fills the instruction table by calls of its functions, and the scheduler
changes the times of the entries the same way. The order in which the binder goes over
the entries is settled by these calls.

## The model

`OfInstruction` says which calls an instruction makes: a load enters its allocated register,
an operator its result, and a store changes entries that are there.

## What is proved

* `exists_calls_of_step`: a step of the detector is a history of the calls of its instruction;
* `exists_orderedBy_step`: every step keeps the order;
* `order_of_schedule`: the table that the binder gets lists every key once, the registers
  loaded in the order of their first loads, and then the operators in the order of the program.

## Honest scope

The results are distinct LLVM values. An operator that is a complement held back is not
in the table.
-/

namespace Octantis

open Std Lib

/-- The calls that an instruction makes. -/
def TableCall.OfInstruction (info : CollectInfo) (I : Reg × Instruction) : TableCall → Prop
  | .insertLoadInstruction destReg oT => (∃ result pointer, I.2 = .load result pointer ∧
      destReg = info.getAllocatedReg pointer) ∧ oT = DependencyDetector.regType (info.isArray destReg)
  | .insertInstruction d => (∃ opcode operand0 operand1,
      I.2 = .binaryOperator d.destinationReg opcode operand0 operand1) ∧ d.operation ≠ .load ∧
        d.specifications = [] ∧ d.isInLoopBody = info.isLoopBody I.1
  | .modifyGivenField _ field _ _ => (∃ operand0 pointer, I.2 = .store operand0 pointer) ∧
      field ≠ .srcReg1 ∧ field ≠ .srcReg2
  | .addSpecToInstruction _ spec => (∃ operand0 pointer, I.2 = .store operand0 pointer) ∧ spec = "accumulation"
  | .swapOperands _ => ∃ operand0 pointer, I.2 = .store operand0 pointer
  | .setInstructionTimeAndDelay .. | .reorderInstructionVector => False

namespace TableCall.OfInstruction

variable {info : CollectInfo} {I : Reg × Instruction} {c : TableCall} {result pointer : Reg} {opcode : Opcode}
  {operand0 operand1 : Operand}

/-- The call of a load. -/
theorem load (h : c.OfInstruction info I) (hI : I.2 = .load result pointer) :
    ∃ oT, c = .insertLoadInstruction (info.getAllocatedReg pointer) oT := by
  cases c with
  | insertLoadInstruction destReg oT =>
    obtain ⟨⟨result', pointer', hI', rfl⟩, -⟩ := h
    obtain ⟨-, rfl⟩ := Instruction.load.inj (hI.symm.trans hI')
    exact ⟨oT, rfl⟩
  | insertInstruction =>
    obtain ⟨⟨_, _, _, hop⟩, -⟩ := h
    cases hI.symm.trans hop
  | modifyGivenField | addSpecToInstruction =>
    obtain ⟨⟨_, _, hstore⟩, -⟩ := h
    cases hI.symm.trans hstore
  | swapOperands =>
    obtain ⟨_, _, hstore⟩ := h
    cases hI.symm.trans hstore
  | setInstructionTimeAndDelay | reorderInstructionVector => exact h.elim

/-- The call of an operator. -/
theorem operator (h : c.OfInstruction info I) (hI : I.2 = .binaryOperator result opcode operand0 operand1) :
    ∃ d, c = .insertInstruction d ∧ d.destinationReg = result ∧ d.operation ≠ .load := by
  cases c with
  | insertInstruction d =>
    obtain ⟨⟨_, _, _, hI'⟩, hop, -⟩ := h
    obtain ⟨rfl, -⟩ := Instruction.binaryOperator.inj (hI'.symm.trans hI)
    exact ⟨d, rfl, rfl, hop⟩
  | insertLoadInstruction =>
    obtain ⟨⟨_, _, hload, -⟩, -⟩ := h
    cases hI.symm.trans hload
  | modifyGivenField | addSpecToInstruction =>
    obtain ⟨⟨_, _, hstore⟩, -⟩ := h
    cases hI.symm.trans hstore
  | swapOperands =>
    obtain ⟨_, _, hstore⟩ := h
    cases hI.symm.trans hstore
  | setInstructionTimeAndDelay | reorderInstructionVector => exact h.elim

/-- The calls of the other instructions enter nothing. -/
theorem entered_eq_nil (h : c.OfInstruction info I) (hload : ∀ result pointer, I.2 ≠ .load result pointer)
    (hop : ∀ result opcode operand0 operand1, I.2 ≠ .binaryOperator result opcode operand0 operand1)
    (T : InstructionTable) : T.entered c = [] := by
  cases c with
  | insertLoadInstruction =>
    obtain ⟨⟨result, pointer, hI, -⟩, -⟩ := h
    exact absurd hI (hload result pointer)
  | insertInstruction d =>
    obtain ⟨⟨opcode, operand0, operand1, hI⟩, -⟩ := h
    exact absurd hI (hop _ opcode operand0 operand1)
  | modifyGivenField | addSpecToInstruction | swapOperands => rfl
  | setInstructionTimeAndDelay | reorderInstructionVector => exact h.elim

end TableCall.OfInstruction

/-- The results of the operators. -/
def operatorsIn (l : List (Reg × Instruction)) : List Reg :=
  l.filterMap fun I =>
    match I.2 with
    | .binaryOperator result _ _ _ => some result
    | _ => none

namespace DependencyDetector

open InstructionTable

variable {info : CollectInfo} {s s' : DependencyDetector} {I : Reg × Instruction} {T T' : InstructionTable}
  {l : List (Reg × Instruction)}

/-! ### A step, as calls -/

/-- A store changes the entry of a register by calls. -/
theorem exists_calls_of_setStored (info : CollectInfo) (IM : InstructionTable) (reg ptr : Reg) (isArray : Bool) {operand0 : Operand}
    {pointer : Reg} (hI : I.2 = .store operand0 pointer) :
    ∃ calls, run call IM calls = some (setStored IM reg isArray ptr) ∧ ∀ c ∈ calls, c.OfInstruction info I := by
  refine ⟨[.modifyGivenField reg .destRegPtr (if isArray then ptr else nullptr) .undefined,
    .modifyGivenField reg .destRegType nullptr (regType isArray)], rfl, ?_⟩
  simp only [List.mem_cons, List.not_mem_nil, or_false, forall_eq_or_imp, forall_eq]
  exact ⟨⟨⟨_, _, hI⟩, by decide, by decide⟩, ⟨_, _, hI⟩, by decide, by decide⟩

/-- The calls of a store. -/
theorem exists_calls_of_recordStore (info : CollectInfo) {operand0 operand : Operand} {pointer storeDest : Reg} {isArray : Bool}
    (hI : I.2 = .store operand0 pointer) (h : s.recordStore operand storeDest isArray = some s') :
    ∃ calls, run call s.IM calls = some s'.IM ∧ ∀ c ∈ calls, c.OfInstruction info I := by
  unfold recordStore at h
  split at h
  · obtain ⟨IM, hIM, rfl⟩ := Option.map_eq_some_iff.mp h
    unfold storeOperation at hIM
    split at hIM
    · obtain ⟨d, -, hIM⟩ := Option.bind_eq_some_iff.mp hIM
      split at hIM
      · obtain ⟨T, hT, rfl⟩ := Option.map_eq_some_iff.mp hIM
        obtain ⟨stored, hrun, hstored⟩ :=
          exists_calls_of_setStored info T s.destReg s.tmpPtrDest isArray hI
        -- the tag comes before the exchange
        by_cases hmany : s.loadCount > 2
        · rw [if_pos hmany] at hT
          refine ⟨.addSpecToInstruction s.destReg "accumulation" :: .swapOperands s.destReg :: stored, ?_, ?_⟩
          · rw [run_cons, call, Option.bind_some, run_cons, call, hT, Option.bind_some, hrun]
          · simp only [List.mem_cons, forall_eq_or_imp]
            exact ⟨⟨⟨_, _, hI⟩, rfl⟩, ⟨_, _, hI⟩, hstored⟩
        · rw [if_neg hmany, Option.some.injEq] at hT
          subst hT
          refine ⟨.addSpecToInstruction s.destReg "accumulation" :: stored, ?_, ?_⟩
          · rw [run_cons, call, Option.bind_some, hrun]
          · simp only [List.mem_cons, forall_eq_or_imp]
            exact ⟨⟨⟨_, _, hI⟩, rfl⟩, hstored⟩
      · cases hIM
        exact ⟨[], rfl, by simp⟩
    · cases hIM
      exact exists_calls_of_setStored _ _ _ _ _ hI
  split at h
  · split at h
    · cases h
      obtain ⟨stored, hrun, hstored⟩ :=
        exists_calls_of_setStored info s.IM s.srcReg1 s.tmpPtrDest isArray hI
      refine ⟨stored ++ [.modifyGivenField s.srcReg1 .srcReg2Type nullptr (regType isArray),
        .modifyGivenField s.srcReg1 .destReg operand.address .undefined], ?_, ?_⟩
      · rw [run_append, hrun]
        rfl
      · simp only [List.mem_append, List.mem_cons, List.not_mem_nil, or_false]
        rintro c (hc | rfl | rfl)
        · exact hstored c hc
        · exact ⟨⟨_, _, hI⟩, by decide, by decide⟩
        · exact ⟨⟨_, _, hI⟩, by decide, by decide⟩
    · cases h
      exact exists_calls_of_setStored _ _ _ _ _ hI
  · cases h
    exact ⟨[], rfl, by simp⟩

/-- How many calls an instruction makes: a load that is handled one, an operator one at most. -/
def CallsOf (info : CollectInfo) (I : Reg × Instruction) (calls : List TableCall) : Prop :=
  match I.2 with
  | .load _ _ => info.isValidInst I.2 = true → calls.length = 1
  | .store _ _ => True
  | _ => calls.length ≤ 1

/-- **A step is a history of the calls of its instruction.** -/
theorem exists_calls_of_step (h : step info s I = some s') :
    ∃ calls, run call s.IM calls = some s'.IM ∧ (∀ c ∈ calls, c.OfInstruction info I) ∧ CallsOf info I calls := by
  unfold step at h
  split at h
  case isFalse hvalid =>
    cases h
    refine ⟨[], rfl, by simp, ?_⟩
    unfold CallsOf
    split
    · exact fun hv => absurd hv hvalid
    · trivial
    · exact Nat.zero_le 1
  case isTrue =>
  have hsame : (∀ result pointer, I.2 ≠ .load result pointer) → s'.IM = s.IM → ∃ calls,
      run call s.IM calls = some s'.IM ∧ (∀ c ∈ calls, c.OfInstruction info I) ∧ CallsOf info I calls := by
    intro hload hT
    refine ⟨[], by rw [hT]; rfl, by simp, ?_⟩
    unfold CallsOf
    split
    · next hI => exact absurd hI (hload _ _)
    · trivial
    · exact Nat.zero_le 1
  cases hI : I.2 with
  | binaryOperator result opcode operand0 operand1 =>
    have hload : ∀ result pointer, I.2 ≠ .load result pointer := by simp [hI]
    rw [hI] at h
    obtain ⟨s₁, h₁, h⟩ := Option.bind_eq_some_iff.mp h
    obtain ⟨-, hT, -⟩ := recogniseOperation_eq_some h₁
    split at h
    · cases h
      exact hsame hload hT
    unfold handleInstructionInserting at h
    split at h
    · next hop =>
      obtain ⟨s₂, h₂, rfl⟩ := Option.map_eq_some_iff.mp h
      obtain ⟨-, hT', -⟩ := takeOperands_eq_some h₂
      refine ⟨[.insertInstruction (s₂.entry result (info.isLoopBody I.1))], ?_, ?_, ?_⟩
      · rw [run_cons, call, ← hT, ← hT']
        rfl
      · simp only [List.mem_singleton, forall_eq]
        refine ⟨⟨opcode, operand0, operand1, hI⟩, ?_, rfl, rfl⟩
        have hsame := operation_takeOperands h₂
        show s₂.operation ≠ .load
        rw [hsame]
        exact hop.2
      · simp [CallsOf, hI]
    · cases h
      exact hsame hload hT
  | load result pointer =>
    rw [hI] at h
    cases h
    refine ⟨[.insertLoadInstruction (info.getAllocatedReg pointer)
      (regType (info.isArray (info.getAllocatedReg pointer)))], ?_, ?_, ?_⟩
    · rw [IM_handleLoad]
      rfl
    · simp only [List.mem_singleton, forall_eq]
      exact ⟨⟨result, pointer, hI, rfl⟩, rfl⟩
    · simp [CallsOf, hI]
  | store operand0 pointer =>
    have hload : ∀ result pointer, I.2 ≠ .load result pointer := by simp [hI]
    rw [hI] at h
    simp only [handleStoreInstruction] at h
    split at h
    · cases h
      exact hsame hload rfl
    · obtain ⟨s₁, h₁, rfl⟩ := Option.map_eq_some_iff.mp h
      obtain ⟨calls, hrun, hall⟩ := exists_calls_of_recordStore info hI h₁
      exact ⟨calls, hrun, hall, by simp [CallsOf, hI]⟩
  | sExt | getElementPtr | branch | other =>
    have hload : ∀ result pointer, I.2 ≠ .load result pointer := by simp [hI]
    rw [hI] at h
    cases h
    exact hsame hload rfl

/-! ### The order -/

theorem allocatedIn_snoc (l : List (Reg × Instruction)) (I : Reg × Instruction) : allocatedIn info (l ++ [I]) =
    allocatedIn info l ++ match I.2 with
      | .load _ pointer => [info.getAllocatedReg pointer]
      | _ => [] := by
  rw [allocatedIn, List.filterMap_append, ← allocatedIn]
  cases hI : I.2 <;> simp [hI]

theorem operatorsIn_snoc (l : List (Reg × Instruction)) (I : Reg × Instruction) : operatorsIn (l ++ [I]) =
    operatorsIn l ++ match I.2 with
      | .binaryOperator result _ _ _ => [result]
      | _ => [] := by
  rw [operatorsIn, List.filterMap_append, ← operatorsIn]
  cases hI : I.2 <;> simp [hI]

/-- The table is that of a log with the registers loaded, in the order of their first loads, and
operators in the order of the instructions. -/
structure OrderedBy (info : CollectInfo) (l : List (Reg × Instruction)) (log : List (Reg × Operation))
    (T : InstructionTable) : Prop where
  logged : LogInv log T
  loads : (log.filter (·.2 = .load)).map (·.1) = (allocatedIn info l).eraseDups
  operators : ((log.filter (·.2 ≠ .load)).map (·.1)).Sublist (operatorsIn l)

namespace OrderedBy

variable {log : List (Reg × Operation)} (h : OrderedBy info l log T)
include h

/-- A register that is the result of no operator is a key exactly when it is loaded. -/
theorem mem_iff {reg : Reg} (hreg : reg ∉ operatorsIn l) : reg ∈ T.instructionMap ↔ reg ∈ allocatedIn info l := by
  rw [← h.logged.mem_iff, ← List.mem_eraseDups (l := allocatedIn info l), ← h.loads]
  simp only [List.mem_map, List.mem_filter, decide_eq_true_eq]
  constructor
  · rintro ⟨e, he, rfl⟩
    refine ⟨e, ⟨he, ?_⟩, rfl⟩
    by_contra hop
    apply hreg
    exact h.operators.subset (List.mem_map.mpr ⟨e, List.mem_filter.mpr ⟨he, decide_eq_true hop⟩, rfl⟩)
  · rintro ⟨e, ⟨he, -⟩, rfl⟩
    exact ⟨e, he, rfl⟩

/-- A load. -/
theorem load {result pointer : Reg} (hI : I.2 = .load result pointer)
    (hreg : info.getAllocatedReg pointer ∉ operatorsIn l) (oT : OperandType) :
    ∃ log', OrderedBy info (l ++ [I]) log' (T.insertLoadInstruction (info.getAllocatedReg pointer) oT) := by
  have hkey := h.mem_iff hreg
  refine ⟨_, h.logged.call (c := .insertLoadInstruction (info.getAllocatedReg pointer) oT) trivial rfl, ?_, ?_⟩
  · rw [allocatedIn_snoc, hI, List.eraseDups_append, ← h.loads, List.filter_append, List.map_append, entered]
    by_cases hmem : info.getAllocatedReg pointer ∈ T.instructionMap
    · rw [if_pos hmem]
      simp [List.removeAll, hkey.mp hmem]
    · rw [if_neg hmem]
      simp [List.removeAll, mt hkey.mpr hmem, List.eraseDups_cons]
  · rw [operatorsIn_snoc, hI, List.filter_append, List.map_append, entered]
    have hnone : (if info.getAllocatedReg pointer ∈ T.instructionMap then []
        else [(info.getAllocatedReg pointer, Operation.load)]).filter (·.2 ≠ .load) = [] := by
      split <;> simp
    rw [hnone, List.map_nil]
    exact h.operators.append (List.Sublist.refl [])

/-- An operator that is inserted. -/
theorem operator {d : InstructionData} {opcode : Opcode} {operand0 operand1 : Operand}
    (hI : I.2 = .binaryOperator d.destinationReg opcode operand0 operand1)
    (hnew : d.destinationReg ∉ T.instructionMap) (hop : d.operation ≠ .load) :
    ∃ log', OrderedBy info (l ++ [I]) log' (T.insertInstruction d) := by
  refine ⟨_, h.logged.call (c := .insertInstruction d) hnew rfl, ?_, ?_⟩
  · rw [allocatedIn_snoc, hI, List.append_nil, ← h.loads, List.filter_append, List.map_append, entered]
    simp [hop]
  · rw [operatorsIn_snoc, hI, List.filter_append, List.map_append, entered]
    refine h.operators.append ?_
    simp [hop]

/-- Calls that enter nothing. -/
theorem other (calls : List TableCall) (hload : ∀ result pointer, I.2 ≠ .load result pointer)
    (hcalls : ∀ c ∈ calls, ∀ T, InstructionTable.entered T c = []) (hrun : run call T calls = some T') : OrderedBy info (l ++ [I]) log T' := by
  have hfresh : ∀ c : TableCall, (∀ T, InstructionTable.entered T c = []) → ∀ T : InstructionTable, T.FreshResult c := by
    intro c hc T
    cases c with
    | insertInstruction d => exact absurd (hc T) (by simp [entered])
    | insertLoadInstruction | modifyGivenField | addSpecToInstruction | swapOperands
    | setInstructionTimeAndDelay | reorderInstructionVector => trivial
  have hlog' : LogInv log T' := by
    refine run_invariant (Q := fun c => ∀ T, InstructionTable.entered T c = []) h.logged ?_
      hcalls hrun
    intro T c T' hc hlog hcall
    have hlog' := hlog.call (hfresh c hc T) hcall
    rwa [hc, List.append_nil] at hlog'
  refine ⟨hlog', ?_, ?_⟩
  · rw [allocatedIn_snoc, h.loads]
    cases hI : I.2 with
    | load result pointer => exact absurd hI (hload result pointer)
    | binaryOperator | store | sExt | getElementPtr | branch | other => rw [List.append_nil]
  · rw [operatorsIn_snoc]
    exact h.operators.trans (List.sublist_append_left _ _)

end OrderedBy

/-- **A step keeps the order**, when the result of its operator is no key yet and the register that it
loads is the result of no operator. -/
theorem exists_orderedBy_step {log : List (Reg × Operation)} (h : OrderedBy info l log s.IM)
    (hnew : ∀ result opcode operand0 operand1, I.2 = .binaryOperator result opcode operand0 operand1 →
      result ∉ s.IM.instructionMap)
    (hreg : ∀ result pointer, I.2 = .load result pointer → info.getAllocatedReg pointer ∉ operatorsIn l)
    (hI : isHandled info I = true) (hstep : step info s I = some s') :
    ∃ log', OrderedBy info (l ++ [I]) log' s'.IM := by
  obtain ⟨calls, hrun, hcalls, hcount⟩ := exists_calls_of_step hstep
  cases hinst : I.2 with
  | load result pointer =>
    rw [CallsOf, hinst] at hcount
    rw [isHandled, hinst, Bool.and_true] at hI
    obtain ⟨c, rfl⟩ := List.length_eq_one_iff.mp (hcount hI)
    obtain ⟨oT, rfl⟩ := (hcalls c (List.mem_singleton_self c)).load hinst
    rw [← Option.some.inj hrun]
    exact h.load hinst (hreg _ _ hinst) oT
  | binaryOperator result opcode operand0 operand1 =>
    rw [CallsOf, hinst] at hcount
    cases calls with
    | nil =>
      rw [← Option.some.inj hrun]
      exact ⟨log, h.other [] (by simp [hinst]) (by simp) rfl⟩
    | cons c rest =>
      obtain rfl : rest = [] := List.eq_nil_of_length_eq_zero (by simpa using hcount)
      obtain ⟨d, rfl, rfl, hop⟩ := (hcalls c (List.mem_singleton_self c)).operator hinst
      rw [← Option.some.inj hrun]
      exact h.operator hinst (hnew _ _ _ _ hinst) hop
  | store | sExt | getElementPtr | branch | other =>
    exact ⟨log, h.other _ (by simp [hinst]) (fun c hc => (hcalls c hc).entered_eq_nil (by simp [hinst])
      (by simp [hinst])) hrun⟩

/-- The operators are among the results, in the same order. -/
theorem operatorsIn_sublist (l : List (Reg × Instruction)) : (operatorsIn l).Sublist (resultsIn l) := by
  induction l with
  | nil => exact .slnil
  | cons I l ih =>
    rw [operatorsIn, resultsIn, List.filterMap_cons, List.filterMap_cons]
    cases hI : I.2 with
    | binaryOperator result opcode operand0 operand1 => exact ih.cons_cons result
    | load result pointer => exact ih.cons result
    | store | sExt | getElementPtr | branch | other => exact ih

/-- Every run over instructions that are handled, with distinct results. -/
theorem exists_orderedBy_of_run (hl : DistinctResults info l) (hhandled : ∀ I ∈ l, isHandled info I = true)
    (hrun : run (step info) init l = some s) : ∃ log, OrderedBy info l log s.IM := by
  refine run_induction (P := fun before s => before <+: l → ∃ log, OrderedBy info before log s.IM)
    (fun _ => ⟨[], logInv_empty, rfl, List.Sublist.refl []⟩) ?_ hrun (List.prefix_refl l)
  intro before s I s' hbefore ih hstep hpre
  obtain ⟨log, hlog⟩ := ih ((List.prefix_append before [I]).trans hpre)
  have hdistinct : DistinctResults info (before ++ [I]) := hl.sublist hpre.sublist
  refine exists_orderedBy_step hlog ?_ ?_ (hhandled I (hpre.subset (by simp))) hstep
  · intro result opcode operand0 operand1 hI
    refine not_mem_of_run hdistinct hbefore (List.mem_filterMap.mpr ⟨I, List.mem_singleton_self I, ?_⟩)
    rw [hI]
    rfl
  · intro result pointer hI hmem
    refine hdistinct.ne_allocated (info.getAllocatedReg pointer) ((operatorsIn_sublist _).subset ?_) ?_
    · rw [operatorsIn_snoc]
      exact List.mem_append_left _ hmem
    · rw [allocatedIn_snoc, hI]
      exact List.mem_append_right _ (List.mem_singleton_self _)

end DependencyDetector

/-! ### The schedule -/

open DependencyDetector InstructionTable

variable {info : CollectInfo} {s : DependencyDetector} {T T' : InstructionTable} {BBs : List BasicBlock}

/-- The scheduler keeps the log, and reorders the table once more. -/
theorem ASAP.logInv_scheduleFunction {log : List (Reg × Operation)} (h : LogInv log T)
    (hT : ASAP.scheduleFunction T = some T') :
    LogInv log T' ∧ T'.instructionOrderVector = T.reorderInstructionVector.instructionOrderVector := by
  obtain ⟨T₁, hrun, rfl⟩ := Option.map_eq_some_iff.mp hT
  have hall : LogInv log T₁ ∧ T₁.instructionOrderVector = T.instructionOrderVector := by
    refine run_invariant (P := fun T₁ => LogInv log T₁ ∧ T₁.instructionOrderVector = T.instructionOrderVector)
      (Q := fun _ => True) ⟨h, rfl⟩ ?_ (fun _ _ => trivial) hrun
    rintro T₁ e T₂ - ⟨hlog, horder⟩ hstep
    have hset : ∃ time delay, T₂ = T₁.setInstructionTimeAndDelay e.1 time delay := by
      unfold ASAP.step at hstep
      split at hstep
      · exact ⟨0, 0, (Option.some.inj hstep).symm⟩
      · obtain ⟨ti, -, rfl⟩ := Option.map_eq_some_iff.mp hstep
        exact ⟨ti, _, rfl⟩
    obtain ⟨time, delay, rfl⟩ := hset
    exact ⟨hlog.modifyInstruction e.1 fun _ => rfl, horder⟩
  refine ⟨hall.1.reorderInstructionVector, ?_⟩
  rw [reorderInstructionVector, hall.2]
  rfl

/-- The tables of the detector and of the binder are those of one log: the loads of the vector are those of
the registers loaded, and its operators those of the log. -/
theorem ASAP.exists_log_of_schedule (hl : DistinctResults info (handled info (instructions BBs)))
    (hdetect : detectDependencies info BBs = some s) (hT : ASAP.scheduleFunction s.IM = some T) :
    ∃ log, LogInv log s.IM ∧ LogInv log T ∧ T.instructionOrderVector = s.IM.instructionOrderVector ∧
      T.instructionOrderVector = (allocatedIn info (handled info (instructions BBs))).eraseDups.map (·, .load) ++
        log.filter (·.2 ≠ .load) ∧
          ((log.filter (·.2 ≠ .load)).map (·.1)).Sublist (operatorsIn (handled info (instructions BBs))) := by
  obtain ⟨s₁, hrun, rfl⟩ := Option.map_eq_some_iff.mp hdetect
  rw [← run_handled] at hrun
  obtain ⟨log, hlog⟩ := exists_orderedBy_of_run hl (fun I hI => (List.mem_filter.mp hI).2) hrun
  obtain ⟨hlog', horder⟩ := ASAP.logInv_scheduleFunction hlog.logged.reorderInstructionVector hT
  rw [reorderInstructionVector_reorderInstructionVector] at horder
  refine ⟨log, hlog.logged.reorderInstructionVector, hlog', horder, ?_, hlog.operators⟩
  rw [horder, reorderInstructionVector, hlog.logged.loads, hlog.logged.others, ← hlog.loads, List.map_map]
  refine congrArg (· ++ log.filter (·.2 ≠ .load)) ?_
  refine ((List.map_congr_left fun e he => ?_).trans (List.map_id _)).symm
  have hload := of_decide_eq_true (List.mem_filter.mp he).2
  exact Prod.ext rfl hload.symm

theorem sublist_of_cons_sublist_append {α : Type} {x : α} {l l₁ l₂ : List α} (hx : x ∉ l₁)
    (h : (x :: l).Sublist (l₁ ++ l₂)) : (x :: l).Sublist l₂ := by
  obtain ⟨m₁, m₂, heq, h₁, h₂⟩ := List.sublist_append_iff.mp h
  cases m₁ with
  | nil => exact heq ▸ h₂
  | cons y m₁ =>
    obtain ⟨rfl, -⟩ := List.cons.inj heq
    exact absurd (h₁.subset List.mem_cons_self) hx

/-- **An operator is listed before those that come after it** in the program. -/
theorem ASAP.mem_prior_of_schedule {before after : List (Reg × Instruction)} {prior later : List (Reg × Operation)}
    {e : Reg × Operation} {reg : Reg} (hl : DistinctResults info (before ++ after))
    (hsplit : instructions BBs = before ++ after) (hdetect : detectDependencies info BBs = some s)
    (hT : ASAP.scheduleFunction s.IM = some T) (horder : T.instructionOrderVector = prior ++ e :: later)
    (he : e.1 ∈ operatorsIn after) (hreg : reg ∈ operatorsIn before) (hkey : reg ∈ T.instructionMap) :
    reg ∈ prior.map (·.1) := by
  have hhandled : (handled info (instructions BBs)).Sublist (before ++ after) := hsplit ▸ List.filter_sublist
  obtain ⟨log, -, hlog, -, hvector, hoperators⟩ := ASAP.exists_log_of_schedule (hl.sublist hhandled) hdetect hT
  have happend : operatorsIn (before ++ after) = operatorsIn before ++ operatorsIn after := List.filterMap_append
  have hoperators : ((log.filter (·.2 ≠ .load)).map (·.1)).Sublist (operatorsIn (before ++ after)) :=
    hoperators.trans (hhandled.filterMap _)
  have hdisjoint := (List.nodup_append.mp (happend ▸ (operatorsIn_sublist _).nodup hl.nodup)).2.2
  have hloads : ∀ k ∈ operatorsIn (before ++ after),
      k ∉ ((allocatedIn info (handled info (instructions BBs))).eraseDups.map (·, Operation.load)).map (·.1) := by
    intro k hk hmem
    rw [List.map_map] at hmem
    obtain ⟨k', hk', rfl⟩ := List.mem_map.mp hmem
    exact hl.ne_allocated _ ((operatorsIn_sublist _).subset hk)
      ((hhandled.filterMap _).subset (List.mem_eraseDups.mp hk'))
  have hmem := (hlog.listsEveryKey.keys reg).mpr hkey
  rw [horder, List.map_append, List.map_cons, List.mem_append, List.mem_cons] at hmem
  rcases hmem with hmem | rfl | hmem
  · exact hmem
  · exact absurd rfl (hdisjoint _ hreg _ he)
  · -- the operator would be listed after the entry, and so come after it in the program
    have hpair : [e.1, reg].Sublist (T.instructionOrderVector.map (·.1)) := by
      rw [horder, List.map_append, List.map_cons]
      exact ((List.singleton_sublist.mpr hmem).cons_cons e.1).trans (List.sublist_append_right _ _)
    rw [hvector, List.map_append] at hpair
    have hpair := (sublist_of_cons_sublist_append (hloads _ (happend ▸ List.mem_append_right _ he)) hpair).trans hoperators
    rw [happend] at hpair
    have hpair := sublist_of_cons_sublist_append (fun hmem => hdisjoint _ hmem _ he rfl) hpair
    exact absurd rfl (hdisjoint _ hreg _ (hpair.subset (List.mem_cons_of_mem _ List.mem_cons_self)))

/-- **The order of the table that the binder gets**: the registers loaded, in the order of their first
loads, and then operators, in the order of the program; every key is listed once. -/
theorem order_of_schedule (hl : DistinctResults info (handled info (instructions BBs)))
    (hdetect : detectDependencies info BBs = some s) (hT : ASAP.scheduleFunction s.IM = some T) :
    T.ListsEveryKey ∧ T.instructionOrderVector = s.IM.instructionOrderVector ∧
      ∃ operators, T.instructionOrderVector =
          (allocatedIn info (handled info (instructions BBs))).eraseDups.map (·, .load) ++ operators ∧
        (∀ e ∈ operators, e.2 ≠ .load) ∧
        (operators.map (·.1)).Sublist (operatorsIn (handled info (instructions BBs))) := by
  obtain ⟨log, -, hlog, horder, hvector, hoperators⟩ := ASAP.exists_log_of_schedule hl hdetect hT
  refine ⟨hlog.listsEveryKey, horder, log.filter (·.2 ≠ .load), hvector, fun e he => ?_, hoperators⟩
  exact of_decide_eq_true (List.mem_filter.mp he).2

theorem productMinus_isSome :
    ((detectDependencies threeScalars (basicBlocks productMinus)).bind fun s => ASAP.scheduleFunction s.IM).isSome := by
  decide +kernel

/-- The table of `c = a + b; c = c * 3 - a` has three loads, although four are made. -/
theorem order_of_schedule_productMinus : ∃ s T, detectDependencies threeScalars (basicBlocks productMinus) = some s ∧
    ASAP.scheduleFunction s.IM = some T ∧ T.ListsEveryKey ∧
      ∃ operators, T.instructionOrderVector = [(16, .load), (20, .load), (24, .load)] ++ operators := by
  obtain ⟨T, hT⟩ := Option.isSome_iff_exists.mp productMinus_isSome
  obtain ⟨s, hdetect, hT⟩ := Option.bind_eq_some_iff.mp hT
  obtain ⟨hkeys, -, operators, horder, -⟩ := order_of_schedule (by decide +kernel) hdetect hT
  have hloads : (allocatedIn threeScalars (handled threeScalars (instructions (basicBlocks productMinus)))).eraseDups =
      [16, 20, 24] := by decide +kernel
  rw [hloads] at horder
  exact ⟨s, T, hdetect, hT, hkeys, operators, horder⟩

end Octantis
