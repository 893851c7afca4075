import Octantis.Analysis.LastUsedRegMap
import Octantis.Scheduling.ASAP

/-!
# The entries of the detector

The table that the scheduler gets from the detector: none of its entries has a time
yet, and their operations are loads and those that the detector emits.
-/

namespace Octantis

open Std Lib

/-- An entry as the detector makes it. -/
structure InstructionData.Detected (d : InstructionData) : Prop where
  ti : d.ti = 0
  di : d.di = 0
  operation : d.operation = .load ∨ d.operation.isEmitted = true

namespace InstructionTable

variable {T : InstructionTable} {reg : Reg}

/-- The entries are as the detector makes them. -/
def Detected (T : InstructionTable) : Prop := ∀ k d, T.find k = some d → d.Detected

theorem Detected.insertInstruction (h : T.Detected) {d : InstructionData} (hd : d.Detected) :
    (T.insertInstruction d).Detected := by
  intro k d' hd'
  rw [find_insertInstruction] at hd'
  split at hd'
  · exact Option.some.inj hd' ▸ hd
  · exact h k d' hd'

theorem Detected.insertLoadInstruction (h : T.Detected) (oT : OperandType) :
    (T.insertLoadInstruction reg oT).Detected := by
  unfold InstructionTable.insertLoadInstruction
  split
  · exact h
  · exact h.insertInstruction ⟨rfl, rfl, .inl rfl⟩

theorem Detected.modifyInstruction (h : T.Detected) {f : InstructionData → InstructionData}
    (hf : ∀ d, (f d).ti = d.ti ∧ (f d).di = d.di ∧ (f d).operation = d.operation) :
    (T.modifyInstruction reg f).Detected := by
  intro k d' hd'
  rw [find_modifyInstruction] at hd'
  split at hd'
  · obtain ⟨d, hd, rfl⟩ := Option.map_eq_some_iff.mp hd'
    obtain ⟨hti, hdi, hop⟩ := hf d
    obtain ⟨h1, h2, h3⟩ := h k d hd
    exact ⟨hti.trans h1, hdi.trans h2, hop ▸ h3⟩
  · exact h k d' hd'

theorem Detected.modifyGivenField (h : T.Detected) (field : InstructionField) (newField : Reg)
    (oT : OperandType) : (T.modifyGivenField reg field newField oT).Detected :=
  h.modifyInstruction fun d => by cases field <;> exact ⟨rfl, rfl, rfl⟩

end InstructionTable

namespace DependencyDetector

variable {info : CollectInfo} {s s' : DependencyDetector}

/-- The entries are as the detector makes them, and so will be the next one. -/
structure EntriesDetected (s : DependencyDetector) : Prop where
  IM : s.IM.Detected
  operation : s.operation = .null ∨ s.operation = .load ∨ s.operation.isEmitted = true

theorem recogniseOperation_isEmitted {result : Reg} {opcode : Opcode} {operand0 operand1 : Operand}
    (hs : s.operation = .null ∨ s.operation = .load ∨ s.operation.isEmitted = true)
    (h : s.recogniseOperation result opcode operand0 operand1 = some s') :
    s'.operation = .null ∨ s'.operation = .load ∨ s'.operation.isEmitted = true := by
  have hlogic : ∀ operation negated : Operation, operation.isEmitted = true → negated.isEmitted = true →
      s.recogniseLogic operation negated result operand0 operand1 = some s' →
        s'.operation.isEmitted = true := by
    intro operation negated hop hneg h
    unfold recogniseLogic at h
    cases operand1 with
    | constantInt address sExtValue =>
      simp only at h
      split at h <;> cases h <;> exact hop
    | value address =>
      simp only at h
      split at h
      · obtain ⟨reg, -, rfl⟩ := Option.map_eq_some_iff.mp h
        exact hneg
      · cases h
        exact hop
  cases opcode with
  | and => exact .inr (.inr (hlogic _ _ rfl rfl h))
  | or => exact .inr (.inr (hlogic _ _ rfl rfl h))
  | xor =>
    cases h
    refine .inr (.inr ?_)
    unfold recogniseXor
    cases operand1 <;> simp only <;> split <;> rfl
  | unrecognised =>
    cases h
    exact hs
  | _ =>
    cases h
    exact .inr (.inr rfl)

theorem operation_takeOperands {operand0 operand1 : Operand}
    (h : s.takeOperands info operand0 operand1 = some s') : s'.operation = s.operation := by
  have hdest : ∀ reg, (s.takeDestReg reg).operation = s.operation := by
    intro reg
    unfold takeDestReg
    split
    · rfl
    split <;> rfl
  have hptr : ∀ s₁ : DependencyDetector, s₁.multiOperandPtr info = some s' → s'.operation = s₁.operation := by
    intro s₁ h
    unfold multiOperandPtr at h
    split at h
    · split at h
      · cases h
        rfl
      split at h
      · cases h
        rfl
      split at h
      · obtain ⟨p1, -, h⟩ := Option.bind_eq_some_iff.mp h
        obtain ⟨p2, -, rfl⟩ := Option.map_eq_some_iff.mp h
        rfl
      · cases h
        rfl
    · cases h
      rfl
  unfold takeOperands at h
  split at h
  · exact (hptr _ h).trans (hdest _)
  split at h
  · exact (hptr _ h).trans (hdest _)
  · cases h
    cases operand0 <;> cases operand1 <;> rfl

theorem entriesDetected_handleBinaryOperator (hs : s.EntriesDetected) {isInLoopBody : Bool} {result : Reg}
    {opcode : Opcode} {operand0 operand1 : Operand}
    (h : s.handleBinaryOperator info isInLoopBody result opcode operand0 operand1 = some s') :
    s'.EntriesDetected := by
  obtain ⟨s₁, h₁, h⟩ := Option.bind_eq_some_iff.mp h
  have hIM : s₁.IM.Detected := (recogniseOperation_eq_some h₁).2.1 ▸ hs.IM
  have hop := recogniseOperation_isEmitted hs.operation h₁
  split at h
  · cases h
    exact ⟨hIM, hop⟩
  unfold handleInstructionInserting at h
  split at h
  · next hne =>
    obtain ⟨s₂, h₂, rfl⟩ := Option.map_eq_some_iff.mp h
    have hop₂ : s₂.operation.isEmitted = true := by
      rw [operation_takeOperands h₂]
      exact (hop.resolve_left hne.1).resolve_left hne.2
    refine ⟨Octantis.InstructionTable.Detected.insertInstruction ?_ ⟨rfl, rfl, .inr hop₂⟩, .inr (.inr hop₂)⟩
    rw [(takeOperands_eq_some h₂).2.1]
    exact hIM
  · cases h
    exact ⟨hIM, hop⟩

theorem detected_setStored {IM : InstructionTable} (h : IM.Detected) (reg ptr : Reg) (isArray : Bool) :
    (setStored IM reg isArray ptr).Detected := (h.modifyGivenField _ _ _).modifyGivenField _ _ _

theorem detected_recordStore (hs : s.IM.Detected) {operand0 : Operand} {storeDest : Reg} {isArray : Bool}
    (h : s.recordStore operand0 storeDest isArray = some s') : s'.IM.Detected := by
  unfold recordStore at h
  split at h
  · obtain ⟨IM, hIM, rfl⟩ := Option.map_eq_some_iff.mp h
    unfold storeOperation at hIM
    split at hIM
    · obtain ⟨d, -, hIM⟩ := Option.bind_eq_some_iff.mp hIM
      split at hIM
      · obtain ⟨T, hT, rfl⟩ := Option.map_eq_some_iff.mp hIM
        have hspec : (s.IM.addSpecToInstruction s.destReg "accumulation").Detected :=
          hs.modifyInstruction fun d => ⟨rfl, rfl, rfl⟩
        refine detected_setStored ?_ _ _ _
        split at hT
        · obtain ⟨-, rfl⟩ := InstructionTable.swapOperands_eq_some _ _ hT
          exact hspec.modifyInstruction fun d => ⟨rfl, rfl, rfl⟩
        · exact Option.some.inj hT ▸ hspec
      · exact Option.some.inj hIM ▸ hs
    · exact Option.some.inj hIM ▸ detected_setStored hs _ _ _
  split at h
  · split at h
    · cases h
      exact ((detected_setStored hs _ _ _).modifyGivenField _ _ _).modifyGivenField _ _ _
    · cases h
      exact detected_setStored hs _ _ _
  · cases h
    exact hs

/-- **A step keeps the entries as the detector makes them.** -/
theorem entriesDetected_step {I : Reg × Instruction} (hs : s.EntriesDetected) (h : step info s I = some s') :
    s'.EntriesDetected := by
  unfold step at h
  split at h
  case isFalse => cases h; exact hs
  case isTrue =>
  cases hI : I.2 with
  | binaryOperator result opcode operand0 operand1 =>
    rw [hI] at h
    exact entriesDetected_handleBinaryOperator hs h
  | load result pointer =>
    rw [hI] at h
    cases h
    refine ⟨?_, .inr (.inl ?_)⟩
    · rw [IM_handleLoad]
      exact hs.IM.insertLoadInstruction _
    · unfold handleLoad takeLoad
      simp only
      split <;> rfl
  | store operand0 pointer =>
    rw [hI] at h
    simp only [handleStoreInstruction] at h
    split at h
    · cases h
      exact ⟨hs.IM, hs.operation⟩
    · obtain ⟨s₁, h₁, rfl⟩ := Option.map_eq_some_iff.mp h
      have hIM : s₁.IM.Detected :=
        detected_recordStore (s := s.startStore pointer (info.isArray (info.getAllocatedReg pointer))) hs.IM h₁
      exact ⟨hIM, .inl rfl⟩
  | sExt | getElementPtr | branch | other =>
    rw [hI] at h
    cases h
    exact hs

/-- **The table of the detector is unscheduled**, and its operations are loads and operations that
the detector emits. -/
theorem detectDependencies_detected {basicBlocks : List BasicBlock}
    (h : detectDependencies info basicBlocks = some s) : s.IM.Detected ∧ ASAP.Unscheduled s.IM := by
  obtain ⟨s₁, hrun, rfl⟩ := Option.map_eq_some_iff.mp h
  have hall : s₁.EntriesDetected := run_invariant (Q := fun _ => True)
    ⟨fun k d hd => by simp [init] at hd, .inl rfl⟩ (fun s I s' _ hs h => entriesDetected_step hs h)
    (fun _ _ => trivial) hrun
  exact ⟨hall.IM, fun k d hd => ⟨(hall.IM k d hd).ti, (hall.IM k d hd).di⟩⟩

end DependencyDetector

end Octantis
