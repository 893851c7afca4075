import Octantis.Analysis.DependencyDetector

/-!
# The last used registers

`lastUsedRegMap` gives for an allocated register the one that holds its last value.
A later load takes it for its source, and the scheduler looks it up in the table.

## The model

`SourcesKnown` says that every register recorded is a key of the table. `step_cases`
says what one instruction can do: record nothing, or be a store that records one
register and leaves the keys as they are.

## What is proved

* `sourcesKnown_step`: a step keeps the registers known exactly when what it records has
  an entry (`RecordsKnown`, a condition on the state before the step);
* `getRealSrcReg_mem_handleLoad`: the source of a load then has an entry.
-/

namespace Octantis

open Std Lib

namespace DependencyDetector

variable {info : CollectInfo} {s s' : DependencyDetector} {I : Reg × Instruction}

/-- Every register recorded is a key of the table: the source of a load has an available time. -/
def SourcesKnown (s : DependencyDetector) : Prop :=
  (∀ reg r : Reg, s.lastUsedRegMap[reg]? = some r → r ∈ s.IM.instructionMap) ∧
    ∀ reg ∈ s.lastUsedRegMap, (s.IM.getAvailableTime (s.getRealSrcReg reg)).isSome

/-- A store that is handled records a register that has an entry. -/
def RecordsKnown (info : CollectInfo) (s : DependencyDetector) : Instruction → Prop
  | .store operand0 pointer => info.isValidInst (.store operand0 pointer) → s.operation ≠ .null →
    if s.loadCount = 1 ∧ s.operation = .load then operand0.address ∈ s.IM.instructionMap
    else s.destReg ≠ nullptr ∨ nullptr ∈ s.IM.instructionMap
  | _ => True

/-- The last operator inserted has an entry. -/
def DestKnown (s : DependencyDetector) : Prop := s.destReg = nullptr ∨ s.destReg ∈ s.IM.instructionMap

/-! ### What a step does -/

/-- A step that records nothing: the table grows, and the last operator, if it is new, is in it. -/
structure Kept (s s' : DependencyDetector) : Prop where
  lastUsedRegMap : s'.lastUsedRegMap = s.lastUsedRegMap
  keys : ∀ reg ∈ s.IM.instructionMap, reg ∈ s'.IM.instructionMap
  destReg : s'.destReg = s.destReg ∨ s'.destReg ∈ s'.IM.instructionMap

theorem Kept.of_eq (hl : s'.lastUsedRegMap = s.lastUsedRegMap) (hT : s'.IM = s.IM)
    (hd : s'.destReg = s.destReg) : Kept s s' where
  lastUsedRegMap := hl
  keys := by rw [hT]; exact fun _ h => h
  destReg := .inl hd

theorem Kept.destKnown (h : Kept s s') (hs : s.DestKnown) : s'.DestKnown := by
  rcases h.destReg with heq | hmem
  · rcases hs with hnull | hmem
    · exact .inl (heq.trans hnull)
    · exact .inr (heq ▸ h.keys _ hmem)
  · exact .inr hmem

/-- Recognising an operation leaves the table, the map and the last operator. -/
theorem recogniseOperation_eq_some {result : Reg} {opcode : Opcode} {operand0 operand1 : Operand}
    (h : s.recogniseOperation result opcode operand0 operand1 = some s') :
    s'.lastUsedRegMap = s.lastUsedRegMap ∧ s'.IM = s.IM ∧ s'.destReg = s.destReg := by
  have hlogic : ∀ operation negated, s.recogniseLogic operation negated result operand0 operand1 = some s' →
      s'.lastUsedRegMap = s.lastUsedRegMap ∧ s'.IM = s.IM ∧ s'.destReg = s.destReg := by
    intro operation negated h
    unfold recogniseLogic at h
    cases operand1 with
    | constantInt address sExtValue =>
      simp only at h
      split at h <;> cases h <;> exact ⟨rfl, rfl, rfl⟩
    | value address =>
      simp only at h
      split at h
      · obtain ⟨reg, -, rfl⟩ := Option.map_eq_some_iff.mp h
        exact ⟨rfl, rfl, rfl⟩
      · cases h
        exact ⟨rfl, rfl, rfl⟩
  cases opcode with
  | and => exact hlogic _ _ h
  | or => exact hlogic _ _ h
  | xor =>
    cases h
    unfold recogniseXor
    cases operand1 <;> simp only <;> split <;> exact ⟨rfl, rfl, rfl⟩
  | _ =>
    cases h
    exact ⟨rfl, rfl, rfl⟩

/-- The pointer of an operator with many operands is all that `multiOperandPtr` changes. -/
theorem multiOperandPtr_eq_some (h : s.multiOperandPtr info = some s') :
    ∃ ptr, s' = { s with tmpPtrDest := ptr } := by
  unfold multiOperandPtr at h
  split at h
  · split at h
    · cases h
      exact ⟨_, rfl⟩
    split at h
    · cases h
      exact ⟨_, rfl⟩
    split at h
    · obtain ⟨p1, -, h⟩ := Option.bind_eq_some_iff.mp h
      obtain ⟨p2, -, rfl⟩ := Option.map_eq_some_iff.mp h
      exact ⟨_, rfl⟩
    · cases h
      exact ⟨_, rfl⟩
  · cases h
    exact ⟨_, rfl⟩

/-- Taking the operands leaves the table, the map and the last operator. -/
theorem takeOperands_eq_some {operand0 operand1 : Operand}
    (h : s.takeOperands info operand0 operand1 = some s') :
    s'.lastUsedRegMap = s.lastUsedRegMap ∧ s'.IM = s.IM ∧ s'.destReg = s.destReg := by
  have hdest : ∀ reg, (s.takeDestReg reg).lastUsedRegMap = s.lastUsedRegMap ∧
      (s.takeDestReg reg).IM = s.IM ∧ (s.takeDestReg reg).destReg = s.destReg := by
    intro reg
    unfold takeDestReg
    split
    · exact ⟨rfl, rfl, rfl⟩
    split <;> exact ⟨rfl, rfl, rfl⟩
  have hboth : ∀ reg, (s.takeDestReg reg).multiOperandPtr info = some s' →
      s'.lastUsedRegMap = s.lastUsedRegMap ∧ s'.IM = s.IM ∧ s'.destReg = s.destReg := by
    intro reg h
    obtain ⟨ptr, rfl⟩ := multiOperandPtr_eq_some h
    exact hdest reg
  unfold takeOperands at h
  split at h
  · exact hboth _ h
  split at h
  · exact hboth _ h
  · cases h
    cases operand0 <;> cases operand1 <;> exact ⟨rfl, rfl, rfl⟩

theorem kept_handleBinaryOperator {isInLoopBody : Bool} {result : Reg} {opcode : Opcode}
    {operand0 operand1 : Operand}
    (h : s.handleBinaryOperator info isInLoopBody result opcode operand0 operand1 = some s') : Kept s s' := by
  obtain ⟨s₁, h₁, h⟩ := Option.bind_eq_some_iff.mp h
  obtain ⟨hl, hT, hd⟩ := recogniseOperation_eq_some h₁
  split at h
  · cases h
    exact .of_eq hl hT hd
  unfold handleInstructionInserting at h
  split at h
  · obtain ⟨s₂, h₂, rfl⟩ := Option.map_eq_some_iff.mp h
    obtain ⟨hl', hT', -⟩ := takeOperands_eq_some h₂
    refine ⟨hl'.trans hl, fun reg hreg => ?_, .inr ?_⟩
    · refine (InstructionTable.mem_insertInstruction _ _ _).mpr (.inr ?_)
      rw [hT', hT]
      exact hreg
    · exact (InstructionTable.mem_insertInstruction _ _ _).mpr (.inl rfl)
  · cases h
    exact .of_eq hl hT hd

theorem IM_handleLoad (info : CollectInfo) (s : DependencyDetector) (pointer : Reg) :
    (s.handleLoad info pointer).IM = s.IM.insertLoadInstruction (info.getAllocatedReg pointer)
      (regType (info.isArray (info.getAllocatedReg pointer))) := by
  unfold handleLoad takeLoad
  simp only
  split <;> rfl

theorem kept_handleLoad (info : CollectInfo) (s : DependencyDetector) (pointer : Reg) :
    Kept s (s.handleLoad info pointer) := by
  refine ⟨?_, fun reg hreg => ?_, .inl ?_⟩
  · unfold handleLoad takeLoad
    simp only
    split <;> rfl
  · rw [IM_handleLoad, InstructionTable.mem_insertLoadInstruction]
    exact .inr hreg
  · unfold handleLoad takeLoad
    simp only
    split <;> rfl

/-- The source of a load is a key of the table, whether its register was stored to or not. -/
theorem getRealSrcReg_mem_handleLoad (hs : s.SourcesKnown) (pointer : Reg) :
    s.getRealSrcReg (info.getAllocatedReg pointer) ∈ (s.handleLoad info pointer).IM.instructionMap := by
  rw [IM_handleLoad, InstructionTable.mem_insertLoadInstruction, getRealSrcReg]
  cases hr : s.lastUsedRegMap[info.getAllocatedReg pointer]? with
  | none => exact .inl rfl
  | some r => exact .inr (hs.1 _ r hr)

/-- The register that a store records. -/
def recordedReg (s : DependencyDetector) (operand0 : Operand) : Reg :=
  if s.loadCount = 1 ∧ s.operation = .load then operand0.address else s.destReg

theorem mem_setStored {IM : InstructionTable} {reg k ptr : Reg} {isArray : Bool} :
    k ∈ (setStored IM reg isArray ptr).instructionMap ↔ k ∈ IM.instructionMap := by
  simp [setStored]

/-- A store changes entries, and the register it records is `recordedReg`. -/
theorem recordStore_eq_some {operand0 : Operand} {storeDest : Reg} {isArray : Bool}
    (h : s.recordStore operand0 storeDest isArray = some s') :
    s'.lastUsedRegMap = s.lastUsedRegMap ∧ s'.destReg = s.recordedReg operand0 ∧
      ∀ reg, reg ∈ s'.IM.instructionMap ↔ reg ∈ s.IM.instructionMap := by
  unfold recordStore at h
  split at h
  · next hcount =>
    obtain ⟨IM, hIM, rfl⟩ := Option.map_eq_some_iff.mp h
    refine ⟨rfl, (if_neg fun hone => by omega).symm, fun reg => ?_⟩
    unfold storeOperation at hIM
    split at hIM
    · obtain ⟨d, -, hIM⟩ := Option.bind_eq_some_iff.mp hIM
      split at hIM
      · obtain ⟨T, hT, rfl⟩ := Option.map_eq_some_iff.mp hIM
        rw [mem_setStored]
        split at hT
        · obtain ⟨-, rfl⟩ := InstructionTable.swapOperands_eq_some _ _ hT
          simp [InstructionTable.addSpecToInstruction]
        · cases hT
          simp [InstructionTable.addSpecToInstruction]
      · cases hIM
        rfl
    · cases hIM
      exact mem_setStored
  split at h
  · next hone =>
    split at h
    · next hload =>
      cases h
      exact ⟨rfl, (if_pos ⟨hone, hload⟩).symm, fun reg => by simp [storeCopy, setStored]⟩
    · next hload =>
      cases h
      exact ⟨rfl, (if_neg fun hboth => hload hboth.2).symm, fun reg => mem_setStored⟩
  · next hone =>
    cases h
    exact ⟨rfl, (if_neg fun hboth => hone hboth.1).symm, fun reg => Iff.rfl⟩

/-- The register under which a store is recorded. -/
def storedReg (info : CollectInfo) (pointer : Reg) : Reg :=
  if info.isArray (info.getAllocatedReg pointer) then info.getAllocatedReg pointer else pointer

/-- **What a step does**: it records nothing, or it is a store that is handled, and it records one
register. -/
theorem step_cases (h : step info s I = some s') :
    (Kept s s' ∧ ((∀ operand0 pointer, I.2 ≠ .store operand0 pointer) ∨ ¬ info.isValidInst I.2 ∨
      s.operation = .null)) ∨
    ∃ operand0 pointer, I.2 = .store operand0 pointer ∧ info.isValidInst I.2 ∧
      s.operation ≠ .null ∧ s'.destReg = nullptr ∧
      s'.lastUsedRegMap = s.lastUsedRegMap.insert (storedReg info pointer) (s.recordedReg operand0) ∧
      ∀ reg, reg ∈ s'.IM.instructionMap ↔ reg ∈ s.IM.instructionMap := by
  unfold step at h
  split at h
  case isFalse hvalid =>
    cases h
    exact .inl ⟨.of_eq rfl rfl rfl, .inr (.inl hvalid)⟩
  case isTrue hvalid =>
  cases hI : I.2 with
  | binaryOperator result opcode operand0 operand1 =>
    rw [hI] at h
    exact .inl ⟨kept_handleBinaryOperator h, .inl (by simp)⟩
  | load result pointer =>
    rw [hI] at h
    cases h
    exact .inl ⟨kept_handleLoad info s pointer, .inl (by simp)⟩
  | store operand0 pointer =>
    rw [hI] at h hvalid
    simp only [handleStoreInstruction] at h
    split at h
    · next hnull =>
      cases h
      exact .inl ⟨.of_eq rfl rfl rfl, .inr (.inr hnull)⟩
    · next hnull =>
      obtain ⟨s₁, h₁, rfl⟩ := Option.map_eq_some_iff.mp h
      obtain ⟨hl, hd, hkeys⟩ := recordStore_eq_some h₁
      refine .inr ⟨operand0, pointer, rfl, hvalid, hnull, rfl, ?_, hkeys⟩
      rw [endStore, hl, hd]
      rfl
  | sExt | getElementPtr | branch | other =>
    rw [hI] at h
    cases h
    exact .inl ⟨.of_eq rfl rfl rfl, .inl (by simp)⟩

/-- An instruction that may add a key to the table: an operator its result, a load its register. -/
def Adds (info : CollectInfo) (k : Reg) : Instruction → Prop
  | .binaryOperator result _ _ _ => k = result
  | .load _ pointer => k = info.getAllocatedReg pointer
  | _ => False

/-- A key that the instruction does not add was there before the step. -/
theorem mem_of_step (h : step info s I = some s') {k : Reg} (hk : ¬ Adds info k I.2)
    (hmem : k ∈ s'.IM.instructionMap) : k ∈ s.IM.instructionMap := by
  unfold step at h
  split at h
  case isFalse => cases h; exact hmem
  case isTrue =>
  cases hI : I.2 with
  | binaryOperator result opcode operand0 operand1 =>
    rw [hI] at h hk
    obtain ⟨s₁, h₁, h⟩ := Option.bind_eq_some_iff.mp h
    obtain ⟨-, hT, -⟩ := recogniseOperation_eq_some h₁
    split at h
    · cases h
      rwa [hT] at hmem
    unfold handleInstructionInserting at h
    split at h
    · obtain ⟨s₂, h₂, rfl⟩ := Option.map_eq_some_iff.mp h
      obtain ⟨-, hT', -⟩ := takeOperands_eq_some h₂
      rcases (InstructionTable.mem_insertInstruction _ _ _).mp hmem with heq | hmem
      · exact absurd heq hk
      · rwa [hT', hT] at hmem
    · cases h
      rwa [hT] at hmem
  | load result pointer =>
    rw [hI] at h hk
    cases h
    rw [IM_handleLoad, InstructionTable.mem_insertLoadInstruction] at hmem
    exact hmem.resolve_left hk
  | store operand0 pointer =>
    rw [hI] at h
    simp only [handleStoreInstruction] at h
    split at h
    · cases h
      exact hmem
    · obtain ⟨s₁, h₁, rfl⟩ := Option.map_eq_some_iff.mp h
      exact ((recordStore_eq_some h₁).2.2 k).mp hmem
  | sExt | getElementPtr | branch | other =>
    rw [hI] at h
    cases h
    exact hmem

/-- A key that no instruction of a run adds was there before the run. -/
theorem mem_of_run {actions : List (Reg × Instruction)} (h : run (step info) s actions = some s') {k : Reg}
    (hk : ∀ I ∈ actions, ¬ Adds info k I.2) (hmem : k ∈ s'.IM.instructionMap) : k ∈ s.IM.instructionMap := by
  by_contra hnot
  exact run_invariant (P := fun s => k ∉ s.IM.instructionMap) (Q := fun I => ¬ Adds info k I.2) hnot
    (fun s I s' hI hs h hmem => hs (mem_of_step h hI hmem)) hk h hmem

/-! ### Every state reached -/

theorem destKnown_step (hs : s.DestKnown) (h : step info s I = some s') : s'.DestKnown := by
  rcases step_cases h with ⟨hkept, -⟩ | ⟨operand0, pointer, -, -, -, hd, -⟩
  · exact hkept.destKnown hs
  · exact .inl hd

theorem sourcesKnown_iff :
    s.SourcesKnown ↔ ∀ reg r : Reg, s.lastUsedRegMap[reg]? = some r → r ∈ s.IM.instructionMap := by
  refine ⟨fun h => h.1, fun h => ⟨h, fun reg hreg => ?_⟩⟩
  obtain ⟨r, hr⟩ := Option.isSome_iff_exists.mp (ExtTreeMap.mem_iff_isSome_getElem?.mp hreg)
  rw [InstructionTable.getAvailableTime, Option.isSome_map, InstructionTable.isSome_find, getRealSrcReg, hr]
  exact h reg r hr

/-- **A step keeps the sources known exactly when what it stores is recorded by then.** -/
theorem sourcesKnown_step (hs : s.SourcesKnown) (hd : s.DestKnown) (h : step info s I = some s') :
    s'.SourcesKnown ↔ s.RecordsKnown info I.2 := by
  rw [sourcesKnown_iff] at hs ⊢
  rcases step_cases h with ⟨hkept, hnot⟩ | ⟨operand0, pointer, hI, hvalid, hnull, -, hl, hkeys⟩
  · have hknown : ∀ reg r : Reg, s'.lastUsedRegMap[reg]? = some r → r ∈ s'.IM.instructionMap := by
      intro reg r hr
      rw [hkept.lastUsedRegMap] at hr
      exact hkept.keys r (hs reg r hr)
    refine iff_of_true hknown ?_
    cases hI : I.2 with
    | store operand0 pointer =>
      intro hvalid hnull
      rw [hI] at hnot
      rcases hnot with hstore | hinvalid | hop
      · exact absurd rfl (hstore operand0 pointer)
      · exact absurd hvalid hinvalid
      · exact absurd hop hnull
    | _ => trivial
  · have hrec : s.RecordsKnown info I.2 ↔ s.recordedReg operand0 ∈ s.IM.instructionMap := by
      rw [hI] at hvalid ⊢
      simp only [RecordsKnown, hvalid, hnull, ne_eq, not_false_eq_true, forall_const, recordedReg]
      split
      · rfl
      · constructor
        · rintro (hne | hmem)
          · exact hd.resolve_left hne
          · rcases hd with heq | hmem'
            · rwa [heq]
            · exact hmem'
        · intro hmem
          by_cases heq : s.destReg = nullptr
          · exact .inr (heq ▸ hmem)
          · exact .inl heq
    rw [hrec, hl]
    constructor
    · intro hall
      exact (hkeys _).mp (hall (storedReg info pointer) _ ExtTreeMap.getElem?_insert_self)
    · intro hmem reg r hr
      rw [ExtTreeMap.getElem?_insert] at hr
      refine (hkeys r).mpr ?_
      split at hr
      · exact Option.some.inj hr ▸ hmem
      · exact hs reg r hr

end DependencyDetector

end Octantis
