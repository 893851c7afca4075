import Octantis.Analysis.LastUsedRegMap

/-!
# The accumulations

A store tags the last operator inserted as an accumulation when it follows two loads
or more and stores through the pointer of the last one, in the body of a loop. The
binder takes the second source of a tagged entry for the accumulator, and the first
one for what is added to it.

## The model

`Tags` is the test that the store makes. `Accumulation` is what the tag stands for:
an addition in the body of a loop, whose result is stored through the pointer that one
of its operands was loaded through; its second source supplies that operand, and the
first one the other (`Supplies`). `AddsLast` is a condition on the instructions before
the store: the last two load the destination and add it to a result, through an
operator that is inserted, after two loads or an odd number of them.

## What is proved

* `tagged_step`: a step gives no tag, and keeps what the tagged entries say, unless it `Tags`;
* `find_of_addsLast`: what the entry of the addition says when the store is reached;
* `accumulation_of_addsLast`: in a run whose tagging stores all meet the condition, every entry
  tagged is an accumulation, in every state reached.

## Honest scope

The operation is not tested: `d = a * d` is tagged. The sources are exchanged after more
than two loads, and this is right only for an odd number of them: after four the
destination ends up first (`product_tagged`).
-/

namespace Octantis

open Std Lib

/-- What the accumulations depend on in an entry. -/
def InstructionData.summary (d : InstructionData) : Operation × List String × Reg × Reg × Bool :=
  (d.operation, d.specifications, d.sourceReg1, d.sourceReg2, d.isInLoopBody)

namespace InstructionTable

variable (T : InstructionTable) (reg reg' : Reg)

/-- A change that keeps the summary of an entry. -/
theorem summary_modifyInstruction {f : InstructionData → InstructionData}
    (h : ∀ d, (f d).summary = d.summary) :
    ((T.modifyInstruction reg' f).find reg).map (·.summary) = (T.find reg).map (·.summary) := by
  rw [find_modifyInstruction]
  split
  · rw [Option.map_map]
    exact congrArg (Option.map · (T.find reg)) (funext h)
  · rfl

theorem summary_modifyGivenField {field : InstructionField} (h1 : field ≠ .srcReg1) (h2 : field ≠ .srcReg2)
    (newField : Reg) (oT : OperandType) :
    ((T.modifyGivenField reg' field newField oT).find reg).map (·.summary) = (T.find reg).map
    (·.summary) := by
  refine summary_modifyInstruction T reg reg' fun d => ?_
  cases field with
  | srcReg1 => exact absurd rfl h1
  | srcReg2 => exact absurd rfl h2
  | srcReg1Ptr | srcReg2Ptr | destReg | destRegPtr | destRegType | srcReg1Type | srcReg2Type => rfl

end InstructionTable

/-- The result of a load or of an operator. -/
def Instruction.result : Instruction → Option Reg
  | .binaryOperator result _ _ _ => some result
  | .load result _ => some result
  | _ => none

/-- The results of the loads and operators. -/
def resultsIn (l : List (Reg × Instruction)) : List Reg := l.filterMap (·.2.result)

/-- The allocated registers of the loads. -/
def allocatedIn (info : CollectInfo) (l : List (Reg × Instruction)) : List Reg :=
  l.filterMap fun I =>
    match I.2 with
    | .load _ pointer => some (info.getAllocatedReg pointer)
    | _ => none

/-- The results are distinct LLVM values, and no allocated registers of loads. -/
structure DistinctResults (info : CollectInfo) (l : List (Reg × Instruction)) : Prop where
  nodup : (resultsIn l).Nodup
  ne_nullptr : ∀ k ∈ resultsIn l, k ≠ nullptr
  ne_allocated : ∀ k ∈ resultsIn l, k ∉ allocatedIn info l

instance (info : CollectInfo) (l : List (Reg × Instruction)) : Decidable (DistinctResults info l) :=
  decidable_of_iff ((resultsIn l).Nodup ∧ (∀ k ∈ resultsIn l, k ≠ nullptr) ∧
    ∀ k ∈ resultsIn l, k ∉ allocatedIn info l)
    ⟨fun ⟨h1, h2, h3⟩ => ⟨h1, h2, h3⟩, fun ⟨h1, h2, h3⟩ => ⟨h1, h2, h3⟩⟩

theorem DistinctResults.sublist {info : CollectInfo} {l l' : List (Reg × Instruction)}
    (h : DistinctResults info l) (hl : l'.Sublist l) : DistinctResults info l' := by
  have hres : (resultsIn l').Sublist (resultsIn l) := hl.filterMap _
  have halloc : (allocatedIn info l').Sublist (allocatedIn info l) := hl.filterMap _
  exact ⟨h.nodup.sublist hres, fun k hk => h.ne_nullptr k (hres.subset hk),
    fun k hk hmem => h.ne_allocated k (hres.subset hk) (halloc.subset hmem)⟩

namespace DependencyDetector

variable {info : CollectInfo} {s s' : DependencyDetector} {I : Reg × Instruction}

/-! ### The instructions handled -/

/-- A load, an operator or a store that is to be scheduled. -/
def isHandled (info : CollectInfo) (I : Reg × Instruction) : Bool :=
  info.isValidInst I.2 && match I.2 with
    | .binaryOperator _ _ _ _ | .load _ _ | .store _ _ => true
    | _ => false

/-- The instructions that the detector handles. -/
def handled (info : CollectInfo) (l : List (Reg × Instruction)) : List (Reg × Instruction) :=
  l.filter (isHandled info)

theorem step_of_not_isHandled (h : isHandled info I = false) : step info s I = some s := by
  unfold step
  split
  · next hvalid =>
    rw [isHandled, hvalid, Bool.true_and] at h
    cases hI : I.2 <;> rw [hI] at h <;> first | rfl | cases h
  · rfl

theorem run_handled (l : List (Reg × Instruction)) :
    run (step info) s (handled info l) = run (step info) s l := by
  induction l generalizing s with
  | nil => rfl
  | cons I l ih =>
    rw [handled, List.filter_cons]
    split
    · rw [run_cons, run_cons]
      exact congrArg ((step info s I).bind ·) (funext fun _ => ih)
    · next hI =>
      rw [run_cons, step_of_not_isHandled (Bool.not_eq_true _ ▸ hI)]
      exact ih

/-! ### What the tag stands for -/

/-- The register that supplies an operand: the address of a constant, the result of an operator, the
register that the detector takes for a variable where it is loaded. -/
inductive Supplies (info : CollectInfo) (l : List (Reg × Instruction)) : Operand → Reg → Prop
  | constant (address : Reg) (sExtValue : ℤ) : Supplies info l (.constantInt address sExtValue) address
  | operator (BB result : Reg) (opcode : Opcode) (operand0 operand1 : Operand)
      (h : (BB, .binaryOperator result opcode operand0 operand1) ∈ l) : Supplies info l (.value result) result
  | load (BB result pointer : Reg) (before : List (Reg × Instruction)) (s : DependencyDetector)
      (hpre : before ++ [(BB, .load result pointer)] <+: l) (hrun : run (step info) init before = some s) :
      Supplies info l (.value result) (s.getRealSrcReg (info.getAllocatedReg pointer))

theorem Supplies.mono {l l' : List (Reg × Instruction)} {operand : Operand} {reg : Reg}
    (h : Supplies info l operand reg) (hl : l <+: l') : Supplies info l' operand reg := by
  cases h with
  | constant => exact .constant _ _
  | operator BB _ opcode operand0 operand1 h => exact .operator BB _ opcode operand0 operand1 (hl.subset h)
  | load BB result pointer before s hpre hrun => exact .load BB result pointer before s (hpre.trans hl) hrun

/-- **What the tag of an entry stands for**: an addition in the body of a loop, of a value loaded
through the pointer that its result is stored through; the second source supplies this operand, and
the first one the other. -/
structure Accumulation (info : CollectInfo) (l : List (Reg × Instruction)) (k : Reg) (d : InstructionData) :
    Prop where
  operation : d.operation = .add
  isInLoopBody : d.isInLoopBody = true
  operands : ∃ BB BB₀ BB₁ operand0 operand1 loaded pointer accumulated,
    (BB, .binaryOperator k .add operand0 operand1) ∈ l ∧ info.isLoopBody BB = true ∧
      (BB₀, .load loaded pointer) ∈ l ∧ (BB₁, .store (.value k) pointer) ∈ l ∧
      ((operand0 = .value loaded ∧ operand1 = accumulated) ∨
        (operand0 = accumulated ∧ operand1 = .value loaded)) ∧
      Supplies info l (.value loaded) d.sourceReg2 ∧ Supplies info l accumulated d.sourceReg1

/-- Every entry that is tagged is an accumulation. -/
def TagsHold (info : CollectInfo) (l : List (Reg × Instruction)) (T : InstructionTable) : Prop :=
  ∀ k d, T.find k = some d → "accumulation" ∈ d.specifications → Accumulation info l k d

theorem Accumulation.mono {l l' : List (Reg × Instruction)} {k : Reg} {d d' : InstructionData}
    (h : Accumulation info l k d) (hl : l <+: l')
    (hd : (d'.operation, d'.sourceReg1, d'.sourceReg2, d'.isInLoopBody) =
      (d.operation, d.sourceReg1, d.sourceReg2, d.isInLoopBody)) : Accumulation info l' k d' := by
  simp only [Prod.mk.injEq] at hd
  obtain ⟨hop, h1, h2, hloop⟩ := hd
  obtain ⟨BB, BB₀, BB₁, operand0, operand1, loaded, pointer, accumulated, hadd, hBB, hload, hstore,
    hboth, hs2,
    hs1⟩ := h.operands
  refine ⟨hop.trans h.operation, hloop.trans h.isInLoopBody, BB, BB₀, BB₁, operand0, operand1,
    loaded, pointer,
    accumulated, hl.subset hadd, hBB, hl.subset hload, hl.subset hstore, hboth, ?_, ?_⟩
  · rw [h2]
    exact hs2.mono hl
  · rw [h1]
    exact hs1.mono hl

/-! ### What a step does to the entries that are tagged -/

/-- A store tags the last operator inserted. -/
def Tags (info : CollectInfo) (s : DependencyDetector) : Instruction → Prop
  | .store operand0 pointer => info.isValidInst (.store operand0 pointer) ∧ s.operation ≠ .null ∧
      2 ≤ s.loadCount ∧ 2 ≤ s.accumulationValidityCount ∧ s.tmpAccumulationOp = some pointer ∧
      ∃ d, s.IM.find s.destReg = some d ∧ d.isInLoopBody = true
  | _ => False

theorem IM_handleBinaryOperator {isInLoopBody : Bool} {result : Reg} {opcode : Opcode}
    {operand0 operand1 : Operand}
    (h : s.handleBinaryOperator info isInLoopBody result opcode operand0 operand1 = some s') :
    s'.IM = s.IM ∨ ∃ d, d.specifications = [] ∧ s'.IM = s.IM.insertInstruction d := by
  obtain ⟨s₁, h₁, h⟩ := Option.bind_eq_some_iff.mp h
  obtain ⟨-, hT, -⟩ := recogniseOperation_eq_some h₁
  split at h
  · cases h
    exact .inl hT
  unfold handleInstructionInserting at h
  split at h
  · obtain ⟨s₂, h₂, rfl⟩ := Option.map_eq_some_iff.mp h
    obtain ⟨-, hT', -⟩ := takeOperands_eq_some h₂
    refine .inr ⟨s₂.entry result isInLoopBody, rfl, ?_⟩
    rw [insert, hT', hT]
  · cases h
    exact .inl hT

theorem summary_setStored (T : InstructionTable) (k reg ptr : Reg) (isArray : Bool) :
    ((setStored T reg isArray ptr).find k).map (·.summary) = (T.find k).map (·.summary) := by
  rw [setStored, InstructionTable.summary_modifyGivenField _ _ _ (by decide) (by decide),
    InstructionTable.summary_modifyGivenField _ _ _ (by decide) (by decide)]

theorem summary_storeCopy (s : DependencyDetector) (k : Reg) (operand0 : Operand) (isArray : Bool) :
    ((s.storeCopy operand0 isArray).find k).map (·.summary) = (s.IM.find k).map (·.summary) := by
  rw [storeCopy, InstructionTable.summary_modifyGivenField _ _ _ (by decide) (by decide),
    InstructionTable.summary_modifyGivenField _ _ _ (by decide) (by decide), summary_setStored]

/-- An entry with the tag, its sources exchanged after more than two loads. -/
def taggedEntry (s : DependencyDetector) (d : InstructionData) : InstructionData :=
  let d := { d with specifications := d.specifications ++ ["accumulation"] }
  if s.loadCount > 2 then d.swapped else d

/-- A store keeps the summaries of the entries, or it tags the last operator inserted. -/
theorem summary_recordStore {operand0 : Operand} {pointer : Reg} {isArray : Bool}
    (h : s.recordStore operand0 pointer isArray = some s') (k : Reg) :
    (s'.IM.find k).map (·.summary) = (s.IM.find k).map (·.summary) ∨
      (2 ≤ s.loadCount ∧ 2 ≤ s.accumulationValidityCount ∧ s.tmpAccumulationOp = some pointer ∧
        k = s.destReg ∧
        ∃ d, s.IM.find k = some d ∧ d.isInLoopBody = true ∧
          (s'.IM.find k).map (·.summary) = some (s.taggedEntry d).summary) := by
  unfold recordStore at h
  split at h
  · next htwo =>
    obtain ⟨IM, hIM, rfl⟩ := Option.map_eq_some_iff.mp h
    unfold storeOperation at hIM
    split at hIM
    · next hacc =>
      obtain ⟨d, hd, hIM⟩ := Option.bind_eq_some_iff.mp hIM
      split at hIM
      · next hloop =>
        obtain ⟨T, hT, rfl⟩ := Option.map_eq_some_iff.mp hIM
        by_cases hk : k = s.destReg
        · subst hk
          refine .inr ⟨htwo, hacc.1, hacc.2, rfl, d, hd, hloop, ?_⟩
          rw [summary_setStored]
          split at hT
          · next hmany =>
            obtain ⟨-, rfl⟩ := InstructionTable.swapOperands_eq_some _ _ hT
            simp [InstructionTable.find_modifyInstruction, InstructionTable.addSpecToInstruction,
              hd, taggedEntry, hmany]
          · next hmany =>
            cases hT
            simp [InstructionTable.find_modifyInstruction, InstructionTable.addSpecToInstruction,
              hd, taggedEntry, hmany]
        · refine .inl ?_
          rw [summary_setStored]
          split at hT
          · obtain ⟨-, rfl⟩ := InstructionTable.swapOperands_eq_some _ _ hT
            simp [InstructionTable.find_modifyInstruction, InstructionTable.addSpecToInstruction, hk]
          · cases hT
            simp [InstructionTable.find_modifyInstruction, InstructionTable.addSpecToInstruction, hk]
      · cases hIM
        exact .inl rfl
    · cases hIM
      exact .inl (summary_setStored _ _ _ _ _)
  split at h
  · split at h
    · cases h
      exact .inl (summary_storeCopy _ _ _ _)
    · cases h
      exact .inl (summary_setStored _ _ _ _ _)
  · cases h
    exact .inl rfl

/-- **A step gives no tag unless it `Tags`**, and keeps the summaries of the entries that have
one. -/
theorem tagged_step (h : step info s I = some s') {k : Reg} {d' : InstructionData}
    (hd' : s'.IM.find k = some d') (htag : "accumulation" ∈ d'.specifications) :
    (∃ d, s.IM.find k = some d ∧ d'.summary = d.summary) ∨
      (Tags info s I.2 ∧ k = s.destReg ∧ ∃ d, s.IM.find k = some d ∧ d.isInLoopBody = true ∧
        d'.summary = (s.taggedEntry d).summary) := by
  have hsame : s'.IM = s.IM → ∃ d, s.IM.find k = some d ∧ d'.summary = d.summary := fun hT =>
    ⟨d', hT ▸ hd', rfl⟩
  unfold step at h
  split at h
  case isFalse =>
    cases h
    exact .inl ⟨d', hd', rfl⟩
  case isTrue hvalid =>
  cases hI : I.2 with
  | binaryOperator result opcode operand0 operand1 =>
    rw [hI] at h
    rcases IM_handleBinaryOperator h with hT | ⟨d, hspec, hT⟩
    · exact .inl (hsame hT)
    · rw [hT, InstructionTable.find_insertInstruction] at hd'
      split at hd'
      · cases hd'
        rw [hspec] at htag
        cases htag
      · exact .inl ⟨d', hd', rfl⟩
  | load result pointer =>
    rw [hI] at h
    cases h
    rw [IM_handleLoad, InstructionTable.find_insertLoadInstruction] at hd'
    split at hd'
    · cases hd'
      cases htag
    · exact .inl ⟨d', hd', rfl⟩
  | store operand0 pointer =>
    rw [hI] at h hvalid
    simp only [handleStoreInstruction] at h
    split at h
    · cases h
      exact .inl ⟨d', hd', rfl⟩
    · next hnull =>
      obtain ⟨s₁, h₁, rfl⟩ := Option.map_eq_some_iff.mp h
      have hsum : (s₁.IM.find k).map (·.summary) = some d'.summary := congrArg (Option.map (·.summary)) hd'
      rcases summary_recordStore h₁ k with heq | ⟨htwo, hacc, hlast, hk, d, hd, hloop, heq⟩
      · rw [hsum] at heq
        obtain ⟨d, hd, hsum⟩ := Option.map_eq_some_iff.mp heq.symm
        exact .inl ⟨d, hd, hsum.symm⟩
      · rw [hsum] at heq
        subst hk
        exact .inr ⟨⟨hvalid, hnull, htwo, hacc, hlast, d, hd, hloop⟩, rfl, d, hd, hloop, Option.some.inj heq⟩
  | sExt | getElementPtr | branch | other =>
    rw [hI] at h
    cases h
    exact .inl ⟨d', hd', rfl⟩

/-! ### What the entry of an addition says -/

/-- The result of a later instruction has no entry yet. -/
theorem not_mem_of_run {before after : List (Reg × Instruction)} (hl : DistinctResults info (before ++ after))
    (hrun : run (step info) init before = some s) {k : Reg} (hk : k ∈ resultsIn after) :
    k ∉ s.IM.instructionMap := by
  have hall : k ∈ resultsIn (before ++ after) := by
    rw [resultsIn, List.filterMap_append]
    exact List.mem_append_right _ hk
  have hnot : k ∉ resultsIn before := by
    have hnodup := hl.nodup
    rw [resultsIn, List.filterMap_append, List.nodup_append] at hnodup
    exact fun hmem => hnodup.2.2 k hmem k hk rfl
  intro hmem
  refine absurd (mem_of_run hrun (fun I hI hadds => ?_) hmem) (by simp [init, InstructionTable.empty])
  cases hinst : I.2 with
  | binaryOperator result opcode operand0 operand1 =>
    rw [hinst] at hadds
    exact hnot (List.mem_filterMap.mpr ⟨I, hI, by rw [hinst, hadds]; rfl⟩)
  | load result pointer =>
    rw [hinst] at hadds
    refine hl.ne_allocated k hall (List.mem_filterMap.mpr ⟨I, List.mem_append_left _ hI, ?_⟩)
    rw [hinst, hadds]
  | store | sExt | getElementPtr | branch | other =>
    rw [hinst] at hadds
    exact hadds

/-- It is not the last operator inserted either. -/
theorem ne_destReg_of_run {before after : List (Reg × Instruction)}
    (hl : DistinctResults info (before ++ after)) (hrun : run (step info) init before = some s) {k : Reg}
    (hk : k ∈ resultsIn after) : k ≠ s.destReg := by
  rintro rfl
  have hdest : s.DestKnown := run_invariant (Q := fun _ => True) (.inl rfl)
    (fun s I s' _ hs h => destKnown_step hs h) (fun _ _ => trivial) hrun
  rcases hdest with hnull | hmem
  · refine hl.ne_nullptr _ ?_ hnull
    rw [resultsIn, List.filterMap_append]
    exact List.mem_append_right _ hk
  · exact not_mem_of_run hl hrun hk hmem

/-- The sources where an operand is the result of the last operator: it takes the slot that is
free. -/
theorem takeOperands_of_destReg {operand0 operand1 : Operand}
    (h : s.takeOperands info operand0 operand1 = some s')
    (hd : operand0.address = s.destReg ∨ operand1.address = s.destReg) :
    s'.operation = s.operation ∧ s'.loadCount = s.loadCount ∧ (s'.srcReg1, s'.srcReg2) =
      if s.srcReg1 = nullptr then (s.destReg, s.srcReg2)
      else if s.srcReg2 = nullptr then (s.srcReg1, s.destReg) else (s.srcReg1, s.srcReg2) := by
  have htake : ∀ reg, reg = s.destReg → (s.takeDestReg reg).multiOperandPtr info = some s' →
      s'.operation = s.operation ∧ s'.loadCount = s.loadCount ∧ (s'.srcReg1, s'.srcReg2) =
        if s.srcReg1 = nullptr then (s.destReg, s.srcReg2)
        else if s.srcReg2 = nullptr then (s.srcReg1, s.destReg) else (s.srcReg1, s.srcReg2) := by
    rintro reg rfl h
    obtain ⟨ptr, rfl⟩ := multiOperandPtr_eq_some h
    unfold takeDestReg
    split
    · exact ⟨rfl, rfl, rfl⟩
    split <;> exact ⟨rfl, rfl, rfl⟩
  unfold takeOperands at h
  split at h
  · next h0 => exact htake _ h0 h
  split at h
  · next h1 => exact htake _ h1 h
  · next h0 h1 => exact absurd hd (not_or.mpr ⟨h0, h1⟩)

/-- The sources where both operands are values that were loaded: the slots stand as the loads left
them. -/
theorem takeOperands_of_loads {a b : Reg} (h : s.takeOperands info (.value a) (.value b) = some s')
    (ha : a ≠ s.destReg) (hb : b ≠ s.destReg) :
    s'.operation = s.operation ∧ s'.loadCount = s.loadCount ∧
      (s'.srcReg1, s'.srcReg2) = (s.srcReg1, s.srcReg2) := by
  rw [takeOperands, if_neg (show (Operand.value a).address ≠ s.destReg from ha),
    if_neg (show (Operand.value b).address ≠ s.destReg from hb), Option.some.injEq] at h
  subst h
  exact ⟨rfl, rfl, rfl⟩

/-- An operation that was recognised can be inserted. -/
theorem operation_recogniseOperation {result : Reg} {opcode : Opcode} {operand0 operand1 : Operand}
    (hop : opcode ≠ .unrecognised) (h : s.recogniseOperation result opcode operand0 operand1 = some s') :
    s'.operation ≠ .null ∧ s'.operation ≠ .load := by
  have hlogic : ∀ operation negated : Operation, operation ≠ .null → operation ≠ .load → negated ≠ .null →
      negated ≠ .load → s.recogniseLogic operation negated result operand0 operand1 = some s' →
      s'.operation ≠ .null ∧ s'.operation ≠ .load := by
    intro operation negated h1 h2 h3 h4 h
    unfold recogniseLogic at h
    cases operand1 with
    | constantInt address sExtValue =>
      simp only at h
      split at h <;> cases h <;> exact ⟨h1, h2⟩
    | value address =>
      simp only at h
      split at h
      · obtain ⟨reg, -, rfl⟩ := Option.map_eq_some_iff.mp h
        exact ⟨h3, h4⟩
      · cases h
        exact ⟨h1, h2⟩
  cases opcode with
  | unrecognised => exact absurd rfl hop
  | and => exact hlogic _ _ (by decide) (by decide) (by decide) (by decide) h
  | or => exact hlogic _ _ (by decide) (by decide) (by decide) (by decide) h
  | xor =>
    cases h
    unfold recogniseXor
    cases operand1 <;> simp only <;> split <;> exact ⟨by simp, by simp⟩
  | add | sub | mul | sdiv | shl | lshr | ashr =>
    cases h
    exact ⟨by simp, by simp⟩

/-- An operator after which no complement waits is inserted. -/
theorem inserted_of_isNegated {isInLoopBody : Bool} {result : Reg} {opcode : Opcode}
    {operand0 operand1 : Operand}
    (h : s.handleBinaryOperator info isInLoopBody result opcode operand0 operand1 = some s')
    (hop : opcode ≠ .unrecognised) (hneg : s'.isNegated = false) :
    ∃ s₁ s₂, s.recogniseOperation result opcode operand0 operand1 = some s₁ ∧ s₁.isNegated = false ∧
      s₁.takeOperands info operand0 operand1 = some s₂ ∧ s' = s₂.insert result isInLoopBody := by
  obtain ⟨s₁, h₁, h⟩ := Option.bind_eq_some_iff.mp h
  split at h
  · next hwait =>
    cases h
    rw [hwait] at hneg
    cases hneg
  · next hwait =>
    rw [handleInstructionInserting, if_pos (operation_recogniseOperation hop h₁)] at h
    obtain ⟨s₂, h₂, rfl⟩ := Option.map_eq_some_iff.mp h
    exact ⟨s₁, s₂, h₁, Bool.not_eq_true _ ▸ hwait, h₂, rfl⟩

/-- The slots after a load. -/
theorem slots_handleLoad (info : CollectInfo) (s : DependencyDetector) (pointer : Reg) :
    ((s.handleLoad info pointer).srcReg1, (s.handleLoad info pointer).srcReg2) =
      if s.loadCount % 2 = 0 then (s.getRealSrcReg (info.getAllocatedReg pointer), s.srcReg2)
      else (s.srcReg1, s.getRealSrcReg (info.getAllocatedReg pointer)) := by
  unfold handleLoad takeLoad
  simp only
  split <;> rfl

theorem kept_fields_handleLoad (info : CollectInfo) (s : DependencyDetector) (pointer : Reg) :
    (s.handleLoad info pointer).destReg = s.destReg ∧ (s.handleLoad info pointer).isNegated = s.isNegated ∧
      (s.handleLoad info pointer).loadCount = s.loadCount + 1 ∧
      (s.handleLoad info pointer).lastUsedRegMap = s.lastUsedRegMap := by
  unfold handleLoad takeLoad
  simp only
  split <;> simp

/-- A load, or an operator that the detector recognises. -/
def gives (I : Instruction) (x : Reg) : Prop :=
  match I with
  | .binaryOperator result opcode _ _ => result = x ∧ opcode ≠ .unrecognised
  | .load result _ => result = x
  | _ => False

/-- **The condition on the instructions before a store**: the last two that are handled load the
destination and add it to what the one before them gives, and no complement waits; there were two
loads, or an odd number of them and the register of the destination is known. -/
structure AddsLast (info : CollectInfo) (l : List (Reg × Instruction)) (s : DependencyDetector)
    (operand0 : Operand) (pointer : Reg) : Prop where
  isNegated : s.isNegated = false
  loadCount : s.loadCount = 2 ∨
    s.loadCount % 2 = 1 ∧ s.getRealSrcReg (info.getAllocatedReg pointer) ≠ nullptr
  last : ∃ before BB₀ BB₁ BB I x loaded k operand0' operand1',
    l = before ++ [(BB₀, I), (BB₁, .load loaded pointer),
      (BB, .binaryOperator k .add operand0' operand1')] ∧ operand0 = .value k ∧ gives I x ∧
      ((operand0' = .value loaded ∧ operand1' = .value x) ∨
        (operand0' = .value x ∧ operand1' = .value loaded))

theorem step_load_of_isHandled {BB result pointer : Reg}
    (hI : isHandled info (BB, .load result pointer) = true) :
    step info s (BB, .load result pointer) = some (s.handleLoad info pointer) := by
  rw [isHandled, Bool.and_true] at hI
  exact if_pos hI

theorem step_operator_of_isHandled {BB result : Reg} {opcode : Opcode} {operand0 operand1 : Operand}
    (hI : isHandled info (BB, .binaryOperator result opcode operand0 operand1) = true) :
    step info s (BB, .binaryOperator result opcode operand0 operand1) =
      s.handleBinaryOperator info (info.isLoopBody BB) result opcode operand0 operand1 := by
  rw [isHandled, Bool.and_true] at hI
  exact if_pos hI

/-- The entry of an operator, when it is inserted under a result that is new. -/
theorem find_insert {result : Reg} {isInLoopBody : Bool} (hnew : s.IM.find result = none) :
    (s.insert result isInLoopBody).IM.find result = some (s.entry result isInLoopBody) := by
  show (s.IM.insertInstruction (s.entry result isInLoopBody)).find result = _
  rw [InstructionTable.find_insertInstruction, if_pos ⟨rfl, hnew⟩]

/-- What the detector holds after the instruction that gives `x`: its result and empty slots after
an operator, and its register in the slot of the load otherwise. -/
structure Holds (I : Instruction) (x reg : Reg) (s₀ s₁ : DependencyDetector) : Prop where
  cases : (s₁.destReg = x ∧ reg = x ∧ s₁.srcReg1 = nullptr ∧ s₁.srcReg2 = nullptr) ∨
    ((∃ pointer, I = .load x pointer) ∧ s₁.destReg = s₀.destReg ∧ s₁.loadCount = s₀.loadCount + 1 ∧
      (s₁.srcReg1, s₁.srcReg2) = if s₀.loadCount % 2 = 0 then (reg, s₀.srcReg2) else (s₀.srcReg1, reg))

theorem supplies_before_add {before : List (Reg × Instruction)} {BB₀ x : Reg} {I : Instruction}
    {s₀ s₁ : DependencyDetector} (hrun : run (step info) init before = some s₀)
    (hI : isHandled info (BB₀, I) = true) (hx : gives I x) (h₁ : step info s₀ (BB₀, I) = some s₁)
    (hneg : s₁.isNegated = false) :
    ∃ reg, Supplies info (before ++ [(BB₀, I)]) (.value x) reg ∧ Holds I x reg s₀ s₁ := by
  cases I with
  | binaryOperator result opcode operand0 operand1 =>
    obtain ⟨rfl, hop⟩ := hx
    rw [step_operator_of_isHandled hI] at h₁
    obtain ⟨t₁, t₂, -, -, -, rfl⟩ := inserted_of_isNegated h₁ hop hneg
    exact ⟨result, .operator BB₀ result opcode operand0 operand1 (by simp),
      ⟨.inl ⟨rfl, rfl, rfl, rfl⟩⟩⟩
  | load result pointer =>
    obtain rfl : result = x := hx
    rw [step_load_of_isHandled hI, Option.some.injEq] at h₁
    subst h₁
    obtain ⟨hdest, -, hcount, -⟩ := kept_fields_handleLoad info s₀ pointer
    exact ⟨_, .load BB₀ result pointer before s₀ (List.prefix_refl _) hrun,
      ⟨.inr ⟨⟨pointer, rfl⟩, hdest, hcount, slots_handleLoad info s₀ pointer⟩⟩⟩
  | store | sExt | getElementPtr | branch | other => cases hx

/-- **The sources of the addition**: the register of the destination is second after two loads, and
first after an odd number of them. -/
theorem sources_of_add {I : Instruction} {x reg loaded real : Reg} {s₀ s₁ t t' : DependencyDetector}
    {operand0 operand1 : Operand} (h : t.takeOperands info operand0 operand1 = some t')
    (hx : Holds I x reg s₀ s₁) (hdest : t.destReg = s₁.destReg) (hcount : t.loadCount = s₁.loadCount + 1)
    (hslots : (t.srcReg1, t.srcReg2) =
      if s₁.loadCount % 2 = 0 then (real, s₁.srcReg2) else (s₁.srcReg1, real))
    (hboth : (operand0 = .value loaded ∧ operand1 = .value x) ∨
      (operand0 = .value x ∧ operand1 = .value loaded))
    (hnew : (∃ pointer, I = .load x pointer) → x ≠ s₀.destReg ∧ loaded ≠ s₀.destReg)
    (hloads : t'.loadCount = 2 ∨ t'.loadCount % 2 = 1 ∧ real ≠ nullptr) (htwo : 2 ≤ t'.loadCount) :
    t'.operation = t.operation ∧
      (t'.srcReg1, t'.srcReg2) = if t'.loadCount > 2 then (real, reg) else (reg, real) := by
  rcases hx.cases with ⟨hx, rfl, h1, h2⟩ | ⟨hload, hsame, hone, hfirst⟩
  · -- the slots are free but for the destination
    have hor : operand0.address = t.destReg ∨ operand1.address = t.destReg := by
      rw [hdest, hx]
      rcases hboth with ⟨-, rfl⟩ | ⟨rfl, -⟩
      · exact .inr rfl
      · exact .inl rfl
    obtain ⟨hop, hsame, hsrc⟩ := takeOperands_of_destReg h hor
    refine ⟨hop, hsrc.trans ?_⟩
    rw [hsame] at hloads htwo ⊢
    rw [h1, h2] at hslots
    rw [hdest, hx]
    by_cases heven : s₁.loadCount % 2 = 0
    · rw [if_pos heven, Prod.mk.injEq] at hslots
      have hreal : real ≠ nullptr := (hloads.resolve_left (by omega)).2
      rw [hslots.1, hslots.2, if_neg hreal, if_pos rfl, if_pos (by omega)]
    · rw [if_neg heven, Prod.mk.injEq] at hslots
      rw [hslots.1, hslots.2, if_pos rfl, if_neg (by omega)]
  · -- both slots hold what was loaded
    obtain ⟨hxd, hld⟩ := hnew hload
    have hvalues : t'.operation = t.operation ∧ t'.loadCount = t.loadCount ∧
        (t'.srcReg1, t'.srcReg2) = (t.srcReg1, t.srcReg2) := by
      rw [← hsame, ← hdest] at hxd hld
      rcases hboth with ⟨rfl, rfl⟩ | ⟨rfl, rfl⟩
      · exact takeOperands_of_loads h hld hxd
      · exact takeOperands_of_loads h hxd hld
    obtain ⟨hop, hcount', hsrc⟩ := hvalues
    refine ⟨hop, hsrc.trans ?_⟩
    rw [hcount'] at hloads htwo ⊢
    rw [hslots]
    by_cases heven : s₀.loadCount % 2 = 0
    · rw [if_pos heven, Prod.mk.injEq] at hfirst
      rw [if_neg (by omega), if_neg (by omega), hfirst.1]
    · rw [if_neg heven, Prod.mk.injEq] at hfirst
      rw [if_pos (by omega), if_pos (by omega), hfirst.2]

/-- **What the entry of the addition says** when the store is reached: after two loads its second
source is the register of the destination, and after an odd number of them its first one. -/
theorem find_of_addsLast {l : List (Reg × Instruction)} {operand0 : Operand} {pointer : Reg}
    (hl : DistinctResults info l) (hhandled : ∀ I ∈ l, isHandled info I = true)
    (hrun : run (step info) init l = some s) (h : AddsLast info l s operand0 pointer)
    (htwo : 2 ≤ s.loadCount) :
    ∃ d BB BB₁ loaded operand0' operand1' x reg, s.IM.find s.destReg = some d ∧ operand0 = .value s.destReg ∧
      d.operation = .add ∧ d.isInLoopBody = info.isLoopBody BB ∧
      (BB, .binaryOperator s.destReg .add operand0' operand1') ∈ l ∧ (BB₁, .load loaded pointer) ∈ l ∧
      ((operand0' = .value loaded ∧ operand1' = .value x) ∨
        (operand0' = .value x ∧ operand1' = .value loaded)) ∧
      Supplies info l (.value x) reg ∧
      Supplies info l (.value loaded) (s.getRealSrcReg (info.getAllocatedReg pointer)) ∧
      (d.sourceReg1, d.sourceReg2) = if s.loadCount > 2
        then (s.getRealSrcReg (info.getAllocatedReg pointer), reg)
        else (reg, s.getRealSrcReg (info.getAllocatedReg pointer)) := by
  obtain ⟨hneg, hcount, before, BB₀, BB₁, BB, I, x, loaded, k, operand0', operand1', rfl, rfl, hx, hboth⟩ := h
  rw [run_append, Option.bind_eq_some_iff] at hrun
  obtain ⟨s₀, hrun₀, hrun⟩ := hrun
  simp only [run_cons, run_nil, Option.bind_eq_some_iff] at hrun
  obtain ⟨s₁, h₁, s₂, h₂, s₃, h₃, hs⟩ := hrun
  cases hs
  rw [step_load_of_isHandled (hhandled _ (by simp)), Option.some.injEq] at h₂
  subst h₂
  rw [step_operator_of_isHandled (hhandled _ (by simp))] at h₃
  obtain ⟨t₁, t₂, hadd, hneg₂, htake, rfl⟩ := inserted_of_isNegated h₃ (by decide) hneg
  obtain ⟨hdest₁, hneg₁, hcount₁, hused₁⟩ := kept_fields_handleLoad info s₁ pointer
  have hinit : before ++ [(BB₀, I)] ++ [(BB₁, .load loaded pointer)] <+: before ++ [(BB₀, I),
      (BB₁, .load loaded pointer), (BB, .binaryOperator k .add operand0' operand1')] :=
    ⟨[(BB, .binaryOperator k .add operand0' operand1')], by simp⟩
  have hrun₁ : run (step info) init (before ++ [(BB₀, I)]) = some s₁ := by rw [run_snoc hrun₀, h₁]
  have hneg' : s₁.isNegated = false := by
    rw [← hneg₁, ← hneg₂]
    cases hadd
    rfl
  obtain ⟨reg, hsup, hholds⟩ := supplies_before_add hrun₀ (hhandled _ (by simp)) hx h₁ hneg'
  obtain ⟨hused, hT, hdest⟩ := recogniseOperation_eq_some hadd
  obtain ⟨hused', hT', hdest'⟩ := takeOperands_eq_some htake
  -- the register of the destination is the same before its load and at the store
  have hreal : (t₂.insert k (info.isLoopBody BB)).getRealSrcReg (info.getAllocatedReg pointer) =
      s₁.getRealSrcReg (info.getAllocatedReg pointer) := by
    rw [getRealSrcReg, getRealSrcReg, ← hused₁, ← hused, ← hused']
    rfl
  have hfind : t₂.IM.find k = none := by
    have hrun₂ : run (step info) init (before ++ [(BB₀, I), (BB₁, .load loaded pointer)]) =
        some (s₁.handleLoad info pointer) := by
      rw [show before ++ [(BB₀, I), (BB₁, .load loaded pointer)] = before ++ [(BB₀, I)] ++
        [(BB₁, .load loaded pointer)] by simp, run_snoc hrun₁, step_load_of_isHandled (hhandled _ (by simp))]
    have hl' : DistinctResults info (before ++ [(BB₀, I), (BB₁, .load loaded pointer)] ++
        [(BB, .binaryOperator k .add operand0' operand1')]) := by simpa using hl
    rw [hT', hT, ← Option.not_isSome_iff_eq_none, InstructionTable.isSome_find]
    exact not_mem_of_run hl' hrun₂ (by simp [resultsIn, Instruction.result])
  have hnew : (∃ pointer, I = .load x pointer) → x ≠ s₀.destReg ∧ loaded ≠ s₀.destReg := by
    rintro ⟨pointer', rfl⟩
    exact ⟨ne_destReg_of_run hl hrun₀ (by simp [resultsIn, Instruction.result]),
      ne_destReg_of_run hl hrun₀ (by simp [resultsIn, Instruction.result])⟩
  rw [hreal] at hcount ⊢
  cases hadd
  have hslots := slots_handleLoad info s₁ pointer
  obtain ⟨hop, hsrc⟩ := sources_of_add htake hholds hdest₁ hcount₁ hslots hboth hnew hcount htwo
  refine ⟨t₂.entry k (info.isLoopBody BB), BB, BB₁, loaded, operand0', operand1', x, reg,
    find_insert hfind, rfl, hop, rfl,
    List.mem_append_right _ (by simp [insert]), List.mem_append_right _ (by simp), hboth,
      hsup.mono ?_, ?_, hsrc⟩
  · exact (List.prefix_append _ _).trans hinit
  · exact .load BB₁ loaded pointer (before ++ [(BB₀, I)]) s₁ hinit hrun₁

/-- The tagged entry of an addition that meets the condition has the destination second. -/
theorem sources_taggedEntry {d : InstructionData} {real reg : Reg}
    (h : (d.sourceReg1, d.sourceReg2) = if s.loadCount > 2 then (real, reg) else (reg, real)) :
    (s.taggedEntry d).operation = d.operation ∧ (s.taggedEntry d).isInLoopBody = d.isInLoopBody ∧
      (s.taggedEntry d).sourceReg1 = reg ∧ (s.taggedEntry d).sourceReg2 = real := by
  unfold taggedEntry
  split at h
  · next hmany =>
    rw [Prod.mk.injEq] at h
    rw [if_pos hmany]
    exact ⟨rfl, rfl, h.2, h.1⟩
  · next hmany =>
    rw [Prod.mk.injEq] at h
    rw [if_neg hmany]
    exact ⟨rfl, rfl, h.1, h.2⟩

/-- **A step keeps the tags true** when the store that gives one meets the condition. -/
theorem tagsHold_step {before : List (Reg × Instruction)}
    (hl : DistinctResults info (before ++ [I])) (hrun : run (step info) init before = some s)
    (h : step info s I = some s') (hs : TagsHold info (handled info before) s.IM)
    (hadds : ∀ operand0 pointer, I.2 = .store operand0 pointer → Tags info s I.2 →
      AddsLast info (handled info before) s operand0 pointer) :
    TagsHold info (handled info (before ++ [I])) s'.IM := by
  have hpre : handled info before <+: handled info (before ++ [I]) := (List.prefix_append before [I]).filter _
  intro k d' hd' htag
  rcases tagged_step h hd' htag with ⟨d, hd, hsum⟩ | ⟨htags, rfl, d, hd, hloop, hsum⟩
  · simp only [InstructionData.summary, Prod.mk.injEq] at hsum
    obtain ⟨hop, hspec, h1, h2, hloop⟩ := hsum
    exact (hs k d hd (hspec ▸ htag)).mono hpre (by rw [hop, h1, h2, hloop])
  · obtain ⟨B, inst⟩ := I
    cases inst with
    | store operand0 pointer =>
      have hstore : (B, .store operand0 pointer) ∈ handled info (before ++ [(B, .store operand0 pointer)]) :=
        List.mem_filter.mpr ⟨by simp, by rw [isHandled, htags.1]; rfl⟩
      obtain ⟨d₁, BB, BB₁, loaded, operand0', operand1', x, reg, hd₁, rfl, hop, hBB, hadd, hload, hboth, hsup,
        hsup', hsrc⟩ := find_of_addsLast (hl.sublist (List.filter_sublist.trans (List.sublist_append_left _ _)))
          (fun I hI => (List.mem_filter.mp hI).2) ((run_handled before).trans hrun) (hadds _ _ rfl htags)
          htags.2.2.1
      obtain rfl : d = d₁ := Option.some.inj (hd.symm.trans hd₁)
      obtain ⟨hop', hloop', h1, h2⟩ := sources_taggedEntry hsrc
      simp only [InstructionData.summary, Prod.mk.injEq] at hsum
      obtain ⟨hsop, -, hs1, hs2, hsloop⟩ := hsum
      refine ⟨hsop.trans (hop'.trans hop), hsloop.trans (hloop'.trans hloop), BB, BB₁, B, operand0',
        operand1',
        loaded, pointer, .value x, hpre.subset hadd, hBB ▸ hloop, hpre.subset hload, hstore, hboth, ?_, ?_⟩
      · rw [hs2, h2]
        exact hsup'.mono hpre
      · rw [hs1, h1]
        exact hsup.mono hpre
    | _ => exact htags.elim

/-! ### Every run -/

/-- **Every entry that is tagged is an accumulation**, in every state of a run whose stores that tag
all meet the condition, and in the table that the detector returns. -/
theorem accumulation_of_addsLast {basicBlocks : List BasicBlock}
    (hl : DistinctResults info (instructions basicBlocks))
    (h : ∀ before BB operand0 pointer s, before ++ [(BB, .store operand0 pointer)] <+: instructions basicBlocks →
      run (step info) init before = some s → Tags info s (.store operand0 pointer) →
        AddsLast info (handled info before) s operand0 pointer) :
    (∀ before s, before <+: instructions basicBlocks → run (step info) init before = some s →
      TagsHold info (handled info before) s.IM) ∧
    ∀ s, detectDependencies info basicBlocks = some s →
      TagsHold info (handled info (instructions basicBlocks)) s.IM := by
  have hall : ∀ before s, before <+: instructions basicBlocks → run (step info) init before = some s →
      TagsHold info (handled info before) s.IM := by
    intro before s hpre hrun
    refine run_induction (P := fun before s => before <+: instructions basicBlocks →
      TagsHold info (handled info before) s.IM) (fun _ k d hd => ?_) ?_ hrun hpre
    · simp [init] at hd
    · intro before s I s' hrun ih hstep hpre
      refine tagsHold_step (hl.sublist hpre.sublist) hrun hstep
        (ih ((List.prefix_append before [I]).trans hpre)) fun operand0 pointer hI htags => ?_
      obtain ⟨BB, inst⟩ := I
      obtain rfl : inst = .store operand0 pointer := hI
      exact h before BB operand0 pointer s hpre hrun htags
  refine ⟨hall, fun s hs => ?_⟩
  obtain ⟨t, ht, rfl⟩ := Option.map_eq_some_iff.mp hs
  exact hall _ t (List.prefix_refl _) ht

/-- Four scalar variables, at the addresses 16, 20, 24 and 28, and a loop whose body is the
block 8. -/
def scalarLoop : CollectInfo :=
  { aliasInfoMap := ExtTreeMap.ofList [(16, []), (20, []), (24, []), (28, [])], arraysInfoMap := ∅
    loopBodyList := [8], iteratorsAliasMap := ∅, combinedIterators := [], PIT := ∅ }

/-- `d += a * b`, with `a`, `b` and `d` at 16, 20 and 24. -/
def addProduct : BasicBlock :=
  ⟨8, [.load 100 16, .load 101 20, .binaryOperator 102 .mul (.value 100) (.value 101), .load 103 24,
    .binaryOperator 104 .add (.value 103) (.value 102), .store (.value 104) 24]⟩

theorem addProduct_isSome : (detectDependencies scalarLoop [addProduct]).isSome := by decide +kernel

theorem addProduct_before_isSome :
    (run (step scalarLoop) init ((instructions [addProduct]).take 5)).isSome := by decide +kernel

theorem accumulation_of_addsLast_addProduct :
    ∃ s d, detectDependencies scalarLoop [addProduct] = some s ∧ s.IM.find 104 = some d ∧
      "accumulation" ∈ d.specifications ∧
      TagsHold scalarLoop (handled scalarLoop (instructions [addProduct])) s.IM := by
  have hfind : (((detectDependencies scalarLoop [addProduct]).get addProduct_isSome).IM.find 104).any
      (fun d => "accumulation" ∈ d.specifications) = true := by decide +kernel
  obtain ⟨d, hd, htag⟩ := (Option.any_eq_true _ _).mp hfind
  refine ⟨_, d, (Option.some_get addProduct_isSome).symm, hd, of_decide_eq_true htag, ?_⟩
  refine (accumulation_of_addsLast (by decide +kernel) ?_).2 _ (Option.some_get addProduct_isSome).symm
  intro before BB operand0 pointer s hpre hrun htags
  -- the last instruction is the only store
  obtain ⟨rfl, hstore⟩ : before = (instructions [addProduct]).take 5 ∧
      (BB, Instruction.store operand0 pointer) = (8, .store (.value 104) 24) := by
    obtain ⟨rest, hrest⟩ := hpre
    rcases before with _ | ⟨I₀, _ | ⟨I₁, _ | ⟨I₂, _ | ⟨I₃, _ | ⟨I₄, _ | ⟨I₅, before⟩⟩⟩⟩⟩⟩ <;>
      simp_all [instructions, addProduct]
  obtain rfl : s = (run (step scalarLoop) init ((instructions [addProduct]).take 5)).get
    addProduct_before_isSome := by simp [hrun]
  cases hstore
  refine ⟨by decide +kernel, .inr ⟨by decide +kernel, by decide +kernel⟩, ?_⟩
  exact ⟨[(8, .load 100 16), (8, .load 101 20)], 8, 8, 8,
    .binaryOperator 102 .mul (.value 100) (.value 101), 102,
    103, 104, .value 103, .value 102, by decide +kernel, rfl, ⟨rfl, by decide⟩, .inl ⟨rfl, rfl⟩⟩

/-- `d = a * d`, with `a` and `d` at 16 and 24. -/
def timesLast : BasicBlock :=
  ⟨8, [.load 100 16, .load 101 24, .binaryOperator 102 .mul (.value 100) (.value 101), .store (.value 102) 24]⟩

/-- `d += a * b * c`, with `c` at 28. -/
def addTriple : BasicBlock :=
  ⟨8, [.load 100 16, .load 101 20, .binaryOperator 102 .mul (.value 100) (.value 101), .load 103 28,
    .binaryOperator 104 .mul (.value 102) (.value 103), .load 105 24,
    .binaryOperator 106 .add (.value 105) (.value 104), .store (.value 106) 24]⟩

theorem timesLast_isSome : (detectDependencies scalarLoop [timesLast]).isSome := by decide +kernel

theorem addTriple_isSome : (detectDependencies scalarLoop [addTriple]).isSome := by decide +kernel

/-- A product is tagged. After four loads the sum is tagged with the destination as its first
source, and what is accumulated as the second. -/
theorem product_tagged :
    (∃ s, DistinctResults scalarLoop (instructions [timesLast]) ∧
      detectDependencies scalarLoop [timesLast] = some s ∧
      (s.IM.find 102).map (fun d => (d.operation, d.specifications)) = some (.mul, ["accumulation"]) ∧
      ¬ TagsHold scalarLoop (handled scalarLoop (instructions [timesLast])) s.IM) ∧
    ∃ s, DistinctResults scalarLoop (instructions [addTriple]) ∧
      detectDependencies scalarLoop [addTriple] = some s ∧
      (s.IM.find 106).map (·.summary) = some (.add, ["accumulation"], 24, 104, true) := by
  have hmul : (((detectDependencies scalarLoop [timesLast]).get timesLast_isSome).IM.find 102).map
      (fun d => (d.operation, d.specifications)) = some (.mul, ["accumulation"]) := by decide +kernel
  have hsum : (((detectDependencies scalarLoop [addTriple]).get addTriple_isSome).IM.find 106).map
      (·.summary) = some (.add, ["accumulation"], 24, 104, true) := by decide +kernel
  refine ⟨⟨_, by decide +kernel, (Option.some_get timesLast_isSome).symm, hmul, fun hall => ?_⟩,
    _, by decide +kernel, (Option.some_get addTriple_isSome).symm, hsum⟩
  obtain ⟨d, hd, heq⟩ := Option.map_eq_some_iff.mp hmul
  rw [Prod.mk.injEq] at heq
  have hadd := (hall 102 d hd (by rw [heq.2]; exact List.mem_singleton_self _)).operation
  rw [heq.1] at hadd
  cases hadd

end DependencyDetector

end Octantis
