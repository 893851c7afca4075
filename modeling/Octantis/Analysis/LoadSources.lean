import Octantis.Analysis.RecordedStores

/-!
# The source of a load

A load of an array that was stored to once takes what that store has recorded, which
is a question about the instructions before the store; and where that is a key of the
table, it is an operator before the store that was not held back.

## What is proved

* `getRealSrcReg_of_store`: the source of a load after one store to its array;
* `mem_insertedResults_of_mem`: when it is a key.
-/

namespace Octantis

open Std Lib

/-- The register that a store records, from the instructions before it. A store with nothing
recognised since the last one records none; a copy records the value stored; any other store the
last operator that was not held back. -/
def recordedBy (past : List Instruction) (operand0 : Operand) : Option Reg :=
  if lastRecognised past = none then none
  else some (if isCopy past then operand0.address else (lastInserted past).getD nullptr)

/-- The instruction is a store that is recorded under the register. -/
def Instruction.StoresTo (info : CollectInfo) (reg : Reg) : Instruction → Prop
  | .store _ pointer => DependencyDetector.storedReg info pointer = reg
  | _ => False

instance (info : CollectInfo) (reg : Reg) : (I : Instruction) → Decidable (I.StoresTo info reg)
  | .store _ pointer => inferInstanceAs (Decidable (DependencyDetector.storedReg info pointer = reg))
  | .binaryOperator .. | .load .. | .sExt _ | .getElementPtr _ | .branch | .other _ => .isFalse id

namespace DependencyDetector

variable {info : CollectInfo} {s s' : DependencyDetector} {past : List Instruction} {I : Reg × Instruction}
  {reg : Reg} {l before between : List (Reg × Instruction)}

/-! ### What is recorded -/

/-- The register that a store records, from the state before it. -/
theorem Follows.recordedReg (h : Follows info past s) (hop : s.operation ≠ .null) (operand0 : Operand) :
    recordedBy past operand0 = some (s.recordedReg operand0) := by
  have hcopy : (s.loadCount = 1 ∧ s.operation = .load) ↔ isCopy past = true := by
    rw [h.loads, h.load, isCopy, Bool.and_eq_true, decide_eq_true_iff]
  rw [recordedBy, if_neg (h.null.not.mp hop), DependencyDetector.recordedReg, h.destReg]
  simp only [hcopy]

/-- An instruction that does not store to the register leaves what is recorded under it. -/
theorem lastUsedRegMap_step (hI : ¬ I.2.StoresTo info reg) (h : step info s I = some s') :
    s'.lastUsedRegMap[reg]? = s.lastUsedRegMap[reg]? := by
  rcases step_cases h with ⟨hkept, -⟩ | ⟨operand0, pointer, heq, -, -, -, hl, -⟩
  · rw [hkept.lastUsedRegMap]
  · have hne : storedReg info pointer ≠ reg := by
      rw [heq] at hI
      exact hI
    rw [hl, ExtTreeMap.getElem?_insert, if_neg fun hcmp => hne (Std.compare_eq_iff_eq.mp hcmp)]

theorem lastUsedRegMap_run (hl : ∀ I ∈ l, ¬ I.2.StoresTo info reg) (h : run (step info) s l = some s') :
    s'.lastUsedRegMap[reg]? = s.lastUsedRegMap[reg]? :=
  run_invariant (P := fun s' => s'.lastUsedRegMap[reg]? = s.lastUsedRegMap[reg]?)
    (Q := fun I => ¬ I.2.StoresTo info reg) rfl
    (fun _ _ _ hI hs hstep => (lastUsedRegMap_step hI hstep).trans hs) hl h

/-- **The source of a load** of a register that one store is recorded under: what that store has
recorded, or the register itself. -/
theorem getRealSrcReg_of_store {BB pointer : Reg} {operand0 : Operand}
    (hbefore : ∀ I ∈ before, ¬ I.2.StoresTo info (storedReg info pointer))
    (hbetween : ∀ I ∈ between, ¬ I.2.StoresTo info (storedReg info pointer))
    (hvalid : info.isValidInst (.store operand0 pointer) = true)
    (h : run (step info) init (before ++ (BB, .store operand0 pointer) :: between) = some s) :
    s.getRealSrcReg (storedReg info pointer) =
      (recordedBy (info.scheduled before) operand0).getD (storedReg info pointer) := by
  rw [run_append] at h
  obtain ⟨s₁, h₁, h⟩ := Option.bind_eq_some_iff.mp h
  rw [run_cons] at h
  obtain ⟨s₂, h₂, h⟩ := Option.bind_eq_some_iff.mp h
  have hfollows := follows_of_run h₁
  have hnone : s₁.lastUsedRegMap[storedReg info pointer]? = none := by
    rw [lastUsedRegMap_run hbefore h₁]
    exact ExtTreeMap.getElem?_empty
  rw [getRealSrcReg, lastUsedRegMap_run hbetween h]
  rcases step_cases h₂ with ⟨hkept, hnot⟩ | ⟨operand0', pointer', heq, -, hop, -, hl, -⟩
  · have hnull : s₁.operation = .null := by
      rcases hnot with hstore | hinvalid | hnull
      · exact absurd rfl (hstore operand0 pointer)
      · exact absurd hvalid hinvalid
      · exact hnull
    rw [hkept.lastUsedRegMap, hnone, recordedBy, if_pos (hfollows.null.mp hnull)]
  · obtain ⟨rfl, rfl⟩ : operand0 = operand0' ∧ pointer = pointer' := by simpa using heq
    rw [hl, ExtTreeMap.getElem?_insert_self, hfollows.recordedReg hop]

/-! ### Which of them are keys -/

theorem insertedResults_append (later past : List Instruction) :
    ∃ more, insertedResults (later ++ past) = more ++ insertedResults past ∧
      ∀ r ∈ more, ∃ opcode operand0 operand1, .binaryOperator r opcode operand0 operand1 ∈ later := by
  induction later with
  | nil => exact ⟨[], rfl, fun r hr => nomatch hr⟩
  | cons I later ih =>
    obtain ⟨more, hmore, hall⟩ := ih
    refine ⟨(insertedResult (later ++ past) I).toList ++ more, ?_, fun r hr => ?_⟩
    · rw [List.cons_append, insertedResults, hmore, List.append_assoc]
    · rcases List.mem_append.mp hr with hr | hr
      · rw [Option.mem_toList] at hr
        unfold insertedResult at hr
        split at hr
        · obtain ⟨-, hr⟩ := Option.ite_none_right_eq_some.mp hr
          cases hr
          exact ⟨_, _, _, List.mem_cons_self⟩
        · cases hr
      · obtain ⟨opcode, operand0, operand1, hmem⟩ := hall r hr
        exact ⟨opcode, operand0, operand1, List.mem_cons_of_mem _ hmem⟩

theorem scheduled_append (info : CollectInfo) (before after : List (Reg × Instruction)) :
    info.scheduled (before ++ after) = info.scheduled after ++ info.scheduled before := by
  simp only [CollectInfo.scheduled, List.map_append, List.filter_append, List.reverse_append]

theorem mem_of_mem_scheduled {J : Instruction} (h : J ∈ info.scheduled l) : ∃ BB, (BB, J) ∈ l := by
  obtain ⟨⟨BB, J⟩, hI, rfl⟩ := List.mem_map.mp (List.mem_of_mem_filter (List.mem_reverse.mp h))
  exact ⟨BB, hI⟩

theorem mem_allocatedIn_of_loadedRegs (h : reg ∈ loadedRegs info (info.scheduled l)) : reg ∈ allocatedIn info l := by
  obtain ⟨J, hJ, hreg⟩ := List.mem_filterMap.mp h
  obtain ⟨BB, hI⟩ := mem_of_mem_scheduled hJ
  exact List.mem_filterMap.mpr ⟨_, hI, hreg⟩

/-- **A key that no later instruction computes and that is not loaded** is the result of an operator
before that was not held back. -/
theorem mem_insertedResults_of_mem {after : List (Reg × Instruction)}
    (h : run (step info) init (before ++ after) = some s) (hlater : reg ∉ resultsIn after)
    (hloaded : reg ∉ allocatedIn info (before ++ after)) (hmem : reg ∈ s.IM.instructionMap) :
    reg ∈ insertedResults (info.scheduled before) := by
  rcases ((follows_of_run h).keys reg).mp hmem with hins | hload
  · obtain ⟨more, hmore, hall⟩ := insertedResults_append (info.scheduled after) (info.scheduled before)
    rw [scheduled_append, hmore, List.mem_append] at hins
    refine hins.resolve_left fun hmem => hlater ?_
    obtain ⟨opcode, operand0, operand1, hop⟩ := hall reg hmem
    obtain ⟨BB, hI⟩ := mem_of_mem_scheduled hop
    exact List.mem_filterMap.mpr ⟨_, hI, rfl⟩
  · exact absurd (mem_allocatedIn_of_loadedRegs hload) hloaded

end DependencyDetector

end Octantis
