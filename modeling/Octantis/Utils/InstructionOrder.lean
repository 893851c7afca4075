import Mathlib.Data.List.Nodup
import Octantis.Lib.Run
import Octantis.Utils.InstructionTable

/-!
# The order of the instructions

The instruction table keeps its instructions in `instructionMap` and their registers, with
the operations, in `instructionOrderVector`. The functions that fill it write to the two one
after the other; `reorderInstructionVector`, which the detector and the scheduler both call,
puts the loads first.

## The model

`TableCall` is a call of one of these functions, and a history is a list of them. `inserted`
is the log of the instructions that a history has entered, read off the calls and the keys
that there were; a history is one of fresh results when `insertInstruction` is called with a
register that is no key.

## What is proved

* `LogInv.call`: what every call keeps;
* `instructionOrder_of_run`: after any history of fresh results the vector has every key
  once and nothing else, with its operation, and to reorder it gives the loads of the log
  and then its other instructions.
-/

namespace Octantis

open Std Lib

/-- A call of a function of the table. -/
inductive TableCall where
  /-- `insertLoadInstruction` -/
  | insertLoadInstruction (destReg : Reg) (oT : OperandType)
  /-- `insertInstruction` -/
  | insertInstruction (d : InstructionData)
  /-- `modifyGivenField` -/
  | modifyGivenField (destReg : Reg) (field : InstructionField) (newField : Reg) (oT : OperandType)
  /-- `addSpecToInstruction` -/
  | addSpecToInstruction (destReg : Reg) (spec : String)
  /-- `swapOperands` -/
  | swapOperands (destReg : Reg)
  /-- `setInstructionTimeAndDelay`, which the scheduler calls before it reorders. -/
  | setInstructionTimeAndDelay (destReg : Reg) (time delay : ℤ)
  /-- `reorderInstructionVector` -/
  | reorderInstructionVector
  deriving DecidableEq, Repr

namespace InstructionTable

/-- A call. -/
def call (T : InstructionTable) : TableCall → Option InstructionTable
  | .insertLoadInstruction destReg oT => some (T.insertLoadInstruction destReg oT)
  | .insertInstruction d => some (T.insertInstruction d)
  | .modifyGivenField destReg field newField oT => some (T.modifyGivenField destReg field newField oT)
  | .addSpecToInstruction destReg spec => some (T.addSpecToInstruction destReg spec)
  | .swapOperands destReg => T.swapOperands destReg
  | .setInstructionTimeAndDelay destReg time delay => some (T.setInstructionTimeAndDelay destReg time delay)
  | .reorderInstructionVector => some T.reorderInstructionVector

/-- The instruction that a call enters. -/
def entered (T : InstructionTable) : TableCall → List (Reg × Operation)
  | .insertLoadInstruction destReg _ => if destReg ∈ T.instructionMap then [] else [(destReg, .load)]
  | .insertInstruction d => [(d.destinationReg, d.operation)]
  | .modifyGivenField .. | .addSpecToInstruction .. | .swapOperands _ | .setInstructionTimeAndDelay ..
  | .reorderInstructionVector => []

/-- The result of an `insertInstruction` is not the register of another instruction. -/
def FreshResult (T : InstructionTable) : TableCall → Prop
  | .insertInstruction d => d.destinationReg ∉ T.instructionMap
  | .insertLoadInstruction .. | .modifyGivenField .. | .addSpecToInstruction .. | .swapOperands _
  | .setInstructionTimeAndDelay .. | .reorderInstructionVector => True

instance (T : InstructionTable) (c : TableCall) : Decidable (T.FreshResult c) :=
  match c with
  | .insertInstruction d => inferInstanceAs (Decidable (d.destinationReg ∉ T.instructionMap))
  | .insertLoadInstruction .. | .modifyGivenField .. | .addSpecToInstruction .. | .swapOperands _
  | .setInstructionTimeAndDelay .. | .reorderInstructionVector => isTrue trivial

/-- The log of a history. -/
def inserted (calls : List TableCall) : List (Reg × Operation) :=
  (transitions call empty calls).flatMap fun t => t.pre.entered t.act

variable {T T' : InstructionTable} {log : List (Reg × Operation)} {c : TableCall} {calls : List TableCall}

/-- **The order** is that of the log, for the loads and for the others. -/
structure LogInv (log : List (Reg × Operation)) (T : InstructionTable) : Prop where
  nodup : (log.map (·.1)).Nodup
  find : ∀ reg op, (reg, op) ∈ log ↔ ∃ d, T.find reg = some d ∧ d.operation = op
  loads : T.instructionOrderVector.filter (·.2 = .load) = log.filter (·.2 = .load)
  others : T.instructionOrderVector.filter (·.2 ≠ .load) = log.filter (·.2 ≠ .load)

theorem logInv_empty : LogInv [] empty :=
  ⟨List.nodup_nil, fun reg op => by simp, rfl, rfl⟩

theorem LogInv.mem_iff (h : LogInv log T) (reg : Reg) : reg ∈ log.map (·.1) ↔ reg ∈ T.instructionMap := by
  rw [← isSome_find, Option.isSome_iff_exists, List.mem_map]
  constructor
  · rintro ⟨⟨reg, op⟩, hmem, rfl⟩
    obtain ⟨d, hd, -⟩ := (h.find reg op).mp hmem
    exact ⟨d, hd⟩
  · rintro ⟨d, hd⟩
    exact ⟨(reg, d.operation), (h.find reg d.operation).mpr ⟨d, hd, rfl⟩, rfl⟩

/-- A new instruction comes at the end of both. -/
theorem LogInv.insertInstruction (h : LogInv log T) {d : InstructionData}
    (hnew : d.destinationReg ∉ T.instructionMap) :
    LogInv (log ++ [(d.destinationReg, d.operation)]) (T.insertInstruction d) := by
  have hnone : T.find d.destinationReg = none := ExtTreeMap.getElem?_eq_none hnew
  refine ⟨?_, fun reg op => ?_, ?_, ?_⟩
  · rw [List.map_append, List.map_singleton, ← List.concat_eq_append]
    exact h.nodup.concat fun hmem => hnew ((h.mem_iff _).mp hmem)
  · rw [List.mem_append, h.find, List.mem_singleton, Prod.mk.injEq, find_insertInstruction]
    by_cases hreg : reg = d.destinationReg
    · rw [hreg, if_pos ⟨rfl, hnone⟩, hnone]
      simp [eq_comm]
    · rw [if_neg fun hboth => hreg hboth.1]
      simp [hreg]
  · exact (List.filter_append ..).trans ((congrArg (· ++ _) h.loads).trans (List.filter_append ..).symm)
  · exact (List.filter_append ..).trans ((congrArg (· ++ _) h.others).trans (List.filter_append ..).symm)

/-- A change that keeps the operation. -/
theorem LogInv.modifyInstruction (h : LogInv log T) (reg : Reg) {f : InstructionData → InstructionData}
    (hf : ∀ d, (f d).operation = d.operation) : LogInv log (T.modifyInstruction reg f) := by
  refine ⟨h.nodup, fun reg' op => ?_, h.loads, h.others⟩
  rw [h.find, find_modifyInstruction]
  split
  · simp [Option.map_eq_some_iff, hf]
  · rfl

theorem LogInv.reorderInstructionVector (h : LogInv log T) : LogInv log T.reorderInstructionVector := by
  refine ⟨h.nodup, h.find, ?_, ?_⟩
  · rw [← h.loads]
    simp [InstructionTable.reorderInstructionVector, List.filter_append, List.filter_filter]
  · rw [← h.others]
    simp [InstructionTable.reorderInstructionVector, List.filter_append, List.filter_filter]

/-- **A call** keeps the order, and adds what it enters to the log. -/
theorem LogInv.call (h : LogInv log T) (hfresh : T.FreshResult c) (hc : T.call c = some T') :
    LogInv (log ++ T.entered c) T' := by
  cases c with
  | insertLoadInstruction destReg oT =>
    obtain rfl := Option.some.inj hc
    rw [entered, InstructionTable.insertLoadInstruction]
    split
    · rwa [List.append_nil]
    · next hnew => exact h.insertInstruction (d := .ofLoad destReg oT) hnew
  | insertInstruction d =>
    obtain rfl := Option.some.inj hc
    exact h.insertInstruction hfresh
  | modifyGivenField destReg field newField oT =>
    obtain rfl := Option.some.inj hc
    rw [entered, List.append_nil]
    exact h.modifyInstruction destReg fun d => by cases field <;> rfl
  | addSpecToInstruction destReg spec =>
    obtain rfl := Option.some.inj hc
    rw [entered, List.append_nil]
    exact h.modifyInstruction destReg fun _ => rfl
  | swapOperands destReg =>
    obtain ⟨-, rfl⟩ := swapOperands_eq_some T destReg hc
    rw [entered, List.append_nil]
    exact h.modifyInstruction destReg fun _ => rfl
  | setInstructionTimeAndDelay destReg time delay =>
    obtain rfl := Option.some.inj hc
    rw [entered, List.append_nil]
    exact h.modifyInstruction destReg fun _ => rfl
  | reorderInstructionVector =>
    obtain rfl := Option.some.inj hc
    rw [entered, List.append_nil]
    exact h.reorderInstructionVector

/-- The log of a history of fresh results. -/
theorem logInv_of_run (hfresh : ∀ t ∈ transitions call empty calls, t.pre.FreshResult t.act)
    (h : run call empty calls = some T) : LogInv (inserted calls) T := by
  refine run_transitions (P := fun tr T => (∀ t ∈ tr, t.pre.FreshResult t.act) →
    LogInv (tr.flatMap fun t => t.pre.entered t.act) T) (Q := fun _ => True) (fun _ => logInv_empty) ?_
    (fun _ _ => trivial) h hfresh
  intro tr T c T' _ ih hc hfresh
  rw [List.flatMap_append, List.flatMap_singleton]
  exact (ih fun t ht => hfresh t (List.mem_append_left _ ht)).call
    (hfresh _ (List.mem_append_right _ (List.mem_singleton.mpr rfl))) hc

/-! ### The vector -/

/-- **The vector lists every key** once and nothing else, with the operation of its instruction. -/
structure ListsEveryKey (T : InstructionTable) : Prop where
  once : (T.instructionOrderVector.map (·.1)).Nodup
  keys : ∀ reg, reg ∈ T.instructionOrderVector.map (·.1) ↔ reg ∈ T.instructionMap
  operation : ∀ reg op, (reg, op) ∈ T.instructionOrderVector → ∃ d, T.find reg = some d ∧ d.operation = op

/-- The vector is the log in another order. -/
theorem LogInv.perm (h : LogInv log T) : T.instructionOrderVector.Perm log := by
  have hsplit : ∀ l : List (Reg × Operation), (l.filter (·.2 = .load) ++ l.filter (·.2 ≠ .load)).Perm l := by
    intro l
    have hperm := List.filter_append_perm (fun e : Reg × Operation => decide (e.2 = .load)) l
    simpa only [decide_not] using hperm
  have hvector := (hsplit T.instructionOrderVector).symm
  rw [h.loads, h.others] at hvector
  exact hvector.trans (hsplit log)

theorem LogInv.listsEveryKey (h : LogInv log T) : T.ListsEveryKey where
  once := (h.perm.map _).nodup_iff.mpr h.nodup
  keys reg := (h.perm.map _).mem_iff.trans (h.mem_iff reg)
  operation reg op hmem := (h.find reg op).mp (h.perm.mem_iff.mp hmem)

/-- A second reordering changes nothing. -/
theorem reorderInstructionVector_reorderInstructionVector (T : InstructionTable) :
    T.reorderInstructionVector.reorderInstructionVector = T.reorderInstructionVector := by
  simp [reorderInstructionVector, List.filter_append, List.filter_filter]

/-- **The order of the instructions** after a history of fresh results. -/
theorem instructionOrder_of_run (calls : List TableCall) (T : InstructionTable)
    (hfresh : ∀ t ∈ transitions call empty calls, t.pre.FreshResult t.act) (h : run call empty calls = some T) :
    T.ListsEveryKey ∧ T.reorderInstructionVector.ListsEveryKey ∧
      T.reorderInstructionVector.instructionOrderVector =
        (inserted calls).filter (·.2 = .load) ++ (inserted calls).filter (·.2 ≠ .load) ∧
      T.reorderInstructionVector.reorderInstructionVector = T.reorderInstructionVector := by
  have hlog := logInv_of_run hfresh h
  refine ⟨hlog.listsEveryKey, hlog.reorderInstructionVector.listsEveryKey, ?_,
    T.reorderInstructionVector_reorderInstructionVector⟩
  rw [← hlog.loads, ← hlog.others]
  rfl

/-- Two loads, one of them again, a sum of the two that is changed, a third load after a reordering,
and another sum. -/
def mixedCalls : List TableCall :=
  [.insertLoadInstruction 4 .singleVariable,
    .insertInstruction ⟨0, 0, .add, [], 12, .undefined, nullptr, 4, .singleVariable, nullptr, 8, .singleVariable,
      nullptr, false⟩,
    .insertLoadInstruction 8 .singleVariable, .insertLoadInstruction 4 .singleVariable, .swapOperands 12,
    .modifyGivenField 12 .destReg 20 .undefined, .reorderInstructionVector,
    .insertInstruction ⟨0, 0, .add, [], 24, .undefined, nullptr, 12, .temporaryVariable, nullptr, 16,
      .singleVariable, nullptr, false⟩,
    .insertLoadInstruction 16 .singleVariable, .setInstructionTimeAndDelay 12 1 1, .reorderInstructionVector]

theorem instructionOrder_of_run_mixedCalls : ∃ T, run call empty mixedCalls = some T ∧ T.ListsEveryKey ∧
    T.reorderInstructionVector.instructionOrderVector.map (·.1) = [4, 8, 16, 12, 24] := by
  obtain ⟨T, hT⟩ := Option.isSome_iff_exists.mp (by decide +kernel : (run call empty mixedCalls).isSome)
  obtain ⟨hkeys, -, horder, -⟩ := instructionOrder_of_run mixedCalls T (by decide +kernel) hT
  refine ⟨T, hT, hkeys, ?_⟩
  rw [horder]
  decide +kernel

end InstructionTable

end Octantis
