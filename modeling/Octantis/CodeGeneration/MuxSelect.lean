import Octantis.Binding.Muxes
import Octantis.CodeGeneration.PrintVhdlFile

/-!
# The selects of the muxes

A row with two logic inputs has a mux, whose select `mux_proc` drives by the selection
signals of the row.

## The model

A result row is written at its own time, with the select as it is after the states passed
by then (`selectWhenWritten`). `BoundIn` says which logic operand the result was bound with.

## What is proved

`selectsOperands_of_inTime`: in every state reached by a run without shifts whose steps come
in time, each mux selects the operand that the result was bound with. A step comes in time
when the second logic input that it gives a row is added at the time at which the results of
the first one are written.

## Honest scope

The condition is needed: the list of selection signals is extended only by the step that adds
the second input, so a result of the first one written earlier finds its select undefined
(`late_mux_undefined`).
-/

namespace Octantis

open Std Lib PrintVhdlFile

namespace PrintVhdlFile

theorem muxSelect_succ (signals : List SelectionSignal) (row : Name) (k : ℕ) :
    muxSelect signals row (k + 1) = (selectInState signals row k).getD (muxSelect signals row k) := by
  rw [muxSelect, List.range_succ, List.foldl_append]
  rfl

/-- The last selection signal of a row wins in the states in which it is active. -/
theorem selectInState_of_getLast? {signals : List SelectionSignal} {row : Name} {signal : SelectionSignal}
    {i : ℤ} {sel : Select} (hlast : (signals.filter (·.destRow = row)).getLast? = some signal)
    (hsel : muxEvent signal i = some sel) : selectInState signals row i = some sel := by
  induction signals using List.reverseRecOn with
  | nil => cases hlast
  | append_singleton signals last ih =>
    rw [selectInState, List.foldl_append, List.foldl_cons, List.foldl_nil]
    rw [List.filter_append] at hlast
    by_cases hrow : last.destRow = row
    · rw [List.filter_cons_of_pos (by simpa using hrow), List.filter_nil, List.getLast?_append] at hlast
      obtain rfl : last = signal := by simpa using hlast
      rw [if_pos hrow, hsel]
      rfl
    · rw [List.filter_cons_of_neg (by simpa using hrow), List.filter_nil, List.append_nil] at hlast
      rw [if_neg hrow]
      exact ih hlast

/-- A mux whose last signal is `'0'` from the time before `t` on and `'1'` from `t` on. -/
theorem muxSelect_of_getLast? {signals : List SelectionSignal} {row : Name} {t : ℕ}
    (hlast : (signals.filter (·.destRow = row)).getLast? = some ⟨row, [(t : ℤ), (t : ℤ) + 1]⟩) :
    muxSelect signals row (t + 1) = .zero ∧ muxSelect signals row (t + 2) = .one := by
  constructor
  · have hevent : muxEvent ⟨row, [(t : ℤ), (t : ℤ) + 1]⟩ t = some .zero := by simp [muxEvent]
    rw [muxSelect_succ, selectInState_of_getLast? hlast hevent]
    rfl
  · have hevent : muxEvent ⟨row, [(t : ℤ), (t : ℤ) + 1]⟩ ((t + 1 : ℕ) : ℤ) = some .one := by
      have hne : [(t : ℤ), (t : ℤ) + 1].head? ≠ some ((t + 1 : ℕ) : ℤ) := by
        rw [List.head?_cons, ne_eq, Option.some.injEq]
        omega
      rw [muxEvent, if_neg hne, if_pos (by simp)]
    rw [muxSelect_succ, selectInState_of_getLast? hlast hevent]
    rfl

end PrintVhdlFile

/-- At every row with two logic inputs the mux selects, when a result row of it is written, the
logic operand that the result was bound with. -/
def SelectsOperands (steps : List (Transition BinderState BindingAction)) (s : BinderState) : Prop :=
  ∀ r row m x1 x2, s.binder.MemArray.findRow r = some row → row.inputConnections = [m, x1, x2] →
    ∀ d x t, BoundIn steps d r x → s.binder.FSMLim.getTime d = some t →
      (x = x1 → selectWhenWritten s.binder.FSMLim.transform r t = .zero) ∧
        (x = x2 → selectWhenWritten s.binder.FSMLim.transform r t = .one)

/-- **The muxes select the operands of the results** in every state reached by steps in time: the
second logic input of a row is added when the results of the first are written. -/
theorem selectsOperands_of_inTime {par : ℤ} {optTarget : String} {actions : List BindingAction}
    {s : BinderState} (hshift : ∀ a ∈ actions, a.noShift) (hload : ∀ a ∈ actions, a.scheduled)
    (hin : AllInTime par optTarget actions) (hs : Reaches par optTarget actions s) :
    SelectsOperands (history par optTarget actions) s := by
  have hm := muxed_of_reaches hshift hload hin hs
  intro r row m x1 x2 hrow hconn d x t hB ht
  obtain ⟨hne, t₀, hpos, ⟨n, hn⟩, hlast, h1, h2⟩ := hm.second r row m x1 x2 hrow hconn
  obtain ⟨k, hk⟩ := Int.eq_ofNat_of_zero_le (show 0 ≤ t₀ - 1 by omega)
  obtain rfl : t₀ = (k : ℤ) + 1 := by omega
  have hsize : k + 3 ≤ s.binder.FSMLim.transform.getFSMSize := by
    refine FiniteStateMachine.le_getFSMSize_transform hm.regular.pending fun i hi => ?_
    exact (hm.gapFree n _ hn).2 i (by omega) (by omega)
  rw [show (k : ℤ) + 1 - 1 = k by omega] at hlast
  obtain ⟨hzero, hone⟩ := muxSelect_of_getLast? hlast
  refine ⟨?_, ?_⟩
  · rintro rfl
    rw [h1 d hB, Option.some.injEq] at ht
    rw [selectWhenWritten, ← ht, Nat.min_eq_left (by omega)]
    exact hzero
  · rintro rfl
    rw [h2 d hB, Option.some.injEq] at ht
    rw [selectWhenWritten, ← ht, Nat.min_eq_left (by omega)]
    exact hone

/-- The sums `a + b` and `b + c` share row 4; `a - c` has the logic of row 8. -/
def sharedRow : List BindingAction :=
  [.load 1 0, .load 2 0, .load 3 0,
    .enter 0, .element .add [] 4 0 4 ⟨1, 0, 0⟩, .leave,
    .enter 0, .element .sub [] 5 0 8 ⟨1, 0, 0⟩, .leave,
    .enter 0, .element .add [] 6 4 8 ⟨1, 0, 0⟩, .leave]

theorem sharedRow_isSome : (run bindStep (.init 8 "") sharedRow).isSome := by decide +kernel

/-- The mux of row 4 selects `a` for the first sum and `c` for the second. -/
theorem selectsOperands_of_inTime_sharedRow :
    ∃ s, Reaches 8 "" sharedRow s ∧
      (s.binder.MemArray.findRow 4).map (·.inputConnections) = some [noInput, 0, 8] ∧
      SelectsOperands (history 8 "" sharedRow) s :=
  ⟨_, (Option.some_get sharedRow_isSome).symm, by decide +kernel,
    selectsOperands_of_inTime (by decide) (by decide) (by decide +kernel)
      (Option.some_get sharedRow_isSome).symm⟩

/-- The sum `d = a + b` is written at time 1; the sum `d + b` on the same row comes after `c +
d`. -/
def lateMux : List BindingAction :=
  [.load 1 0, .load 2 0, .load 3 0,
    .enter 0, .element .add [] 4 0 4 ⟨1, 0, 0⟩, .leave,
    .enter 0, .element .add [] 5 8 12 ⟨1, 0, 0⟩, .leave,
    .enter 0, .element .add [] 6 12 4 ⟨1, 0, 0⟩, .leave]

theorem lateMux_isSome : (run bindStep (.init 8 "") lateMux).isSome := by decide +kernel

/-- The select of row 4 is still undefined when `d` is written. -/
theorem late_mux_undefined :
    ∃ s, Reaches 8 "" lateMux s ∧ (∀ a ∈ lateMux, a.noShift) ∧ (∀ a ∈ lateMux, a.scheduled) ∧
      BoundIn (history 8 "" lateMux) 12 4 0 ∧ s.binder.FSMLim.getTime 12 = some 1 ∧
      selectWhenWritten s.binder.FSMLim.transform 4 1 = .X ∧
      ¬ SelectsOperands (history 8 "" lateMux) s := by
  have hbound : BoundIn (history 8 "" lateMux) 12 4 0 := by decide +kernel
  have htime :
      ((run bindStep (.init 8 "") lateMux).get lateMux_isSome).binder.FSMLim.getTime 12 = some 1 := by
    decide +kernel
  have hselect : selectWhenWritten
      ((run bindStep (.init 8 "") lateMux).get lateMux_isSome).binder.FSMLim.transform 4 1 = .X := by
    decide +kernel
  refine ⟨_, (Option.some_get lateMux_isSome).symm, by decide, by decide, hbound, htime, hselect,
    fun hall => ?_⟩
  have hrow : (((run bindStep (.init 8 "") lateMux).get lateMux_isSome).binder.MemArray.findRow 4).map
      (·.inputConnections) = some [noInput, 0, 12] := by decide +kernel
  obtain ⟨row, hrow, hconn⟩ := Option.map_eq_some_iff.mp hrow
  have hzero := (hall 4 row noInput 0 12 hrow hconn 12 0 1 hbound htime).1 rfl
  rw [hselect] at hzero
  cases hzero

end Octantis
