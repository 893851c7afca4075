import Octantis.Binding.Feeding
import Octantis.Binding.WithoutShifts

/-!
# The muxes

A row shared by two results has two logic inputs and a mux before them, and the step that
adds the second one gives the row its selection signal.

## The model

`BoundIn` collects the result rows that the steps of a run bound, each with its row and its
logic operand. `Muxed` is the invariant: the results of the first logic input are all written
at the time at which the select is `'0'`, those of the second one time later.

## What is proved

* `Muxed.realizes`: a mapping keeps the muxes in order, when the second logic input comes in time;
* `Muxed.performAccBinding`: an accumulation keeps them in order;
* `muxed_of_reaches`: they are in order in every state reached by steps in time.
-/

namespace Octantis

open Std Lib

variable {b b' : LiMBinder} {operation : Operation} {specifications : List String}
  {src1 src2 dest row other : Name} {w : Way} {base : LiMRow} {t : ℤ} {A : LiMArray}
  {F : FiniteStateMachine} {B : Name → Name → Name → Prop}

/-- No time is left out: from 0 on, up to that of any row, each is that of a row. -/
def FiniteStateMachine.GapFree (F : FiniteStateMachine) : Prop :=
  ∀ n t, F.getTime n = some t → 0 ≤ t ∧ ∀ i, 0 ≤ i → i ≤ t → ∃ n', F.getTime n' = some i

/-- The memory input of a row is written before the row. -/
def LiMBinder.HeadsBefore (b : LiMBinder) : Prop :=
  ∀ n row m, b.MemArray.findRow n = some row → row.inputConnections.head? = some m →
    m = noInput ∨ ∃ tm t, b.FSMLim.getTime m = some tm ∧ b.FSMLim.getTime n = some t ∧ tm < t

/-- The times of the result rows bound so far, `B d r x` for result row `d` bound on row `r` with
logic operand `x`: at the mux of a row with two logic inputs all those with the first input are
written when the select is `'0'`, and those with the second one time later. -/
structure Muxed (B : Name → Name → Name → Prop) (b : LiMBinder) : Prop where
  regular : Regular b.MemArray b.FSMLim
  heads : b.HeadsBefore
  gapFree : b.FSMLim.GapFree
  timed : ∀ d r x, B d r x → (b.FSMLim.getTime d).isSome
  known : ∀ d r x, B d r x → ∃ row, b.MemArray.findRow r = some row ∧ x ∈ row.inputConnections
  first : ∀ r row m x1 rest, b.MemArray.findRow r = some row → row.inputConnections = m :: x1 :: rest →
    ∃ d tr tx td, B d r x1 ∧ b.FSMLim.getTime r = some tr ∧ b.FSMLim.getTime x1 = some tx ∧
      b.FSMLim.getTime d = some td ∧ tr < td ∧ tx < td
  second : ∀ r row m x1 x2, b.MemArray.findRow r = some row → row.inputConnections = [m, x1, x2] →
    x1 ≠ x2 ∧ ∃ t, 1 ≤ t ∧ (∃ n, b.FSMLim.getTime n = some (t + 1)) ∧
      (b.FSMLim.selectionSignalsList.filter (·.destRow = r)).getLast? = some ⟨r, [t - 1, t]⟩ ∧
      (∀ d, B d r x1 → b.FSMLim.getTime d = some t) ∧ ∀ d, B d r x2 → b.FSMLim.getTime d = some (t + 1)

namespace Realizes

variable (h : Realizes b operation specifications src1 src2 dest w row other base t A F)
include h

/-- A mux adds a selection signal to the row with the logic. -/
theorem selectionSignalsList : F.selectionSignalsList =
    b.FSMLim.selectionSignalsList ++ if w = .mux then [⟨row, [t - 1, t]⟩] else [] := by
  rw [h.times]
  cases w with
  | convert | copy => simp [LiMBinder.scheduleDest]
  | mux => simp [LiMBinder.scheduleDest]

/-- The connections of the row with the logic: it gets its first logic input, or, behind a mux, the
second one, unless the operand is connected already. -/
theorem connections (hr : Regular b.MemArray b.FSMLim) (hl : b.LoadRows) (hop : operation ≠ .load) :
    (w ≠ .mux ∧ ∃ m, (base.connect other .OC).inputConnections = [m, other]) ∨
    (w = .mux ∧ b.MemArray.findRow row = some base ∧ ∃ m x1, base.inputConnections = [m, x1] ∧
      (base.connect other .OC).inputConnections =
        if other ∈ base.inputConnections then [m, x1] else [m, x1, other]) := by
  cases h.site with
  | @convert _ _ old operands found convertible =>
    obtain ⟨m, hm⟩ := List.length_eq_one_iff.mp
      (hl row old found (LiMRow.rowType_of_convertible convertible)).2
    have hm' : (old.withLogic operation specifications).inputConnections = [m] := hm
    refine .inl ⟨by decide, m, ?_⟩
    rw [LiMRow.connect_of_length_one (by rw [hm']; rfl), hm']
    rfl
  | mux operands found type size =>
    have harity := hr.arity row base found (by rw [type]; exact hop)
    obtain ⟨m, x1, hconn⟩ := List.length_eq_two.mp (show base.inputConnections.length = 2 by omega)
    refine .inr ⟨rfl, found, m, x1, hconn, ?_⟩
    unfold LiMRow.connect
    by_cases hin : other ∈ base.inputConnections
    · have hnot : ¬ (base.inputConnections.length = 1 ∨ other ∉ base.inputConnections) := by
        rintro (hone | hout)
        · omega
        · exact hout hin
      rw [if_neg hnot, if_pos hin, hconn]
    · rw [if_pos (.inr hin), if_neg hin, hconn]
      rfl
  | copy => exact .inl ⟨by decide, src1, rfl⟩

/-- No time is left out after a mapping. -/
theorem gapFree (hr : Regular b.MemArray b.FSMLim) (hgap : b.FSMLim.GapFree)
    (hmid : w = .mux → ∃ n, b.FSMLim.getTime n = some t) : F.GapFree := by
  obtain ⟨t1, t2, h1, h2, hlt1, hlt2, hmax⟩ := LiMBinder.nextTime_eq_some h.time
  have hdest := h.getTime_dest hr
  have hpos := (hgap _ _ h1).1
  have hbelow : ∀ i, 0 ≤ i → i < t → ∃ n', F.getTime n' = some i := by
    intro i h0 hi
    rcases hmax with ht | ht
    · obtain ⟨n', hn'⟩ := (hgap _ _ h1).2 i h0 (by omega)
      exact ⟨n', h.getTime_of_some hn'⟩
    · obtain ⟨n', hn'⟩ := (hgap _ _ h2).2 i h0 (by omega)
      exact ⟨n', h.getTime_of_some hn'⟩
  have hat : ∃ n', F.getTime n' = some t := by
    cases hw : w with
    | convert => exact ⟨dest, by rw [hdest, hw]; rfl⟩
    | mux =>
      obtain ⟨n', hn'⟩ := hmid hw
      exact ⟨n', h.getTime_of_some hn'⟩
    | copy =>
      obtain ⟨tr, htr, heq⟩ := h.getTime_row hr
      rw [if_pos hw] at heq
      exact ⟨row, by rw [htr, heq]⟩
  have hupto : ∀ i, 0 ≤ i → i ≤ t → ∃ n', F.getTime n' = some i := by
    intro i h0 hi
    rcases Int.lt_or_eq_of_le hi with hlt | rfl
    · exact hbelow i h0 hlt
    · exact hat
  intro n tn htn
  rw [h.getTime hr] at htn
  split at htn
  · have htn := Option.some.inj htn
    refine ⟨by split at htn <;> omega, fun i h0 hi => ?_⟩
    by_cases hit : i ≤ t
    · exact hupto i h0 hit
    · have hi : i = if w = .convert then t else t + 1 := by
        rw [htn]
        split at htn <;> omega
      exact ⟨dest, by rw [hdest, hi]⟩
  split at htn
  · have htn := Option.some.inj htn
    exact ⟨by omega, fun i h0 hi => hupto i h0 (by omega)⟩
  · obtain ⟨h0, hall⟩ := hgap n tn htn
    refine ⟨h0, fun i h0 hi => ?_⟩
    obtain ⟨n', hn'⟩ := hall i h0 hi
    exact ⟨n', h.getTime_of_some hn'⟩

end Realizes

/-- Every row has a memory input. -/
theorem Regular.exists_head (hr : Regular b.MemArray b.FSMLim) (hl : b.LoadRows) {n : Name} {row : LiMRow}
    (h : b.MemArray.findRow n = some row) : ∃ m, row.inputConnections.head? = some m := by
  cases hconn : row.inputConnections with
  | cons m rest => exact ⟨m, rfl⟩
  | nil =>
    by_cases hload : row.rowType = .load
    · have := (hl n row h hload).2
      simp [hconn] at this
    · have := hr.arity n row h hload
      simp [hconn] at this

/-! ### One mapping -/

namespace Muxed

variable (hm : Muxed B b) (hl : b.LoadRows) (hop : operation ≠ .load)
  (h : Realizes b operation specifications src1 src2 dest w row other base t b'.MemArray b'.FSMLim)
include hm hl hop h

/-- The memory inputs after a mapping. -/
theorem heads_realizes : b'.HeadsBefore := by
  intro n new m hnew hhead
  cases hold : b.MemArray.findRow n with
  | some old =>
    obtain ⟨new', hnew', hext⟩ := h.rows_extend hop n old hold
    rw [hnew, Option.some.injEq] at hnew'
    subst hnew'
    obtain ⟨m', hm'⟩ := hm.regular.exists_head hl hold
    have heq := hext.head? hm'
    rw [hhead, Option.some.injEq] at heq
    subst heq
    rcases hm.heads n old m hold hm' with hno | ⟨tm, tn, htm, htn, hlt⟩
    · exact .inl hno
    · exact .inr ⟨tm, tn, h.getTime_of_some htm, h.getTime_of_some htn, hlt⟩
  | none =>
    obtain ⟨tr, htr, hlt⟩ := h.getTime_row hm.regular
    rcases h.rows_of_findRow hnew with hsome | rfl | ⟨rfl, rfl⟩
    · rw [hold] at hsome
      cases hsome
    · -- the result row
      rw [h.findRow_dest, Option.some.injEq] at hnew
      subst hnew
      cases hhead
      refine .inr ⟨tr, _, htr, h.getTime_dest hm.regular, ?_⟩
      cases w <;> simp at hlt ⊢ <;> omega
    · -- the copy row
      obtain ⟨t1, t2, h1, -, hlt1, -⟩ := LiMBinder.nextTime_eq_some h.time
      have hsite := h.site
      have hrow := hsite.row_eq
      rw [if_pos rfl] at hrow
      subst hrow
      rw [h.findRow_row, Option.some.injEq] at hnew
      subst hnew
      cases hsite with
      | copy =>
        cases hhead
        rw [if_pos rfl] at hlt
        exact .inr ⟨t1, tr, h.getTime_of_some h1, htr, by omega⟩

/-- Behind a mux the time before the one of the result row is not left out: the row with the logic
has a result of its first logic input there or later. -/
theorem exists_time_of_mux (hn : ∀ n row, b.MemArray.findRow n = some row → 4 ∣ n) (hw : w = .mux)
    (hshare : ∀ x1, base.inputConnections[1]? = some x1 → other ∉ base.inputConnections →
      ∀ d, B d row x1 → b.FSMLim.getTime d = some t) :
    ∃ n, b.FSMLim.getTime n = some t := by
  obtain ⟨tx, htx, hltx, hboth⟩ := h.getTime_other
  obtain ⟨tr, htr, hmax⟩ := hboth (by rw [hw]; decide)
  rcases h.connections hm.regular hl hop with ⟨hmux, -⟩ | ⟨-, found, m, x1, hconn, -⟩
  · exact absurd hw hmux
  obtain ⟨d, tr', tx', td, hB, htr', htx', htd, hrd, hxd⟩ := hm.first row base m x1 [] found hconn
  rw [htr, Option.some.injEq] at htr'
  subst htr'
  by_cases hin : other ∈ base.inputConnections
  · have htle : t ≤ td := by
      rw [hconn] at hin
      rcases List.mem_cons.mp hin with rfl | hin
      · -- the operand is the memory input, which is written before the row
        rcases hm.heads row base other found (by rw [hconn]; rfl) with hno | ⟨tm, tr', htm, htr', hlt⟩
        · obtain ⟨orow, horow⟩ := Option.isSome_iff_exists.mp
            ((hm.regular.timed other).mpr (Option.isSome_of_eq_some htx))
          have := hn other orow horow
          rw [hno] at this
          exact absurd this (by decide)
        · rw [htx, Option.some.injEq] at htm
          rw [htr, Option.some.injEq] at htr'
          omega
      · rw [List.mem_singleton] at hin
        subst hin
        rw [htx, Option.some.injEq] at htx'
        omega
    have h0 := (hm.gapFree other tx htx).1
    exact (hm.gapFree d td htd).2 t (by omega) htle
  · exact ⟨d, hshare x1 (by rw [hconn]; rfl) hin d hB⟩

/-- Every row with a logic input has a result of it, written after both. -/
theorem first_realizes : ∀ r new m x1 rest, b'.MemArray.findRow r = some new →
    new.inputConnections = m :: x1 :: rest →
    ∃ d tr tx td, (B d r x1 ∨ d = dest ∧ r = row ∧ x1 = other) ∧ b'.FSMLim.getTime r = some tr ∧
      b'.FSMLim.getTime x1 = some tx ∧ b'.FSMLim.getTime d = some td ∧ tr < td ∧ tx < td := by
  have hkeep : ∀ r old m x1 rest, b.MemArray.findRow r = some old →
      old.inputConnections = m :: x1 :: rest →
      ∃ d tr tx td, (B d r x1 ∨ d = dest ∧ r = row ∧ x1 = other) ∧ b'.FSMLim.getTime r = some tr ∧
        b'.FSMLim.getTime x1 = some tx ∧ b'.FSMLim.getTime d = some td ∧ tr < td ∧ tx < td := by
    intro r old m x1 rest hold hconn
    obtain ⟨d, tr, tx, td, hB, htr, htx, htd, hlt⟩ := hm.first r old m x1 rest hold hconn
    exact ⟨d, tr, tx, td, .inl hB, h.getTime_of_some htr, h.getTime_of_some htx,
      h.getTime_of_some htd, hlt⟩
  intro r new m x1 rest hnew hconn
  rw [h.rows] at hnew
  split at hnew
  · cases hnew
    cases hconn
  split at hnew
  · next hr =>
    cases hnew
    subst hr
    rcases h.connections hm.regular hl hop with ⟨hmux, m', hconn'⟩ | ⟨-, found, m', x', hbase, hconn'⟩
    · rw [hconn] at hconn'
      cases hconn'
      obtain ⟨tr, htr, hlt⟩ := h.getTime_row hm.regular
      obtain ⟨tx, htx, hltx, -⟩ := h.getTime_other
      refine ⟨dest, tr, tx, _, .inr ⟨rfl, rfl, rfl⟩, htr, h.getTime_of_some htx,
        h.getTime_dest hm.regular, ?_⟩
      cases w <;> simp at hlt ⊢ <;> omega
    · have hx : x1 = x' := by
        rw [hconn] at hconn'
        split at hconn'
        · cases hconn'
          rfl
        · cases hconn'
          rfl
      exact hx ▸ hkeep r base m' x' [] found hbase
  · exact hkeep r new m x1 rest hnew hconn

/-- A row behind a mux whose second logic input is added when its results are written has its select
in order. -/
theorem second_realizes
    (hshare : w = .mux → ∀ x1, base.inputConnections[1]? = some x1 → other ∉ base.inputConnections →
      ∀ d, B d row x1 → b.FSMLim.getTime d = some t) :
    ∀ r new m x1 x2, b'.MemArray.findRow r = some new → new.inputConnections = [m, x1, x2] →
    x1 ≠ x2 ∧ ∃ t, 1 ≤ t ∧ (∃ n, b'.FSMLim.getTime n = some (t + 1)) ∧
      (b'.FSMLim.selectionSignalsList.filter (·.destRow = r)).getLast? = some ⟨r, [t - 1, t]⟩ ∧
      (∀ d, B d r x1 ∨ d = dest ∧ r = row ∧ x1 = other → b'.FSMLim.getTime d = some t) ∧
      ∀ d, B d r x2 ∨ d = dest ∧ r = row ∧ x2 = other → b'.FSMLim.getTime d = some (t + 1) := by
  intro r new m x1 x2 hnew hconn
  rw [h.rows] at hnew
  split at hnew
  · cases hnew
    cases hconn
  split at hnew
  · next hr =>
    cases hnew
    subst hr
    rcases h.connections hm.regular hl hop with ⟨-, m', hconn'⟩ | ⟨rfl, found, m', x', hbase, hconn'⟩
    · rw [hconn] at hconn'
      cases hconn'
    · rw [hconn] at hconn'
      split at hconn'
      · cases hconn'
      next hin =>
      cases hconn'
      obtain ⟨tx, htx, hlt, -⟩ := h.getTime_other
      have hpos := (hm.gapFree _ _ htx).1
      have hdest : b'.FSMLim.getTime dest = some (t + 1) := h.getTime_dest hm.regular
      refine ⟨?_, t, by omega, ⟨dest, hdest⟩, ?_, ?_, ?_⟩
      · rintro rfl
        exact hin (by rw [hbase]; simp)
      · rw [h.selectionSignalsList, List.filter_append]
        simp
      · rintro d (hB | ⟨-, -, rfl⟩)
        · exact h.getTime_of_some (hshare rfl x1 (by rw [hbase]; rfl) hin d hB)
        · exact absurd (by rw [hbase]; simp) hin
      · rintro d (hB | ⟨rfl, -⟩)
        · obtain ⟨old, hold, hmem⟩ := hm.known d r other hB
          rw [found, Option.some.injEq] at hold
          exact absurd (hold ▸ hmem) hin
        · exact hdest
  · next hr =>
    obtain ⟨hne, t', hpos, ⟨n, hn⟩, hlast, h1, h2⟩ := hm.second r new m x1 x2 hnew hconn
    refine ⟨hne, t', hpos, ⟨n, h.getTime_of_some hn⟩, ?_, ?_, ?_⟩
    · rw [h.selectionSignalsList, List.filter_append]
      have hnil : (if w = .mux then [(⟨row, [t - 1, t]⟩ : SelectionSignal)] else []).filter
          (·.destRow = r) = [] := by
        split
        · simp [Ne.symm hr]
        · rfl
      rw [hnil, List.append_nil, hlast]
    · rintro d (hB | ⟨-, heq, -⟩)
      · exact h.getTime_of_some (h1 d hB)
      · exact absurd heq hr
    · rintro d (hB | ⟨-, heq, -⟩)
      · exact h.getTime_of_some (h2 d hB)
      · exact absurd heq hr

/-- **A mapping keeps the muxes in order**, when the second logic input it gives a row comes at the
time at which the results of the first are written. -/
theorem realizes (hn : ∀ n row, b.MemArray.findRow n = some row → 4 ∣ n)
    (hshare : w = .mux → ∀ x1, base.inputConnections[1]? = some x1 → other ∉ base.inputConnections →
      ∀ d, B d row x1 → b.FSMLim.getTime d = some t) :
    Muxed (fun d r x => B d r x ∨ d = dest ∧ r = row ∧ x = other) b' where
  regular := h.regular hm.regular hl hop
  heads := hm.heads_realizes hl hop h
  gapFree := h.gapFree hm.regular hm.gapFree fun hw => hm.exists_time_of_mux hl hop h hn hw (hshare hw)
  timed := by
    rintro d r x (hB | ⟨rfl, -⟩)
    · obtain ⟨td, htd⟩ := Option.isSome_iff_exists.mp (hm.timed d r x hB)
      exact Option.isSome_of_eq_some (h.getTime_of_some htd)
    · exact Option.isSome_of_eq_some (h.getTime_dest hm.regular)
  known := by
    rintro d r x (hB | ⟨-, rfl, rfl⟩)
    · obtain ⟨old, hold, hmem⟩ := hm.known d r x hB
      obtain ⟨new, hnew, hext⟩ := h.rows_extend hop r old hold
      exact ⟨new, hnew, hext.connections.subset hmem⟩
    · refine ⟨_, h.findRow_row, ?_⟩
      unfold LiMRow.connect
      split
      · simp
      · next hnot =>
        by_contra hout
        exact hnot (.inr hout)
  first := hm.first_realizes hl hop h
  second := hm.second_realizes hl hop h hshare

omit hm hl hop h in
theorem congr {B' : Name → Name → Name → Prop} (hm : Muxed B b) (h : ∀ d r x, B d r x ↔ B' d r x) :
    Muxed B' b := by
  have heq : B = B' := by
    funext d r x
    exact propext (h d r x)
  exact heq ▸ hm

omit hm hl hop h in
theorem of_eq (hm : Muxed B b) (hA : b'.MemArray = b.MemArray) (hF : b'.FSMLim = b.FSMLim) : Muxed B b' where
  regular := by rw [hA, hF]; exact hm.regular
  heads := by unfold LiMBinder.HeadsBefore; rw [hA, hF]; exact hm.heads
  gapFree := by rw [hF]; exact hm.gapFree
  timed := by rw [hF]; exact hm.timed
  known := by rw [hA]; exact hm.known
  first := by rw [hA, hF]; exact hm.first
  second := by rw [hA, hF]; exact hm.second

end Muxed

/-! ### Every state reached -/

/-- The step binds result row `d` on row `r` with logic operand `x`: for an element the operand that
`r` is not, for an accumulation the first logic input of `r`. -/
def Binds (step : Transition BinderState BindingAction) (d r x : Name) : Prop :=
  step.pre.binder.MemArray.findRow d = none ∧
    (∃ row, step.post.binder.MemArray.findRow d = some row ∧
      row.inputConnectionsType.head? = some .OLiM ∧ row.inputConnections.head? = some r) ∧
    match step.act with
    | .element _ _ _ src1 src2 _ => x = if r = src2 then src1 else src2
    | _ => step.post.binder.FedBy d r x

instance (step : Transition BinderState BindingAction) (d r x : Name) : Decidable (Binds step d r x) := by
  have hrow : Decidable (∃ row, step.post.binder.MemArray.findRow d = some row ∧
      row.inputConnectionsType.head? = some .OLiM ∧ row.inputConnections.head? = some r) :=
    decidable_of_iff ((step.post.binder.MemArray.findRow d).any fun row =>
      row.inputConnectionsType.head? = some .OLiM ∧ row.inputConnections.head? = some r)
      (by cases step.post.binder.MemArray.findRow d <;> simp)
  unfold Binds
  split <;> infer_instance

/-- Some step bound result row `d` on row `r` with logic operand `x`. -/
def BoundIn (steps : List (Transition BinderState BindingAction)) (d r x : Name) : Prop :=
  ∃ step ∈ steps, Binds step d r x

instance (steps : List (Transition BinderState BindingAction)) (d r x : Name) :
    Decidable (BoundIn steps d r x) := by
  unfold BoundIn
  infer_instance

/-- An operation whose operands are there before time `t` and that gives a row its second logic
input comes in time: the results bound with the first one are written at `t`. -/
def InTimeAt (steps : List (Transition BinderState BindingAction)) (b : LiMBinder) (t : Option ℤ) :
    Way × Name × Name → Prop
  | (.mux, r, x) =>
    ∀ row ∈ b.MemArray.findRow r, x ∉ row.inputConnections → ∀ x1 ∈ row.inputConnections[1]?,
      ∀ d ∈ b.MemArray.limArray.keys, BoundIn steps d r x1 → b.FSMLim.getTime d = t
  | _ => True

instance (steps : List (Transition BinderState BindingAction)) (b : LiMBinder) (t : Option ℤ)
    (site : Way × Name × Name) : Decidable (InTimeAt steps b t site) := by
  unfold InTimeAt
  split <;> infer_instance

/-- The element, if it is mapped, comes in time. -/
def InTime (steps : List (Transition BinderState BindingAction)) (s : BinderState) : BindingAction → Prop
  | .element operation _ _ src1 src2 _ =>
    s.binder.commonDest src1 src2 = none → ∀ site ∈ s.binder.site true operation src1 src2,
      InTimeAt steps s.binder (s.binder.nextTime src1 src2) site
  | _ => True

instance (steps : List (Transition BinderState BindingAction)) (s : BinderState) (a : BindingAction) :
    Decidable (InTime steps s a) :=
  match a with
  | .element operation _ _ src1 src2 _ =>
    inferInstanceAs (Decidable (s.binder.commonDest src1 src2 = none →
      ∀ site ∈ s.binder.site true operation src1 src2,
        InTimeAt steps s.binder (s.binder.nextTime src1 src2) site))
  | .load _ _ | .accumulate _ _ _ _ | .enter _ | .leave => .isTrue trivial

/-- Every element of the run that gives a row its second logic input comes in time. -/
def AllInTime (par : ℤ) (optTarget : String) (actions : List BindingAction) : Prop :=
  ∀ i < actions.length, ∀ a ∈ actions[i]?, ∀ s ∈ run bindStep (.init par optTarget) (actions.take i),
    InTime (history par optTarget (actions.take i)) s a

instance (par : ℤ) (optTarget : String) (actions : List BindingAction) :
    Decidable (AllInTime par optTarget actions) := by
  unfold AllInTime
  infer_instance

theorem boundIn_snoc (steps : List (Transition BinderState BindingAction))
    (step : Transition BinderState BindingAction) (d r x : Name) :
    BoundIn (steps ++ [step]) d r x ↔ BoundIn steps d r x ∨ Binds step d r x := by
  simp [BoundIn, or_and_right, exists_or]

/-- A step that adds no result row binds none. -/
theorem not_binds {step : Transition BinderState BindingAction} {d r x : Name}
    (h : ∀ n row, step.post.binder.MemArray.findRow n = some row →
      row.inputConnectionsType.head? = some .OLiM → (step.pre.binder.MemArray.findRow n).isSome) :
    ¬ Binds step d r x := by
  rintro ⟨hnone, ⟨row, hrow, htype, -⟩, -⟩
  have := h d row hrow htype
  rw [hnone] at this
  cases this

/-- A load at time 0 leaves no time out. -/
theorem FiniteStateMachine.GapFree.bindLoad (h : b.FSMLim.GapFree) (hb : b.WellFormed)
    (hr : Regular b.MemArray b.FSMLim) (destReg : Reg) : (b.bindLoad destReg 0).FSMLim.GapFree := by
  have htimes := LiMBinder.getTime_bindLoad hb hr destReg 0
  intro n t ht
  rw [htimes] at ht
  split at ht
  · cases ht
    refine ⟨Int.le_refl 0, fun i h0 hi => ⟨b.zeroAddr, ?_⟩⟩
    rw [htimes, if_pos rfl, Int.le_antisymm hi h0]
  · obtain ⟨h0, hall⟩ := h n t ht
    refine ⟨h0, fun i h0 hi => ?_⟩
    obtain ⟨n', hn'⟩ := hall i h0 hi
    exact ⟨n', (LiMBinder.wellFormed_bindLoad hb destReg 0).2.times _ _ hn'⟩

namespace Muxed

/-- A load at time 0. -/
theorem bindLoad (hm : Muxed B b) (hb : b.WellFormed) (destReg : Reg) : Muxed B (b.bindLoad destReg 0) := by
  have hrows := LiMBinder.findRow_bindLoad hb.named destReg 0
  have hkeep := (LiMBinder.wellFormed_bindLoad hb destReg 0).2.times
  have hold : ∀ n row, (b.bindLoad destReg 0).MemArray.findRow n = some row →
      row.inputConnections = [noInput] ∨ b.MemArray.findRow n = some row := by
    intro n row hrow
    rw [hrows] at hrow
    split at hrow
    · cases hrow
      exact .inl rfl
    · exact .inr hrow
  refine ⟨LiMBinder.regular_bindLoad hb hm.regular destReg 0, ?_, ?_, ?_, ?_, ?_, ?_⟩
  · intro n row m hrow hhead
    rcases hold n row hrow with hconn | hrow
    · rw [hconn] at hhead
      cases hhead
      exact .inl rfl
    · rcases hm.heads n row m hrow hhead with hno | ⟨tm, tn, htm, htn, hlt⟩
      · exact .inl hno
      · exact .inr ⟨tm, tn, hkeep _ _ htm, hkeep _ _ htn, hlt⟩
  · exact hm.gapFree.bindLoad hb hm.regular destReg
  · intro d r x hB
    obtain ⟨t, ht⟩ := Option.isSome_iff_exists.mp (hm.timed d r x hB)
    exact Option.isSome_of_eq_some (hkeep _ _ ht)
  · intro d r x hB
    obtain ⟨row, hrow, hmem⟩ := hm.known d r x hB
    refine ⟨row, ?_, hmem⟩
    rw [hrows, if_neg, hrow]
    rintro rfl
    rw [hb.freshZero] at hrow
    cases hrow
  · intro r row m x1 rest hrow hconn
    rcases hold r row hrow with hone | hrow
    · rw [hconn] at hone
      cases hone
    · obtain ⟨d, tr, tx, td, hB, htr, htx, htd, hlt⟩ := hm.first r row m x1 rest hrow hconn
      exact ⟨d, tr, tx, td, hB, hkeep _ _ htr, hkeep _ _ htx, hkeep _ _ htd, hlt⟩
  · intro r row m x1 x2 hrow hconn
    rcases hold r row hrow with hone | hrow
    · rw [hconn] at hone
      cases hone
    · obtain ⟨hne, t, hpos, ⟨n, hn⟩, hlast, h1, h2⟩ := hm.second r row m x1 x2 hrow hconn
      exact ⟨hne, t, hpos, ⟨n, hkeep _ _ hn⟩, hlast, fun d hB => hkeep _ _ (h1 d hB),
        fun d hB => hkeep _ _ (h2 d hB)⟩

/-- The pairs of an accumulation: their result rows are bound on the rows that feed them. -/
theorem performAccBinding {destReg : Reg} {l : List Name} (hm : Muxed B b) (hb : b.WellFormed)
    (hop : operation ≠ .load)
    (h : b.performAccBinding l operation specifications destReg = some b') :
    Muxed (fun d r x => B d r x ∨ b.MemArray.findRow d = none ∧ b'.FedBy d r x) b' := by
  have hstart : Muxed (fun d r x => B d r x ∨ b.MemArray.findRow d = none ∧ b.FedBy d r x) b := by
    refine hm.congr fun d r x => ⟨.inl, ?_⟩
    rintro (hB | ⟨hnone, hfed⟩)
    · exact hB
    · have hsome := hfed.isSome
      rw [hnone] at hsome
      cases hsome
  have hnone : ∀ n, b.MemArray.findRow n = none → (b.MemArray.findRow n).isSome → b.Derived n := by
    intro n hnone hn
    rw [hnone] at hn
    cases hn
  obtain ⟨b₁, row, ⟨-, -, hm₁⟩, -, rfl⟩ := LiMBinder.performAccBinding_invariant
    (P := fun b' => b.Extends b' ∧
      (∀ n, b.MemArray.findRow n = none → (b'.MemArray.findRow n).isSome → b'.Derived n) ∧
      Muxed (fun d r x => B d r x ∨ b.MemArray.findRow d = none ∧ b'.FedBy d r x) b') hop
    (fun b₁ row1 row2 b₂ tmpName hb₁ ⟨he₁, hall, hm₁⟩ h1 h2 hpair => by
      obtain ⟨-, he₂, -⟩ := LiMBinder.wellFormed_bindPair hb₁ hop hpair
      obtain ⟨w, row, other, base, t, hsite, -, hr, -⟩ :=
        LiMBinder.bindPair_realizes hb₁.freshZero hb₁.freshNext hpair
      obtain ⟨r', x', hfed', hsrc⟩ := LiMBinder.fedBy_bindPair hb₁ hpair
      have hw : w ≠ .mux := LiMBinder.way_of_site_false hsite
      have hfed : b₂.FedBy tmpName row other := by
        rcases hr.connections hm₁.regular hb₁.loads hop with ⟨-, m, hconn⟩ | ⟨hmux, -⟩
        · refine ⟨_, _, hr.findRow_dest, rfl, rfl, hr.findRow_row, ?_⟩
          rw [LiMRow.logicInputs, hconn]
          rfl
        · exact absurd hmux hw
      refine ⟨he₁.trans he₂, fun n hnone hn => ?_,
        (hm₁.realizes hb₁.loads hop hr (fun n row hrow => (hb₁.named.rows n row hrow).2)
          (fun hmux => absurd hmux hw)).congr fun d r x => ⟨?_, ?_⟩⟩
      · cases hold : b₁.MemArray.findRow n with
        | none => exact LiMBinder.derived_bindPair hb₁ h1 h2 hpair hold hn
        | some row => exact (hall n hnone (Option.isSome_of_eq_some hold)).mono he₂
      · rintro ((hB | ⟨hnone, hfed⟩) | ⟨rfl, rfl, rfl⟩)
        · exact .inl hB
        · exact .inr ⟨hnone, hfed.mono he₂⟩
        · exact .inr ⟨he₁.findRow_none hr.fresh, hfed⟩
      · rintro (hB | ⟨hnone, hfed₂⟩)
        · exact .inl (.inl hB)
        obtain ⟨new, hnew⟩ := Option.isSome_iff_exists.mp hfed₂.isSome
        rcases hr.rows_of_findRow hnew with hold | rfl | ⟨rfl, rfl⟩
        · -- the row was there, and is fed by what fed it
          rcases hall d hnone hold with ⟨r₁, x₁, hfed₁, -⟩ | ⟨m, hcopy, -⟩
          · obtain ⟨rfl, rfl⟩ := hfed₂.unique (hfed₁.mono he₂)
            exact .inl (.inr ⟨hnone, hfed₁⟩)
          · exact absurd (hcopy.mono he₂) hfed₂.not_copyOf
        · obtain ⟨rfl, rfl⟩ := hfed₂.unique hfed
          exact .inr ⟨rfl, rfl, rfl⟩
        · rcases hsrc with ⟨-, htmp, -⟩ | ⟨rfl, -, -, -, hcopy⟩
          · obtain ⟨rfl, rfl⟩ := hfed₂.unique (htmp ▸ hfed)
            exact .inr ⟨htmp.symm, rfl, rfl⟩
          · exact absurd hcopy hfed₂.not_copyOf) hb ⟨.refl b, hnone, hstart⟩ h
  exact hm₁.of_eq rfl rfl

end Muxed

/-- The result row of an element is bound on the row with the logic, with the other operand. -/
theorem binds_element {s s' : BinderState} {specifications : List String} {destReg : Reg}
    {junk : Indeterminate} (hr : Regular s.binder.MemArray s.binder.FSMLim)
    (h : Realizes (s.binder.addNewItem destReg dest) operation specifications src1 src2 dest w row other base t
      s'.binder.MemArray s'.binder.FSMLim) (d r x : Name) :
    Binds ⟨s, .element operation specifications destReg src1 src2 junk, s'⟩ d r x ↔
      d = dest ∧ r = row ∧ x = other := by
  have hother : other = if row = src2 then src1 else src2 := by
    cases h.site with
    | convert operands | mux operands =>
      rcases operands with ⟨rfl, rfl⟩ | ⟨rfl, rfl⟩
      · rw [if_pos rfl]
      · split
        · next heq => exact heq.symm
        · rfl
    | copy =>
      rw [if_neg]
      intro heq
      obtain ⟨t1, t2, -, h2, -⟩ := LiMBinder.nextTime_eq_some h.time
      have hsome := (hr.timed src2).mpr (Option.isSome_of_eq_some h2)
      have hfresh := h.freshZero
      rw [heq] at hfresh
      rw [show s.binder.MemArray.findRow src2 = none from hfresh] at hsome
      cases hsome
  constructor
  · rintro ⟨hnone, ⟨new, hnew, htype, hhead⟩, hx⟩
    rcases h.rows_of_findRow hnew with hold | rfl | ⟨rfl, rfl⟩
    · rw [show (s.binder.addNewItem destReg dest).MemArray.findRow d = none from hnone] at hold
      cases hold
    · rw [h.findRow_dest, Option.some.injEq] at hnew
      subst hnew
      cases hhead
      exact ⟨rfl, rfl, hx.trans hother.symm⟩
    · have hsite := h.site
      have hrow := hsite.row_eq
      rw [if_pos rfl] at hrow
      subst hrow
      rw [h.findRow_row, Option.some.injEq] at hnew
      subst hnew
      cases hsite with
      | copy => cases htype
  · rintro ⟨rfl, rfl, rfl⟩
    exact ⟨h.fresh, ⟨_, h.findRow_dest, rfl, rfl⟩, hother⟩

/-- **The step rule of the muxes.** -/
theorem muxed_bindStep {steps : List (Transition BinderState BindingAction)} {s s' : BinderState}
    {a : BindingAction} (hs : s.WellFormed) (hm : Muxed (BoundIn steps) s.binder) (hshift : a.noShift)
    (hload : a.scheduled) (hin : InTime steps s a) (h : bindStep s a = some s') :
    Muxed (BoundIn (steps ++ [⟨s, a, s'⟩])) s'.binder := by
  have hnone : ∀ {b : LiMBinder}, Muxed (BoundIn steps) b →
      (∀ n row, s'.binder.MemArray.findRow n = some row → row.inputConnectionsType.head? = some .OLiM →
        (s.binder.MemArray.findRow n).isSome) → Muxed (BoundIn (steps ++ [⟨s, a, s'⟩])) b := by
    intro b hb hrows
    refine hb.congr fun d r x => ?_
    rw [boundIn_snoc, or_iff_left (not_binds hrows)]
  cases a with
  | load destReg ti =>
    obtain ⟨hb, rfl⟩ := bindStep_load hs h
    obtain rfl : ti = 0 := hload
    refine hnone (hm.bindLoad hb destReg) fun n row hrow htype => ?_
    have hrows := LiMBinder.findRow_bindLoad hb.named destReg 0 n
    rw [show (s.binder.bindLoad destReg 0).MemArray.findRow n = some row from hrow] at hrows
    split at hrows
    · cases hrows
      cases htype
    · exact Option.isSome_of_eq_some hrows.symm
  | enter constants =>
    obtain ⟨-, h⟩ := Option.ite_none_right_eq_some.mp h
    cases h
    exact hnone (hm.of_eq rfl rfl) fun n row hrow _ => Option.isSome_of_eq_some hrow
  | element operation specifications destReg src1 src2 junk =>
    obtain ⟨hop, dest, b', htmp, hn, hle, -, hb', rfl⟩ := bindStep_element hs h
    rcases LiMBinder.performBinding_cases hb' with
      ⟨d, -, -, rfl⟩ | ⟨d, op, -, -, -, rfl⟩ | ⟨-, hs', -⟩ | ⟨hcommon, -, hmap⟩
    · refine hnone (hm.of_eq ?_ ?_) fun n row hrow _ => ?_
      · rw [LiMBinder.addNewItemInRefPos_eq]
        rfl
      · rw [LiMBinder.addNewItemInRefPos_eq]
        rfl
      · rw [LiMBinder.addNewItemInRefPos_eq] at hrow
        exact Option.isSome_of_eq_some hrow
    · exact hnone (hm.of_eq rfl rfl) fun n row hrow _ => Option.isSome_of_eq_some hrow
    · rw [show operation.isShift = false from hshift] at hs'
      cases hs'
    · obtain ⟨w, row, other, base, t, hsite, hr, -⟩ :=
        LiMBinder.mapOperation_realizes (b := s.binder.addNewItem destReg dest) (hn.fresh (Nat.le_refl _))
          (hn.fresh (show dest ≤ s.binder.zeroAddr by lia)) (show dest ≠ s.binder.zeroAddr by lia) hmap
      have hm' := (show Muxed _ (s.binder.addNewItem destReg dest) from hm.of_eq rfl rfl).realizes hs.loads
        hop hr (fun n row hrow => (hn.rows n row hrow).2) ?_
      · refine Muxed.of_eq (b := b') (hm'.congr fun d r x => ?_) rfl rfl
        rw [boundIn_snoc]
        exact or_congr_right (binds_element hm.regular hr d r x).symm
      · rintro rfl x1 hx1 hout d hB
        have hbase : s.binder.MemArray.findRow row = some base := by
          cases hr.site with
          | mux _ found => exact found
        have hkey : d ∈ s.binder.MemArray.limArray.keys := by
          rw [ExtTreeMap.mem_keys, ExtTreeMap.mem_iff_isSome_getElem?]
          exact (hm.regular.timed d).mpr (hm.timed d row x1 hB)
        exact (hin hcommon _ hsite base hbase hout x1 hx1 d hkey hB).trans hr.time
  | leave =>
    obtain ⟨-, h⟩ := Option.ite_none_right_eq_some.mp h
    cases h
    exact hnone hm fun n row hrow _ => Option.isSome_of_eq_some hrow
  | accumulate operation specifications destReg accumulationList =>
    obtain ⟨hop, hb, b', hb', rfl⟩ := bindStep_accumulate hs h
    refine (hm.performAccBinding hb hop hb').congr
      fun d r x => ?_
    rw [boundIn_snoc]
    refine or_congr_right ⟨?_, ?_⟩
    · rintro ⟨hnew, hfed⟩
      obtain ⟨row, rRow, hrow, htype, hhead, -⟩ := id hfed
      exact ⟨hnew, ⟨row, hrow, htype, hhead⟩, hfed⟩
    · rintro ⟨hnew, -, hfed⟩
      exact ⟨hnew, hfed⟩

/-- **The run rule of the muxes**: they are in order in every state reached by steps in time. -/
theorem muxed_of_reaches {par : ℤ} {optTarget : String} {actions : List BindingAction} {s : BinderState}
    (hshift : ∀ a ∈ actions, a.noShift) (hload : ∀ a ∈ actions, a.scheduled)
    (hin : AllInTime par optTarget actions) (hs : Reaches par optTarget actions s) :
    Muxed (BoundIn (history par optTarget actions)) s.binder := by
  refine (run_induction (P := fun actions s => s.WellFormed ∧ ((∀ a ∈ actions, a.noShift) →
    (∀ a ∈ actions, a.scheduled) → AllInTime par optTarget actions →
    Muxed (BoundIn (history par optTarget actions)) s.binder)) ?_ ?_ hs).2 hshift hload hin
  · refine ⟨BinderState.wellFormed_init par optTarget, fun _ _ _ => ⟨?_, ?_, ?_, ?_, ?_, ?_, ?_⟩⟩
    · exact regular_of_reaches (by simp) (show Reaches par optTarget [] _ from rfl)
    all_goals intro _ _
    all_goals simp [BinderState.init, LiMBinder.init, history, transitions, BoundIn]
  · rintro before s a s' hrun ⟨hwf, ih⟩ hstep
    refine ⟨(wellFormed_bindStep hwf hstep).1, fun hshift hload hin => ?_⟩
    have hbefore : AllInTime par optTarget before := by
      intro i hi a' ha' s' hs'
      have h := hin i (by rw [List.length_append]; omega) a' (by rwa [List.getElem?_append_left hi])
      rw [List.take_append_of_le_length (by omega)] at h
      exact h s' hs'
    have hlast := hin before.length (by simp) a (by simp)
    rw [List.take_left] at hlast
    rw [history, transitions_snoc hrun hstep]
    exact muxed_bindStep hwf (ih (fun b hb => hshift b (by simp [hb])) (fun b hb => hload b (by simp [hb]))
      hbefore) (hshift a (by simp)) (hload a (by simp)) (hlast s hrun) hstep

end Octantis
