import Mathlib.Data.List.Infix
import Octantis.Binding.Feeding
import Octantis.CodeGeneration.RowOrder

/-!
# The order of the rows along a run

The binder names the rows in the order in which it adds them, but the row that gets the
logic of an operation is one that is there, and its new input may be a younger row; the copy
row of an element is named after the result row that it feeds.

## The model

`ConnectsLower` is about one mapping: the row that gets the logic is named after the row
connected to it. `KeepsOrder` is about one step of the binder, and the state that it starts
from.

## What is proved

* `inOrder_connect_iff`, `inOrder_resultRow_iff`: the order of the two rows that a mapping writes;
* `ordered_bindStep_iff`: what one step does to the order;
* `printLiM_iff`: all arrays that a run passes through are printed exactly when every step
  keeps the order.
-/

namespace Octantis

open Std Lib

variable {b b' : LiMBinder} {operation : Operation} {specifications : List String}
  {src1 src2 dest row other n m : Name} {w : Way} {base : LiMRow} {t : ℤ} {A B : LiMArray}
  {F : FiniteStateMachine}

/-- The row that gets the logic is named after the row connected to it, unless that is one of its
inputs already. -/
def LiMBinder.ConnectsLower (b : LiMBinder) (w : Way) (row other : Name) : Prop :=
  b.MemArray.PrintedBefore row other ∨
    w = .mux ∧ ∃ old, b.MemArray.findRow row = some old ∧ other ∈ old.inputConnections

/-- **A step keeps the order** of the rows. An element makes no copy row; a shift is not of a memory
row. -/
def Lib.Transition.KeepsOrder (step : Transition BinderState BindingAction) : Prop :=
  match step.act with
  | .element operation _ _ src1 src2 _ =>
    step.pre.binder.commonDest src1 src2 = none →
      if operation.isShift then
        step.pre.binder.MemArray.isLiMRowOfThisType src1 .load = some false ∧
          (step.pre.binder.MemArray.findRow src2).isSome
      else ∀ w row other, step.pre.binder.site true operation src1 src2 = some (w, row, other) →
        w ≠ .copy ∧ step.pre.binder.ConnectsLower w row other
  | .accumulate operation specifications destReg _ =>
    ∃ pairs b row, run (LiMBinder.pairStep operation specifications) step.pre.binder pairs = some b ∧
      step.post.binder = b.addNewItem destReg row ∧
      ∀ pair ∈ transitions (LiMBinder.pairStep operation specifications) step.pre.binder pairs,
        ∀ w row other, pair.pre.site false operation pair.act.1 pair.act.2 = some (w, row, other) →
          pair.pre.ConnectsLower w row other
  | .load _ _ | .enter _ | .leave => True

/-- The rows below a row that was there are those that were there. -/
def LiMArray.AddsAbove (B A : LiMArray) : Prop :=
  ∀ n, (B.findRow n).isSome → ∀ m, m < n → ((A.findRow m).isSome ↔ (B.findRow m).isSome)

/-- A row that was there is in order as it was. -/
theorem LiMArray.AddsAbove.inOrder_iff (h : B.AddsAbove A) (hn : (B.findRow n).isSome) {row : LiMRow} :
    A.InOrder n row ↔ B.InOrder n row := by
  have hbefore : A.PrintedBefore n = B.PrintedBefore n := by
    funext m
    exact propext (and_congr_left fun hm => h n hn m hm)
  rw [InOrder, InOrder, hbefore]

/-- A second connection is read. -/
theorem LiMRow.readsFrom_connect_iff {entered : Name → Prop} (hlogic : base.rowType ≠ .load)
    (hlen : base.inputConnections.length = 1) :
    (base.connect other .OC).ReadsFrom n entered ↔ entered other := by
  have hconn := connect_of_length_one hlen other .OC
  have hlength : (base.connect other .OC).inputConnections.length = 2 := by
    rw [hconn, List.length_append, hlen, List.length_singleton]
  have hsecond : (base.connect other .OC).inputConnections[1]? = some other := by
    rw [hconn, List.getElem?_append_right (Nat.le_of_eq hlen), hlen]
    rfl
  rw [ReadsFrom, connect_rowType, if_neg hlogic, hlength, hsecond]
  simp

/-- A third connection is read, besides the second. -/
theorem LiMRow.readsFrom_connect_iff_of_length_two {entered : Name → Prop} (hlogic : base.rowType ≠ .load)
    (hlen : base.inputConnections.length = 2) (hother : other ∉ base.inputConnections)
    (hbase : base.ReadsFrom n entered) : (base.connect other .OC).ReadsFrom n entered ↔ entered other := by
  rw [ReadsFrom, if_neg hlogic] at hbase
  obtain ⟨m, hm, hentered, -⟩ := hbase
  have hconn : (base.connect other .OC).inputConnections = base.inputConnections ++ [other] := by
    rw [connect, if_pos (.inr hother)]
  have hlength : (base.connect other .OC).inputConnections.length = 3 := by
    rw [hconn, List.length_append, hlen, List.length_singleton]
  have hsecond : (base.connect other .OC).inputConnections[1]? = some m := by
    rw [hconn, List.getElem?_append_left (by omega), hm]
  have hlast : (base.connect other .OC).inputConnections.getLast? = some other := by
    rw [hconn, List.getLast?_concat]
  rw [ReadsFrom, connect_rowType, if_neg hlogic, hlength, hsecond, hlast]
  simp [hentered]

namespace Realizes

variable (h : Realizes b operation specifications src1 src2 dest w row other base t A F)
include h

/-- A mapping adds its rows above those that are there. -/
theorem addsAbove (hop : operation ≠ .load)
    (hnew : ∀ n, (b.MemArray.findRow n).isSome → n < dest ∧ n < b.zeroAddr) : b.MemArray.AddsAbove A := by
  intro n hn m hm
  constructor
  · intro hsome
    obtain ⟨new, hnew'⟩ := Option.isSome_iff_exists.mp hsome
    rcases h.rows_of_findRow hnew' with hold | rfl | ⟨-, rfl⟩
    · exact hold
    · exact absurd (hnew n hn).1 (Nat.not_lt_of_lt hm)
    · exact absurd (hnew n hn).2 (Nat.not_lt_of_lt hm)
  · intro hsome
    obtain ⟨old, hold⟩ := Option.isSome_iff_exists.mp hsome
    obtain ⟨new, hnew', -⟩ := h.rows_extend hop m old hold
    exact Option.isSome_of_eq_some hnew'

/-- The result row is in order when it is named after the row with the logic. -/
theorem inOrder_resultRow_iff (haligned : row ≠ noInput) :
    A.InOrder dest (resultRow b.par row) ↔ row < dest := by
  have hsome : (A.findRow row).isSome := Option.isSome_of_eq_some h.findRow_row
  have hne := h.ne_row
  have hload : (resultRow b.par row).rowType = .load := rfl
  rw [LiMArray.InOrder, LiMRow.ReadsFrom, if_pos hload]
  constructor
  · rintro ⟨m, hm, hcases⟩
    cases hm
    rcases hcases with hno | hnull | rfl | ⟨-, hlt⟩
    · exact absurd hno haligned
    · rw [hnull] at hne ⊢
      exact Nat.pos_of_ne_zero hne
    · exact absurd rfl hne
    · exact hlt
  · intro hlt
    exact ⟨row, rfl, .inr (.inr (.inr ⟨hsome, hlt⟩))⟩

/-- **The row with the logic** is in order when it is named after the row connected to it. -/
theorem inOrder_connect_iff {mux : Bool} (hop : operation ≠ .load) (hl : b.LoadRows)
    (hsite : b.site mux operation src1 src2 = some (w, row, other))
    (hnew : ∀ n, (b.MemArray.findRow n).isSome → n < dest ∧ n < b.zeroAddr) (hb : b.MemArray.Ordered) :
    A.InOrder row (base.connect other .OC) ↔ b.ConnectsLower w row other := by
  have habove := h.addsAbove hop hnew
  have hlogic : base.rowType ≠ .load := h.site.rowType ▸ hop
  rw [LiMArray.InOrder, LiMBinder.ConnectsLower]
  cases hs : h.site with
  | @convert _ _ old operands found convertible =>
    have hlen := (hl row old found (LiMRow.rowType_of_convertible convertible)).2
    have hsome := Option.isSome_of_eq_some found
    rw [LiMRow.readsFrom_connect_iff hlogic hlen]
    simp only [reduceCtorEq, false_and, or_false, LiMArray.PrintedBefore]
    exact and_congr_left fun hlt => habove row hsome other hlt
  | mux operands found type size =>
    have hsome := Option.isSome_of_eq_some found
    have hbase := (habove.inOrder_iff hsome).mpr (hb row base found)
    have hlen : base.inputConnections.length = 2 := by
      have hread := hb row base found
      rw [LiMArray.InOrder, LiMRow.ReadsFrom, if_neg hlogic] at hread
      obtain ⟨m, hm, -⟩ := hread
      have := (List.getElem?_eq_some_iff.mp hm).1
      omega
    by_cases hin : other ∈ base.inputConnections
    · have hnot : ¬ (base.inputConnections.length = 1 ∨ other ∉ base.inputConnections) := by
        simp [hlen, hin]
      rw [LiMRow.connect, if_neg hnot]
      exact iff_of_true hbase (.inr ⟨rfl, base, found, hin⟩)
    · rw [LiMRow.readsFrom_connect_iff_of_length_two hlogic hlen hin hbase]
      have hnot : ¬ ∃ old, b.MemArray.findRow row = some old ∧ other ∈ old.inputConnections := by
        rintro ⟨old, hold, hmem⟩
        rw [found, Option.some.injEq] at hold
        exact hin (hold ▸ hmem)
      simp only [hnot, and_false, or_false, LiMArray.PrintedBefore]
      exact and_congr_left fun hlt => habove row hsome other hlt
  | copy =>
    -- both operands of a copy row are rows, so they are named before it
    rw [LiMRow.readsFrom_connect_iff hlogic rfl]
    obtain ⟨row2, hrow2, -⟩ := Option.bind_eq_some_iff.mp hsite
    have hsome := Option.isSome_of_eq_some hrow2
    obtain ⟨new, hrow2', -⟩ := h.rows_extend hop src2 row2 hrow2
    have hlt := (hnew src2 hsome).2
    exact iff_of_true ⟨Option.isSome_of_eq_some hrow2', hlt⟩ (.inl ⟨hsome, hlt⟩)

/-- **The order after a mapping**. -/
theorem ordered_iff {mux : Bool} (hop : operation ≠ .load) (hl : b.LoadRows)
    (hsite : b.site mux operation src1 src2 = some (w, row, other)) (haligned : row ≠ noInput)
    (hnew : ∀ n, (b.MemArray.findRow n).isSome → n < dest ∧ n < b.zeroAddr) (hb : b.MemArray.Ordered) :
    A.Ordered ↔ row < dest ∧ b.ConnectsLower w row other := by
  rw [← h.inOrder_resultRow_iff haligned, ← h.inOrder_connect_iff hop hl hsite hnew hb]
  constructor
  · intro hA
    exact ⟨hA dest _ h.findRow_dest, hA row _ h.findRow_row⟩
  · rintro ⟨hdest, hrow⟩ n new hn
    have hn' := hn
    rw [h.rows] at hn'
    split at hn'
    · next heq =>
      cases hn'
      exact heq ▸ hdest
    split at hn'
    · next heq =>
      cases hn'
      exact heq ▸ hrow
    · exact ((h.addsAbove hop hnew).inOrder_iff (Option.isSome_of_eq_some hn')).mpr (hb n new hn')

/-- The types after a mapping. -/
theorem typed (hop : operation.isBound = true) (hswitch : operation ≠ .switch)
    (hb : ∀ n row, b.MemArray.findRow n = some row → row.Typed) :
    ∀ n row, A.findRow n = some row → row.Typed := by
  intro n new hn
  rw [h.rows] at hn
  split at hn
  · cases hn
    exact fun hload => absurd rfl hload
  split at hn
  · cases hn
    intro _
    rw [LiMRow.connect_rowType, h.site.rowType]
    exact ⟨hop, hswitch⟩
  · exact hb n new hn

end Realizes

/-! ### An accumulation -/

/-- The place of the logic is one. -/
theorem forall_site_iff {site : Option (Way × Name × Name)} (hsite : site = some (w, row, other))
    {P : Way → Name → Name → Prop} :
    (∀ w row other, site = some (w, row, other) → P w row other) ↔ P w row other := by
  constructor
  · exact fun hall => hall w row other hsite
  · intro hP w' row' other' hsite'
    rw [hsite, Option.some.injEq, Prod.mk.injEq, Prod.mk.injEq] at hsite'
    obtain ⟨rfl, rfl, rfl⟩ := hsite'
    exact hP

/-- No row has the name `0xdef`. -/
theorem ne_noInput_of_dvd (h : 4 ∣ n) : n ≠ noInput := by
  rintro rfl
  exact absurd h (by decide)

namespace LiMBinder

/-- The rows are named before the next name. -/
theorem WellFormed.below (hb : b.WellFormed) (hn : (b.MemArray.findRow n).isSome) :
    n < b.zeroAddr ∧ 4 ∣ n := by
  obtain ⟨r, hr⟩ := Option.isSome_iff_exists.mp hn
  exact hb.named.rows n r hr

/-- They are named before the names that a pair of an accumulation takes. -/
theorem WellFormed.below_tmpName (hb : b.WellFormed) {k tmpName : Name} (htmp : tmpName = b.zeroAddr + k) :
    ∀ n, (b.MemArray.findRow n).isSome → n < tmpName ∧ n < b.zeroAddr := by
  intro n hn
  have hzero := (hb.below hn).1
  rw [htmp]
  exact ⟨Nat.lt_add_right k hzero, hzero⟩

/-- The order after a pair of an accumulation. -/
theorem ordered_bindPair_iff {row1 row2 tmpName : Name} (hb : b.WellFormed) (hop : operation ≠ .load)
    (hord : b.MemArray.Ordered) (h : b.bindPair operation specifications row1 row2 = some (b', tmpName)) :
    b'.MemArray.Ordered ↔ ∀ w row other, b.site false operation row1 row2 = some (w, row, other) →
      b.ConnectsLower w row other := by
  obtain ⟨w, row, other, base, t, hsite, htmp, hr, -⟩ := bindPair_realizes hb.freshZero hb.freshNext h
  have hnew := hb.below_tmpName htmp
  have hrow : row < tmpName ∧ 4 ∣ row := by
    have hrow := hr.site.row_eq
    split at hrow
    · next hw =>
      rw [htmp, hrow, if_pos hw]
      exact ⟨Nat.lt_add_of_pos_right (by decide), hb.named.aligned⟩
    · exact ⟨(hnew row hrow.2).1, (hb.below hrow.2).2⟩
  rw [hr.ordered_iff hop hb.loads hsite (ne_noInput_of_dvd hrow.2) hnew hord, forall_site_iff hsite]
  exact and_iff_right hrow.1

/-- A row with logic is out of order. -/
def OutOfOrder (b : LiMBinder) (n : Name) : Prop :=
  ∃ row, b.MemArray.findRow n = some row ∧ row.rowType ≠ .load ∧ ¬ b.MemArray.InOrder n row

/-- An accumulation gives no new input to a row with logic: one that is out of order stays so. -/
theorem outOfOrder_bindPair {row1 row2 tmpName : Name} (hb : b.WellFormed) (hop : operation ≠ .load)
    (hout : b.OutOfOrder n) (h : b.bindPair operation specifications row1 row2 = some (b', tmpName)) :
    b'.OutOfOrder n := by
  obtain ⟨r, hn, hlogic, hout⟩ := hout
  have hsome := Option.isSome_of_eq_some hn
  obtain ⟨w, row, other, base, t, hsite, htmp, hr, -⟩ := bindPair_realizes hb.freshZero hb.freshNext h
  have hnew := hb.below_tmpName htmp
  have hne : n ≠ row := by
    rintro rfl
    cases hs : hr.site with
    | convert operands found convertible =>
      rw [hn, Option.some.injEq] at found
      exact hlogic (LiMRow.rowType_of_convertible (found ▸ convertible))
    | mux => exact way_of_site_false hsite rfl
    | copy => exact absurd (hnew _ hsome).2 (Nat.lt_irrefl _)
  refine ⟨r, ?_, hlogic, fun horder => hout (((hr.addsAbove hop hnew).inOrder_iff hsome).mp horder)⟩
  rw [hr.rows, if_neg (Nat.ne_of_lt (hnew n hsome).1), if_neg hne, hn]

/-- A pair that connects a row named later puts the row with the logic out of order. -/
theorem exists_outOfOrder {row1 row2 tmpName : Name} (hb : b.WellFormed) (hop : operation ≠ .load)
    (hord : b.MemArray.Ordered) (h : b.bindPair operation specifications row1 row2 = some (b', tmpName))
    (hnot : ¬ ∀ w row other, b.site false operation row1 row2 = some (w, row, other) →
      b.ConnectsLower w row other) : ∃ n, b'.OutOfOrder n := by
  obtain ⟨w, row, other, base, t, hsite, htmp, hr, -⟩ := bindPair_realizes hb.freshZero hb.freshNext h
  rw [forall_site_iff hsite] at hnot
  have hnew := hb.below_tmpName htmp
  refine ⟨row, _, hr.findRow_row, ?_, fun horder => hnot ?_⟩
  · rw [LiMRow.connect_rowType, hr.site.rowType]
    exact hop
  · exact (hr.inOrder_connect_iff hop hb.loads hsite hnew hord).mp horder

/-- **The order after an accumulation**: every pair connects a row that is named before the one that
gets the logic. -/
theorem ordered_pairs_iff {pairs : List (Name × Name)} (hb : b.WellFormed) (hop : operation ≠ .load)
    (hord : b.MemArray.Ordered) (h : run (pairStep operation specifications) b pairs = some b') :
    b'.MemArray.Ordered ↔ ∀ pair ∈ transitions (pairStep operation specifications) b pairs, ∀ w row other,
      pair.pre.site false operation pair.act.1 pair.act.2 = some (w, row, other) →
        pair.pre.ConnectsLower w row other := by
  induction pairs generalizing b with
  | nil =>
    cases h
    exact iff_of_true hord (by simp [transitions])
  | cons pair pairs ih =>
    rw [run_cons] at h
    obtain ⟨b₁, h₁, h⟩ := Option.bind_eq_some_iff.mp h
    rw [transitions, h₁, List.forall_mem_cons]
    obtain ⟨⟨b₁, tmpName⟩, hpair, rfl⟩ := Option.map_eq_some_iff.mp h₁
    obtain ⟨hb₁, -, -⟩ := wellFormed_bindPair hb hop hpair
    by_cases hall : ∀ w row other, b.site false operation pair.1 pair.2 = some (w, row, other) →
        b.ConnectsLower w row other
    · rw [ih hb₁ ((ordered_bindPair_iff hb hop hord hpair).mpr hall) h, and_iff_right hall]
    · refine iff_of_false (fun hord' => ?_) (fun hboth => hall hboth.1)
      -- the row that is out of order stays so to the end
      obtain ⟨n, hout⟩ := exists_outOfOrder hb hop hord hpair hall
      obtain ⟨-, r, hn, -, hout⟩ := run_invariant (P := fun b => b.WellFormed ∧ b.OutOfOrder n)
        (Q := fun _ => True) ⟨hb₁, hout⟩ (by
          rintro b₁ pair b₂ - ⟨hb₁, hout⟩ hstep
          obtain ⟨⟨b₂, tmpName⟩, hpair, rfl⟩ := Option.map_eq_some_iff.mp hstep
          exact ⟨(wellFormed_bindPair hb₁ hop hpair).1, outOfOrder_bindPair hb₁ hop hout hpair⟩)
        (fun _ _ => trivial) h
      exact hout (hord' n r hn)

/-- The types after an accumulation. -/
theorem typed_pairs {pairs : List (Name × Name)} (hb : b.WellFormed) (hop : operation.isBound = true)
    (hswitch : operation ≠ .switch) (htyped : ∀ n row, b.MemArray.findRow n = some row → row.Typed)
    (h : run (pairStep operation specifications) b pairs = some b') :
    ∀ n row, b'.MemArray.findRow n = some row → row.Typed := by
  have hload := Operation.ne_load_of_isBound hop
  refine (run_invariant (P := fun b => b.WellFormed ∧ ∀ n row, b.MemArray.findRow n = some row → row.Typed)
    (Q := fun _ => True) ⟨hb, htyped⟩ ?_ (fun _ _ => trivial) h).2
  rintro b₁ pair b₂ - ⟨hb₁, htyped₁⟩ hstep
  obtain ⟨⟨b₂, tmpName⟩, hpair, rfl⟩ := Option.map_eq_some_iff.mp hstep
  obtain ⟨w, row, other, base, t, -, -, hr, -⟩ := bindPair_realizes hb₁.freshZero hb₁.freshNext hpair
  exact ⟨(wellFormed_bindPair hb₁ hload hpair).1, hr.typed hop hswitch htyped₁⟩

end LiMBinder

/-! ### A shift -/

namespace ShiftEffect

variable (h : ShiftEffect b operation specifications src1 src2 dest b')
include h

/-- **The order after a shift**: the converted row has no second connection, and the second operand
of a copy row is to be a row. -/
theorem ordered_iff (hop : operation ≠ .load) (hl : b.LoadRows) (hne : src1 ≠ dest)
    (hnew : ∀ n, (b.MemArray.findRow n).isSome → n < b.zeroAddr) (hb : b.MemArray.Ordered) :
    b'.MemArray.Ordered ↔
      b.MemArray.isLiMRowOfThisType src1 .load = some false ∧ (b.MemArray.findRow src2).isSome := by
  cases h with
  | @convert old logic found load rows =>
    have hsome : b.MemArray.isLiMRowOfThisType src1 .load = some true := by
      simp [LiMArray.isLiMRowOfThisType, found, load]
    rw [hsome]
    refine iff_of_false (fun hord => ?_) (by simp)
    have hrow := hord src1 _ (by rw [rows, if_neg hne, if_pos rfl])
    rw [LiMArray.InOrder, LiMRow.ReadsFrom, if_neg hop] at hrow
    obtain ⟨m, hm, -⟩ := hrow
    have hlen := (hl src1 old found load).2
    have := (List.getElem?_eq_some_iff.mp hm).1
    simp only [hlen] at this
    omega
  | copy logic rows =>
    rw [logic, and_iff_right rfl]
    have hrow : b'.MemArray.InOrder b.zeroAddr ⟨operation, b.par, [src1, src2], [.OC, .OC], specifications⟩ ↔
        (b.MemArray.findRow src2).isSome := by
      rw [LiMArray.InOrder, LiMRow.ReadsFrom, if_neg hop]
      simp only [LiMArray.PrintedBefore, rows, List.getElem?_cons_succ, List.getElem?_cons_zero,
        Option.some.injEq, exists_eq_left', List.length_cons, List.length_nil, Nat.reduceAdd, Nat.lt_irrefl,
        false_implies, and_true]
      constructor
      · rintro ⟨hsome, hlt⟩
        rwa [if_neg (Nat.ne_of_lt hlt)] at hsome
      · intro hsome
        have hlt := hnew src2 hsome
        exact ⟨by rwa [if_neg (Nat.ne_of_lt hlt)], hlt⟩
    rw [← hrow]
    constructor
    · exact fun hord => hord b.zeroAddr _ (by rw [rows, if_pos rfl])
    · intro horder n new hn
      have hn' := hn
      rw [rows] at hn'
      split at hn'
      · next heq =>
        cases hn'
        exact heq ▸ horder
      · have habove : b.MemArray.AddsAbove b'.MemArray := by
          intro k hk m hm
          rw [rows, if_neg (Nat.ne_of_lt (Nat.lt_trans hm (hnew k hk)))]
        exact (habove.inOrder_iff (Option.isSome_of_eq_some hn')).mpr (hb n new hn')

theorem typed (hop : operation.isBound = true) (hswitch : operation ≠ .switch)
    (hb : ∀ n row, b.MemArray.findRow n = some row → row.Typed) :
    ∀ n row, b'.MemArray.findRow n = some row → row.Typed := by
  intro n new hn
  cases h with
  | convert _ _ _ rows =>
    rw [rows] at hn
    split at hn
    · cases hn
      exact fun hload => absurd rfl hload
    split at hn
    · cases hn
      exact fun _ => ⟨hop, hswitch⟩
    · exact hb n new hn
  | copy _ rows =>
    rw [rows] at hn
    split at hn
    · cases hn
      exact fun _ => ⟨hop, hswitch⟩
    · exact hb n new hn

end ShiftEffect

/-! ### Every step -/

/-- **The order after an element** that is mapped: a copy row is named after the result row that it
feeds. -/
theorem Realizes.ordered_iff_of_named
    (h : Realizes b operation specifications src1 src2 dest w row other base t A F)
    (hrows : ∀ n row, b.MemArray.findRow n = some row → n < dest ∧ 4 ∣ n) (hle : dest + 4 ≤ b.zeroAddr)
    (ha : 4 ∣ b.zeroAddr) (hl : b.LoadRows) (hop : operation ≠ .load)
    (hsite : b.site true operation src1 src2 = some (w, row, other)) (hord : b.MemArray.Ordered) :
    A.Ordered ↔ ∀ w row other, b.site true operation src1 src2 = some (w, row, other) →
      w ≠ .copy ∧ b.ConnectsLower w row other := by
  have hbelow : ∀ n, (b.MemArray.findRow n).isSome → n < dest ∧ 4 ∣ n := by
    intro n hsome
    obtain ⟨r, hr⟩ := Option.isSome_iff_exists.mp hsome
    exact hrows n r hr
  have hnew : ∀ n, (b.MemArray.findRow n).isSome → n < dest ∧ n < b.zeroAddr := fun n hsome =>
    ⟨(hbelow n hsome).1, Nat.lt_of_lt_of_le (hbelow n hsome).1 (by lia)⟩
  have hrow : (row < dest ↔ w ≠ .copy) ∧ 4 ∣ row := by
    have hrow := h.site.row_eq
    split at hrow
    · next hw =>
      rw [hrow]
      exact ⟨iff_of_false (by lia) (fun hne => hne hw), ha⟩
    · next hw => exact ⟨iff_of_true (hbelow row hrow.2).1 hw, (hbelow row hrow.2).2⟩
  rw [forall_site_iff hsite, h.ordered_iff hop hl hsite (ne_noInput_of_dvd hrow.2) hnew hord, hrow.1]

/-- A load adds a memory row without a source. -/
theorem ordered_bindLoad (hb : b.WellFormed) (hord : b.MemArray.Ordered) (destReg : Reg) (ti : ℤ) :
    (b.bindLoad destReg ti).MemArray.Ordered := by
  have hrows := LiMBinder.findRow_bindLoad hb.named destReg ti
  have habove : b.MemArray.AddsAbove (b.bindLoad destReg ti).MemArray := by
    intro n hn m hm
    rw [hrows, if_neg (Nat.ne_of_lt (Nat.lt_trans hm (hb.below hn).1))]
  intro n row hrow
  have hrow' := hrow
  rw [hrows] at hrow'
  split at hrow'
  · cases hrow'
    rw [LiMArray.InOrder, LiMRow.ReadsFrom, if_pos rfl]
    exact ⟨noInput, rfl, .inl rfl⟩
  · exact (habove.inOrder_iff (Option.isSome_of_eq_some hrow')).mpr (hord n row hrow')

theorem typed_bindLoad (hb : b.WellFormed) (htyped : ∀ n row, b.MemArray.findRow n = some row → row.Typed)
    (destReg : Reg) (ti : ℤ) :
    ∀ n row, (b.bindLoad destReg ti).MemArray.findRow n = some row → row.Typed := by
  intro n row hrow
  rw [LiMBinder.findRow_bindLoad hb.named] at hrow
  split at hrow
  · cases hrow
    exact fun hload => absurd rfl hload
  · exact htyped n row hrow

/-- The step binds no `switch`. -/
def BindingAction.noSwitch : BindingAction → Prop
  | element operation _ _ _ _ _ | accumulate operation _ _ _ => operation ≠ .switch
  | _ => True

instance : DecidablePred BindingAction.noSwitch
  | .element operation _ _ _ _ _ | .accumulate operation _ _ _ =>
    inferInstanceAs (Decidable (operation ≠ .switch))
  | .load _ _ | .enter _ | .leave => .isTrue trivial

/-- The types after a step. -/
theorem typed_bindStep {s s' : BinderState} {a : BindingAction} (hs : s.WellFormed)
    (htyped : ∀ n row, s.binder.MemArray.findRow n = some row → row.Typed) (hswitch : a.noSwitch)
    (h : bindStep s a = some s') : ∀ n row, s'.binder.MemArray.findRow n = some row → row.Typed := by
  cases a with
  | load destReg ti =>
    obtain ⟨hb, rfl⟩ := bindStep_load hs h
    exact typed_bindLoad hb htyped destReg ti
  | enter | leave =>
    obtain ⟨-, h⟩ := Option.ite_none_right_eq_some.mp h
    cases h
    exact htyped
  | element operation specifications destReg src1 src2 junk =>
    have hbound := (Option.ite_none_right_eq_some.mp h).1
    obtain ⟨-, dest, b', -, hn, hle, -, hb', rfl⟩ := bindStep_element hs h
    rcases LiMBinder.performBinding_cases hb' with
      ⟨d, -, -, rfl⟩ | ⟨d, op, -, -, -, rfl⟩ | ⟨-, -, hmap⟩ | ⟨-, -, hmap⟩
    · rw [LiMBinder.addNewItemInRefPos_eq]
      exact htyped
    · exact htyped
    · exact (LiMBinder.mapShift_cases (b := s.binder.addNewItem destReg dest) hs.loads
        (hn.fresh (Nat.le_refl _)) (hn.fresh (show dest ≤ s.binder.zeroAddr by lia)) hmap).typed hbound hswitch
        htyped
    · obtain ⟨w, row, other, base, t, -, hr, -⟩ :=
        LiMBinder.mapOperation_realizes (b := s.binder.addNewItem destReg dest) (hn.fresh (Nat.le_refl _))
          (hn.fresh (show dest ≤ s.binder.zeroAddr by lia)) (show dest ≠ s.binder.zeroAddr by lia) hmap
      exact hr.typed hbound hswitch htyped
  | accumulate operation specifications destReg accumulationList =>
    obtain ⟨hguard, -⟩ := Option.ite_none_right_eq_some.mp h
    rw [Bool.and_eq_true] at hguard
    obtain ⟨hop, hb, b', hb', rfl⟩ := bindStep_accumulate hs h
    obtain ⟨pairs, b₁, row, hrun, -, rfl⟩ := LiMBinder.performAccBinding_run hb hop hb'
    have htyped' := LiMBinder.typed_pairs hb hguard.2 hswitch htyped hrun
    exact htyped'

/-- **The order after a step.** -/
theorem ordered_bindStep_iff {s s' : BinderState} {a : BindingAction} (hs : s.WellFormed)
    (hord : s.binder.MemArray.Ordered) (h : bindStep s a = some s') :
    s'.binder.MemArray.Ordered ↔ Transition.KeepsOrder ⟨s, a, s'⟩ := by
  cases a with
  | load destReg ti =>
    obtain ⟨hb, rfl⟩ := bindStep_load hs h
    exact iff_of_true (ordered_bindLoad hb hord destReg ti) trivial
  | enter | leave =>
    obtain ⟨-, h⟩ := Option.ite_none_right_eq_some.mp h
    cases h
    exact iff_of_true hord trivial
  | element operation specifications destReg src1 src2 junk =>
    obtain ⟨hop, dest, b', htmp, hn, hle, ha, hb', rfl⟩ := bindStep_element hs h
    rcases LiMBinder.performBinding_cases hb' with
      ⟨d, hd, -, rfl⟩ | ⟨d, op, hd, -, -, rfl⟩ | ⟨hd, hshift, hmap⟩ | ⟨hd, hshift, hmap⟩
    · rw [LiMBinder.addNewItemInRefPos_eq]
      exact iff_of_true hord fun hnone => nomatch hd.symm.trans hnone
    · exact iff_of_true hord fun hnone => nomatch hd.symm.trans hnone
    · have heffect := LiMBinder.mapShift_cases (b := s.binder.addNewItem destReg dest) hs.loads
        (hn.fresh (Nat.le_refl _)) (hn.fresh (show dest ≤ s.binder.zeroAddr by lia)) hmap
      have hne : src1 ≠ dest := by
        rintro rfl
        obtain ⟨isLoad, hload, -⟩ := Option.bind_eq_some_iff.mp hmap
        obtain ⟨row, hrow, -⟩ := Option.bind_eq_some_iff.mp hload
        have hrow : s.binder.MemArray.findRow src1 = some row := hrow
        rw [hn.fresh (Nat.le_refl _)] at hrow
        cases hrow
      have hnew : ∀ n, (s.binder.MemArray.findRow n).isSome → n < s.binder.zeroAddr := by
        intro n hsome
        obtain ⟨r, hr⟩ := Option.isSome_iff_exists.mp hsome
        exact Nat.lt_of_lt_of_le (hn.rows n r hr).1 (by lia)
      refine (heffect.ordered_iff hop hs.loads hne hnew hord).trans ⟨fun hboth _ => ?_, fun hkeeps => ?_⟩
      · rw [if_pos hshift]
        exact hboth
      · have hboth := hkeeps hd
        rwa [if_pos hshift] at hboth
    · obtain ⟨w, row, other, base, t, hsite, hr, -⟩ :=
        LiMBinder.mapOperation_realizes (b := s.binder.addNewItem destReg dest) (hn.fresh (Nat.le_refl _))
          (hn.fresh (show dest ≤ s.binder.zeroAddr by lia)) (show dest ≠ s.binder.zeroAddr by lia) hmap
      refine (hr.ordered_iff_of_named hn.rows hle ha hs.loads hop hsite hord).trans
        ⟨fun hall _ => ?_, fun hkeeps => ?_⟩
      · rw [if_neg (by rw [hshift]; decide)]
        exact hall
      · have hall := hkeeps hd
        rwa [if_neg (by rw [hshift]; decide)] at hall
  | accumulate operation specifications destReg accumulationList =>
    obtain ⟨hop, hb, b', hb', rfl⟩ := bindStep_accumulate hs h
    obtain ⟨pairs, b₁, row, hrun, -, rfl⟩ := LiMBinder.performAccBinding_run hb hop hb'
    constructor
    · intro hord'
      exact ⟨pairs, b₁, row, hrun, rfl, (LiMBinder.ordered_pairs_iff hb hop hord hrun).mp hord'⟩
    · rintro ⟨pairs', b₂, row', hrun', hpost, hall⟩
      have hord₂ := (LiMBinder.ordered_pairs_iff hb hop hord hrun').mpr hall
      have hpost : b₁.addNewItem destReg row = b₂.addNewItem destReg row' := hpost
      show (b₁.addNewItem destReg row).MemArray.Ordered
      rw [hpost]
      exact hord₂

/-! ### Every run -/

/-- The types in every state reached. -/
theorem typed_of_reaches {par : ℤ} {optTarget : String} {actions : List BindingAction} {s : BinderState}
    (hswitch : ∀ a ∈ actions, a.noSwitch) (h : Reaches par optTarget actions s) :
    ∀ n row, s.binder.MemArray.findRow n = some row → row.Typed := by
  refine (run_invariant (P := fun s => s.WellFormed ∧
      ∀ n row, s.binder.MemArray.findRow n = some row → row.Typed)
    ⟨BinderState.wellFormed_init par optTarget, ?_⟩ ?_
    hswitch h).2
  · intro n row hrow
    simp [BinderState.init, LiMBinder.init] at hrow
  · rintro s a s' ha ⟨hs, htyped⟩ hstep
    exact ⟨(wellFormed_bindStep hs hstep).1, typed_bindStep hs htyped ha hstep⟩

/-- The arrays of a run are in order when every step keeps the order. -/
theorem ordered_of_reaches {par : ℤ} {optTarget : String} {actions : List BindingAction} {s : BinderState}
    (h : Reaches par optTarget actions s) (hkeeps : ∀ step ∈ history par optTarget actions, step.KeepsOrder) :
    s.binder.MemArray.Ordered := by
  refine run_induction (P := fun actions s => (∀ step ∈ history par optTarget actions, step.KeepsOrder) →
    s.binder.MemArray.Ordered) ?_ ?_ h hkeeps
  · intro _ n row hrow
    simp [BinderState.init, LiMBinder.init] at hrow
  · intro actions s a s' hrun ih hstep hkeeps
    rw [history, transitions_snoc hrun hstep] at hkeeps
    have hord := ih fun step hmem => hkeeps step (List.mem_append_left _ hmem)
    exact (ordered_bindStep_iff (wellFormed_of_reaches hrun) hord hstep).mpr (hkeeps _ (by simp))

/-- **The arrays of a run are printed** exactly when every step keeps the order: then no row that is
looked up is missing from `namesMap`. -/
theorem printLiM_iff {par : ℤ} {optTarget : String} {actions : List BindingAction} {s : BinderState}
    (hswitch : ∀ a ∈ actions, a.noSwitch) (h : Reaches par optTarget actions s) :
    (∀ before s', before <+: actions → Reaches par optTarget before s' →
        ∃ namesMap, PrintDexFile.printLiM s'.binder.MemArray = .ok namesMap) ↔
      ∀ step ∈ history par optTarget actions, step.KeepsOrder := by
  have hprint : ∀ before s', before <+: actions → Reaches par optTarget before s' →
      ((∃ namesMap, PrintDexFile.printLiM s'.binder.MemArray = .ok namesMap) ↔ s'.binder.MemArray.Ordered) :=
    fun before s' hinit hreach =>
      PrintDexFile.printLiM_isOk_iff (typed_of_reaches (fun a ha => hswitch a (hinit.subset ha)) hreach)
  constructor
  · intro hall step hmem
    obtain ⟨before, hinit, hrun, hstep⟩ := exists_prefix_of_mem_transitions hmem
    have hrun' : Reaches par optTarget (before ++ [step.act]) step.post := by
      rw [Reaches, run_snoc hrun, hstep]
    have hshort := (List.prefix_append before [step.act]).trans hinit
    have hpre := (hprint before step.pre hshort hrun).mp (hall before step.pre hshort hrun)
    have hpost := (hprint _ step.post hinit hrun').mp (hall _ step.post hinit hrun')
    exact (ordered_bindStep_iff (wellFormed_of_reaches hrun) hpre hstep).mp hpost
  · intro hkeeps before s' hinit hreach
    rw [hprint before s' hinit hreach]
    refine ordered_of_reaches hreach fun step hmem => hkeeps step ?_
    obtain ⟨after, rfl⟩ := hinit
    rw [history, transitions_append hreach]
    exact List.mem_append_left _ hmem

/-- A sum and an accumulation. -/
def orderedRows : List BindingAction :=
  [.load 1 0, .load 2 0, .load 3 0, .enter 0, .element .add [] 4 0 4 ⟨1, 0, 0⟩, .leave,
    .accumulate .add ["accumulation"] 5 [4, 8]]

theorem orderedRows_isSome : (run bindStep (.init 8 "Accumulation") orderedRows).isSome := by decide +kernel

/-- Its arrays are printed: every step gives the logic to the row that was named last. -/
theorem printLiM_iff_orderedRows :
    (∀ before s', before <+: orderedRows → Reaches 8 "Accumulation" before s' →
      ∃ namesMap, PrintDexFile.printLiM s'.binder.MemArray = .ok namesMap) ∧
    ∀ step ∈ history 8 "Accumulation" orderedRows, step.KeepsOrder := by
  have hall : ∀ before ∈ orderedRows.inits, ((run bindStep (.init 8 "Accumulation") before).all fun s =>
      decide (PrintDexFile.stopOf s.binder.MemArray = none)) = true := by decide +kernel
  have hprint : ∀ before s', before <+: orderedRows → Reaches 8 "Accumulation" before s' →
      ∃ namesMap, PrintDexFile.printLiM s'.binder.MemArray = .ok namesMap := by
    intro before s' hinit hreach
    have hstop := hall before ((List.mem_inits _ _).mpr hinit)
    rw [show run bindStep (.init 8 "Accumulation") before = some s' from hreach] at hstop
    exact PrintDexFile.stopOf_eq_none_iff.mp (of_decide_eq_true hstop)
  exact ⟨hprint, (printLiM_iff (by decide) (Option.some_get orderedRows_isSome).symm).mp hprint⟩

/-- The sum of two rows, the second one first. -/
def reversedSum : List BindingAction :=
  [.load 1 0, .load 2 0, .enter 0, .element .add [] 3 4 0 ⟨1, 0, 0⟩, .leave]

theorem reversedSum_isSome : (run bindStep (.init 8 "") reversedSum).isSome := by decide +kernel

/-- Row 0 gets the adder and reads row 4, which is printed after it. -/
theorem reversedSum_notValid :
    ∃ s, Reaches 8 "" reversedSum s ∧ PrintDexFile.printLiM s.binder.MemArray = .error .notValid := by
  refine ⟨_, (Option.some_get reversedSum_isSome).symm, PrintDexFile.stopOf_eq_some_iff.mp ?_⟩
  decide +kernel

end Octantis
