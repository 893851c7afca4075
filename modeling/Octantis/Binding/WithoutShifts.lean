import Octantis.Binding.Reachable

/-!
# Runs without shifts

Without shifts a row with logic has two connections or three — its memory input,
one logic input, and a second one behind a mux — and the rows of the array are
the rows that have a time (`Regular`).

## What is proved

* `Realizes.regular`: a mapping keeps the array and the times regular.
* `regular_of_reaches`: every state reached without shifts is regular.
* `BinderInvariant.of_reaches`: what the loads and the mappings keep holds of every state
  reached without shifts.
-/

namespace Octantis

open Std Lib

/-- The shape of the rows without shifts: the arity of those with logic, and a time for each. -/
structure Regular (A : LiMArray) (F : FiniteStateMachine) : Prop where
  arity : ∀ n row, A.findRow n = some row → row.rowType ≠ .load →
    row.inputConnections.length = 2 ∨ row.inputConnections.length = 3
  timed : ∀ n, (A.findRow n).isSome ↔ (F.getTime n).isSome
  /-- `FSM` is filled by `transform` only. -/
  pending : F.FSM = ∅

variable {b b' : LiMBinder} {operation : Operation} {specifications : List String}
  {src1 src2 dest row other : Name} {w : Way} {base : LiMRow} {t : ℤ} {A : LiMArray}
  {F : FiniteStateMachine}

theorem Regular.time_of_row (h : Regular A F) {n : Name} (hn : (A.findRow n).isSome) :
    ∃ t, F.getTime n = some t := Option.isSome_iff_exists.mp ((h.timed n).mp hn)

theorem Regular.time_fresh (h : Regular A F) {n : Name} (hn : A.findRow n = none) :
    F.getTime n = none := by
  rw [← Option.not_isSome_iff_eq_none, ← h.timed n, hn]
  decide

/-- The connections of the row with the logic. -/
theorem Realizes.arity (h : Realizes b operation specifications src1 src2 dest w row other base t A F)
    (hb : Regular b.MemArray b.FSMLim) (hl : b.LoadRows) (hop : operation ≠ .load) :
    (base.connect other .OC).inputConnections.length = 2 ∨
      (base.connect other .OC).inputConnections.length = 3 := by
  cases h.site with
  | @convert _ _ old _ found convertible =>
    have hlen := (hl row old found (LiMRow.rowType_of_convertible convertible)).2
    have hlen : (old.withLogic operation specifications).inputConnections.length = 1 := hlen
    rw [LiMRow.connect_of_length_one hlen, List.length_append, hlen]
    exact .inl rfl
  | mux _ found type size =>
    have hold := hb.arity row base found (by rw [type]; exact hop)
    unfold LiMRow.connect
    split
    · rw [List.length_append, List.length_singleton]
      omega
    · exact hold
  | copy => exact .inl rfl

/-- The time of a name after a mapping whose rows are new. -/
theorem LiMBinder.getTime_scheduleDest {F : FiniteStateMachine} {w : Way} {row dest : Name} (t : ℤ)
    (hdest : F.getTime dest = none) (hrow : w = .copy → F.getTime row = none) (hne : dest ≠ row)
    (n : Name) :
    (scheduleDest F w row dest t).getTime n =
      if n = dest then some (if w = .convert then t else t + 1)
      else if w = .copy ∧ n = row then some t
      else F.getTime n := by
  cases w with
  | convert | mux =>
    simp only [scheduleDest, FiniteStateMachine.getTime_insertSelectionSignal,
      FiniteStateMachine.getTime_addNewInstruction, hdest, and_true]
    by_cases hn : n = dest
    · simp [hn]
    · simp [hn, Ne.symm hn]
  | copy =>
    have hrow := hrow rfl
    simp only [scheduleDest, FiniteStateMachine.getTime_addNewInstruction, hdest, hrow, and_true]
    by_cases hn : n = dest
    · simp [hn, hne.symm]
    · simp [hn, Ne.symm hn, eq_comm]

theorem Realizes.getTime (h : Realizes b operation specifications src1 src2 dest w row other base t A F)
    (hb : Regular b.MemArray b.FSMLim) (n : Name) :
    F.getTime n =
      if n = dest then some (if w = .convert then t else t + 1)
      else if w = .copy ∧ n = row then some t
      else b.FSMLim.getTime n := by
  rw [h.times, LiMBinder.getTime_scheduleDest t (hb.time_fresh h.fresh) (fun hw => ?_) h.ne_row]
  have hrow := h.site.row_eq
  rw [if_pos hw] at hrow
  exact hb.time_fresh (hrow ▸ h.freshZero)

theorem LiMBinder.nextTime_eq_some (h : b.nextTime src1 src2 = some t) :
    ∃ t1 t2, b.FSMLim.getTime src1 = some t1 ∧ b.FSMLim.getTime src2 = some t2 ∧ t1 < t ∧ t2 < t ∧
      (t = t1 + 1 ∨ t = t2 + 1) := by
  obtain ⟨t1, h1, h⟩ := Option.bind_eq_some_iff.mp h
  obtain ⟨t2, h2, h⟩ := Option.bind_eq_some_iff.mp h
  refine ⟨t1, t2, h1, h2, ?_⟩
  have h : (if t1 > t2 then t1 + 1 else t2 + 1) = t := by simpa using h
  split at h <;> omega

namespace Realizes

variable (h : Realizes b operation specifications src1 src2 dest w row other base t A F)
include h

theorem getTime_of_some {n : Name} {t' : ℤ} (ht : b.FSMLim.getTime n = some t') :
    F.getTime n = some t' := by
  rw [h.times]
  exact LiMBinder.getTime_scheduleDest_of_some ht _ _ _ _

/-- The time of the result row. -/
theorem getTime_dest (hr : Regular b.MemArray b.FSMLim) :
    F.getTime dest = some (if w = .convert then t else t + 1) := by
  rw [h.getTime hr, if_pos rfl]

/-- The row with the logic is written before the result row. -/
theorem getTime_row (hr : Regular b.MemArray b.FSMLim) :
    ∃ tr, F.getTime row = some tr ∧ (if w = .copy then tr = t else tr < t) := by
  obtain ⟨t1, t2, h1, h2, hlt1, hlt2, -⟩ := LiMBinder.nextTime_eq_some h.time
  have hrow := h.site.row_eq
  by_cases hw : w = .copy
  · refine ⟨t, ?_, by rw [if_pos hw]⟩
    rw [h.getTime hr, if_neg h.ne_row.symm, if_pos ⟨hw, rfl⟩]
  · rw [if_neg hw] at hrow
    rcases hrow.1 with rfl | rfl
    · exact ⟨t1, h.getTime_of_some h1, by rw [if_neg hw]; exact hlt1⟩
    · exact ⟨t2, h.getTime_of_some h2, by rw [if_neg hw]; exact hlt2⟩

/-- The other operand is written before the time of the operation, and one of it and the row with
the logic just before. -/
theorem getTime_other :
    ∃ tx, b.FSMLim.getTime other = some tx ∧ tx < t ∧
      (w ≠ .copy → ∃ tr, b.FSMLim.getTime row = some tr ∧ (t = tr + 1 ∨ t = tx + 1)) := by
  obtain ⟨t1, t2, h1, h2, hlt1, hlt2, hmax⟩ := LiMBinder.nextTime_eq_some h.time
  cases h.site with
  | convert operands | mux operands =>
    rcases operands with ⟨rfl, rfl⟩ | ⟨rfl, rfl⟩
    · exact ⟨t1, h1, hlt1, fun _ => ⟨t2, h2, hmax.symm⟩⟩
    · exact ⟨t2, h2, hlt2, fun _ => ⟨t1, h1, hmax⟩⟩
  | copy => exact ⟨t2, h2, hlt2, fun hw => absurd rfl hw⟩

end Realizes

/-- **A mapping keeps the array and the times regular.** -/
theorem Realizes.regular (h : Realizes b operation specifications src1 src2 dest w row other base t A F)
    (hb : Regular b.MemArray b.FSMLim) (hl : b.LoadRows) (hop : operation ≠ .load) : Regular A F where
  arity n new hn hload := by
    rw [h.rows] at hn
    split at hn
    · cases hn
      exact absurd rfl hload
    split at hn
    · cases hn
      exact h.arity hb hl hop
    · exact hb.arity n new hn hload
  timed n := by
    rw [h.rows, h.getTime hb]
    have hrow := h.site.row_eq
    by_cases hd : n = dest
    · simp [hd]
    rw [if_neg hd, if_neg hd]
    by_cases hr : n = row
    · rw [if_pos hr]
      split at hrow
      · next hw => simp [hw, hr]
      · next hw =>
        rw [if_neg (fun h => hw h.1), ← hb.timed, hr]
        simp [hrow.2]
    · rw [if_neg hr, if_neg (fun h => hr h.2)]
      exact hb.timed n
  pending := by
    rw [h.times]
    cases w <;> exact hb.pending

/-! ### Every state reached -/

/-- The time of a load. -/
theorem LiMBinder.getTime_bindLoad (hb : b.WellFormed) (hr : Regular b.MemArray b.FSMLim) (destReg : Reg)
    (ti : ℤ) (n : Name) : (b.bindLoad destReg ti).FSMLim.getTime n =
      if n = b.zeroAddr then some ti else b.FSMLim.getTime n := by
  show (b.FSMLim.addNewInstruction ti b.zeroAddr).getTime n = _
  rw [FiniteStateMachine.getTime_addNewInstruction]
  simp only [hr.time_fresh hb.freshZero, and_true, eq_comm]

theorem LiMBinder.regular_bindLoad (hb : b.WellFormed) (hr : Regular b.MemArray b.FSMLim) (destReg : Reg)
    (ti : ℤ) : Regular (b.bindLoad destReg ti).MemArray (b.bindLoad destReg ti).FSMLim := by
  have hrows := findRow_bindLoad hb.named destReg ti
  refine ⟨fun n row hn hload => ?_, fun n => ?_, hr.pending⟩
  · rw [hrows] at hn
    split at hn
    · cases hn
      exact absurd rfl hload
    · exact hr.arity n row hn hload
  · rw [hrows, getTime_bindLoad hb hr]
    split
    · simp
    · exact hr.timed n

theorem LiMBinder.regular_bindPair {row1 row2 tmpName : Name} (hb : b.WellFormed)
    (hr : Regular b.MemArray b.FSMLim) (hop : operation ≠ .load)
    (h : b.bindPair operation specifications row1 row2 = some (b', tmpName)) :
    Regular b'.MemArray b'.FSMLim := by
  obtain ⟨w, row, other, base, t, -, -, hreal, -⟩ := bindPair_realizes hb.freshZero hb.freshNext h
  exact hreal.regular hr hb.loads hop

theorem LiMBinder.regular_pairs {pairs : List (Name × Name)} (hb : b.WellFormed)
    (hr : Regular b.MemArray b.FSMLim) (hop : operation ≠ .load)
    (h : run (pairStep operation specifications) b pairs = some b') : Regular b'.MemArray b'.FSMLim := by
  refine (run_invariant (P := fun b => b.WellFormed ∧ Regular b.MemArray b.FSMLim)
    (Q := fun _ => True) ⟨hb, hr⟩ ?_ (fun _ _ => trivial) h).2
  rintro b₁ pair b₂ - ⟨hb₁, hr₁⟩ hstep
  obtain ⟨⟨b₂, tmpName⟩, hpair, rfl⟩ := Option.map_eq_some_iff.mp hstep
  exact ⟨(wellFormed_bindPair hb₁ hop hpair).1, regular_bindPair hb₁ hr₁ hop hpair⟩

/-- The element of an operation that is no shift: reused, not mapped at all, or mapped. -/
theorem LiMBinder.regular_performBinding {destReg : Reg} {junk : Indeterminate} (hn : b.Named dest)
    (hle : dest + 4 ≤ b.zeroAddr) (hl : b.LoadRows) (hr : Regular b.MemArray b.FSMLim)
    (hop : operation ≠ .load) (hshift : operation.isShift = false)
    (h : (b.addNewItem destReg dest).performBinding operation specifications destReg src1 src2 dest
      junk = some b') : Regular b'.MemArray b'.FSMLim := by
  rcases performBinding_cases h with
    ⟨d, -, -, rfl⟩ | ⟨d, op, -, -, -, rfl⟩ | ⟨-, hs, -⟩ | ⟨-, -, hmap⟩
  · rw [addNewItemInRefPos_eq]
    exact hr
  · exact hr
  · rw [hshift] at hs
    cases hs
  · obtain ⟨w, row, other, base, t, -, hreal, -⟩ :=
      mapOperation_realizes (b := b.addNewItem destReg dest) (hn.fresh (Nat.le_refl _))
        (hn.fresh (show dest ≤ b.zeroAddr by lia)) (show dest ≠ b.zeroAddr by lia) hmap
    exact hreal.regular hr hl hop

/-- The step rule without shifts. -/
theorem regular_bindStep {s s' : BinderState} {a : BindingAction} (hs : s.WellFormed)
    (hr : Regular s.binder.MemArray s.binder.FSMLim) (ha : a.noShift) (h : bindStep s a = some s') :
    Regular s'.binder.MemArray s'.binder.FSMLim := by
  cases a with
  | load destReg ti =>
    obtain ⟨hb, rfl⟩ := bindStep_load hs h
    exact LiMBinder.regular_bindLoad hb hr destReg ti
  | enter constants =>
    obtain ⟨-, h⟩ := Option.ite_none_right_eq_some.mp h
    cases h
    exact hr
  | element operation specifications destReg src1 src2 junk =>
    obtain ⟨hop, dest, b', htmp, hn, hle, -, hb', rfl⟩ := bindStep_element hs h
    have hr' := LiMBinder.regular_performBinding hn hle hs.loads hr
      hop ha hb'
    exact hr'
  | leave =>
    obtain ⟨-, h⟩ := Option.ite_none_right_eq_some.mp h
    cases h
    exact hr
  | accumulate operation specifications destReg accumulationList =>
    obtain ⟨hop, hb, b', hb', rfl⟩ := bindStep_accumulate hs h
    obtain ⟨pairs, b₁, row, hrun, -, rfl⟩ := LiMBinder.performAccBinding_run hb hop hb'
    have hr' := LiMBinder.regular_pairs hb hr hop hrun
    exact hr'

/-- **Every state reached without shifts is regular.** -/
theorem regular_of_reaches {par : ℤ} {optTarget : String} {actions : List BindingAction}
    {s : BinderState} (ha : ∀ a ∈ actions, a.noShift) (h : Reaches par optTarget actions s) :
    Regular s.binder.MemArray s.binder.FSMLim := by
  refine (run_invariant (P := fun s => s.WellFormed ∧ Regular s.binder.MemArray s.binder.FSMLim)
    ⟨BinderState.wellFormed_init par optTarget, ?_⟩ ?_ ha h).2
  · exact ⟨by simp [BinderState.init, LiMBinder.init], by simp [BinderState.init, LiMBinder.init], rfl⟩
  · intro s a s' ha hs hstep
    exact ⟨(wellFormed_bindStep hs.1 hstep).1, regular_bindStep hs.1 hs.2 ha hstep⟩

/-! ### The rule of an invariant -/

/-- A mapping of the binder: the site is the one that the code chooses, in an array without
shifts. -/
structure Mapping (b : LiMBinder) (operation : Operation) (specifications : List String)
    (src1 src2 dest : Name) (w : Way) (row other : Name) (base : LiMRow) (t : ℤ) (A : LiMArray)
    (F : FiniteStateMachine) : Prop where
  chosen : ∃ mux, b.site mux operation src1 src2 = some (w, row, other)
  realizes : Realizes b operation specifications src1 src2 dest w row other base t A F
  regular : Regular b.MemArray b.FSMLim
  loads : b.LoadRows
  aligned : ∀ n row, b.MemArray.findRow n = some row → 4 ∣ n
  ne_load : operation ≠ .load

/-- An element whose operands last went to one row leaves the array and the times as they are, any
other one is mapped. -/
theorem mapping_element {s s' : BinderState} {destReg : Reg} {junk : Indeterminate} (hs : s.WellFormed)
    (hr : Regular s.binder.MemArray s.binder.FSMLim) (hshift : operation.isShift = false)
    (h : bindStep s (.element operation specifications destReg src1 src2 junk) = some s') :
    ∃ dest, s.tmpDestAddr = some dest ∧
      ((s.binder.commonDest src1 src2).isSome ∧
        s'.binder.MemArray = s.binder.MemArray ∧ s'.binder.FSMLim = s.binder.FSMLim ∨
      s.binder.commonDest src1 src2 = none ∧
        ∃ w row other base t, Mapping (s.binder.addNewItem destReg dest) operation specifications src1 src2 dest
        w row other base t s'.binder.MemArray s'.binder.FSMLim) := by
  obtain ⟨hop, dest, b', htmp, hn, hle, -, hb', rfl⟩ := bindStep_element hs h
  refine ⟨dest, htmp, ?_⟩
  rcases LiMBinder.performBinding_cases hb' with
    ⟨d, hd, -, rfl⟩ | ⟨d, op, hd, -, -, rfl⟩ | ⟨-, hs', -⟩ | ⟨hd, -, hmap⟩
  · rw [LiMBinder.addNewItemInRefPos_eq]
    exact .inl ⟨Option.isSome_of_eq_some hd, rfl, rfl⟩
  · exact .inl ⟨Option.isSome_of_eq_some hd, rfl, rfl⟩
  · rw [hshift] at hs'
    cases hs'
  · obtain ⟨w, row, other, base, t, hsite, hreal, -⟩ :=
      LiMBinder.mapOperation_realizes (b := s.binder.addNewItem destReg dest) (hn.fresh (Nat.le_refl _))
        (hn.fresh (show dest ≤ s.binder.zeroAddr by lia)) (show dest ≠ s.binder.zeroAddr by lia) hmap
    exact .inr ⟨hd, w, row, other, base, t, ⟨true, hsite⟩, hreal, hr, hs.loads,
      fun n row hrow => (hn.rows n row hrow).2, hop⟩

/-- A pair of an accumulation is mapped. -/
theorem mapping_bindPair {row1 row2 tmpName : Name} (hb : b.WellFormed)
    (hr : Regular b.MemArray b.FSMLim) (hop : operation ≠ .load)
    (h : b.bindPair operation specifications row1 row2 = some (b', tmpName)) :
    ∃ w row other base t, Mapping b operation specifications row1 row2 tmpName w row other base t
      b'.MemArray b'.FSMLim := by
  obtain ⟨w, row, other, base, t, hsite, -, hreal, -⟩ :=
    LiMBinder.bindPair_realizes hb.freshZero hb.freshNext h
  exact ⟨w, row, other, base, t, ⟨false, hsite⟩, hreal, hr, hb.loads,
    fun n row hrow => (hb.named.rows n row hrow).2, hop⟩

/-- The action loads at a time of `times`, or binds an operation of `ops`. -/
def BindingAction.allowed (times : ℤ → Prop) (ops : Operation → Prop) : BindingAction → Prop
  | load _ ti => times ti
  | element operation _ _ _ _ _ | accumulate operation _ _ _ => ops operation
  | _ => True

instance (times : ℤ → Prop) (ops : Operation → Prop) [DecidablePred times] [DecidablePred ops] :
    DecidablePred (BindingAction.allowed times ops)
  | .load _ ti => inferInstanceAs (Decidable (times ti))
  | .element operation _ _ _ _ _ | .accumulate operation _ _ _ => inferInstanceAs (Decidable (ops operation))
  | .enter _ | .leave => .isTrue trivial

/-- **A property of the array and the times that the binder keeps**: it holds at the start, and the
loads at `times` and the mappings of the operations `ops` keep it. -/
structure BinderInvariant (times : ℤ → Prop) (ops : Operation → Prop)
    (P : LiMArray → FiniteStateMachine → Prop) : Prop where
  empty : P .empty .empty
  load : ∀ (b : LiMBinder) (destReg : Reg) (ti : ℤ), times ti → b.WellFormed →
    Regular b.MemArray b.FSMLim → P b.MemArray b.FSMLim →
    P (b.bindLoad destReg ti).MemArray (b.bindLoad destReg ti).FSMLim
  map : ∀ {b : LiMBinder} {operation : Operation} {specifications : List String}
    {src1 src2 dest row other : Name} {w : Way} {base : LiMRow} {t : ℤ} {A : LiMArray}
    {F : FiniteStateMachine}, ops operation → P b.MemArray b.FSMLim →
    Mapping b operation specifications src1 src2 dest w row other base t A F → P A F

namespace BinderInvariant

variable {times : ℤ → Prop} {ops : Operation → Prop} {P : LiMArray → FiniteStateMachine → Prop}
  (hP : BinderInvariant times ops P)
include hP

/-- The pairs of an accumulation keep it. -/
theorem pairs {pairs : List (Name × Name)} (hb : b.WellFormed) (hr : Regular b.MemArray b.FSMLim)
    (hop : operation ≠ .load) (hops : ops operation) (hstart : P b.MemArray b.FSMLim)
    (h : run (LiMBinder.pairStep operation specifications) b pairs = some b') :
    P b'.MemArray b'.FSMLim := by
  refine (run_invariant (P := fun b => b.WellFormed ∧ Regular b.MemArray b.FSMLim ∧
    P b.MemArray b.FSMLim) (Q := fun _ => True) ⟨hb, hr, hstart⟩ ?_ (fun _ _ => trivial) h).2.2
  rintro b₁ pair b₂ - ⟨hb₁, hr₁, h₁⟩ hstep
  obtain ⟨⟨b₂, tmpName⟩, hpair, rfl⟩ := Option.map_eq_some_iff.mp hstep
  obtain ⟨w, row, other, base, t, hm⟩ := mapping_bindPair hb₁ hr₁ hop hpair
  exact ⟨(LiMBinder.wellFormed_bindPair hb₁ hop hpair).1, LiMBinder.regular_bindPair hb₁ hr₁ hop hpair,
    hP.map hops h₁ hm⟩

/-- A step keeps it. -/
theorem bindStep {s s' : BinderState} {a : BindingAction} (hs : s.WellFormed)
    (hr : Regular s.binder.MemArray s.binder.FSMLim) (hstart : P s.binder.MemArray s.binder.FSMLim)
    (hshift : a.noShift) (hallowed : a.allowed times ops) (h : bindStep s a = some s') :
    P s'.binder.MemArray s'.binder.FSMLim := by
  cases a with
  | load destReg ti =>
    obtain ⟨hb, rfl⟩ := bindStep_load hs h
    exact hP.load _ destReg ti hallowed hb hr hstart
  | enter constants =>
    obtain ⟨-, h⟩ := Option.ite_none_right_eq_some.mp h
    cases h
    exact hstart
  | element operation specifications destReg src1 src2 junk =>
    obtain ⟨dest, -, ⟨-, hA, hF⟩ | ⟨-, w, row, other, base, t, hm⟩⟩ := mapping_element hs hr hshift h
    · rw [hA, hF]
      exact hstart
    · exact hP.map (b := s.binder.addNewItem destReg dest) hallowed hstart hm
  | leave =>
    obtain ⟨-, h⟩ := Option.ite_none_right_eq_some.mp h
    cases h
    exact hstart
  | accumulate operation specifications destReg accumulationList =>
    obtain ⟨hop, hb, b', hb', rfl⟩ := bindStep_accumulate hs h
    obtain ⟨pairs, b₁, row, hrun, -, rfl⟩ := LiMBinder.performAccBinding_run hb hop hb'
    have h₁ := hP.pairs hb hr hop hallowed hstart hrun
    exact h₁

/-- **The run rule**: what the loads and the mappings keep holds of every state reached without
shifts. -/
theorem of_reaches {par : ℤ} {optTarget : String} {actions : List BindingAction} {s : BinderState}
    (hshift : ∀ a ∈ actions, a.noShift) (hallowed : ∀ a ∈ actions, a.allowed times ops)
    (h : Reaches par optTarget actions s) : P s.binder.MemArray s.binder.FSMLim := by
  refine (run_invariant (P := fun s => s.WellFormed ∧ Regular s.binder.MemArray s.binder.FSMLim ∧
    P s.binder.MemArray s.binder.FSMLim) (Q := fun a => a.noShift ∧ a.allowed times ops)
    ⟨BinderState.wellFormed_init par optTarget, ?_, hP.empty⟩ ?_
    (fun a ha => ⟨hshift a ha, hallowed a ha⟩) h).2.2
  · exact regular_of_reaches (by simp) (show Reaches par optTarget [] _ from rfl)
  · rintro s a s' ⟨ha, hallowed⟩ ⟨hs, hr, hstart⟩ hstep
    exact ⟨(wellFormed_bindStep hs hstep).1, regular_bindStep hs hr ha hstep,
      hP.bindStep hs hr hstart ha hallowed hstep⟩

end BinderInvariant

end Octantis
