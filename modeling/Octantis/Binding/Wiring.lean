import Octantis.Binding.Times

/-!
# The wiring of the rows

What the code generators read of a row besides the shape of its connections: the types of
the connections, the rows that read its logic, and whether it has a shift for its logic.

## What is proved

* `wired_invariant`: the logic inputs are cells, a cell without memory input is loaded at
  time 0, any other is written after its memory input, and every row with logic feeds a
  result row written later.
* `rowTypes_invariant`: the types of the rows are those of the operations bound.
* `BinderInvariant.hasShift_or_of_reaches`: in every state reached, shifts included, some
  row is a shift, or what holds of the runs without shifts holds.
-/

namespace Octantis

open Std Lib

variable {b b' : LiMBinder} {operation : Operation} {specifications : List String}
  {src1 src2 dest row other : Name} {w : Way} {base : LiMRow} {t : ℤ} {A : LiMArray}
  {F : FiniteStateMachine}

/-- The types of the connections, and what feeds the result rows. -/
structure Wired (A : LiMArray) (F : FiniteStateMachine) : Prop where
  nonneg : ∀ n t, F.getTime n = some t → 0 ≤ t
  cells : ∀ n row, A.findRow n = some row → ∀ c ∈ row.inputConnectionsType.tail, c = .OC
  loaded : ∀ n row, A.findRow n = some row → row.inputConnectionsType.head? = some .none →
    F.getTime n = some 0
  heads : ∀ n row m, A.findRow n = some row → row.inputConnectionsType.head? ≠ some .none →
    row.inputConnections.head? = some m → ∃ tm t, F.getTime m = some tm ∧ F.getTime n = some t ∧ tm < t
  feeds : ∀ n row, A.findRow n = some row → row.rowType ≠ .load →
    ∃ d drow t, A.findRow d = some drow ∧ drow.inputConnections.head? = some n ∧
      drow.inputConnectionsType.head? = some .OLiM ∧ F.getTime d = some t ∧ 0 < t

/-- A connection to a cell. -/
theorem LiMRow.cells_connect {old : LiMRow} {src : Name} (h : ∀ c ∈ old.inputConnectionsType.tail, c = .OC) :
    ∀ c ∈ (old.connect src .OC).inputConnectionsType.tail, c = .OC := by
  unfold connect
  split
  · intro c hc
    cases htypes : old.inputConnectionsType with
    | nil => simp [htypes] at hc
    | cons c₀ cs =>
      simp only [htypes, List.cons_append, List.tail_cons, List.mem_append, List.mem_singleton] at h hc
      exact hc.elim (h c) id
  · exact h

theorem LiMRow.head?_types_of_connect {old : LiMRow} {src : Name}
    (h : (old.connect src .OC).inputConnectionsType.head? = some .none) :
    old.inputConnectionsType.head? = some .none := by
  unfold connect at h
  split at h
  · cases htypes : old.inputConnectionsType with
    | nil => simp [htypes] at h
    | cons c cs => simpa [htypes] using h
  · exact h

namespace Mapping

variable (h : Mapping b operation specifications src1 src2 dest w row other base t A F)
include h

/-- The row with the logic, before it was connected. -/
theorem base_of_copy (hw : w = .copy) : base = ⟨operation, b.par, [src1], [.OC], specifications⟩ := by
  subst hw
  cases h.realizes.site
  rfl

/-- The row with the logic, if it was there, with the memory input it had. -/
theorem base_of_found (hw : w ≠ .copy) : ∃ old, b.MemArray.findRow row = some old ∧
    base.inputConnections = old.inputConnections ∧ base.inputConnectionsType = old.inputConnectionsType := by
  cases h.realizes.site with
  | convert _ found => exact ⟨_, found, rfl, rfl⟩
  | mux _ found => exact ⟨_, found, rfl, rfl⟩
  | copy => exact absurd rfl hw

theorem wired (hb : Wired b.MemArray b.FSMLim) : Wired A F := by
  have hr := h.realizes
  obtain ⟨t1, t2, h1, h2, hlt1, hlt2, -⟩ := LiMBinder.nextTime_eq_some hr.time
  have hpos : 0 < t := Int.lt_of_le_of_lt (hb.nonneg _ _ h1) hlt1
  refine ⟨fun n tn hn => ?_, fun n new hn => ?_, fun n new hn hnone => ?_, fun n new m hn htype hm => ?_,
    fun n new hn hlogic => ?_⟩
  · rw [hr.getTime h.regular] at hn
    split at hn
    · rw [Option.some.injEq] at hn
      split at hn <;> omega
    split at hn
    · rw [Option.some.injEq] at hn
      omega
    · exact hb.nonneg n tn hn
  · rw [hr.rows] at hn
    split at hn
    · cases hn
      simp [resultRow]
    split at hn
    · cases hn
      refine LiMRow.cells_connect fun c hc => ?_
      by_cases hw : w = .copy
      · rw [h.base_of_copy hw] at hc
        simp at hc
      · obtain ⟨old, hold, -, htypes⟩ := h.base_of_found hw
        exact hb.cells row old hold c (htypes ▸ hc)
    · exact hb.cells n new hn
  · rw [hr.rows] at hn
    split at hn
    · cases hn
      simp [resultRow] at hnone
    split at hn
    · next hrow =>
      cases hn
      have hnone := LiMRow.head?_types_of_connect hnone
      by_cases hw : w = .copy
      · rw [h.base_of_copy hw] at hnone
        simp at hnone
      · obtain ⟨old, hold, -, htypes⟩ := h.base_of_found hw
        exact hrow ▸ hr.getTime_of_some (hb.loaded row old hold (htypes ▸ hnone))
    · exact hr.getTime_of_some (hb.loaded n new hn hnone)
  · rw [hr.rows] at hn
    split at hn
    · next hdest =>
      cases hn
      cases hm
      obtain ⟨tr, htr, hlt⟩ := hr.getTime_row h.regular
      refine ⟨tr, _, htr, hdest ▸ hr.getTime_dest h.regular, ?_⟩
      cases w <;> simp at hlt ⊢ <;> omega
    split at hn
    · next hrow =>
      cases hn
      subst hrow
      by_cases hw : w = .copy
      · obtain ⟨tr, htr, hlt⟩ := hr.getTime_row h.regular
        rw [if_pos hw] at hlt
        rw [LiMRow.connect_of_length_one (by rw [h.base_of_copy hw]; rfl), h.base_of_copy hw] at hm
        cases hm
        exact ⟨t1, tr, hr.getTime_of_some h1, htr, by omega⟩
      · obtain ⟨old, hold, hconn, htypes⟩ := h.base_of_found hw
        obtain ⟨m', hm'⟩ := h.regular.exists_head h.loads hold
        have heq := (LiMRow.Extends.connect base other .OC (h.realizes.site.rowType ▸ h.ne_load)).head?
          (hconn ▸ hm')
        rw [hm, Option.some.injEq] at heq
        subst heq
        have htype' : old.inputConnectionsType.head? ≠ some .none := by
          intro hnone
          exact htype ((LiMRow.Extends.connect base other .OC
            (h.realizes.site.rowType ▸ h.ne_load)).head?_types (htypes ▸ hnone))
        obtain ⟨tm, tn, htm, htn, hlt⟩ := hb.heads _ old m hold htype' hm'
        exact ⟨tm, tn, hr.getTime_of_some htm, hr.getTime_of_some htn, hlt⟩
    · obtain ⟨tm, tn, htm, htn, hlt⟩ := hb.heads n new m hn htype hm
      exact ⟨tm, tn, hr.getTime_of_some htm, hr.getTime_of_some htn, hlt⟩
  · rw [hr.rows] at hn
    split at hn
    · cases hn
      exact absurd rfl hlogic
    split at hn
    · next hrow =>
      refine ⟨dest, _, _, hr.findRow_dest, by rw [hrow]; rfl, rfl, hr.getTime_dest h.regular, ?_⟩
      split <;> omega
    · obtain ⟨d, drow, td, hd, hhead, htype, htd, htpos⟩ := hb.feeds n new hn hlogic
      obtain ⟨drow', hd', hext⟩ := hr.rows_extend h.ne_load d drow hd
      exact ⟨d, drow', td, hd', hext.head? hhead, hext.head?_types htype, hr.getTime_of_some htd, htpos⟩

end Mapping

/-- **The wiring is kept** by the loads at time 0 and by the mappings. -/
theorem wired_invariant : BinderInvariant (· = 0) (fun _ => True) Wired where
  empty := ⟨by simp, by simp, by simp, by simp, by simp⟩
  load b destReg ti hti hb hr h := by
    subst hti
    have hrows := LiMBinder.findRow_bindLoad hb.named destReg 0
    have htimes := LiMBinder.getTime_bindLoad hb hr destReg 0
    have hext := (LiMBinder.wellFormed_bindLoad hb destReg 0).2
    refine ⟨fun n t hn => ?_, fun n row hn => ?_, fun n row hn hnone => ?_, fun n row m hn htype hm => ?_,
      fun n row hn hlogic => ?_⟩
    · rw [htimes] at hn
      split at hn
      · rw [Option.some.injEq] at hn
        omega
      · exact h.nonneg n t hn
    · rw [hrows] at hn
      split at hn
      · cases hn
        simp
      · exact h.cells n row hn
    · rw [hrows] at hn
      rw [htimes]
      split at hn
      · next hz => rw [if_pos hz]
      · next hz => rw [if_neg hz, h.loaded n row hn hnone]
    · rw [hrows] at hn
      split at hn
      · cases hn
        exact absurd rfl htype
      · obtain ⟨tm, tn, htm, htn, hlt⟩ := h.heads n row m hn htype hm
        exact ⟨tm, tn, hext.times m tm htm, hext.times n tn htn, hlt⟩
    · rw [hrows] at hn
      split at hn
      · cases hn
        exact absurd rfl hlogic
      · obtain ⟨d, drow, t, hd, hhead, htype, ht, hpos⟩ := h.feeds n row hn hlogic
        obtain ⟨drow', hd', hrow⟩ := hext.rows d drow hd
        exact ⟨d, drow', t, hd', hrow.head? hhead, hrow.head?_types htype, hext.times d t ht, hpos⟩
  map _ hb h := h.wired hb

/-- **The types of the rows** are those of the operations bound. -/
theorem rowTypes_invariant (ops : Operation → Prop) : BinderInvariant (fun _ => True) ops
    fun A _ => ∀ n row, A.findRow n = some row → row.rowType = .load ∨ ops row.rowType where
  empty := by simp
  load b destReg ti _ hb hr h := by
    intro n row hn
    rw [LiMBinder.findRow_bindLoad hb.named] at hn
    split at hn
    · cases hn
      exact .inl rfl
    · exact h n row hn
  map hops hb h := by
    intro n row hn
    rw [h.realizes.rows] at hn
    split at hn
    · cases hn
      exact .inl rfl
    split at hn
    · cases hn
      rw [LiMRow.connect_rowType, h.realizes.site.rowType]
      exact .inr hops
    · exact hb n row hn

/-! ### Shifts -/

/-- Some row has a shift for its logic. -/
def LiMArray.HasShift (A : LiMArray) : Prop := ∃ n row, A.findRow n = some row ∧ row.rowType.isShift

theorem Operation.ne_load_of_isShift {op : Operation} (h : op.isShift = true) : op ≠ .load := by
  rintro rfl
  cases h

/-- A shift stays. -/
theorem LiMBinder.Extends.hasShift (he : b.Extends b') (h : b.MemArray.HasShift) : b'.MemArray.HasShift := by
  obtain ⟨n, row, hrow, hshift⟩ := h
  obtain ⟨row', hrow', hext⟩ := he.rows n row hrow
  exact ⟨n, row', hrow', by rw [hext.type (Operation.ne_load_of_isShift hshift), hshift]⟩

theorem Realizes.hasShift (h : Realizes b operation specifications src1 src2 dest w row other base t A F)
    (hop : operation.isShift = true) : A.HasShift :=
  ⟨row, _, h.findRow_row, by rw [LiMRow.connect_rowType, h.site.rowType, hop]⟩

theorem ShiftEffect.hasShift (h : ShiftEffect b operation specifications src1 src2 dest b')
    (hne : src1 ≠ dest) (hop : operation.isShift = true) : b'.MemArray.HasShift := by
  cases h with
  | convert logic found load rows =>
    exact ⟨src1, _, by rw [rows, if_neg hne, if_pos rfl], hop⟩
  | copy logic rows => exact ⟨b.zeroAddr, _, by rw [rows, if_pos rfl], hop⟩

/-- A step of a shift leaves the array and the times as they are, or leaves a shift in the array. -/
theorem hasShift_or_bindStep {s s' : BinderState} {a : BindingAction} (hs : s.WellFormed)
    (ha : ¬ a.noShift) (h : bindStep s a = some s') :
    s'.binder.MemArray.HasShift ∨
      s'.binder.MemArray = s.binder.MemArray ∧ s'.binder.FSMLim = s.binder.FSMLim := by
  cases a with
  | load | enter | leave => exact absurd trivial ha
  | element operation specifications destReg src1 src2 junk =>
    have hop : operation.isShift = true := by simpa [BindingAction.noShift] using ha
    obtain ⟨-, dest, b', htmp, hn, hle, -, hb', rfl⟩ := bindStep_element hs h
    have fresh : s.binder.MemArray.findRow dest = none := hn.fresh (Nat.le_refl _)
    rcases LiMBinder.performBinding_cases hb' with
      ⟨d, -, -, rfl⟩ | ⟨d, op, -, -, -, rfl⟩ | ⟨-, -, hshift⟩ | ⟨-, hs, -⟩
    · rw [LiMBinder.addNewItemInRefPos_eq]
      exact .inr ⟨rfl, rfl⟩
    · exact .inr ⟨rfl, rfl⟩
    · have heffect := LiMBinder.mapShift_cases (b := s.binder.addNewItem destReg dest) hs.loads fresh
        (hn.fresh (show dest ≤ s.binder.zeroAddr by lia)) hshift
      have hne : src1 ≠ dest := by
        rintro rfl
        obtain ⟨isLoad, hload, -⟩ := Option.bind_eq_some_iff.mp hshift
        obtain ⟨row, hrow, -⟩ := Option.bind_eq_some_iff.mp hload
        have hrow : s.binder.MemArray.findRow src1 = some row := hrow
        rw [fresh] at hrow
        cases hrow
      exact .inl (heffect.hasShift hne hop)
    · rw [hop] at hs
      cases hs
  | accumulate operation specifications destReg accumulationList =>
    have hop : operation.isShift = true := by simpa [BindingAction.noShift] using ha
    obtain ⟨hload, hb, b', hb', rfl⟩ := bindStep_accumulate hs h
    obtain ⟨pairs, b₁, row, hrun, -, rfl⟩ := LiMBinder.performAccBinding_run hb hload hb'
    show b₁.MemArray.HasShift ∨ b₁.MemArray = s.binder.MemArray ∧ b₁.FSMLim = s.binder.FSMLim
    refine (run_invariant (P := fun b => b.WellFormed ∧
      (b.MemArray.HasShift ∨ b.MemArray = s.binder.MemArray ∧ b.FSMLim = s.binder.FSMLim))
      (Q := fun _ => True) ⟨hb, .inr ⟨rfl, rfl⟩⟩ ?_ (fun _ _ => trivial) hrun).2
    rintro b₁ pair b₂ - ⟨hb₁, -⟩ hstep
    obtain ⟨⟨b₂, tmpName⟩, hpair, rfl⟩ := Option.map_eq_some_iff.mp hstep
    obtain ⟨w, row, other, base, t, -, -, hreal, -⟩ :=
      LiMBinder.bindPair_realizes hb₁.freshZero hb₁.freshNext hpair
    exact ⟨(LiMBinder.wellFormed_bindPair hb₁ hload hpair).1, .inl (hreal.hasShift hop)⟩

/-- **The rule for every run**: some row is a shift, or what the loads and the mappings keep
holds. -/
theorem BinderInvariant.hasShift_or_of_reaches {times : ℤ → Prop} {P : LiMArray → FiniteStateMachine → Prop}
    (hP : BinderInvariant times (fun _ => True) P) {par : ℤ} {optTarget : String}
    {actions : List BindingAction} {s : BinderState}
    (hallowed : ∀ a ∈ actions, a.allowed times fun _ => True) (h : Reaches par optTarget actions s) :
    s.binder.MemArray.HasShift ∨
      Regular s.binder.MemArray s.binder.FSMLim ∧ P s.binder.MemArray s.binder.FSMLim := by
  refine (run_invariant (P := fun s => s.WellFormed ∧ (s.binder.MemArray.HasShift ∨
    Regular s.binder.MemArray s.binder.FSMLim ∧ P s.binder.MemArray s.binder.FSMLim))
    ⟨BinderState.wellFormed_init par optTarget, .inr ⟨?_, hP.empty⟩⟩ ?_ hallowed h).2
  · exact regular_of_reaches (by simp) (show Reaches par optTarget [] _ from rfl)
  · rintro s a s' ha ⟨hs, hstate⟩ hstep
    obtain ⟨hs', hext⟩ := wellFormed_bindStep hs hstep
    refine ⟨hs', ?_⟩
    rcases hstate with hshift | ⟨hr, hstate⟩
    · exact .inl (hext.hasShift hshift)
    by_cases hno : a.noShift
    · exact .inr ⟨regular_bindStep hs hr hno hstep, hP.bindStep hs hr hstate hno ha hstep⟩
    · rcases hasShift_or_bindStep hs hno hstep with hshift | ⟨hA, hF⟩
      · exact .inl hshift
      · rw [hA, hF]
        exact .inr ⟨hr, hstate⟩

end Octantis
