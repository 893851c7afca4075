import Octantis.Analysis.Assignments

/-!
# The operands of assignments

Which expressions the detector records with their operands in order. It keeps two
source slots and the last result: the loads of an assignment fill the slots in turn,
an operator empties them, and the last result goes to the first slot that is free.

## The model

`recordedSources` says what the slots hold when an operator is inserted. `Recorded`
is what they should hold: for each operand the result of the operator under it, the
constant, or what last supplied the variable.

## What is proved

* `sources_eq`: what an operator takes at the start of an assignment;
* `recorded_iff_inOrder`, `recorded_iff_inReverse`: the expressions whose operands are recorded;
* `operands_recorded_iff`: the operands of a program are recorded exactly when its expressions
  have one of the shapes and no operator reads a variable that was last copied or set to a constant.

## Honest scope

`a + b - c` is not one of the shapes: it is recorded as `c - (a + b)` (`sumMinus_exchanged`).
-/

namespace Octantis

open Std Lib

namespace Expr

/-- The key or constant that supplies an operand, when `supply` gives those of the variables. -/
def key (supply : Reg → Reg) : Expr → Reg
  | const address _ => address
  | var allocated _ => supply allocated
  | op result _ _ _ => result

/-- Every operator has an entry with its operation, whose sources supply its operands. -/
def Recorded (T : InstructionTable) (supply : Reg → Reg) : Expr → Prop
  | op result opcode l r => l.Recorded T supply ∧ r.Recorded T supply ∧
      T.recorded result = some (opcode.operation, l.key supply, r.key supply)
  | _ => True

/-- An expression whose operators take their operands in order: the second operand is a variable,
and the first one loads one variable, or it is a constant, and the first one is no operator. -/
def inOrder : Expr → Bool
  | op _ _ l (var _ _) => l.inOrder && l.loads = 1
  | op _ _ l (const _ _) => l.isLeaf
  | op _ _ _ (op _ _ _ _) => false
  | _ => true

/-- An expression whose last operator takes its operands in the reverse order, and reads `dest`
last. -/
def inReverse (dest : Reg) : Expr → Bool
  | op _ _ l (var allocated _) => allocated = dest && l.inOrder && l.loads = 2
  | _ => false

/-- The sources that the detector records for an operator. After an operator the slots are free, and
the loads fill them alternately. -/
def recordedSources (real : Reg → Reg) (l r : Expr) : Reg × Reg :=
  match r with
  | op r' _ _ _ => (r', nullptr)
  | const c _ =>
    match l with
    | op l' _ _ _ => (l', nullptr)
    | var x _ => (real x, c)
    | const c' _ => (c', c)
  | var y _ =>
    match l with
    | op l' _ _ _ => if l.loads % 2 = 0 then (real y, l') else (l', real y)
    | var x _ => (real x, real y)
    | const c' _ => (c', nullptr)

theorem loads_le_of_inOrder {e : Expr} (h : e.inOrder = true) : e.loads ≤ 2 := by
  cases e with
  | const | var => simp [loads]
  | op result opcode l r =>
    cases r with
    | const =>
      cases l with
      | op => cases h
      | const | var => simp [loads]
    | var =>
      simp only [inOrder, Bool.and_eq_true, decide_eq_true_eq] at h
      simp [loads, h.2]
    | op => cases h

theorem loads_of_inReverse {e : Expr} {dest : Reg} (h : e.inReverse dest = true) :
    e.loads = 3 ∧ e.lastVariable = some dest := by
  cases e with
  | const | var => cases h
  | op result opcode l r =>
    cases r with
    | const | op => cases h
    | var allocated result' =>
      simp only [inReverse, Bool.and_eq_true, decide_eq_true_eq] at h
      obtain ⟨⟨rfl, -⟩, hl⟩ := h
      exact ⟨by rw [loads, hl]; rfl, rfl⟩

theorem loads_of_lastVariable {e : Expr} (h : e.lastVariable = none) : e.loads = 0 := by
  induction e with
  | const => rfl
  | var => cases h
  | op result opcode l r ihl ihr =>
    rw [lastVariable, Option.or_eq_none_iff] at h
    rw [loads, ihl h.2, ihr h.1]

end Expr

/-- The shapes whose operands are recorded in order: also the reverse one, where the store of an
accumulation in the body of a loop exchanges the sources. -/
def Statement.handled (info : CollectInfo) (BB : Reg) (st : Statement) : Bool :=
  st.value.inOrder || info.isLoopBody BB && st.value.inReverse st.dest

/-- The addresses that an expression is made of are distinct from `nullptr`, and its variables are
supplied by an address that is not one of its results. -/
structure Expr.Addressed (real supply : Reg → Reg) (e : Expr) : Prop where
  nodup : e.results.Nodup
  results : ∀ k ∈ e.results, k ≠ nullptr ∧ k ∉ e.vars
  constants : ∀ c ∈ e.constants, c.1 ≠ nullptr
  real : ∀ v ∈ e.vars, real v ≠ nullptr ∧ real v ∉ e.results
  supply : ∀ v ∈ e.vars, supply v ≠ nullptr

namespace Expr.Addressed

variable {real supply : Reg → Reg} {result : Reg} {opcode : Opcode} {l r : Expr}

theorem operands (h : (Expr.op result opcode l r).Addressed real supply) :
    l.Addressed real supply ∧ r.Addressed real supply := by
  obtain ⟨hnodup, hres, hconst, hreal, hsup⟩ := h
  simp only [Expr.results, List.nodup_append] at hnodup
  simp only [Expr.results, Expr.vars, List.mem_append, not_or] at hres hreal
  constructor
  · exact ⟨hnodup.1.1, fun k hk => ⟨(hres k (.inl (.inl hk))).1, (hres k (.inl (.inl hk))).2.1⟩,
      fun c hc => hconst c (by simp [Expr.constants, hc]),
      fun v hv => ⟨(hreal v (.inl hv)).1, (hreal v (.inl hv)).2.1.1⟩,
      fun v hv => hsup v (by simp [Expr.vars, hv])⟩
  · exact ⟨hnodup.1.2.1, fun k hk => ⟨(hres k (.inl (.inr hk))).1, (hres k (.inl (.inr hk))).2.2⟩,
      fun c hc => hconst c (by simp [Expr.constants, hc]),
      fun v hv => ⟨(hreal v (.inr hv)).1, (hreal v (.inr hv)).2.1.2⟩,
      fun v hv => hsup v (by simp [Expr.vars, hv])⟩

/-- The result of an operator is none of those of its operands, and no variable. -/
theorem result_not_mem (h : (Expr.op result opcode l r).Addressed real supply) :
    (result ∉ l.vars ∧ result ∉ l.results) ∧ result ∉ r.vars ∧ result ∉ r.results := by
  have hres := (h.results result (by simp [Expr.results])).2
  simp only [Expr.vars, List.mem_append, not_or] at hres
  have hnodup := h.nodup
  simp only [Expr.results, List.nodup_append] at hnodup
  have hnot := hnodup.2.2
  exact ⟨⟨hres.1, fun hmem => hnot result (List.mem_append_left _ hmem) result (by simp) rfl⟩,
    hres.2, fun hmem => hnot result (List.mem_append_right _ hmem) result (by simp) rfl⟩

theorem key_ne (h : l.Addressed real supply) : l.key supply ≠ nullptr := by
  cases l with
  | const address value => exact h.constants (address, value) (by simp [Expr.constants])
  | var allocated result => exact h.supply allocated (by simp [Expr.vars])
  | op result opcode l r => exact (h.results result (by simp [Expr.results])).1

end Expr.Addressed

namespace DependencyDetector

variable {info : CollectInfo} {s s₁ s₂ s' : DependencyDetector} {BB result : Reg} {opcode : Opcode}
  {l r e : Expr} {supply : Reg → Reg}

/-- After an operator the slots are free. -/
theorem slots_of_run_op (he : (Expr.op result opcode l r).IsScalar info)
    (hm : (Expr.op result opcode l r).NoMinusOne) (hs : s.Clean)
    (h : run (step info) s (exprCode BB (.op result opcode l r)) = some s') :
    s'.destReg = result ∧ s'.srcReg1 = nullptr ∧ s'.srcReg2 = nullptr := by
  obtain ⟨s₁, h₁, hl⟩ := exists_run_exprCode BB he.operands.1 hm.operands.1 hs
  obtain ⟨s₂, h₂, hr⟩ := exists_run_exprCode BB he.operands.2 hm.operands.2 hl.clean
  obtain ⟨d, n, hd, -, hrun⟩ := run_op he hm h₁ h₂ hr.clean
  rw [h, Option.some.injEq] at hrun
  subst hrun
  exact ⟨hd.destinationReg, rfl, rfl⟩

theorem run_var {allocated : Reg} (hv : (Expr.var allocated result).IsScalar info) :
    run (step info) s (exprCode BB (.var allocated result)) = some (s.loaded allocated) := by
  show (step info s (BB, .load result allocated)).bind some = _
  rw [step_load (hv.vars allocated (by simp [Expr.vars]))]
  rfl

/-- **The sources that an operator takes** at the start of an assignment. -/
theorem sources_eq (hs : s.Ready) (he : (Expr.op result opcode l r).IsScalar info)
    (hm : (Expr.op result opcode l r).NoMinusOne)
    (ha : (Expr.op result opcode l r).Addressed s.getRealSrcReg supply)
    (hl : run (step info) s (exprCode BB l) = some s₁) (hr : run (step info) s₁ (exprCode BB r) = some s₂) :
    s₂.sources l.operand r.operand = Expr.recordedSources s.getRealSrcReg l r := by
  obtain ⟨s₁', hl', hev⟩ := exists_run_exprCode BB he.operands.1 hm.operands.1 hs.toClean
  rw [hl, Option.some.injEq] at hl'
  subst hl'
  cases r with
  | op r' opcode' l'' r'' =>
    obtain ⟨hd, h1, h2⟩ := slots_of_run_op he.operands.2 hm.operands.2 hev.clean hr
    rw [sources, if_pos (.inr hd.symm), if_pos h1, hd, h2]
    rfl
  | const c value =>
    obtain rfl : s₁ = s₂ := Option.some.inj hr
    have hc : c ≠ nullptr := ha.operands.2.constants (c, value) (by simp [Expr.constants])
    cases l with
    | op l' opcode' l'' r'' =>
      obtain ⟨hd, h1, h2⟩ := slots_of_run_op he.operands.1 hm.operands.1 hs.toClean hl
      rw [sources, if_pos (.inl hd.symm), if_pos h1, hd, h2]
      rfl
    | var x rx =>
      rw [run_var he.operands.1, Option.some.injEq] at hl
      subst hl
      have hrx : rx ≠ nullptr := (ha.operands.1.results rx (by simp [Expr.results])).1
      rw [sources, if_neg]
      · simp [slot, Expr.operand, loaded, hs.noLoads, Expr.recordedSources]
      · show ¬ (rx = s.destReg ∨ c = s.destReg)
        rw [hs.destReg]
        exact not_or.mpr ⟨hrx, hc⟩
    | const c' value' =>
      obtain rfl : s = s₁ := Option.some.inj hl
      have hc' : c' ≠ nullptr := ha.operands.1.constants (c', value') (by simp [Expr.constants])
      rw [sources, if_neg]
      · rfl
      · rw [hs.destReg]
        exact not_or.mpr ⟨hc', hc⟩
  | var y ry =>
    rw [run_var he.operands.2, Option.some.injEq] at hr
    subst hr
    have hry : ry ≠ nullptr := (ha.operands.2.results ry (by simp [Expr.results])).1
    have hreal : s₁.getRealSrcReg y = s.getRealSrcReg y := by rw [getRealSrcReg, hev.lastUsedRegMap]; rfl
    have hy : s.getRealSrcReg y ≠ nullptr := (ha.operands.2.real y (by simp [Expr.vars])).1
    cases l with
    | op l' opcode' l'' r'' =>
      obtain ⟨hd, h1, h2⟩ := slots_of_run_op he.operands.1 hm.operands.1 hs.toClean hl
      have hcount : s₁.loadCount = (Expr.op l' opcode' l'' r'').loads := by
        rw [hev.loadCount, hs.noLoads, Nat.zero_add]
      rw [sources, if_pos (.inl hd.symm)]
      by_cases heven : (Expr.op l' opcode' l'' r'').loads % 2 = 0
      · simp [loaded, hcount, hreal, h2, hd, heven, hy, Expr.recordedSources]
      · simp [loaded, hcount, hreal, h1, hd, heven, Expr.recordedSources]
    | var x rx =>
      rw [run_var he.operands.1, Option.some.injEq] at hl
      subst hl
      have hrx : rx ≠ nullptr := (ha.operands.1.results rx (by simp [Expr.results])).1
      rw [sources, if_neg]
      · simp only [slot, Expr.operand, Expr.recordedSources, ← hreal]
        simp [loaded, hs.noLoads]
      · show ¬ (rx = s.destReg ∨ ry = s.destReg)
        rw [hs.destReg]
        exact not_or.mpr ⟨hrx, hry⟩
    | const c' value' =>
      obtain rfl : s = s₁ := Option.some.inj hl
      have hc' : c' ≠ nullptr := ha.operands.1.constants (c', value') (by simp [Expr.constants])
      rw [sources, if_neg]
      · simp [slot, Expr.operand, loaded, hs.noLoads, hs.srcReg2, Expr.recordedSources]
      · show ¬ (c' = s.destReg ∨ ry = s.destReg)
        rw [hs.destReg]
        exact not_or.mpr ⟨hc', hry⟩

/-- What the code of an operator leaves at the start of an assignment. -/
structure Rooted (info : CollectInfo) (BB : Reg) (real : Reg → Reg) (result : Reg) (opcode : Opcode) (l r : Expr)
    (s' : DependencyDetector) (d : InstructionData) : Prop where
  destReg : s'.destReg = result
  operation : s'.operation = opcode.operation
  find : s'.IM.find result = some d
  isInLoopBody : d.isInLoopBody = info.isLoopBody BB
  recorded : s'.IM.recorded result = some (opcode.operation, Expr.recordedSources real l r)

theorem rooted_of_run_op (hs : s.Ready) (he : (Expr.op result opcode l r).IsScalar info)
    (hm : (Expr.op result opcode l r).NoMinusOne)
    (ha : (Expr.op result opcode l r).Addressed s.getRealSrcReg supply) (hfresh : s.IM.find result = none)
    (h : run (step info) s (exprCode BB (.op result opcode l r)) = some s') :
    ∃ d, Rooted info BB s.getRealSrcReg result opcode l r s' d := by
  obtain ⟨s₁, h₁, hl⟩ := exists_run_exprCode BB he.operands.1 hm.operands.1 hs.toClean
  obtain ⟨s₂, h₂, hr⟩ := exists_run_exprCode BB he.operands.2 hm.operands.2 hl.clean
  obtain ⟨d, n, hd, -, hrun⟩ := run_op he hm h₁ h₂ hr.clean
  rw [h, Option.some.injEq] at hrun
  subst hrun
  obtain ⟨⟨hlv, hlr⟩, hrv, hrr⟩ := ha.result_not_mem
  have hnone : s₂.IM.find result = none := by
    rw [hr.find_of_not_mem result hrv hrr, hl.find_of_not_mem result hlv hlr, hfresh]
  have hfind : (s₂.inserted d n).IM.find result = some d := by
    show (s₂.IM.insertInstruction d).find result = _
    rw [InstructionTable.find_insertInstruction, if_pos ⟨hd.destinationReg.symm, hnone⟩]
  refine ⟨d, hd.destinationReg, hd.operation, hfind, hd.isInLoopBody, ?_⟩
  rw [InstructionTable.recorded, hfind, ← sources_eq hs he hm ha h₁ h₂, ← hd.sources, ← hd.operation]
  rfl

/-- The entries that a table has of another one. -/
def Extends (T T' : InstructionTable) (regs : List Reg) : Prop :=
  ∀ k ∈ regs, ∀ p, T.recorded k = some p → T'.recorded k = some p

/-- The entries of the first operand are still there after the operator. -/
theorem extends_left {T : InstructionTable} (he : (Expr.op result opcode l r).IsScalar info)
    (hm : (Expr.op result opcode l r).NoMinusOne) (hs : s.Clean)
    (hl : run (step info) s (exprCode BB l) = some s₁)
    (h : run (step info) s (exprCode BB (.op result opcode l r)) = some s')
    (hT : Extends s'.IM T l.results) : Extends s₁.IM T l.results := by
  obtain ⟨s₁', hl', hev⟩ := exists_run_exprCode BB he.operands.1 hm.operands.1 hs
  rw [hl, Option.some.injEq] at hl'
  subst hl'
  obtain ⟨s₂, h₂, hr⟩ := exists_run_exprCode BB he.operands.2 hm.operands.2 hev.clean
  obtain ⟨d, n, hd, hn, hrun⟩ := run_op he hm hl h₂ hr.clean
  rw [h, Option.some.injEq] at hrun
  subst hrun
  have hall : Evaluates (.op result opcode (.const 0 0) r) s₁ (s₂.inserted d n) :=
    (Evaluates.const hev.clean 0 0).op hr hd.destinationReg hn
  exact fun k hk p hp => hT k hk p (hall.recorded_of_some hp)

/-- **The operands of an expression are recorded exactly when its operators take them in order** and
its variables are supplied by the registers that the detector takes for them. -/
theorem recorded_iff_inOrder {T : InstructionTable} (hs : s.Ready) (he : e.IsScalar info) (hm : e.NoMinusOne)
    (ha : e.Addressed s.getRealSrcReg supply) (hfresh : ∀ k ∈ e.results, s.IM.find k = none)
    (h : run (step info) s (exprCode BB e) = some s') (hT : Extends s'.IM T e.results) :
    e.Recorded T supply ↔
      e.inOrder = true ∧ (e.isLeaf = false → ∀ v ∈ e.vars, s.getRealSrcReg v = supply v) := by
  induction e generalizing s' with
  | const | var => simp [Expr.Recorded, Expr.inOrder, Expr.isLeaf]
  | op result opcode l r ihl _ =>
    obtain ⟨d, hroot⟩ := rooted_of_run_op hs he hm ha (hfresh result (by simp [Expr.results])) h
    have hrec := hT result (by simp [Expr.results]) _ hroot.recorded
    obtain ⟨s₁, h₁, hl⟩ := exists_run_exprCode BB he.operands.1 hm.operands.1 hs.toClean
    have hleft := ihl he.operands.1 hm.operands.1 ha.operands.1
      (fun k hk => hfresh k (by simp [Expr.results, hk])) h₁
      (extends_left he hm hs.toClean h₁ h fun k hk => hT k (by simp [Expr.results, hk]))
    have hnull := ha.operands.1.key_ne
    have hnull' := ha.operands.2.key_ne
    rw [Expr.Recorded, hrec, Option.some.injEq, Prod.mk.injEq, and_iff_right rfl]
    cases r with
    | op r' opcode' l'' r'' =>
      -- the result of the second operand takes the first slot
      simp only [Expr.recordedSources, Prod.mk.injEq, Expr.key, Expr.inOrder, Bool.false_eq_true, false_and,
        iff_false]
      exact fun hall => hnull' hall.2.2.2.symm
    | const c value =>
      cases l with
      | op l' opcode' l'' r'' =>
        simp only [Expr.recordedSources, Prod.mk.injEq, Expr.key, Expr.inOrder, Expr.isLeaf,
          Bool.false_eq_true, false_and, iff_false]
        exact fun hall => hnull' hall.2.2.2.symm
      | var x rx => simp [Expr.recordedSources, Expr.key, Expr.inOrder, Expr.isLeaf, Expr.Recorded, Expr.vars]
      | const c' value' =>
        simp [Expr.recordedSources, Expr.key, Expr.inOrder, Expr.isLeaf, Expr.Recorded, Expr.vars]
    | var y ry =>
      cases l with
      | op l' opcode' l'' r'' =>
        rw [hleft]
        have hreal : s.getRealSrcReg y ≠ l' := by
          rintro rfl
          exact (ha.real y (by simp [Expr.vars])).2 (by simp [Expr.results])
        simp only [Expr.recordedSources, Expr.key, Expr.Recorded, Expr.isLeaf, Expr.vars,
          forall_const, true_and]
        generalize hloads : (Expr.op l' opcode' l'' r'').loads = k
        rw [show (Expr.op result opcode (.op l' opcode' l'' r'') (.var y ry)).inOrder =
          ((Expr.op l' opcode' l'' r'').inOrder && (Expr.op l' opcode' l'' r'').loads = 1) from rfl, hloads]
        have hle : (Expr.op l' opcode' l'' r'').inOrder = true → k ≤ 2 := fun h =>
          hloads ▸ Expr.loads_le_of_inOrder h
        by_cases heven : k % 2 = 0
        · -- the variable takes the first slot, and the result of the first operand the second one
          rw [if_pos heven]
          refine iff_of_false (fun hall => hreal (Prod.mk.inj hall.2).1) fun hall => ?_
          simp only [Bool.and_eq_true, decide_eq_true_eq] at hall
          omega
        · rw [if_neg heven]
          simp only [Prod.mk.injEq, true_and, Bool.and_eq_true, decide_eq_true_eq, List.mem_append,
            List.mem_singleton]
          constructor
          · rintro ⟨⟨hin, hvars⟩, hy⟩
            have := hle hin
            refine ⟨⟨hin, by omega⟩, ?_⟩
            rintro v (hv | rfl)
            · exact hvars v hv
            · exact hy
          · rintro ⟨⟨hin, -⟩, hvars⟩
            exact ⟨⟨hin, fun v hv => hvars v (.inl hv)⟩, hvars y (.inr rfl)⟩
      | var x rx => simp [Expr.recordedSources, Expr.key, Expr.inOrder, Expr.isLeaf, Expr.Recorded, Expr.vars,
          Expr.loads]
      | const c' value' =>
        simp only [Expr.recordedSources, Prod.mk.injEq, Expr.key, Expr.inOrder, Expr.loads]
        refine iff_of_false (fun hall => hnull' hall.2.2.2.symm) fun hall => ?_
        simp at hall

/-- When the store exchanges the sources of the last operator, they are recorded exactly when it
took them in the reverse order. -/
theorem recorded_iff_inReverse {T : InstructionTable} {dest : Reg} (hs : s.Ready)
    (he : (Expr.op result opcode l r).IsScalar info) (hm : (Expr.op result opcode l r).NoMinusOne)
    (ha : (Expr.op result opcode l r).Addressed s.getRealSrcReg supply)
    (hfresh : ∀ k ∈ (Expr.op result opcode l r).results, s.IM.find k = none)
    (h : run (step info) s (exprCode BB (.op result opcode l r)) = some s')
    (hloads : (Expr.op result opcode l r).loads > 2)
    (hlast : (Expr.op result opcode l r).lastVariable = some dest)
    (hT : Extends s'.IM T l.results)
    (hrec : T.recorded result = some (opcode.operation, (Expr.recordedSources s.getRealSrcReg l r).swap)) :
    (Expr.op result opcode l r).Recorded T supply ↔
      (Expr.op result opcode l r).inReverse dest = true ∧
        ∀ v ∈ (Expr.op result opcode l r).vars, s.getRealSrcReg v = supply v := by
  obtain ⟨s₁, h₁, hl⟩ := exists_run_exprCode BB he.operands.1 hm.operands.1 hs.toClean
  have hleft := recorded_iff_inOrder hs he.operands.1 hm.operands.1 ha.operands.1
    (fun k hk => hfresh k (by simp [Expr.results, hk])) h₁ (extends_left he hm hs.toClean h₁ h hT)
  have hnull := ha.operands.1.key_ne
  rw [Expr.Recorded, hrec, Option.some.injEq, Prod.mk.injEq, and_iff_right rfl]
  cases r with
  | op r' opcode' l'' r'' =>
    simp only [Expr.recordedSources, Prod.swap_prod_mk, Prod.mk.injEq, Expr.inReverse, Bool.false_eq_true,
      false_and, iff_false]
    exact fun hall => hnull hall.2.2.1.symm
  | const c value =>
    cases l with
    | op l' opcode' l'' r'' =>
      simp only [Expr.recordedSources, Prod.swap_prod_mk, Prod.mk.injEq, Expr.inReverse, Bool.false_eq_true,
        false_and, iff_false]
      exact fun hall => hnull hall.2.2.1.symm
    | var x rx => simp [Expr.loads] at hloads
    | const c' value' => simp [Expr.loads] at hloads
  | var y ry =>
    obtain rfl : y = dest := Option.some.inj hlast
    cases l with
    | op l' opcode' l'' r'' =>
      rw [hleft]
      have hreal : s.getRealSrcReg y ≠ l' := by
        rintro rfl
        exact (ha.real y (by simp [Expr.vars])).2 (by simp [Expr.results])
      simp only [Expr.recordedSources, Expr.key, Expr.Recorded, Expr.isLeaf, Expr.vars,
        forall_const, true_and]
      rw [show (Expr.op result opcode (.op l' opcode' l'' r'') (.var y ry)).inReverse y =
        ((Expr.op l' opcode' l'' r'').inOrder && (Expr.op l' opcode' l'' r'').loads = 2) by
          simp [Expr.inReverse]]
      have htwo : 2 ≤ (Expr.op l' opcode' l'' r'').loads := Nat.le_of_lt_succ hloads
      have hle := Expr.loads_le_of_inOrder (e := .op l' opcode' l'' r'')
      generalize (Expr.op l' opcode' l'' r'').loads = k at *
      by_cases heven : k % 2 = 0
      · rw [if_pos heven]
        simp only [Prod.swap_prod_mk, Prod.mk.injEq, true_and, Bool.and_eq_true, decide_eq_true_eq,
          List.mem_append, List.mem_singleton]
        constructor
        · rintro ⟨⟨hin, hvars⟩, hy⟩
          have := hle hin
          refine ⟨⟨hin, by omega⟩, ?_⟩
          rintro v (hv | rfl)
          · exact hvars v hv
          · exact hy
        · rintro ⟨⟨hin, -⟩, hvars⟩
          exact ⟨⟨hin, fun v hv => hvars v (.inl hv)⟩, hvars y (.inr rfl)⟩
      · rw [if_neg heven]
        refine iff_of_false (fun hall => hreal (Prod.mk.inj hall.2).1) fun hall => ?_
        simp only [Bool.and_eq_true, decide_eq_true_eq] at hall
        omega
    | var x rx => simp [Expr.loads] at hloads
    | const c' value' => simp [Expr.loads] at hloads

/-- **An assignment of the result of an operator**: its operands are recorded exactly when it
has one of the shapes, and its variables are supplied by the registers that the detector takes
for them. -/
theorem run_assignment_op (BB : Reg) {dest : Reg} (hs : s.Ready) (hdest : info.IsScalar dest)
    (he : (Expr.op result opcode l r).IsScalar info) (hm : (Expr.op result opcode l r).NoMinusOne)
    (ha : (Expr.op result opcode l r).Addressed s.getRealSrcReg supply)
    (hfresh : ∀ k ∈ (Expr.op result opcode l r).results, s.IM.find k = none) :
    ∃ s', run (step info) s (assignmentCode (BB, ⟨dest, .op result opcode l r⟩)) = some s' ∧
      Assigns ⟨dest, .op result opcode l r⟩ s s' ∧
      ∀ T, Extends s'.IM T (Expr.op result opcode l r).results →
        ((Expr.op result opcode l r).Recorded T supply ↔
          Statement.handled info BB ⟨dest, .op result opcode l r⟩ = true ∧
            ∀ v ∈ (Expr.op result opcode l r).vars, s.getRealSrcReg v = supply v) := by
  obtain ⟨s₁, h₁, hev⟩ := exists_run_exprCode BB he hm hs.toClean
  obtain ⟨d, hroot⟩ := rooted_of_run_op hs he hm ha (hfresh result (by simp [Expr.results])) h₁
  have hop : opcode ≠ .unrecognised := by
    rintro rfl
    exact he.opcodes (by simp [Expr.opcodes])
  obtain ⟨IM, hstep, hrec⟩ := step_store_op BB (.value result) hdest hev.clean
    (hroot.operation ▸ Opcode.operation_ne hop) (hroot.destReg ▸ hroot.find)
  have hnone : s.IM.recorded result = none :=
    (InstructionTable.recorded_eq_none _ _).mpr (hfresh result (by simp [Expr.results]))
  have hother : ∀ k, k ≠ result → IM.recorded k = s₁.IM.recorded k := fun k hk => by
    rw [hrec k, if_neg]
    rintro ⟨heq, -⟩
    exact hk (heq.trans hroot.destReg)
  refine ⟨endStore { s₁ with IM := IM } dest, ?_,
    ⟨ready_endStore (by exact hev.clean.isNegated) dest, fun v => ?_, hev.tmpSrcReg2, fun k p hk => ?_,
      fun k hv hr => ?_⟩, fun T hT => ?_⟩
  · have hcode : assignmentCode (BB, ⟨dest, .op result opcode l r⟩) =
        exprCode BB (.op result opcode l r) ++ [(BB, .store (.value result) dest)] := by
      simp [assignmentCode, Statement.code, exprCode, Expr.operand]
    rw [hcode, run_snoc h₁, hstep]
  · rw [getRealSrcReg_endStore]
    have hreal : getRealSrcReg { s₁ with IM := IM } v = s.getRealSrcReg v := by
      simp only [DependencyDetector.getRealSrcReg, hev.lastUsedRegMap]
    rw [hreal]
    simp only [hroot.destReg]
    rfl
  · refine (hother k ?_).trans (hev.recorded_of_some hk)
    rintro rfl
    rw [hnone] at hk
    cases hk
  · refine (hother k ?_).trans (hev.recorded_of_not_mem hv hr)
    rintro rfl
    exact hr (by simp [Expr.results])
  · have hloads : s₁.loadCount = (Expr.op result opcode l r).loads := by
      rw [hev.loadCount, hs.noLoads, Nat.zero_add]
    have hsame : ∀ k, ¬ s₁.Swaps d dest → IM.recorded k = s₁.IM.recorded k := fun k hnot => by
      rw [hrec k, if_neg fun h => hnot h.2]
    by_cases hswap : s₁.Swaps d dest
    · obtain ⟨hmany, hacc, hloop⟩ := id hswap
      rw [hloads] at hmany
      have hlast : (Expr.op result opcode l r).lastVariable = some dest := by
        rw [hev.tmpAccumulationOp, Option.or_eq_some_iff] at hacc
        refine hacc.resolve_right fun h => ?_
        have := Expr.loads_of_lastVariable h.1
        omega
      have hroot' := hT result (by simp [Expr.results]) (opcode.operation,
        (Expr.recordedSources s.getRealSrcReg l r).swap) (by
          show IM.recorded result = _
          rw [hrec result, if_pos ⟨hroot.destReg.symm, hswap⟩, hroot.recorded]
          rfl)
      rw [recorded_iff_inReverse hs he hm ha hfresh h₁ hmany hlast (fun k hk p hp =>
        hT k (by simp [Expr.results, hk]) p ((hother k fun heq => ha.result_not_mem.1.2 (heq ▸ hk)).trans hp))
        hroot']
      have hnot : (Expr.op result opcode l r).inOrder = false := by
        by_contra hin
        rw [Bool.not_eq_false] at hin
        have := Expr.loads_le_of_inOrder hin
        omega
      rw [Statement.handled, hnot, ← hroot.isInLoopBody, hloop]
      rfl
    · rw [recorded_iff_inOrder hs he hm ha hfresh h₁ fun k hk p hp => hT k hk p ((hsame k hswap).trans hp)]
      refine and_congr ?_ ⟨fun h => h rfl, fun h _ => h⟩
      rw [Statement.handled, Bool.or_eq_true, Bool.and_eq_true]
      refine ⟨.inl, fun h => h.resolve_right fun hrev => hswap ?_⟩
      obtain ⟨hthree, hlast⟩ := Expr.loads_of_inReverse hrev.2
      refine ⟨by rw [hloads, hthree]; decide, ?_, hroot.isInLoopBody.trans hrev.1⟩
      rw [hev.tmpAccumulationOp, hlast]
      rfl

/-! ### Programs -/

end DependencyDetector

/-- The results of the instructions of a program. -/
def resultsOf (program : List (Reg × Statement)) : List Reg := program.flatMap (·.2.value.results)

/-- The variables of a program. -/
def varsOf (program : List (Reg × Statement)) : List Reg := program.flatMap (·.2.vars)

/-- The addresses of the constants of a program. -/
def constantsOf (program : List (Reg × Statement)) : List Reg :=
  program.flatMap (·.2.value.constants.map (·.1))

/-- A program over scalar variables: the LLVM values have addresses of their own. -/
structure ScalarProgram (info : CollectInfo) (program : List (Reg × Statement)) : Prop where
  nodup : (resultsOf program).Nodup
  results : ∀ k ∈ resultsOf program, k ≠ nullptr ∧ k ∉ varsOf program ∧ k ∉ constantsOf program
  vars : ∀ v ∈ varsOf program, v ≠ nullptr ∧ v ∉ constantsOf program
  constants : ∀ c ∈ constantsOf program, c ≠ nullptr
  scalar : ∀ st ∈ program, st.2.value.IsScalar info ∧ info.IsScalar st.2.dest

instance (info : CollectInfo) (program : List (Reg × Statement)) : Decidable (ScalarProgram info program) :=
  decidable_of_iff ((resultsOf program).Nodup ∧
    (∀ k ∈ resultsOf program, k ≠ nullptr ∧ k ∉ varsOf program ∧ k ∉ constantsOf program) ∧
    (∀ v ∈ varsOf program, v ≠ nullptr ∧ v ∉ constantsOf program) ∧ (∀ c ∈ constantsOf program, c ≠ nullptr) ∧
    ∀ st ∈ program, st.2.value.IsScalar info ∧ info.IsScalar st.2.dest)
    ⟨fun ⟨h1, h2, h3, h4, h5⟩ => ⟨h1, h2, h3, h4, h5⟩, fun ⟨h1, h2, h3, h4, h5⟩ => ⟨h1, h2, h3, h4, h5⟩⟩

/-- The address that supplies a variable after an assignment. -/
def supplyAfter (supply : Reg → Reg) (st : Statement) : Reg → Reg :=
  Function.update supply st.dest (st.value.key supply)

/-- Every operator of the program has an entry whose sources supply its operands. -/
def ProgramRecorded (T : InstructionTable) : (Reg → Reg) → List (Reg × Statement) → Prop
  | _, [] => True
  | supply, st :: rest =>
    st.2.value.Recorded T supply ∧ ProgramRecorded T (supplyAfter supply st.2) rest

theorem recorded_congr {T T' : InstructionTable} (h : ∀ k, T.recorded k = T'.recorded k) (supply : Reg → Reg)
    (e : Expr) : e.Recorded T supply ↔ e.Recorded T' supply := by
  induction e with
  | const | var => rfl
  | op result opcode l r ihl ihr => rw [Expr.Recorded, Expr.Recorded, ihl, ihr, h]

theorem programRecorded_congr {T T' : InstructionTable} (h : ∀ k, T.recorded k = T'.recorded k)
    {supply : Reg → Reg} {program : List (Reg × Statement)} :
    ProgramRecorded T supply program ↔ ProgramRecorded T' supply program := by
  induction program generalizing supply with
  | nil => rfl
  | cons st rest ih => rw [ProgramRecorded, ProgramRecorded, recorded_congr h, ih]

/-- The variables whose last assignment was a copy or a constant, after an assignment. -/
def copiedAfter (copied : List Reg) (st : Statement) : List Reg :=
  if st.value.isLeaf then st.dest :: copied else copied.filter (· ≠ st.dest)

/-- Every expression has one of the shapes, and no operator reads a variable whose last assignment
was a copy or a constant. -/
def ProgramHandled (info : CollectInfo) : List Reg → List (Reg × Statement) → Prop
  | _, [] => True
  | copied, st :: rest =>
    (st.2.handled info st.1 = true ∧ (st.2.value.isLeaf = false → ∀ v ∈ st.2.value.vars, v ∉ copied)) ∧
      ProgramHandled info (copiedAfter copied st.2) rest

instance (info : CollectInfo) (copied : List Reg) (program : List (Reg × Statement)) :
    Decidable (ProgramHandled info copied program) := by
  induction program generalizing copied with
  | nil => exact .isTrue trivial
  | cons st rest ih =>
    have := ih (copiedAfter copied st.2)
    unfold ProgramHandled
    infer_instance

namespace ScalarProgram

variable {info : CollectInfo} {st : Reg × Statement} {rest : List (Reg × Statement)}

theorem tail (h : ScalarProgram info (st :: rest)) : ScalarProgram info rest := by
  obtain ⟨hnodup, hres, hvars, hconst, hscalar⟩ := h
  simp only [resultsOf, varsOf, constantsOf, List.flatMap_cons, List.nodup_append, List.mem_append,
    not_or] at *
  exact ⟨hnodup.2.1, fun k hk => ⟨(hres k (.inr hk)).1, (hres k (.inr hk)).2.1.2, (hres k (.inr hk)).2.2.2⟩,
    fun v hv => ⟨(hvars v (.inr hv)).1, (hvars v (.inr hv)).2.2⟩, fun c hc => hconst c (.inr hc),
    fun st hst => hscalar st (List.mem_cons_of_mem _ hst)⟩

/-- The results of the rest are none of those of the first assignment, and none of its variables and
constants. -/
theorem results_rest (h : ScalarProgram info (st :: rest)) {k : Reg} (hk : k ∈ resultsOf rest) :
    k ∉ st.2.value.results ∧ k ∉ st.2.vars ∧ k ∉ st.2.value.constants.map (·.1) := by
  obtain ⟨hnodup, hres, -, -, -⟩ := h
  simp only [resultsOf, varsOf, constantsOf, List.flatMap_cons, List.nodup_append, List.mem_append,
    not_or] at *
  have hall := hres k (.inr hk)
  exact ⟨fun hmem => hnodup.2.2 k hmem k hk rfl, hall.2.1.1, hall.2.2.1⟩

end ScalarProgram

namespace DependencyDetector

variable {info : CollectInfo} {s s' : DependencyDetector} {supply : Reg → Reg} {copied : List Reg}
  {st : Reg × Statement} {rest program : List (Reg × Statement)}

/-- The state before the rest of a program: the register that the detector takes for a variable
supplies it unless its last assignment was a copy or a constant. -/
structure Supplied (supply : Reg → Reg) (copied : List Reg) (program : List (Reg × Statement))
    (s : DependencyDetector) : Prop where
  ready : s.Ready
  fresh : ∀ k ∈ resultsOf program, s.IM.recorded k = none
  real : ∀ v ∈ varsOf program,
    s.getRealSrcReg v ≠ nullptr ∧ s.getRealSrcReg v ∉ resultsOf program ∧ s.getRealSrcReg v ∉ constantsOf program
  supplied : ∀ v ∈ varsOf program, supply v ≠ nullptr ∧ supply v ∉ resultsOf program
  copied : ∀ v ∈ varsOf program, s.getRealSrcReg v = supply v ↔ v ∉ copied

theorem supplied_init (h : ScalarProgram info program) : Supplied id [] program init where
  ready := { isNegated := rfl, tmpPtrSrc1 := rfl, tmpPtrSrc2 := rfl, tmpPtrDest := rfl
             loadCount := Nat.le_refl _, operation := rfl, noLoads := rfl, srcReg1 := rfl, srcReg2 := rfl
             destReg := rfl }
  fresh k _ := by simp [init, InstructionTable.recorded]
  real v hv := by
    have hreal : init.getRealSrcReg v = v := by simp [DependencyDetector.getRealSrcReg, init]
    rw [hreal]
    exact ⟨(h.vars v hv).1, fun hmem => (h.results v hmem).2.1 hv, (h.vars v hv).2⟩
  supplied v hv := ⟨(h.vars v hv).1, fun hmem => (h.results v hmem).2.1 hv⟩
  copied v hv := by simp [DependencyDetector.getRealSrcReg, init]

/-- The addresses of the first expression. -/
theorem Supplied.addressed (hs : Supplied supply copied (st :: rest) s)
    (h : ScalarProgram info (st :: rest)) :
    st.2.value.Addressed s.getRealSrcReg supply := by
  obtain ⟨-, -, hreal, hsup, -⟩ := hs
  obtain ⟨hnodup, hres, -, hconst, -⟩ := h
  simp only [resultsOf, varsOf, constantsOf, Statement.vars, List.flatMap_cons, List.nodup_append,
    List.mem_append, List.mem_cons, not_or] at *
  exact ⟨hnodup.1, fun k hk => ⟨(hres k (.inl hk)).1, (hres k (.inl hk)).2.1.1.2⟩,
    fun c hc => hconst c.1 (.inl (List.mem_map_of_mem hc)),
    fun v hv => ⟨(hreal v (.inl (.inr hv))).1, (hreal v (.inl (.inr hv))).2.1.1⟩,
    fun v hv => (hsup v (.inl (.inr hv))).1⟩

/-- **An assignment keeps the variables supplied.** -/
theorem Supplied.assigns (hs : Supplied supply copied (st :: rest) s) (h : ScalarProgram info (st :: rest))
    (ha : Assigns st.2 s s') : Supplied (supplyAfter supply st.2) (copiedAfter copied st.2) rest s' := by
  have hvars : ∀ v ∈ varsOf rest, v ∈ varsOf (st :: rest) := fun v hv => List.mem_append_right _ hv
  have hresults : ∀ k ∈ resultsOf rest, k ∈ resultsOf (st :: rest) := fun k hk => List.mem_append_right _ hk
  have hconstants : ∀ c ∈ constantsOf rest, c ∈ constantsOf (st :: rest) :=
    fun c hc => List.mem_append_right _ hc
  have hdest : st.2.dest ∈ varsOf (st :: rest) := List.mem_append_left _ List.mem_cons_self
  have hown : ∀ k ∈ st.2.value.results, k ≠ nullptr ∧ k ∉ resultsOf rest ∧ k ∉ constantsOf rest := by
    intro k hk
    have hall := h.results k (List.mem_append_left _ hk)
    exact ⟨hall.1, fun hmem => (h.results_rest hmem).1 hk, fun hmem => hall.2.2 (hconstants k hmem)⟩
  have hreal := ha.getRealSrcReg
  have hvalue : ∀ k ∈ st.2.value.vars, supply k ≠ nullptr ∧ supply k ∉ resultsOf (st :: rest) :=
    fun k hk => hs.supplied k (List.mem_append_left _ (List.mem_cons_of_mem _ hk))
  refine ⟨ha.ready, fun k hk => ?_, fun v hv => ?_, fun v hv => ?_, fun v hv => ?_⟩
  · obtain ⟨hk1, hk2, -⟩ := h.results_rest hk
    rw [ha.recorded_of_not_mem k (fun hmem => hk2 (List.mem_cons_of_mem _ hmem)) hk1]
    exact hs.fresh k (hresults k hk)
  · -- the registers that the detector takes
    have hold : s.getRealSrcReg v ≠ nullptr ∧ s.getRealSrcReg v ∉ resultsOf rest ∧
        s.getRealSrcReg v ∉ constantsOf rest :=
      ⟨(hs.real v (hvars v hv)).1, fun hmem => (hs.real v (hvars v hv)).2.1 (hresults _ hmem),
        fun hmem => (hs.real v (hvars v hv)).2.2 (hconstants _ hmem)⟩
    rw [hreal v]
    cases hval : st.2.value with
    | const address value => exact hold
    | var allocated result =>
      simp only
      split
      · exact hown result (by simp [hval, Expr.results])
      · exact hold
    | op result opcode l r =>
      simp only
      split
      · exact hown result (by simp [hval, Expr.results])
      · exact hold
  · -- the addresses that supply the variables
    have hold : supply v ≠ nullptr ∧ supply v ∉ resultsOf rest :=
      ⟨(hs.supplied v (hvars v hv)).1, fun hmem => (hs.supplied v (hvars v hv)).2 (hresults _ hmem)⟩
    rw [supplyAfter, Function.update_apply]
    split
    · cases hval : st.2.value with
      | const address value =>
        have hmem : address ∈ st.2.value.constants.map (·.1) := by simp [hval, Expr.constants]
        exact ⟨h.constants address (List.mem_append_left _ hmem), fun hk => (h.results_rest hk).2.2 hmem⟩
      | var allocated result =>
        have hsup := hvalue allocated (by simp [hval, Expr.vars])
        exact ⟨hsup.1, fun hmem => hsup.2 (hresults _ hmem)⟩
      | op result opcode l r =>
        have hmem := hown result (by simp [hval, Expr.results])
        exact ⟨hmem.1, hmem.2.1⟩
    · exact hold
  · rw [hreal v, supplyAfter, Function.update_apply, copiedAfter]
    by_cases heq : v = st.2.dest
    · subst heq
      rw [if_pos rfl]
      cases hval : st.2.value with
      | const address value =>
        -- the detector passes over the assignment
        have hne : s.getRealSrcReg st.2.dest ≠ address := by
          rintro heq
          exact (hs.real _ hdest).2.2 (List.mem_append_left _ (by simp [hval, Expr.constants, heq]))
        simpa [Expr.key, Expr.isLeaf] using hne
      | var allocated result =>
        -- the detector takes the load
        have hne : result ≠ supply allocated := by
          rintro heq
          exact (hvalue allocated (by simp [hval, Expr.vars])).2
            (List.mem_append_left _ (by simp [hval, Expr.results, heq]))
        simpa [Expr.key, Expr.isLeaf, Expr.operand, Operand.address] using hne
      | op result opcode l r => simp [Expr.key, Expr.isLeaf, Expr.operand, Operand.address]
    · have hcopied := hs.copied v (hvars v hv)
      rw [if_neg heq]
      cases hval : st.2.value <;> simp [Expr.isLeaf, heq, hcopied]

/-- **The operands of a program are recorded exactly when it is handled**: run from a state between
two assignments. -/
theorem run_program (hs : Supplied supply copied program s) (h : ScalarProgram info program)
    (hm : ∀ st ∈ program, st.2.value.NoMinusOne) :
    ∃ s', run (step info) s (program.flatMap assignmentCode) = some s' ∧
      (∀ k p, s.IM.recorded k = some p → s'.IM.recorded k = some p) ∧
      (ProgramRecorded s'.IM supply program ↔ ProgramHandled info copied program) := by
  induction program generalizing s supply copied with
  | nil => exact ⟨s, rfl, fun _ _ hk => hk, Iff.rfl⟩
  | cons st rest ih =>
    obtain ⟨BB, dest, e⟩ := st
    obtain ⟨he, hdest⟩ := h.scalar (BB, ⟨dest, e⟩) List.mem_cons_self
    have hfirst : ∃ s₁, run (step info) s (assignmentCode (BB, ⟨dest, e⟩)) = some s₁ ∧
        Assigns ⟨dest, e⟩ s s₁ ∧ ∀ T, Extends s₁.IM T e.results → (e.Recorded T supply ↔
          Statement.handled info BB ⟨dest, e⟩ = true ∧ (e.isLeaf = false → ∀ v ∈ e.vars, v ∉ copied)) := by
      cases e with
      | const address value =>
        obtain ⟨hrun, ha⟩ := run_assignment_const hs.ready hdest
        exact ⟨s, hrun, ha, fun T _ => by simp [Expr.Recorded, Statement.handled, Expr.inOrder, Expr.isLeaf]⟩
      | var allocated result =>
        obtain ⟨s₁, hrun, ha⟩ := run_assignment_var hs.ready (he.vars allocated (by simp [Expr.vars])) hdest
        exact ⟨s₁, hrun, ha, fun T _ => by simp [Expr.Recorded, Statement.handled, Expr.inOrder, Expr.isLeaf]⟩
      | op result opcode l r =>
        obtain ⟨s₁, hrun, ha, hall⟩ := run_assignment_op _ hs.ready hdest he (hm _ List.mem_cons_self)
          (hs.addressed h) fun k hk => (InstructionTable.recorded_eq_none _ _).mp
            (hs.fresh k (List.mem_append_left _ hk))
        refine ⟨s₁, hrun, ha, fun T hT => (hall T hT).trans (and_congr_right fun _ => ?_)⟩
        refine ⟨fun hvars _ v hv => ?_, fun hvars v hv => ?_⟩
        · exact (hs.copied v (List.mem_append_left _ (List.mem_cons_of_mem _ hv))).mp (hvars v hv)
        · exact (hs.copied v (List.mem_append_left _ (List.mem_cons_of_mem _ hv))).mpr (hvars rfl v hv)
    obtain ⟨s₁, hrun₁, ha, hall⟩ := hfirst
    obtain ⟨s', hrun', hkeep, hrest⟩ :=
      ih (hs.assigns h ha) h.tail fun st hst => hm st (List.mem_cons_of_mem _ hst)
    refine ⟨s', ?_, fun k p hk => hkeep k p (ha.recorded_of_some k p hk), ?_⟩
    · rw [List.flatMap_cons, run_append, hrun₁, Option.bind_some, hrun']
    · exact and_congr (hall s'.IM fun k _ p hp => hkeep k p hp) hrest

end DependencyDetector

open DependencyDetector in
/-- **The detector records the operands of every operator of a program exactly when the program is
handled**: its expressions have one of the shapes, and no operator reads a variable whose last
assignment was a copy or a constant. -/
theorem operands_recorded_iff {info : CollectInfo} {program : List AssignmentBlock}
    (h : ScalarProgram info (assignments program))
    (hm : ∀ st ∈ assignments program, st.2.value.NoMinusOne) :
    (∃ s, detectDependencies info (basicBlocks program) = some s ∧
      ProgramRecorded s.IM id (assignments program)) ↔ ProgramHandled info [] (assignments program) := by
  obtain ⟨s, hrun, -, hall⟩ := run_program (supplied_init h) h hm
  have hdetect : detectDependencies info (basicBlocks program) =
      some { s with IM := s.IM.reorderInstructionVector } := by
    rw [detectDependencies, instructions_basicBlocks, hrun]
    rfl
  rw [hdetect, ← hall]
  simp only [Option.some.injEq, exists_eq_left']
  refine programRecorded_congr ?_
  exact fun k => rfl

/-- Three scalar variables, at the addresses 16, 20 and 24. -/
def threeScalars : CollectInfo :=
  { aliasInfoMap := ExtTreeMap.ofList [(16, []), (20, []), (24, [])], arraysInfoMap := ∅, loopBodyList := []
    iteratorsAliasMap := ∅, combinedIterators := [], PIT := ∅ }

/-- `c = a + b; c = c * 3 - a`. -/
def productMinus : List AssignmentBlock :=
  [(8, [⟨24, .op 102 .add (.var 16 100) (.var 20 101)⟩,
    ⟨24, .op 106 .sub (.op 104 .mul (.var 24 103) (.const 40 3)) (.var 16 105)⟩])]

/-- The operands of both assignments are recorded in order. -/
theorem operands_recorded_iff_productMinus :
    ∃ s, DependencyDetector.detectDependencies threeScalars (basicBlocks productMinus) = some s ∧
      ProgramRecorded s.IM id (assignments productMinus) :=
  (operands_recorded_iff (by decide +kernel) (by decide)).mpr (by decide +kernel)

/-- `c = a + b - c`. -/
def sumMinus : List AssignmentBlock :=
  [(8, [⟨24, .op 104 .sub (.op 102 .add (.var 16 100) (.var 20 101)) (.var 24 103)⟩])]

theorem sumMinus_isSome :
    (DependencyDetector.detectDependencies threeScalars (basicBlocks sumMinus)).isSome := by decide +kernel

/-- The third load takes the first slot: the difference is recorded as `c - (a + b)`. -/
theorem sumMinus_exchanged :
    ∃ s, DependencyDetector.detectDependencies threeScalars (basicBlocks sumMinus) = some s ∧
      ScalarProgram threeScalars (assignments sumMinus) ∧
      s.IM.recorded 104 = some (.sub, 24, 102) ∧ ¬ ProgramRecorded s.IM id (assignments sumMinus) := by
  have hrec : ((DependencyDetector.detectDependencies threeScalars (basicBlocks sumMinus)).get
      sumMinus_isSome).IM.recorded 104 = some (.sub, 24, 102) := by decide +kernel
  refine ⟨_, (Option.some_get sumMinus_isSome).symm, by decide +kernel, hrec, fun hall => ?_⟩
  have hkey := hall.1.2.2
  rw [hrec] at hkey
  exact absurd hkey (by decide)

end Octantis
