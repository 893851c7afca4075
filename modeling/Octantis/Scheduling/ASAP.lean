import Mathlib.Data.Finset.Dedup
import Mathlib.Algebra.Order.Ring.Int
import Octantis.Lib.Run
import Octantis.Lib.Acyclic
import Octantis.Utils.InstructionTable

/-!
# The ASAP scheduling

`ASAP` gives every instruction of the table a time: loads start at 0, an operation
as soon as its sources have finished. It goes over the table once, in the order of
the keys, which are addresses, and reads for each source the times that the table
has at that moment.

## The model

`scheduleFunction` is the pass: a run over the entries of the table. `finish` is what
the times are meant to be: the finishing times along the longest chain of operations,
a recursion along the sources. `Scheduled` says that a table has a schedule: its times
satisfy the equations, and the operations take time.

## What is proved

* `find_of_scheduleFunction`: what the pass gives each entry, from the times of the keys before it and
  those that the table had at the start for the others;
* `finish_eq`, `finish_unique`: the equations have one solution;
* `scheduled_iff`: the pass schedules a table exactly when its operations have a delay and
  `InTime` holds: the latest source of an operation stands before it, or another as late does;
* `schedule_unique`: the times do not depend on the addresses when both tables are scheduled.

## Honest scope

An operation whose address is below that of an operation it reads starts too early
(`dependent_first_too_early`), and `sdiv`, `shl`, `lshr` and `ashr` get the delay `-1`.
-/

namespace Octantis

open Std Lib

/-- `getOperationDelay`: the delay of an operation, or `-1`. -/
def OperationsDelay.getOperationDelay : Operation → ℤ
  | .and | .nand | .or | .nor | .xor | .xnor | .add | .sub | .mul => 1
  | .null | .load | .shl | .shr | .lshr | .ashr | .sdiv | .switch => -1

namespace ASAP

open OperationsDelay InstructionTable

/-- The time of a source. -/
def sourceTime (T : InstructionTable) (srcType : OperandType) (src : Reg) : Option ℤ :=
  if srcType = .constant then some 0 else T.getAvailableTime src

/-- `getTime`: the later one of the times of the sources. -/
def getTime (T : InstructionTable) (src1Type src2Type : OperandType) (src1 src2 : Reg) : Option ℤ :=
  (sourceTime T src1Type src1).bind fun tSrc1 => (sourceTime T src2Type src2).map fun tSrc2 =>
    if tSrc1 > tSrc2 then tSrc1 else tSrc2

/-- One entry of `scheduleFunction`, as the table had it when the pass started. -/
def step (T : InstructionTable) (e : Reg × InstructionData) : Option InstructionTable :=
  if e.2.operation = .load then some (T.setInstructionTimeAndDelay e.1 0 0)
  else (getTime T e.2.srcReg1Type e.2.srcReg2Type e.2.sourceReg1 e.2.sourceReg2).map fun ti =>
    T.setInstructionTimeAndDelay e.1 ti (getOperationDelay e.2.operation)

/-- `scheduleFunction`. -/
def scheduleFunction (T : InstructionTable) : Option InstructionTable :=
  (run step T T.instructionMap.toList).map fun T => T.reorderInstructionVector

/-! ### The times -/

/-- The time of a source, when `f` gives the times at which the registers are available. -/
def sourceStart (f : Reg → ℤ) (srcType : OperandType) (src : Reg) : ℤ :=
  if srcType = .constant then 0 else f src

/-- The time at which an operation can start. -/
def startFrom (f : Reg → ℤ) (d : InstructionData) : ℤ :=
  max (sourceStart f d.srcReg1Type d.sourceReg1) (sourceStart f d.srcReg2Type d.sourceReg2)

/-- The time at which a register is available in the table. -/
def available (T : InstructionTable) (reg : Reg) : ℤ := (T.getAvailableTime reg).getD 0

/-- The entry of `k` depends on the register `s`. -/
def Source (T : InstructionTable) (k s : Reg) : Prop :=
  ∃ d, T.find k = some d ∧ d.operation ≠ .load ∧
    (d.srcReg1Type ≠ .constant ∧ s = d.sourceReg1 ∨ d.srcReg2Type ≠ .constant ∧ s = d.sourceReg2)

/-- The sources are keys of the table. -/
def Closed (T : InstructionTable) : Prop := ∀ k s, Source T k s → s ∈ T.instructionMap

/-- No entry has a time yet. -/
def Unscheduled (T : InstructionTable) : Prop := ∀ k d, T.find k = some d → d.ti = 0 ∧ d.di = 0

/-- **The table has a schedule**: the entries of `T` with times such that loads start at 0, an
operation starts when the last of its sources has finished, and the operations that the detector
emits take time. -/
def Scheduled (T T' : InstructionTable) : Prop :=
  ∀ k d, T.find k = some d → ∃ ti di, T'.find k = some { d with ti := ti, di := di } ∧
    (d.operation = .load → ti = 0) ∧ (d.operation ≠ .load → ti = startFrom (available T') d) ∧
    (d.operation.isEmitted = true → 1 ≤ di)

/-- The equations of the finishing times. -/
def finishStep (T : InstructionTable) (f : Reg → ℤ) (k : Reg) : ℤ :=
  match T.find k with
  | none => 0
  | some d => if d.operation = .load then 0 else startFrom f d + getOperationDelay d.operation

/-- The time at which an entry finishes: the delays along the longest chain of operations up
to it. -/
def finish (T : InstructionTable) : Reg → ℤ := (finishStep T)^[T.instructionMap.size] fun _ => 0

/-- The finishing times of the keys before `k`, and 0 for the others. -/
def finishBefore (T : InstructionTable) (k s : Reg) : ℤ := if s < k then finish T s else 0

/-- Every operation that the detector emits has a delay, and of the latest sources of an operation
one stands before it: the others do not make it start later. -/
def InTime (T : InstructionTable) : Prop :=
  ∀ e ∈ T.instructionMap.toList, e.2.operation ≠ .load →
    (e.2.operation.isEmitted = true → 1 ≤ getOperationDelay e.2.operation) ∧
      startFrom (finishBefore T e.1) e.2 = startFrom (finish T) e.2

instance (T : InstructionTable) : Decidable (InTime T) := by
  unfold InTime
  infer_instance

variable {T T' T₁ T₂ : InstructionTable} {k s : Reg} {d : InstructionData}

/-! ### The equations -/

theorem startFrom_congr {f g : Reg → ℤ}
    (h1 : d.srcReg1Type ≠ .constant → f d.sourceReg1 = g d.sourceReg1)
    (h2 : d.srcReg2Type ≠ .constant → f d.sourceReg2 = g d.sourceReg2) : startFrom f d = startFrom g d := by
  have hsrc : ∀ type src, (type ≠ OperandType.constant → f src = g src) →
      sourceStart f type src = sourceStart g type src := by
    intro type src h
    unfold sourceStart
    split
    · rfl
    · next hne => exact h hne
  rw [startFrom, hsrc _ _ h1, hsrc _ _ h2, startFrom]

/-- The start of an operation reads the times of its sources. -/
theorem startFrom_congr_source {f g : Reg → ℤ} (hd : T.find k = some d) (hop : d.operation ≠ .load)
    (h : ∀ s, Source T k s → f s = g s) : startFrom f d = startFrom g d :=
  startFrom_congr (fun h1 => h _ ⟨d, hd, hop, .inl ⟨h1, rfl⟩⟩) fun h2 => h _ ⟨d, hd, hop, .inr ⟨h2, rfl⟩⟩

theorem local_finishStep (T : InstructionTable) : Local (Source T) (finishStep T) := by
  intro f g k h
  unfold finishStep
  cases hd : T.find k with
  | none => rfl
  | some d =>
    by_cases hop : d.operation = .load
    · simp only [if_pos hop]
    · simp only [if_neg hop, startFrom_congr_source hd hop h]

theorem mem_keys_toFinset : k ∈ T.instructionMap.keys.toFinset ↔ k ∈ T.instructionMap := by
  rw [List.mem_toFinset, ExtTreeMap.mem_keys]

theorem card_keys_toFinset (T : InstructionTable) :
    T.instructionMap.keys.toFinset.card = T.instructionMap.size := by
  rw [List.toFinset_card_of_nodup ExtTreeMap.nodup_keys, ExtTreeMap.length_keys]

theorem Closed.mem_keys (h : Closed T) (k s : Reg) (hs : Source T k s) : s ∈ T.instructionMap.keys.toFinset :=
  mem_keys_toFinset.mpr (h k s hs)

/-- The finishing times solve the equations. -/
theorem finish_eq (hclosed : Closed T) (hac : Acyclic (Source T)) (hd : T.find k = some d) :
    finish T k =
      if d.operation = .load then 0 else startFrom (finish T) d + getOperationDelay d.operation := by
  have hk : k ∈ T.instructionMap.keys.toFinset := by
    rw [mem_keys_toFinset, ← isSome_find, hd]
    rfl
  have hfix := (local_finishStep T).iterate_card_fixed hac hclosed.mem_keys (fun _ => 0) hk
  rw [card_keys_toFinset] at hfix
  rw [finish, ← hfix, finishStep, hd]

/-- They are the only solution. -/
theorem finish_unique (hclosed : Closed T) (hac : Acyclic (Source T)) {f : Reg → ℤ}
    (hf : ∀ k d, T.find k = some d → f k =
      if d.operation = .load then 0 else startFrom f d + getOperationDelay d.operation)
    (hk : k ∈ T.instructionMap) : f k = finish T k := by
  refine (local_finishStep T).fixed_unique hac hclosed.mem_keys (fun a ha => ?_) (fun a ha => ?_)
    (mem_keys_toFinset.mpr hk)
  · obtain ⟨d, hd⟩ := Option.isSome_iff_exists.mp ((isSome_find T a).mpr (mem_keys_toFinset.mp ha))
    rw [finishStep, hd, hf a d hd]
  · obtain ⟨d, hd⟩ := Option.isSome_iff_exists.mp ((isSome_find T a).mpr (mem_keys_toFinset.mp ha))
    rw [finishStep, hd, finish_eq hclosed hac hd]

/-! ### The pass -/

theorem find_setInstructionTimeAndDelay (T : InstructionTable) (k s : Reg) (time delay : ℤ) :
    (T.setInstructionTimeAndDelay k time delay).find s =
      if s = k then (T.find s).map fun d => { d with ti := time, di := delay } else T.find s :=
  find_modifyInstruction T s k _

theorem sourceTime_eq_some {srcType : OperandType} {src : Reg} {time : ℤ}
    (h : sourceTime T srcType src = some time) : time = sourceStart (available T) srcType src := by
  unfold sourceTime at h
  unfold sourceStart
  split at h
  · next hconst =>
    rw [if_pos hconst]
    exact (Option.some.inj h).symm
  · next hconst =>
    rw [if_neg hconst, available, h]
    rfl

theorem getTime_eq_some {time : ℤ}
    (h : getTime T d.srcReg1Type d.srcReg2Type d.sourceReg1 d.sourceReg2 = some time) :
    time = startFrom (available T) d := by
  obtain ⟨t1, h1, h⟩ := Option.bind_eq_some_iff.mp h
  obtain ⟨t2, h2, rfl⟩ := Option.map_eq_some_iff.mp h
  rw [startFrom, ← sourceTime_eq_some h1, ← sourceTime_eq_some h2]
  split
  · next hlt => exact (max_eq_left hlt.le).symm
  · next hle => exact (max_eq_right (Int.not_lt.mp hle)).symm

theorem isSome_getTime (h1 : d.srcReg1Type ≠ .constant → d.sourceReg1 ∈ T.instructionMap)
    (h2 : d.srcReg2Type ≠ .constant → d.sourceReg2 ∈ T.instructionMap) :
    (getTime T d.srcReg1Type d.srcReg2Type d.sourceReg1 d.sourceReg2).isSome := by
  have hsrc : ∀ srcType src, (srcType ≠ OperandType.constant → src ∈ T.instructionMap) →
      ∃ time, sourceTime T srcType src = some time := by
    intro srcType src h
    unfold sourceTime
    split
    · exact ⟨0, rfl⟩
    · next hne =>
      obtain ⟨d, hd⟩ := Option.isSome_iff_exists.mp ((isSome_find T src).mpr (h hne))
      exact ⟨d.ti + d.di, by rw [getAvailableTime, hd]; rfl⟩
  obtain ⟨t1, ht1⟩ := hsrc _ _ h1
  obtain ⟨t2, ht2⟩ := hsrc _ _ h2
  rw [getTime, ht1, ht2]
  rfl

/-- The time and the delay that the pass gives an entry, when `f` gives the times that it reads. -/
def scheduledEntry (f : Reg → ℤ) (d : InstructionData) : InstructionData :=
  if d.operation = .load then { d with ti := 0, di := 0 }
  else { d with ti := startFrom f d, di := getOperationDelay d.operation }

/-- **One entry of the pass** gets its time from the table as it stands. -/
theorem find_of_step (h : step T₁ (k, d) = some T₂) (hd : T₁.find k = some d) :
    T₂.find k = some (scheduledEntry (available T₁) d) ∧ ∀ s, s ≠ k → T₂.find s = T₁.find s := by
  unfold step at h
  unfold scheduledEntry
  split at h
  · next hop =>
    obtain rfl := Option.some.inj h
    rw [if_pos hop]
    refine ⟨?_, fun s hs => ?_⟩
    · rw [find_setInstructionTimeAndDelay, if_pos rfl, hd]
      rfl
    · rw [find_setInstructionTimeAndDelay, if_neg hs]
  · next hop =>
    obtain ⟨ti, hti, rfl⟩ := Option.map_eq_some_iff.mp h
    rw [if_neg hop, ← getTime_eq_some hti]
    refine ⟨?_, fun s hs => ?_⟩
    · rw [find_setInstructionTimeAndDelay, if_pos rfl, hd]
      rfl
    · rw [find_setInstructionTimeAndDelay, if_neg hs]

/-- The times that the pass reads for the entry `k`: those it has given to the keys before, and
those of the table at the start for the others. -/
def seen (T T' : InstructionTable) (k s : Reg) : ℤ := if s < k then available T' s else available T s

theorem available_congr (h : T.find s = T'.find s) : available T s = available T' s := by
  rw [available, available, getAvailableTime, getAvailableTime, h]

/-- The keys of an entry that is still to come are above those of the entries done. -/
theorem lt_of_prefix {before : List (Reg × InstructionData)} {e e' : Reg × InstructionData}
    (h : before ++ [e] <+: T.instructionMap.toList) (he' : e' ∈ before) : e'.1 < e.1 := by
  have hord : (before ++ [e]).Pairwise (fun a b => compare a.1 b.1 = .lt) :=
    ExtTreeMap.ordered_keys_toList.sublist h.sublist
  exact compare_lt_iff_lt.mp ((List.pairwise_append.mp hord).2.2 e' he' e List.mem_cons_self)

/-- **What the pass has done** after some of the entries. -/
theorem find_of_run_before {before : List (Reg × InstructionData)} (h : run step T before = some T₁)
    (hpre : before <+: T.instructionMap.toList) :
    (∀ s, s ∉ before.map (·.1) → T₁.find s = T.find s) ∧
      ∀ e ∈ before, T₁.find e.1 = some (scheduledEntry (seen T T₁ e.1) e.2) := by
  refine run_induction (P := fun before T₁ => before <+: T.instructionMap.toList →
    (∀ s, s ∉ before.map (·.1) → T₁.find s = T.find s) ∧
      ∀ e ∈ before, T₁.find e.1 = some (scheduledEntry (seen T T₁ e.1) e.2)) ?_ ?_ h hpre
  · exact fun _ => ⟨fun _ _ => rfl, by simp⟩
  · rintro before T₁ ⟨k, d⟩ T₂ - ih hstep hpre
    obtain ⟨hkeep, hdone⟩ := ih ((List.prefix_append _ _).trans hpre)
    have hlt : ∀ e ∈ before, e.1 < k := fun e he => lt_of_prefix hpre he
    have hnot : ∀ s, k ≤ s → s ∉ before.map (·.1) := by
      rintro s hle hs
      obtain ⟨e, he, rfl⟩ := List.mem_map.mp hs
      exact absurd (hlt e he) (Nat.not_lt.mpr hle)
    have hd : T.find k = some d :=
      ExtTreeMap.mem_toList_iff_getElem?_eq_some.mp (hpre.subset (by simp))
    obtain ⟨hk, hother⟩ := find_of_step hstep ((hkeep k (hnot k le_rfl)).trans hd)
    refine ⟨fun s hs => ?_, fun e he => ?_⟩
    · simp only [List.map_append, List.map_cons, List.map_nil, List.mem_append, List.mem_singleton,
        not_or] at hs
      rw [hother s hs.2, hkeep s hs.1]
    · have hseen : ∀ k' s, k' ≤ k → seen T T₂ k' s = seen T T₁ k' s := by
        intro k' s hle
        unfold seen
        split
        · next hs => exact available_congr (hother s (Nat.ne_of_lt (hs.trans_le hle)))
        · rfl
      rcases List.mem_append.mp he with he | he
      · rw [hother e.1 (Nat.ne_of_lt (hlt e he)), hdone e he]
        exact congrArg (fun f => some (scheduledEntry f e.2)) (funext fun s =>
          (hseen e.1 s (hlt e he).le).symm)
      · obtain rfl := List.mem_singleton.mp he
        rw [hk]
        refine congrArg (fun f => some (scheduledEntry f d)) (funext fun s => ?_)
        rw [hseen k s le_rfl, seen]
        split
        · rfl
        · next hs => exact available_congr (hkeep s (hnot s (Nat.not_lt.mp hs)))

/-- **What the pass gives every entry.** -/
theorem find_of_scheduleFunction (h : scheduleFunction T = some T') (hd : T.find k = some d) :
    T'.find k = some (scheduledEntry (seen T T' k) d) := by
  obtain ⟨T₁, hrun, rfl⟩ := Option.map_eq_some_iff.mp h
  exact (find_of_run_before hrun (List.prefix_refl _)).2 (k, d) (ExtTreeMap.mem_toList_iff_getElem?_eq_some.mpr hd)

/-- The loads of a scheduled table start at 0. -/
theorem ti_of_load (h : scheduleFunction T = some T') (hd : T'.find k = some d) (hop : d.operation = .load) :
    d.ti = 0 := by
  cases hold : T.find k with
  | none =>
    obtain ⟨T₁, hrun, rfl⟩ := Option.map_eq_some_iff.mp h
    have hnot : k ∉ T.instructionMap.toList.map (·.1) := by
      rw [ExtTreeMap.map_fst_toList_eq_keys, ExtTreeMap.mem_keys, ← isSome_find, hold]
      decide
    rw [find_reorderInstructionVector, (find_of_run_before hrun (List.prefix_refl _)).1 k hnot, hold] at hd
    cases hd
  | some d₀ =>
    rw [find_of_scheduleFunction h hold, Option.some.injEq] at hd
    subst hd
    unfold scheduledEntry at hop ⊢
    split
    · rfl
    · next hne =>
      rw [if_neg hne] at hop
      exact absurd hop hne

/-- The pass ends: every source has an entry. -/
theorem exists_scheduleFunction (h : Closed T) : ∃ T', scheduleFunction T = some T' := by
  have hall : ∀ before, before <+: T.instructionMap.toList → ∃ T₁, run step T before = some T₁ := by
    intro before
    induction before using List.reverseRecOn with
    | nil => exact fun _ => ⟨T, rfl⟩
    | append_singleton before e ih =>
      intro hpre
      obtain ⟨T₁, hrun⟩ := ih ((List.prefix_append _ _).trans hpre)
      obtain ⟨hkeep, hdone⟩ := find_of_run_before hrun ((List.prefix_append _ _).trans hpre)
      have hmem : ∀ s, s ∈ T.instructionMap → s ∈ T₁.instructionMap := by
        intro s hs
        by_cases hbefore : s ∈ before.map (·.1)
        · obtain ⟨e', he', rfl⟩ := List.mem_map.mp hbefore
          rw [← isSome_find, hdone e' he']
          rfl
        · rwa [← isSome_find, hkeep s hbefore, isSome_find]
      have hd : T.find e.1 = some e.2 := ExtTreeMap.mem_toList_iff_getElem?_eq_some.mp (hpre.subset (by simp))
      rw [run_snoc hrun, step]
      by_cases hop : e.2.operation = .load
      · exact ⟨_, if_pos hop⟩
      · rw [if_neg hop]
        have hsome := isSome_getTime (T := T₁) (d := e.2)
          (fun h1 => hmem _ (h e.1 _ ⟨e.2, hd, hop, .inl ⟨h1, rfl⟩⟩))
          fun h2 => hmem _ (h e.1 _ ⟨e.2, hd, hop, .inr ⟨h2, rfl⟩⟩)
        obtain ⟨ti, hti⟩ := Option.isSome_iff_exists.mp hsome
        exact ⟨_, by rw [hti]; rfl⟩
  obtain ⟨T₁, hrun⟩ := hall _ (List.prefix_refl _)
  exact ⟨_, by rw [scheduleFunction, hrun]; rfl⟩

/-! ### The schedule -/

/-- The times that the pass gives solve the equations but for those it reads. -/
theorem available_of_scheduleFunction (h : scheduleFunction T = some T') (hd : T.find k = some d) :
    available T' k =
      if d.operation = .load then 0 else startFrom (seen T T' k) d + getOperationDelay d.operation := by
  rw [available, getAvailableTime, find_of_scheduleFunction h hd, scheduledEntry]
  split <;> rfl

/-- What the pass reads, when the keys before have their finishing times. -/
theorem startFrom_seen (hun : Unscheduled T) (hclosed : Closed T) (hd : T.find k = some d)
    (hop : d.operation ≠ .load) (hbefore : ∀ s ∈ T.instructionMap, s < k → available T' s = finish T s) :
    startFrom (seen T T' k) d = startFrom (finishBefore T k) d := by
  refine startFrom_congr_source hd hop fun s hs => ?_
  have hmem := hclosed k s hs
  unfold seen finishBefore
  split
  · next hlt => exact hbefore s hmem hlt
  · obtain ⟨d', hd'⟩ := Option.isSome_iff_exists.mp ((isSome_find T s).mpr hmem)
    obtain ⟨hti, hdi⟩ := hun s d' hd'
    rw [available, getAvailableTime, hd', Option.map_some, hti, hdi]
    rfl

/-- The finishing times of a table that the pass has scheduled. -/
theorem available_eq_finish (hclosed : Closed T) (hac : Acyclic (Source T)) (h : scheduleFunction T = some T')
    (hs : Scheduled T T') (hk : k ∈ T.instructionMap) : available T' k = finish T k := by
  refine finish_unique hclosed hac (fun k d hd => ?_) hk
  rw [available_of_scheduleFunction h hd]
  obtain ⟨ti, di, hfind, -, hstart, -⟩ := hs k d hd
  rw [find_of_scheduleFunction h hd, scheduledEntry] at hfind
  by_cases hop : d.operation = .load
  · rw [if_pos hop, if_pos hop]
  · rw [if_neg hop, Option.some.injEq] at hfind
    rw [if_neg hop, if_neg hop, ← hstart hop]
    exact congrArg (· + getOperationDelay d.operation) (congrArg InstructionData.ti hfind)

/-- **The pass schedules a table exactly when its operations have a delay and are in time.** -/
theorem scheduled_iff (hun : Unscheduled T) (hclosed : Closed T) (hac : Acyclic (Source T)) :
    (∃ T', scheduleFunction T = some T' ∧ Scheduled T T') ↔ InTime T := by
  constructor
  · rintro ⟨T', h, hs⟩ ⟨k, d⟩ he hop
    have hd : T.find k = some d := ExtTreeMap.mem_toList_iff_getElem?_eq_some.mp he
    obtain ⟨ti, di, hfind, -, hstart, hdelay⟩ := hs k d hd
    rw [find_of_scheduleFunction h hd, scheduledEntry, if_neg hop, Option.some.injEq] at hfind
    refine ⟨fun hem => (hdelay hem).trans_eq (congrArg InstructionData.di hfind).symm, ?_⟩
    have hfinish : ∀ s ∈ T.instructionMap, available T' s = finish T s := fun s hmem =>
      available_eq_finish hclosed hac h hs hmem
    calc startFrom (finishBefore T k) d
        = startFrom (seen T T' k) d :=
          (startFrom_seen hun hclosed hd hop fun s hmem _ => hfinish s hmem).symm
      _ = ti := congrArg InstructionData.ti hfind
      _ = startFrom (available T') d := hstart hop
      _ = startFrom (finish T) d := startFrom_congr_source hd hop fun s hsrc => hfinish s (hclosed k s hsrc)
  · intro hin
    obtain ⟨T', h⟩ := exists_scheduleFunction hclosed
    -- the induction is on the address: the pass has been at the smaller ones
    have hfinish : ∀ k ∈ T.instructionMap, available T' k = finish T k := by
      intro k
      induction k using Nat.strongRecOn with
      | ind k ih =>
        intro hk
        obtain ⟨d, hd⟩ := Option.isSome_iff_exists.mp ((isSome_find T k).mpr hk)
        rw [available_of_scheduleFunction h hd, finish_eq hclosed hac hd]
        by_cases hop : d.operation = .load
        · rw [if_pos hop, if_pos hop]
        · rw [if_neg hop, if_neg hop, startFrom_seen hun hclosed hd hop fun s hmem hlt => ih s hlt hmem,
            (hin (k, d) (ExtTreeMap.mem_toList_iff_getElem?_eq_some.mpr hd) hop).2]
    refine ⟨T', h, fun k d hd => ?_⟩
    rw [find_of_scheduleFunction h hd, scheduledEntry]
    by_cases hop : d.operation = .load
    · refine ⟨0, 0, by rw [if_pos hop], fun _ => rfl, fun hne => absurd hop hne, fun hem => ?_⟩
      rw [hop] at hem
      cases hem
    · obtain ⟨hdelay, hstart⟩ := hin (k, d) (ExtTreeMap.mem_toList_iff_getElem?_eq_some.mpr hd) hop
      refine ⟨_, _, by rw [if_neg hop], fun hload => absurd hload hop, fun _ => ?_, hdelay⟩
      rw [startFrom_seen hun hclosed hd hop fun s hmem _ => hfinish s hmem, hstart]
      exact (startFrom_congr_source hd hop fun s hsrc => hfinish s (hclosed k s hsrc)).symm

/-- In a schedule an operation starts when its sources have finished, or later. -/
theorem available_le_of_scheduled (hs : Scheduled T T') (hsrc : Source T k s) :
    ∃ d', T'.find k = some d' ∧ available T' s ≤ d'.ti := by
  obtain ⟨d, hd, hop, h⟩ := hsrc
  obtain ⟨ti, di, hfind, -, hstart, -⟩ := hs k d hd
  refine ⟨_, hfind, ?_⟩
  show available T' s ≤ ti
  rw [hstart hop, startFrom]
  rcases h with ⟨hne, rfl⟩ | ⟨hne, rfl⟩
  · exact le_max_of_le_left (by rw [sourceStart, if_neg hne])
  · exact le_max_of_le_right (by rw [sourceStart, if_neg hne])

/-- The table with its registers at other addresses. -/
def Renames (f : Reg → Reg) (T U : InstructionTable) : Prop :=
  ∀ k d, T.find k = some d → U.find (f k) = some { d with
    destinationReg := f d.destinationReg, sourceReg1 := f d.sourceReg1, sourceReg2 := f d.sourceReg2 }

/-- **The schedule does not depend on the addresses.** -/
theorem schedule_unique {U U' : InstructionTable} {f : Reg → Reg} (hf : Renames f T U) (hclosed : Closed T)
    (hac : Acyclic (Source T)) (h : scheduleFunction T = some T') (hs : Scheduled T T')
    (hU : scheduleFunction U = some U') (hsU : Scheduled U U') (hk : k ∈ T.instructionMap) :
    available U' (f k) = available T' k := by
  rw [available_eq_finish hclosed hac h hs hk]
  refine finish_unique hclosed hac (f := fun k => available U' (f k)) (fun k d hd => ?_) hk
  obtain ⟨ti, di, hfind, -, hstart, -⟩ := hsU _ _ (hf k d hd)
  rw [find_of_scheduleFunction hU (hf k d hd), scheduledEntry] at hfind
  rw [available_of_scheduleFunction hU (hf k d hd)]
  by_cases hop : d.operation = .load
  · rw [if_pos hop, if_pos hop]
  · rw [if_neg hop, Option.some.injEq] at hfind
    rw [if_neg hop, if_neg hop]
    exact congrArg (· + getOperationDelay d.operation) ((congrArg InstructionData.ti hfind).trans (hstart hop))

/-- The entry of a sum of two variables. -/
def sumEntry (destReg src1 src2 : Reg) : InstructionData :=
  ⟨0, 0, .add, [], destReg, .singleVariable, nullptr, src1, .singleVariable, nullptr, src2, .singleVariable,
    nullptr, false⟩

/-- Loads of the registers 16 and 20, and sums under the registers `r` and `r'`: the second one
reads the first. -/
def twoSums (r r' : Reg) : InstructionTable :=
  ((((InstructionTable.empty.insertLoadInstruction 16 .singleVariable).insertLoadInstruction 20
    .singleVariable).insertInstruction (sumEntry r 16 20))).insertInstruction (sumEntry r' r 16)

theorem find_eq_some_iff_mem : T.find k = some d ↔ (k, d) ∈ T.instructionMap.toList :=
  ExtTreeMap.mem_toList_iff_getElem?_eq_some.symm

theorem unscheduled_iff : Unscheduled T ↔ ∀ e ∈ T.instructionMap.toList, e.2.ti = 0 ∧ e.2.di = 0 :=
  ⟨fun h e he => h e.1 e.2 (find_eq_some_iff_mem.mpr he),
    fun h k d hd => h (k, d) (find_eq_some_iff_mem.mp hd)⟩

/-- The sources of an entry. -/
def sources (e : Reg × InstructionData) : List Reg :=
  if e.2.operation = .load then []
  else (if e.2.srcReg1Type = .constant then [] else [e.2.sourceReg1]) ++
    if e.2.srcReg2Type = .constant then [] else [e.2.sourceReg2]

theorem source_iff : Source T k s ↔ ∃ e ∈ T.instructionMap.toList, e.1 = k ∧ s ∈ sources e := by
  constructor
  · rintro ⟨d, hd, hop, h⟩
    refine ⟨(k, d), find_eq_some_iff_mem.mp hd, rfl, ?_⟩
    rw [sources, if_neg hop]
    rcases h with ⟨hne, rfl⟩ | ⟨hne, rfl⟩
    · simp [hne]
    · simp [hne]
  · rintro ⟨⟨k', d⟩, he, rfl, hs⟩
    unfold sources at hs
    split at hs
    · simp at hs
    · next hop =>
      refine ⟨d, find_eq_some_iff_mem.mpr he, hop, ?_⟩
      rcases List.mem_append.mp hs with h | h
      · split at h
        · simp at h
        · next hne => exact .inl ⟨hne, by simpa using h⟩
      · split at h
        · simp at h
        · next hne => exact .inr ⟨hne, by simpa using h⟩

theorem closed_iff : Closed T ↔ ∀ e ∈ T.instructionMap.toList, ∀ s ∈ sources e, s ∈ T.instructionMap :=
  ⟨fun h e he s hs => h e.1 s (source_iff.mpr ⟨e, he, rfl, hs⟩), fun h k s hs => by
    obtain ⟨e, he, -, hmem⟩ := source_iff.mp hs
    exact h e he s hmem⟩

/-- A rank of the entries shows that the sources are acyclic. -/
theorem acyclic_of_entries (rank : Reg → ℕ)
    (h : ∀ e ∈ T.instructionMap.toList, ∀ s ∈ sources e, rank s < rank e.1) : Acyclic (Source T) :=
  acyclic_of_rank rank fun k s hs => by
    obtain ⟨e, he, rfl, hmem⟩ := source_iff.mp hs
    exact h e he s hmem

/-- The first sum has the smaller address: the table is scheduled. -/
theorem scheduled_iff_twoSums :
    ∃ T', scheduleFunction (twoSums 24 28) = some T' ∧ Scheduled (twoSums 24 28) T' :=
  (scheduled_iff (unscheduled_iff.mpr (by decide +kernel)) (closed_iff.mpr (by decide +kernel))
    (acyclic_of_entries id (by decide +kernel))).mpr (by decide +kernel)

theorem dependentFirst_isSome : (scheduleFunction (twoSums 28 24)).isSome := by decide +kernel

/-- The second sum has the smaller address: it starts at 0, before the sum that it reads has
finished. -/
theorem dependent_first_too_early :
    Unscheduled (twoSums 28 24) ∧ Closed (twoSums 28 24) ∧ Acyclic (Source (twoSums 28 24)) ∧
      ∃ T', scheduleFunction (twoSums 28 24) = some T' ∧ (T'.find 24).map (·.ti) = some 0 ∧
        available T' 28 = 1 ∧ ¬ Scheduled (twoSums 28 24) T' := by
  have htime :
      (((scheduleFunction (twoSums 28 24)).get dependentFirst_isSome).find 24).map (·.ti) = some 0 := by
    decide +kernel
  have hsum : available ((scheduleFunction (twoSums 28 24)).get dependentFirst_isSome) 28 = 1 := by
    decide +kernel
  refine ⟨unscheduled_iff.mpr (by decide +kernel), closed_iff.mpr (by decide +kernel),
    acyclic_of_entries (fun r => 52 - r + if r < 24 then 0 else 100) (by decide +kernel),
    _, (Option.some_get dependentFirst_isSome).symm, htime, hsum, fun hs => ?_⟩
  have hsrc : Source (twoSums 28 24) 24 28 := source_iff.mpr (by decide +kernel)
  obtain ⟨d', hd', hle⟩ := available_le_of_scheduled hs hsrc
  rw [hd', Option.map_some, Option.some.injEq] at htime
  rw [hsum, htime] at hle
  exact absurd hle (by decide)

end ASAP

end Octantis
