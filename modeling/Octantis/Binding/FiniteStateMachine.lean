import Mathlib.Data.List.Nodup
import Mathlib.Data.List.Range
import Octantis.Binding.LiMArray

/-!
# The finite state machine

The times of the algorithm (`FiniteStateMachine`). `FSM2` gives each row the time
at which it is written; `transform` turns it into `FSM`, the list of the rows of
each time, which the code generators read; `selectionSignalsList` holds the
activation times of the 2-to-1 muxes.

`getTime` of a row with no time dereferences the end iterator: `none`.
`deleteInstruction`, the printers and the member `time` are left out, nothing
that binds or prints the VHDL uses them.
-/

namespace Octantis

open Std

/-- The selection signal of a mux: the row it is in, and its activation times. -/
structure SelectionSignal where
  /-- The row with the mux. -/
  destRow : Name
  /-- The activation times: the select is `'0'` from the front, `'1'` from the back. -/
  activeTimeList : List ℤ
  deriving DecidableEq, Repr

/-- The finite state machine of the algorithm. -/
structure FiniteStateMachine where
  /-- The rows of each time, filled by `transform`. -/
  FSM : ExtTreeMap ℤ (List Name)
  /-- The time of each row. -/
  FSM2 : ExtTreeMap Name ℤ
  /-- The selection signals of the muxes. -/
  selectionSignalsList : List SelectionSignal

namespace FiniteStateMachine

/-- The machine with no rows. -/
def empty : FiniteStateMachine := ⟨∅, ∅, []⟩

/-- Allocate a row at a time; nothing happens when the row has one. -/
def addNewInstruction (F : FiniteStateMachine) (time : ℤ) (operand : Name) : FiniteStateMachine :=
  { F with FSM2 := F.FSM2.insertIfNew operand time }

/-- One row of `transform`: a new list for its time, or the end of the list there. -/
def transformRow (FSM : ExtTreeMap ℤ (List Name)) (entry : Name × ℤ) : ExtTreeMap ℤ (List Name) :=
  match FSM[entry.2]? with
  | none => FSM.insertIfNew entry.2 [entry.1]
  | some rows => FSM.insert entry.2 (rows ++ [entry.1])

/-- `FSM2` turned into `FSM`, row by row in the order of the names. -/
def transform (F : FiniteStateMachine) : FiniteStateMachine :=
  { F with FSM := F.FSM2.toList.foldl transformRow F.FSM }

/-- Insert the selection signal of a mux. -/
def insertSelectionSignal (F : FiniteStateMachine) (activeTimeList : List ℤ) (destRow : Name) :
    FiniteStateMachine :=
  { F with selectionSignalsList := F.selectionSignalsList ++ [⟨destRow, activeTimeList⟩] }

/-- The number of times. -/
def getFSMSize (F : FiniteStateMachine) : ℕ := F.FSM.size

/-- The time of a row. -/
def getTime (F : FiniteStateMachine) (operand : Name) : Option ℤ := F.FSM2[operand]?

/-! ### What the operations do to the times -/

@[simp] theorem getTime_empty (n : Name) : empty.getTime n = none := by simp [getTime, empty]

theorem getTime_addNewInstruction (F : FiniteStateMachine) (t : ℤ) (m n : Name) :
    (F.addNewInstruction t m).getTime n = if m = n ∧ F.getTime m = none then some t else F.getTime n := by
  unfold getTime addNewInstruction
  rw [ExtTreeMap.getElem?_insertIfNew]
  simp only [Nat.compare_eq_eq, getElem?_eq_none_iff]

@[simp] theorem getTime_insertSelectionSignal (F : FiniteStateMachine) (ts : List ℤ) (m n : Name) :
    (F.insertSelectionSignal ts m).getTime n = F.getTime n := rfl

@[simp] theorem selectionSignalsList_addNewInstruction (F : FiniteStateMachine) (t : ℤ) (m : Name) :
    (F.addNewInstruction t m).selectionSignalsList = F.selectionSignalsList := rfl

@[simp] theorem selectionSignalsList_insertSelectionSignal (F : FiniteStateMachine) (ts : List ℤ)
    (m : Name) :
    (F.insertSelectionSignal ts m).selectionSignalsList = F.selectionSignalsList ++ [⟨m, ts⟩] := rfl

/-! ### The times of the algorithm -/

theorem getElem?_transformRow (FSM : ExtTreeMap ℤ (List Name)) (entry : Name × ℤ) (t : ℤ) :
    (transformRow FSM entry)[t]? =
      if entry.2 = t then some (FSM[t]?.getD [] ++ [entry.1]) else FSM[t]? := by
  unfold transformRow
  cases h : FSM[entry.2]? with
  | none =>
    have hnot : entry.2 ∉ FSM := (getElem?_eq_none_iff _ _).mp h
    simp only [ExtTreeMap.getElem?_insertIfNew, Std.compare_eq_iff_eq]
    by_cases ht : entry.2 = t
    · subst ht
      simp [hnot]
    · simp [ht]
  | some rows =>
    simp only [ExtTreeMap.getElem?_insert, Std.compare_eq_iff_eq]
    by_cases ht : entry.2 = t
    · subst ht
      simp [h]
    · simp [ht]

/-- The rows of a time, in the order in which `FSM2` is read. -/
theorem getElem?_foldl_transformRow (entries : List (Name × ℤ)) (t : ℤ) :
    (entries.foldl transformRow ∅)[t]? =
      if (entries.filter (·.2 = t)).isEmpty then none
      else some ((entries.filter (·.2 = t)).map (·.1)) := by
  induction entries using List.reverseRecOn with
  | nil => simp
  | append_singleton entries entry ih =>
    rw [List.foldl_append, List.foldl_cons, List.foldl_nil, getElem?_transformRow, ih, List.filter_append]
    by_cases ht : entry.2 = t
    · cases hf : entries.filter (·.2 = t) <;> simp [ht]
    · rw [if_neg ht, List.filter_cons_of_neg (by simpa using ht), List.filter_nil, List.append_nil]

/-- **The rows of a time** after `transform`: those that have it. -/
theorem mem_transform {F : FiniteStateMachine} (hF : F.FSM = ∅) {t : ℤ} {n : Name} :
    (∃ rows, F.transform.FSM[t]? = some rows ∧ n ∈ rows) ↔ F.getTime n = some t := by
  have hmem : n ∈ (F.FSM2.toList.filter (·.2 = t)).map (·.1) ↔ F.getTime n = some t := by
    rw [getTime, ← ExtTreeMap.mem_toList_iff_getElem?_eq_some]
    constructor
    · intro h
      obtain ⟨⟨m, t'⟩, hentry, rfl⟩ := List.mem_map.mp h
      obtain ⟨hin, ht⟩ := List.mem_filter.mp hentry
      exact of_decide_eq_true ht ▸ hin
    · intro h
      exact List.mem_map.mpr ⟨(n, t), List.mem_filter.mpr ⟨h, by simp⟩, rfl⟩
  rw [transform]
  simp only [hF, getElem?_foldl_transformRow]
  rw [← hmem]
  constructor
  · rintro ⟨rows, hrows, hn⟩
    split at hrows
    · cases hrows
    · cases hrows
      exact hn
  · intro hn
    refine ⟨_, ?_, hn⟩
    rw [if_neg]
    intro hempty
    rw [List.isEmpty_iff.mp hempty] at hn
    simp at hn

/-- **Each row is once in the list of its time**, and in no other one. -/
theorem count_transform {F : FiniteStateMachine} (hF : F.FSM = ∅) (t : ℤ) (n : Name) :
    (F.transform.FSM[t]?.getD []).count n = if F.getTime n = some t then 1 else 0 := by
  cases hrows : F.transform.FSM[t]? with
  | none =>
    rw [if_neg]
    · rfl
    intro ht
    obtain ⟨rows, hrows', -⟩ := (mem_transform hF).mpr ht
    rw [hrows] at hrows'
    cases hrows'
  | some rows =>
    have hmem : n ∈ rows ↔ F.getTime n = some t := by
      rw [← mem_transform hF, hrows]
      simp
    have hnodup : rows.Nodup := by
      rw [transform] at hrows
      simp only [hF, getElem?_foldl_transformRow] at hrows
      split at hrows
      · cases hrows
      · cases hrows
        have hall : (F.FSM2.toList.map (·.1)).Nodup := by
          rw [ExtTreeMap.map_fst_toList_eq_keys]
          exact ExtTreeMap.nodup_keys
        exact hall.sublist (List.filter_sublist.map _)
    rw [Option.getD_some, hnodup.count]
    simp only [hmem]

/-- No list is empty. -/
theorem ne_nil_of_transform {F : FiniteStateMachine} (hF : F.FSM = ∅) {t : ℤ} {rows : List Name}
    (h : F.transform.FSM[t]? = some rows) : rows ≠ [] := by
  rw [transform] at h
  simp only [hF, getElem?_foldl_transformRow] at h
  split at h
  · cases h
  · next hne =>
    cases h
    simpa using hne

/-- There is a state for each of the times from 0 on, when none is missing. -/
theorem le_getFSMSize_transform {F : FiniteStateMachine} (hF : F.FSM = ∅) {k : ℕ}
    (h : ∀ i < k, ∃ n, F.getTime n = some (i : ℤ)) : k ≤ F.transform.getFSMSize := by
  have hkeys : ∀ i < k, (i : ℤ) ∈ F.transform.FSM.keys := by
    intro i hi
    obtain ⟨n, hn⟩ := h i hi
    obtain ⟨rows, hrows, -⟩ := (mem_transform hF).mpr hn
    rw [ExtTreeMap.mem_keys, ExtTreeMap.mem_iff_isSome_getElem?]
    exact Option.isSome_of_eq_some hrows
  have hsub : (List.range k).map (fun i : ℕ => (i : ℤ)) ⊆ F.transform.FSM.keys := by
    intro t ht
    obtain ⟨i, hi, rfl⟩ := List.mem_map.mp ht
    exact hkeys i (List.mem_range.mp hi)
  have hnodup : ((List.range k).map (fun i : ℕ => (i : ℤ))).Nodup :=
    List.nodup_range.map fun i j hij => Int.ofNat_inj.mp hij
  have hlen := hnodup.length_le_of_subset hsub
  rw [List.length_map, List.length_range, ExtTreeMap.length_keys] at hlen
  exact hlen

end FiniteStateMachine

end Octantis
