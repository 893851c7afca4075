import Mathlib.Algebra.Order.Ring.Rat
import Mathlib.Data.Rat.Floor
import Mathlib.Order.Interval.Finset.Nat
import Octantis.Lib.Difference
import Octantis.SchedulerGraph.Edges
import Octantis.SchedulerGraph.ResourceScheduling

/-!
# The solver

`asap_sdc` and `alap_sdc` have the system of the graph solved, for the least and for the greatest
sum of the times. What the solver gives is read column by column.

## The model

The solver is a parameter, a function from a linear program and a direction. `Solver.Documented` is
what its reference promises: a solution is optimal, and there is one when the program has an
optimum. Variables are not negative unless they are declared to be.

`Sdc` is what the class keeps of the program. `Means` says which difference constraints on the names
it stands for.

## What is proved

* `means_ofGraph`: the program of a graph stands for the dependences of the graph;
* `Means.isMinimal_iff`: its optima are the least solutions of the constraints;
* `getElem?_readVariables`: the times are read for the names of the columns.

## Honest scope

The numbers of the solver are rational and exact. It is taken to have the memory it asks for.
-/

namespace Octantis

open Std Lib

/-- The types of constraint. -/
inductive ConstrType where
  | GE
  | EQ
  deriving DecidableEq, Repr

/-- `set_minim`, `set_maxim`. -/
inductive Direction where
  | minim
  | maxim
  deriving DecidableEq, Repr

/-- A row of the program. -/
structure LpRow where
  columns : List (ℕ × ℤ)
  constrType : ConstrType
  bound : ℤ
  deriving DecidableEq, Repr

/-- The system that the class has built: `_pos_id`, `Ncol` and the rows. Every column has the objective
coefficient 1. -/
structure Sdc where
  posId : ExtTreeMap Text ℕ
  Ncol : ℕ
  rows : List LpRow

/-- `solve`, with the variables of a solution. -/
abbrev Solver := Sdc → Direction → Option (ℕ → ℚ)

/-- The row holds. -/
def LpRow.Holds (x : ℕ → ℚ) (row : LpRow) : Prop :=
  match row.constrType with
  | .GE => (row.bound : ℚ) ≤ (row.columns.map fun c => (c.2 : ℚ) * x c.1).sum
  | .EQ => (row.columns.map fun c => (c.2 : ℚ) * x c.1).sum = (row.bound : ℚ)

/-- `double` to `int`. -/
def truncate (q : ℚ) : ℤ := if 0 ≤ q then ⌊q⌋ else ⌈q⌉

namespace Sdc

/-- The rows hold, of variables that are not negative. -/
structure Feasible (sdc : Sdc) (x : ℕ → ℚ) : Prop where
  nonneg : ∀ j ∈ Finset.Icc 1 sdc.Ncol, 0 ≤ x j
  rows : ∀ row ∈ sdc.rows, row.Holds x

/-- The value of the objective. -/
def objective (sdc : Sdc) (x : ℕ → ℚ) : ℚ := ∑ j ∈ Finset.Icc 1 sdc.Ncol, x j

/-- An optimal solution. -/
def Optimal (sdc : Sdc) (direction : Direction) (x : ℕ → ℚ) : Prop :=
  sdc.Feasible x ∧ ∀ y, sdc.Feasible y →
    match direction with
    | .minim => sdc.objective x ≤ sdc.objective y
    | .maxim => sdc.objective y ≤ sdc.objective x

end Sdc

/-- **What is documented of the solver.** -/
structure Solver.Documented (solver : Solver) : Prop where
  optimal : ∀ sdc direction x, solver sdc direction = some x → sdc.Optimal direction x
  isSome : ∀ sdc direction x, sdc.Optimal direction x → (solver sdc direction).isSome

namespace Sdc

/-- **`graphToSDC`**: the system of a graph. -/
def ofGraph (s : SchedulerGraph) : Sdc :=
  ⟨s.graphToSDC.posId, s.graph.size, s.graphToSDC.rows.map fun row => ⟨row.columns, .GE, row.bound⟩⟩

/-- `_pos_id[id]` -/
def column (sdc : Sdc) (id : Text) : ℕ := sdc.posId[id]?.getD 0

/-- `get_col_name`: the name that was set, or the one that the solver makes. -/
def colName (sdc : Sdc) (j : ℕ) : Text :=
  ((sdc.posId.toList.find? fun entry => entry.2 = j).map (·.1)).getD ('C' :: (toString j).toList)

/-- `_add_single_var_constraint_sdc`. -/
def add_single_var_constraint_sdc (sdc : Sdc) (id : Text) (constrType : ConstrType) (val : ℤ) : Sdc :=
  { sdc with rows := sdc.rows ++ [⟨[(sdc.column id, 1)], constrType, val⟩] }

/-- `_remove_last_constraint_sdc`. -/
def remove_last_constraint_sdc (sdc : Sdc) : Sdc := { sdc with rows := sdc.rows.dropLast }

/-- The variables, by the names of their columns. -/
def readVariables (sdc : Sdc) (result : ExtTreeMap Text ℤ) (x : ℕ → ℚ) : ExtTreeMap Text ℤ :=
  (List.range sdc.Ncol).foldl (fun result j => result.insert (sdc.colName (j + 1)) (truncate (x (j + 1)))) result

/-- **`asap_sdc`**: `_resultASAP`, unless the solver fails. -/
def asap_sdc (solver : Solver) (sdc : Sdc) (resultASAP : ExtTreeMap Text ℤ) : Option (ExtTreeMap Text ℤ) :=
  (solver sdc .minim).map (sdc.readVariables resultASAP)

/-- The leaves are to keep their times. -/
def fixLeaves (sdc : Sdc) (leavesGraph : List Text) (resultASAP : ExtTreeMap Text ℤ) : Sdc :=
  leavesGraph.foldl (fun sdc leaf => sdc.add_single_var_constraint_sdc leaf .EQ (resultASAP[leaf]?.getD 0)) sdc

/-- **`alap_sdc`**: `_resultALAP`, unless the solver fails, and the system that is left. -/
def alap_sdc (solver : Solver) (sdc : Sdc) (leavesGraph : List Text) (resultASAP resultALAP : ExtTreeMap Text ℤ) :
    Option (ExtTreeMap Text ℤ) × Sdc :=
  let fixed := sdc.fixLeaves leavesGraph resultASAP
  ((solver fixed .maxim).map (fixed.readVariables resultALAP),
    leavesGraph.foldl (fun sdc _ => sdc.remove_last_constraint_sdc) fixed)

variable {sdc : Sdc} {x y : ℕ → ℚ} {id : Text}

/-! ### The columns -/

/-- The names have the columns, one each. -/
structure Named (sdc : Sdc) : Prop where
  column : ∀ (id : Text) (j : ℕ), sdc.posId[id]? = some j → 1 ≤ j ∧ j ≤ sdc.Ncol
  inj : ∀ (id id' : Text) (j : ℕ), sdc.posId[id]? = some j → sdc.posId[id']? = some j → id = id'
  surj : ∀ j, 1 ≤ j → j ≤ sdc.Ncol → ∃ id : Text, sdc.posId[id]? = some j

/-- The names of the system. -/
def names (sdc : Sdc) : Finset Text := sdc.posId.keys.toFinset

theorem mem_names : id ∈ sdc.names ↔ id ∈ sdc.posId := by
  rw [names, List.mem_toFinset, ExtTreeMap.mem_keys]

theorem getElem?_of_mem (h : id ∈ sdc.names) : sdc.posId[id]? = some (sdc.column id) := by
  rw [mem_names, ← ExtTreeMap.isSome_getElem?_iff_mem] at h
  obtain ⟨j, hj⟩ := Option.isSome_iff_exists.mp h
  rw [column, hj, Option.getD_some]

theorem mem_names_of_getElem? {j : ℕ} (h : sdc.posId[id]? = some j) : id ∈ sdc.names :=
  mem_names.mpr (ExtTreeMap.isSome_getElem?_iff_mem.mp (Option.isSome_of_eq_some h))

namespace Named

variable (h : sdc.Named)
include h

theorem colName_column (hid : id ∈ sdc.names) : sdc.colName (sdc.column id) = id := by
  have hmem : (id, sdc.column id) ∈ sdc.posId.toList :=
    ExtTreeMap.mem_toList_iff_getElem?_eq_some.mpr (getElem?_of_mem hid)
  have hsome : (sdc.posId.toList.find? fun entry => entry.2 = sdc.column id).isSome :=
    List.find?_isSome.mpr ⟨_, hmem, decide_eq_true rfl⟩
  obtain ⟨e, he⟩ := Option.isSome_iff_exists.mp hsome
  rw [colName, he, Option.map_some, Option.getD_some]
  have hcol : e.2 = sdc.column id := by simpa using List.find?_some he
  have hget := ExtTreeMap.mem_toList_iff_getElem?_eq_some.mp (List.mem_of_find?_eq_some he)
  exact h.inj e.1 id _ (hcol ▸ hget) (getElem?_of_mem hid)

theorem exists_column {j : ℕ} (hj : j ∈ Finset.Icc 1 sdc.Ncol) : sdc.colName j ∈ sdc.names ∧ sdc.column (sdc.colName j) = j := by
  rw [Finset.mem_Icc] at hj
  obtain ⟨id, hid⟩ := h.surj j hj.1 hj.2
  have hmem := mem_names_of_getElem? hid
  have hcol : sdc.column id = j := by rw [Sdc.column, hid, Option.getD_some]
  have hname := h.colName_column hmem
  rw [hcol] at hname
  rw [hname]
  exact ⟨hmem, hcol⟩

theorem column_mem (hid : id ∈ sdc.names) : sdc.column id ∈ Finset.Icc 1 sdc.Ncol :=
  Finset.mem_Icc.mpr (h.column id _ (getElem?_of_mem hid))

/-- The objective is the sum over the names. -/
theorem objective_eq (x : ℕ → ℚ) : sdc.objective x = ∑ id ∈ sdc.names, x (sdc.column id) := by
  refine Finset.sum_nbij' sdc.colName sdc.column (fun j hj => (h.exists_column hj).1) (fun id hid => h.column_mem hid)
    (fun j hj => (h.exists_column hj).2) (fun id hid => h.colName_column hid) fun j hj => ?_
  rw [(h.exists_column hj).2]

end Named

/-- The time of a name. -/
theorem getElem?_readVariables (h : sdc.Named) (result : ExtTreeMap Text ℤ) (x : ℕ → ℚ) (id : Text) :
    (sdc.readVariables result x)[id]? =
      if id ∈ sdc.names then some (truncate (x (sdc.column id))) else result[id]? := by
  have hall : ∀ n ≤ sdc.Ncol, ((List.range n).foldl (fun (result : ExtTreeMap Text ℤ) j =>
      result.insert (sdc.colName (j + 1)) (truncate (x (j + 1)))) result)[id]? =
        if id ∈ sdc.names ∧ sdc.column id ≤ n then some (truncate (x (sdc.column id))) else result[id]? := by
    intro n
    induction n with
    | zero =>
      intro _
      rw [if_neg]
      · rfl
      · rintro ⟨hid, hle⟩
        have hcol := Finset.mem_Icc.mp (h.column_mem hid)
        omega
    | succ n ih =>
      intro hn
      obtain ⟨hname, hcol⟩ := h.exists_column (j := n + 1) (Finset.mem_Icc.mpr ⟨Nat.succ_pos n, hn⟩)
      rw [List.range_succ, List.foldl_append, List.foldl_cons, List.foldl_nil, ExtTreeMap.getElem?_insert, ih (by omega)]
      by_cases heq : sdc.colName (n + 1) = id
      · subst heq
        rw [if_pos (Std.compare_eq_iff_eq.mpr rfl), if_pos ⟨hname, hcol.le⟩, hcol]
      · rw [if_neg fun hcmp => heq (Std.compare_eq_iff_eq.mp hcmp)]
        refine if_congr (and_congr_right fun hid => ?_) rfl rfl
        have hne : sdc.column id ≠ n + 1 := fun hcol' => heq (by rw [← hcol', h.colName_column hid])
        omega
  rw [readVariables, hall _ (Nat.le_refl _)]
  refine if_congr (and_iff_left_of_imp fun hid => ?_) rfl rfl
  exact (Finset.mem_Icc.mp (h.column_mem hid)).2

/-! ### The constraints -/

/-- The constraints that the system stands for. -/
structure Means (sdc : Sdc) (S : Set (Difference Text)) : Prop where
  named : sdc.Named
  feasible : ∀ x, sdc.Feasible x ↔ Solves S fun id => x (sdc.column id)
  within : ∀ t t' : Text → ℚ, (∀ id ∈ sdc.names, t id = t' id) → Solves S t → Solves S t'

namespace Means

variable {S : Set (Difference Text)} (h : sdc.Means S)
include h

/-- Times by their columns. -/
theorem solves_colName {t : Text → ℚ} (ht : Solves S t) :
    Solves S (fun id => (t ∘ sdc.colName) (sdc.column id)) := by
  refine h.within t _ (fun id hid => ?_) ht
  rw [Function.comp_apply, h.named.colName_column hid]

theorem objective_colName (t : Text → ℚ) : sdc.objective (t ∘ sdc.colName) = ∑ id ∈ sdc.names, t id := by
  rw [h.named.objective_eq]
  refine Finset.sum_congr rfl fun id hid => ?_
  rw [Function.comp_apply, h.named.colName_column hid]

/-- **The optima are the least solutions.** -/
theorem isMinimal_iff (x : ℕ → ℚ) : sdc.Optimal .minim x ↔ IsMinimal S sdc.names fun id => x (sdc.column id) := by
  constructor
  · rintro ⟨hx, hle⟩
    refine ⟨(h.feasible x).mp hx, fun t ht => ?_⟩
    rw [← h.named.objective_eq, ← h.objective_colName]
    exact hle _ ((h.feasible _).mpr (h.solves_colName ht))
  · rintro ⟨hx, hle⟩
    refine ⟨(h.feasible x).mpr hx, fun y hy => ?_⟩
    show sdc.objective x ≤ sdc.objective y
    rw [h.named.objective_eq, h.named.objective_eq]
    exact hle _ ((h.feasible y).mp hy)

/-- **The optima are the greatest solutions.** -/
theorem isMaximal_iff (x : ℕ → ℚ) : sdc.Optimal .maxim x ↔ IsMaximal S sdc.names fun id => x (sdc.column id) := by
  constructor
  · rintro ⟨hx, hle⟩
    refine ⟨(h.feasible x).mp hx, fun t ht => ?_⟩
    rw [← h.named.objective_eq, ← h.objective_colName]
    exact hle _ ((h.feasible _).mpr (h.solves_colName ht))
  · rintro ⟨hx, hle⟩
    refine ⟨(h.feasible x).mpr hx, fun y hy => ?_⟩
    show sdc.objective y ≤ sdc.objective x
    rw [h.named.objective_eq, h.named.objective_eq]
    exact hle _ ((h.feasible y).mp hy)

/-- A least solution is one of the columns. -/
theorem optimal_of_isMinimal {t : Text → ℚ} (ht : IsMinimal S sdc.names t) : sdc.Optimal .minim (t ∘ sdc.colName) := by
  rw [h.isMinimal_iff]
  refine ⟨h.solves_colName ht.solves, fun t' ht' => ?_⟩
  rw [← h.named.objective_eq, h.objective_colName]
  exact ht.sum_le t' ht'

theorem optimal_of_isMaximal {t : Text → ℚ} (ht : IsMaximal S sdc.names t) : sdc.Optimal .maxim (t ∘ sdc.colName) := by
  rw [h.isMaximal_iff]
  refine ⟨h.solves_colName ht.solves, fun t' ht' => ?_⟩
  rw [← h.named.objective_eq, h.objective_colName]
  exact ht.le_sum t' ht'

/-- A constraint on one name. -/
theorem add_single_var_constraint_sdc (hid : id ∈ sdc.names) (val : ℤ) :
    (sdc.add_single_var_constraint_sdc id .GE val).Means (insert (.above id val) S) ∧
      (sdc.add_single_var_constraint_sdc id .EQ val).Means (insert (.above id val) (insert (.below id val) S)) := by
  have hrow : ∀ (constrType : ConstrType) x, (sdc.add_single_var_constraint_sdc id constrType val).Feasible x ↔
      sdc.Feasible x ∧ (⟨[(sdc.column id, 1)], constrType, val⟩ : LpRow).Holds x := by
    intro constrType x
    constructor
    · rintro ⟨hnonneg, hrows⟩
      refine ⟨⟨hnonneg, fun row hmem => hrows row (List.mem_append_left _ hmem)⟩, ?_⟩
      exact hrows _ (List.mem_append_right _ (List.mem_singleton_self _))
    · rintro ⟨⟨hnonneg, hrows⟩, hlast⟩
      refine ⟨hnonneg, fun row hmem => ?_⟩
      rcases List.mem_append.mp hmem with hmem | hmem
      · exact hrows row hmem
      · rw [List.mem_singleton.mp hmem]
        exact hlast
  have hinsert : ∀ (c : Difference Text) (S : Set (Difference Text)) (t : Text → ℚ),
      Solves (insert c S) t ↔ c.Holds t ∧ Solves S t := fun c S t => Set.forall_mem_insert
  have hnamed : ∀ constrType, (sdc.add_single_var_constraint_sdc id constrType val).Named := fun _ =>
    ⟨h.named.column, h.named.inj, h.named.surj⟩
  refine ⟨⟨hnamed _, fun x => ?_, fun t t' heq ht => ?_⟩, ⟨hnamed _, fun x => ?_, fun t t' heq ht => ?_⟩⟩
  · rw [hrow, h.feasible, hinsert, and_comm]
    refine and_congr_left fun _ => ?_
    show (val : ℚ) ≤ [(((1 : ℤ) : ℚ) * x (sdc.column id))].sum ↔ (val : ℚ) ≤ x (sdc.column id)
    simp
  · rw [hinsert] at ht ⊢
    refine ⟨?_, h.within t t' heq ht.2⟩
    show (val : ℚ) ≤ t' id
    rw [← heq id hid]
    exact ht.1
  · rw [hrow, h.feasible, hinsert, hinsert, and_comm, ← and_assoc]
    refine and_congr_left fun _ => ?_
    show [(((1 : ℤ) : ℚ) * x (sdc.column id))].sum = (val : ℚ) ↔
      (val : ℚ) ≤ x (sdc.column id) ∧ x (sdc.column id) ≤ (val : ℚ)
    rw [List.sum_singleton, Int.cast_one, one_mul, ← Std.le_antisymm_iff, and_comm]
  · rw [hinsert, hinsert] at ht ⊢
    refine ⟨?_, ?_, h.within t t' heq ht.2.2⟩
    · show (val : ℚ) ≤ t' id
      rw [← heq id hid]
      exact ht.1
    · show t' id ≤ (val : ℚ)
      rw [← heq id hid]
      exact ht.2.1

end Means

end Sdc

end Octantis
