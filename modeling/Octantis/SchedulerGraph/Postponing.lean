import Octantis.Lib.Retry
import Octantis.SchedulerGraph.FileTimes
import Octantis.SchedulerGraph.Rows

/-!
# The registers that are postponed

Where a register finds no row, the scheduling asks the solver to begin it later, and starts again.
The constraint stays: from one attempt to the next one no time gets earlier, and the register
comes after the time at which there was no row for it.

## The model

`Postponing` is the scheduling with the system of constraints, `again` the part of
`resourceScheduling` and `resourceSchedulingMaxArea` that adds the constraint, clears the
scheduling and calls `asap_sdc` and `alap_sdc`: it is `none` where the program exits. `first` is the
program up to the first call of the scheduling, when its solver does not fail.

## What is proved

* `Timed.again`: an attempt after a register was postponed begins, with later times;
* `postponed_run`: all attempts begin and the last one ends, with times that meet the dependences, as
  one of the runs of `resourceScheduling` with any answers.

## Honest scope

As in `Solver`: the solver is exact.
-/

namespace Octantis

open Std Lib Sdc

/-- The scheduling, and the system of constraints. -/
structure Postponing where
  scheduling : Scheduling
  sdc : Sdc

namespace Postponing

/-- The names in the order of the mobility list. -/
def order (s : Postponing) : List Text := s.scheduling.order

/-- One name of the list. -/
def place (step : Scheduling → Text → Option Scheduling) (s : Postponing) (id : Text) : Option Postponing :=
  (step s.scheduling id).map fun scheduling => { s with scheduling }

/-- The register is postponed, and everything begins again. -/
def again (solver : Solver) (leavesGraph : List Text) (s : Postponing) (id : Text) : Option Postponing := do
  let sdc := s.sdc.add_single_var_constraint_sdc id .GE (s.scheduling.Tstart id + 1)
  let cleared := s.scheduling.clear
  let resultASAP ← sdc.asap_sdc solver cleared.resultASAP
  let alap := sdc.alap_sdc solver leavesGraph resultASAP cleared.resultALAP
  let resultALAP ← alap.1
  some ⟨{ cleared with resultASAP, resultALAP, recursion := cleared.recursion - 1 }, alap.2⟩

/-- The scheduling of a graph with these times. -/
def ofTimes (sizes : Sizes) (graph : NodeMap) (resultASAP resultALAP : ExtTreeMap Text ℤ) : Scheduling where
  graph := graph
  columns := graph.keys
  resultASAP := resultASAP
  resultALAP := resultALAP
  typeUsage := ∅
  scoreboard _ _ _ := none
  scheduling _ := []
  HWscheduling _ := []
  HWgraph := ∅
  nodeToHW _ := []
  HWToNode _ := []
  memUsage := 0
  recursion := sizes.memSize * 6

/-- `graphToSDC`, `asap_sdc` and `alap_sdc`, before the scheduling. -/
def first (solver : Solver) (sizes : Sizes) (s : SchedulerGraph) : Option Postponing := do
  let sdc := ofGraph s
  let resultASAP ← sdc.asap_sdc solver ∅
  let alap := sdc.alap_sdc solver s.leavesGraph resultASAP ∅
  let resultALAP ← alap.1
  some ⟨ofTimes sizes s.graph resultASAP resultALAP, alap.2⟩

/-- The attempts, and the edges of the rows. -/
def schedule (step : Scheduling → Text → Option Scheduling) (solver : Solver) (leavesGraph : List Text)
    (s : Postponing) : Option Scheduling :=
  (retries (place step) order (again solver leavesGraph) s.scheduling.recursion s).map
    fun s => s.scheduling.connect_HWedge

/-- The states in which the attempts begin. -/
def begins (step : Scheduling → Text → Option Scheduling) (solver : Solver) (leavesGraph : List Text)
    (s : Postponing) : List Postponing :=
  beginnings (place step) order (again solver leavesGraph) s.scheduling.recursion s

/-- `resourceScheduling`, with the solver. -/
def resourceScheduling (solver : Solver) (sizes : Sizes) (leavesGraph : List Text) (s : Postponing) : Option Scheduling :=
  s.schedule (Scheduling.place sizes) solver leavesGraph

/-- `resourceSchedulingMaxArea`, with the solver. -/
def resourceSchedulingMaxArea (solver : Solver) (sizes : Sizes) (leavesGraph : List Text) (s : Postponing) :
    Option Scheduling :=
  s.schedule (Scheduling.placeMaxArea sizes) solver leavesGraph

end Postponing

/-! ### The results as maps -/

/-- The results of an answer are those that the solver gives for its names. -/
theorem foldl_insert_eq (columns : List Text) (t : Text → ℤ) {result : ExtTreeMap Text ℤ}
    (h : ∀ id, result[id]? = if id ∈ columns then some (t id) else none) :
    columns.foldl (fun (result : ExtTreeMap Text ℤ) id => result.insert id (t id)) ∅ = result := by
  have hfold : ∀ (columns : List Text) (start : ExtTreeMap Text ℤ) (id : Text),
      (columns.foldl (fun (result : ExtTreeMap Text ℤ) id => result.insert id (t id)) start)[id]? =
        if id ∈ columns then some (t id) else start[id]? := by
    intro columns
    induction columns with
    | nil => exact fun _ _ => rfl
    | cons column columns ih =>
      intro start id
      rw [List.foldl_cons, ih, ExtTreeMap.getElem?_insert]
      by_cases hmem : id ∈ columns
      · rw [if_pos hmem, if_pos (List.mem_cons_of_mem _ hmem)]
      · rw [if_neg hmem]
        by_cases heq : column = id
        · subst heq
          rw [if_pos (Std.compare_eq_iff_eq.mpr rfl), if_pos List.mem_cons_self]
        · rw [if_neg fun hcmp => heq (Std.compare_eq_iff_eq.mp hcmp), if_neg]
          rw [List.mem_cons, not_or]
          exact ⟨fun h => heq h.symm, hmem⟩
  refine ExtTreeMap.ext_getElem? fun id => ?_
  rw [hfold, h]
  simp

namespace Scheduling

variable {sizes : Sizes} {creates : Prop} {s s' : Scheduling} {id : Text}

/-- The names of the mobility list are those of the earliest times. -/
theorem mem_resultASAP_of_mem_order (h : id ∈ s.order) : id ∈ s.resultASAP := by
  have hfold : ∀ (entries : List (Text × ℤ)) (mob : Text → ℤ → ℤ) (start : ExtTreeMap ℤ (List Text)) (m : ℤ) (names : List Text),
      (entries.foldl (fun (mobilityList : ExtTreeMap ℤ (List Text)) entry =>
        mobilityList.insert (mob entry.1 entry.2) (mobilityList[mob entry.1 entry.2]?.getD [] ++ [entry.1])) start)[m]? =
          some names → ∀ id ∈ names, id ∈ entries.map (·.1) ∨ ∃ (m : ℤ) (names : List Text), start[m]? = some names ∧ id ∈ names := by
    intro entries mob
    induction entries with
    | nil => exact fun start m names h id hid => .inr ⟨m, names, h, hid⟩
    | cons entry entries ih =>
      intro start m names h id hid
      rcases ih _ m names h id hid with hmem | ⟨m', names', hget, hmem⟩
      · exact .inl (List.mem_cons_of_mem _ hmem)
      · rw [ExtTreeMap.getElem?_insert] at hget
        split at hget
        · obtain rfl := Option.some.inj hget
          rcases List.mem_append.mp hmem with hmem | hmem
          · cases hold : start[mob entry.1 entry.2]? with
            | none =>
              rw [hold] at hmem
              cases hmem
            | some old =>
              rw [hold] at hmem
              exact .inr ⟨_, old, hold, hmem⟩
          · rw [List.mem_singleton.mp hmem]
            exact .inl List.mem_cons_self
        · exact .inr ⟨m', names', hget, hmem⟩
  obtain ⟨entry, hentry, hid⟩ := List.mem_flatMap.mp h
  have hget := ExtTreeMap.mem_toList_iff_getElem?_eq_some.mp hentry
  rcases hfold s.resultASAP.toList (fun id t => s.resultALAP[id]?.getD 0 - t) ∅ entry.1 entry.2 hget id hid with
    hmem | ⟨m, names, hnone, -⟩
  · obtain ⟨e, he, rfl⟩ := List.mem_map.mp hmem
    exact ExtTreeMap.isSome_getElem?_iff_mem.mp (Option.isSome_of_eq_some
      (ExtTreeMap.mem_toList_iff_getElem?_eq_some.mp he))
  · simp at hnone

/-- A step keeps the times and the edges. -/
structure KeepsTimes (s s' : Scheduling) : Prop where
  columns : s'.columns = s.columns
  resultASAP : s'.resultASAP = s.resultASAP
  resultALAP : s'.resultALAP = s.resultALAP
  recursion : s'.recursion = s.recursion
  children : ∀ u, s'.graph.children u = s.graph.children u

theorem KeepsTimes.order (h : s.KeepsTimes s') : s'.order = s.order := by
  unfold Scheduling.order mobility_id
  rw [h.resultASAP, h.resultALAP]

theorem Placement.keepsTimes (h : Placement sizes creates s id s') : s.KeepsTimes s' := by
  cases h with
  | skip => exact ⟨rfl, rfl, rfl, rfl, fun _ => rfl⟩
  | create => exact ⟨rfl, rfl, rfl, rfl, children_newRow s id⟩
  | reuse => exact ⟨rfl, rfl, rfl, rfl, fun _ => rfl⟩

end Scheduling

/-! ### The attempts -/

/-- What is known of the graph: the children are nodes, no delay is negative, and every node has a leaf
after it. -/
structure Schedulable (g : NodeMap) (leavesGraph : List Text) : Prop where
  closed : g.Closed
  delays : g.DelaysNonneg
  leaves : ∀ leaf ∈ leavesGraph, leaf ∈ g
  path : ∀ v ∈ g, ∃ leaf ∈ leavesGraph, g.Path v leaf

/-- The dependences of the graph, and what has been postponed. -/
def postponed (g : NodeMap) (later : List (Text × ℤ)) : Set (Difference Text) :=
  g.dependences ∪ {c | ∃ e ∈ later, c = .above e.1 e.2}

section Postponed

variable {g : NodeMap} {later : List (Text × ℤ)} {u v : Text} {t : Text → ℚ}

theorem step_mem_postponed {d : ℤ} : .step u v d ∈ postponed g later ↔ .step u v d ∈ g.dependences := by
  simp [postponed]

theorem below_not_mem_postponed (v : Text) (c : ℤ) : .below v c ∉ postponed g later := by
  rintro (h | ⟨e, -, heq⟩)
  · exact NodeMap.below_not_mem_dependences v c h
  · cases heq

theorem finite_postponed (g : NodeMap) (later : List (Text × ℤ)) : (postponed g later).Finite := by
  refine g.finite_dependences.union (Set.Finite.subset (List.finite_toSet (later.map fun e => .above e.1 e.2)) ?_)
  rintro c ⟨e, he, rfl⟩
  exact List.mem_map.mpr ⟨e, he, rfl⟩

theorem postponed_nil (g : NodeMap) : postponed g [] = g.dependences := by
  rw [postponed, Set.union_eq_left]
  rintro c ⟨e, he, -⟩
  cases he

theorem postponed_cons (e : Text × ℤ) : postponed g (e :: later) = insert (.above e.1 e.2) (postponed g later) := by
  ext c
  simp only [postponed, Set.mem_union, Set.mem_ofPred_eq, List.mem_cons, exists_eq_or_imp, Set.mem_insert_iff]
  grind

theorem reach_postponed : Reach (postponed g later) u v ↔ g.Path u v := by
  rw [NodeMap.Path, ← NodeMap.reach_dependences]
  unfold Reach
  simp only [step_mem_postponed]

/-- Whatever is postponed, there are times. -/
theorem exists_solves_postponed (hg : g.DelaysNonneg) (h : ∃ t : Text → ℚ, Solves (postponed g later) t)
    (later' : List (Text × ℤ)) : ∃ t : Text → ℚ, Solves (postponed g later') t := by
  have hforward : ∀ later, Forward (postponed g later) := fun later u v d hd => hg.forward u v d (step_mem_postponed.mp hd)
  rw [exists_solves_iff (finite_postponed g _) (hforward _) below_not_mem_postponed] at h ⊢
  intro u v d hd hpos hreach
  exact h u v d (step_mem_postponed.mpr (step_mem_postponed.mp hd)) hpos (reach_postponed.mpr (reach_postponed.mp hreach))

end Postponed

/-- **Before an attempt**: the system stands for the dependences and for what has been postponed, and
the scheduling has its earliest and its latest times. -/
structure Timed (g : NodeMap) (leavesGraph : List Text) (later : List (Text × ℤ)) (s : Postponing) : Prop where
  means : s.sdc.Means (postponed g later)
  names : ∀ id, id ∈ s.sdc.names ↔ id ∈ g
  earliest : IsMinimal (postponed g later) s.sdc.names fun id => (timeOf s.scheduling.resultASAP id : ℚ)
  latest : IsMaximal (fixed (postponed g later) leavesGraph (timeOf s.scheduling.resultASAP)) s.sdc.names
    fun id => (timeOf s.scheduling.resultALAP id : ℚ)
  keysASAP : ∀ id : Text, s.scheduling.resultASAP[id]? =
    if id ∈ s.scheduling.columns then some (timeOf s.scheduling.resultASAP id) else none
  keysALAP : ∀ id : Text, s.scheduling.resultALAP[id]? =
    if id ∈ s.scheduling.columns then some (timeOf s.scheduling.resultALAP id) else none
  columns : ∀ id, id ∈ s.scheduling.columns ↔ id ∈ g
  children : ∀ u, s.scheduling.graph.children u = g.children u

/-- No time is earlier than before, and some register comes after the latest time it had. -/
structure NotEarlier (g : NodeMap) (s s' : Postponing) : Prop where
  asap : ∀ v ∈ g, timeOf s.scheduling.resultASAP v ≤ timeOf s'.scheduling.resultASAP v
  alap : ∀ v ∈ g, s.scheduling.Tstart v ≤ s'.scheduling.Tstart v
  later : ∃ id ∈ g, s.scheduling.Tstart id < timeOf s'.scheduling.resultASAP id

namespace Timed

variable {g : NodeMap} {leavesGraph : List Text} {later : List (Text × ℤ)} {s s' : Postponing} {sizes : Sizes}
  {solver : Solver} {id : Text}

/-- A step of the scheduling changes no time. -/
theorem of_keepsTimes {scheduling : Scheduling} (h : Timed g leavesGraph later s)
    (hkeeps : s.scheduling.KeepsTimes scheduling) : Timed g leavesGraph later { s with scheduling } := by
  obtain ⟨hcolumns, hasap, halap, -, hchildren⟩ := hkeeps
  refine ⟨h.means, h.names, ?_, ?_, ?_, ?_, ?_, fun u => (hchildren u).trans (h.children u)⟩
  · simp only [hasap]
    exact h.earliest
  · simp only [hasap, halap]
    exact h.latest
  · simp only [hasap, hcolumns]
    exact h.keysASAP
  · simp only [halap, hcolumns]
    exact h.keysALAP
  · simp only [hcolumns]
    exact h.columns

/-- After both calls of the solver. -/
theorem of_solved {sdc : Sdc} {scheduling : Scheduling} (hsolver : solver.Documented) (hmeans : sdc.Means (postponed g later))
    (hnames : ∀ id, id ∈ sdc.names ↔ id ∈ g) (hleaves : ∀ leaf ∈ leavesGraph, leaf ∈ g)
    (hasap : sdc.asap_sdc solver ∅ = some scheduling.resultASAP)
    (halap : (sdc.alap_sdc solver leavesGraph scheduling.resultASAP ∅).1 = some scheduling.resultALAP)
    (hcolumns : ∀ id, id ∈ scheduling.columns ↔ id ∈ g) (hchildren : ∀ u, scheduling.graph.children u = g.children u) :
    Timed g leavesGraph later ⟨scheduling, sdc⟩ := by
  have hin : ∀ leaf ∈ leavesGraph, leaf ∈ sdc.names := fun leaf hleaf => (hnames leaf).mpr (hleaves leaf hleaf)
  obtain ⟨hearliest, hsomeASAP⟩ := isMinimal_of_asap_sdc hsolver hmeans hasap
  obtain ⟨hlatest, hsomeALAP⟩ := isMaximal_of_alap_sdc hsolver hmeans hin halap
  have hnoneASAP : ∀ id : Text, id ∉ sdc.names → scheduling.resultASAP[id]? = none := by
    intro id hnot
    obtain ⟨x, -, hread⟩ := Option.map_eq_some_iff.mp hasap
    rw [← hread, getElem?_readVariables hmeans.named, if_neg hnot]
    simp
  have hnoneALAP : ∀ id : Text, id ∉ sdc.names → scheduling.resultALAP[id]? = none := by
    intro id hnot
    obtain ⟨hfixed, hpos⟩ := hmeans.fixLeaves hin scheduling.resultASAP
    obtain ⟨x, -, hread⟩ := Option.map_eq_some_iff.mp halap
    rw [← hread, getElem?_readVariables hfixed.named, if_neg]
    · simp
    · rwa [Sdc.names, hpos, ← Sdc.names]
  -- the names of the results are the columns
  have hread : ∀ {result : ExtTreeMap Text ℤ}, (∀ id ∈ sdc.names, result[id]? = some (timeOf result id)) →
      (∀ id : Text, id ∉ sdc.names → result[id]? = none) → ∀ id : Text,
      result[id]? = if id ∈ scheduling.columns then some (timeOf result id) else none := by
    intro result hsome hnone id
    by_cases hmem : id ∈ sdc.names
    · rw [if_pos ((hcolumns id).mpr ((hnames id).mp hmem)), hsome id hmem]
    · rw [if_neg fun hcol => hmem ((hnames id).mpr ((hcolumns id).mp hcol)), hnone id hmem]
  exact ⟨hmeans, hnames, hearliest, hlatest, hread hsomeASAP hnoneASAP, hread hsomeALAP hnoneALAP, hcolumns, hchildren⟩

/-- The results are those that the solver gives for the columns. -/
theorem solve_eq (h : Timed g leavesGraph later s) :
    { s.scheduling with resultASAP := ∅, resultALAP := ∅ }.solve
      ⟨timeOf s.scheduling.resultASAP, timeOf s.scheduling.resultALAP⟩ = s.scheduling := by
  unfold Scheduling.solve
  simp only
  rw [foldl_insert_eq _ _ h.keysASAP, foldl_insert_eq _ _ h.keysALAP]

/-- Both calls of the solver succeed, where the constraints can be met. -/
theorem exists_solved {sdc : Sdc} (hg : Schedulable g leavesGraph) (hsolver : solver.Documented)
    (hmeans : sdc.Means (postponed g later)) (hnames : ∀ id, id ∈ sdc.names ↔ id ∈ g)
    (hsolves : ∃ t : Text → ℚ, Solves (postponed g later) t) :
    ∃ asap alap, sdc.asap_sdc solver ∅ = some asap ∧ (sdc.alap_sdc solver leavesGraph asap ∅).1 = some alap := by
  have hin : ∀ leaf ∈ leavesGraph, leaf ∈ sdc.names := fun leaf hleaf => (hnames leaf).mpr (hg.leaves leaf hleaf)
  have hforward : Forward (postponed g later) := fun u v d hd => hg.delays.forward u v d (step_mem_postponed.mp hd)
  have hsome : (sdc.asap_sdc solver ∅).isSome := (asap_sdc_isSome_iff_solves hsolver hmeans).mpr hsolves
  obtain ⟨asap, hasap⟩ := Option.isSome_iff_exists.mp hsome
  have hmin := (isMinimal_of_asap_sdc hsolver hmeans hasap).1
  have hsomeALAP : (sdc.alap_sdc solver leavesGraph asap ∅).1.isSome := by
    rw [alap_sdc_isSome_iff hsolver hmeans hforward below_not_mem_postponed hin hmin.solves]
    intro v hv
    obtain ⟨leaf, hleaf, hpath⟩ := hg.path v ((hnames v).mp hv)
    exact ⟨leaf, hleaf, reach_postponed.mpr hpath⟩
  obtain ⟨alap, halap⟩ := Option.isSome_iff_exists.mp hsomeALAP
  exact ⟨asap, alap, hasap, halap⟩

/-- **A register is postponed**: the next attempt begins, and no time is earlier. -/
theorem again (hg : Schedulable g leavesGraph) (hsolver : solver.Documented) (h : Timed g leavesGraph later s) (hid : id ∈ g) :
    ∃ s', s.again solver leavesGraph id = some s' ∧
      Timed g leavesGraph ((id, s.scheduling.Tstart id + 1) :: later) s' ∧ NotEarlier g s s' ∧
      s'.scheduling.recursion = s.scheduling.recursion - 1 ∧
      s'.scheduling = s.scheduling.restart ⟨timeOf s'.scheduling.resultASAP, timeOf s'.scheduling.resultALAP⟩ := by
  have hin : id ∈ s.sdc.names := (h.names id).mpr hid
  have hmeans := (h.means.add_single_var_constraint_sdc hin (s.scheduling.Tstart id + 1)).1
  rw [← postponed_cons (id, s.scheduling.Tstart id + 1)] at hmeans
  generalize hsdc : s.sdc.add_single_var_constraint_sdc id .GE (s.scheduling.Tstart id + 1) = sdc at hmeans
  have hposId : sdc.posId = s.sdc.posId := hsdc ▸ rfl
  have hnames : ∀ id, id ∈ sdc.names ↔ id ∈ g := fun id => by
    rw [Sdc.names, hposId, ← Sdc.names, h.names]
  obtain ⟨asap, alap, hasap, halap⟩ := exists_solved hg hsolver hmeans hnames
    (exists_solves_postponed hg.delays ⟨_, h.earliest.solves⟩ _)
  have hagain : s.again solver leavesGraph id =
      some ⟨{ s.scheduling.clear with
        resultASAP := asap, resultALAP := alap, recursion := s.scheduling.clear.recursion - 1 }, sdc⟩ := by
    have hclearASAP : s.scheduling.clear.resultASAP = ∅ := rfl
    have hclearALAP : s.scheduling.clear.resultALAP = ∅ := rfl
    simp only [Postponing.again, hsdc, hclearASAP, hclearALAP, hasap, halap, Option.bind_eq_bind, Option.bind_some,
      alap_sdc_snd]
  generalize hs' : (⟨{ s.scheduling.clear with
    resultASAP := asap, resultALAP := alap, recursion := s.scheduling.clear.recursion - 1 }, sdc⟩ : Postponing) = s' at hagain
  have htimed : Timed g leavesGraph ((id, s.scheduling.Tstart id + 1) :: later) s' :=
    hs' ▸ of_solved hsolver hmeans hnames hg.leaves hasap halap h.columns h.children
  have heqASAP : s'.scheduling.resultASAP = asap := hs' ▸ rfl
  have heqALAP : s'.scheduling.resultALAP = alap := hs' ▸ rfl
  refine ⟨s', hagain, htimed, ?_, hs' ▸ rfl, ?_⟩
  · have hsub : postponed g later ⊆ postponed g ((id, s.scheduling.Tstart id + 1) :: later) := by
      rw [postponed_cons]
      exact Set.subset_insert _ _
    have hnotearlier : ∀ v ∈ g, timeOf s.scheduling.resultASAP v ≤ timeOf s'.scheduling.resultASAP v := fun v hv =>
      Int.cast_le.mp (h.earliest.le (htimed.earliest.solves.mono hsub) ((h.names v).mpr hv))
    refine ⟨hnotearlier, fun v hv => ?_, id, hid, ?_⟩
    · -- the later ones of the old and the new times solve the new constraints
      obtain ⟨hold, hkeptold⟩ := solves_fixed.mp h.latest.solves
      obtain ⟨hnew, hkeptnew⟩ := solves_fixed.mp htimed.latest.solves
      have hmax : Solves (fixed (postponed g ((id, s.scheduling.Tstart id + 1) :: later)) leavesGraph
          (timeOf s'.scheduling.resultASAP))
          fun v => max (timeOf s.scheduling.resultALAP v : ℚ) (timeOf s'.scheduling.resultALAP v : ℚ) := by
        refine solves_fixed.mpr ⟨?_, fun leaf hleaf => ?_⟩
        · have hsup := hold.sup (hnew.mono hsub)
          rintro c (hc | ⟨e, he, rfl⟩)
          · exact hsup c (.inl hc)
          · exact (show (e.2 : ℚ) ≤ _ from hnew _ (.inr ⟨e, he, rfl⟩)).trans (le_max_right _ _)
        · show max (timeOf s.scheduling.resultALAP leaf : ℚ) (timeOf s'.scheduling.resultALAP leaf : ℚ) = _
          rw [hkeptold leaf hleaf, hkeptnew leaf hleaf, max_eq_right]
          exact Int.cast_le.mpr (hnotearlier leaf (hg.leaves leaf hleaf))
      have hle := htimed.latest.le hmax ((htimed.names v).mpr hv)
      exact Int.cast_le.mp ((le_max_left _ _).trans hle)
    · have habove : ((s.scheduling.Tstart id + 1 : ℤ) : ℚ) ≤ (timeOf s'.scheduling.resultASAP id : ℚ) :=
        htimed.earliest.solves _ (.inr ⟨_, List.mem_cons_self, rfl⟩)
      exact Int.lt_of_add_one_le (Int.cast_le.mp habove)
  · have hsolve := htimed.solve_eq
    rw [heqASAP, heqALAP] at hsolve ⊢
    rw [← hsolve, ← hs']
    rfl

/-- The names of the mobility list are nodes. -/
theorem mem_of_mem_order (h : Timed g leavesGraph later s) (hid : id ∈ s.scheduling.order) : id ∈ g := by
  have hmem := ExtTreeMap.isSome_getElem?_iff_mem.mpr (Scheduling.mem_resultASAP_of_mem_order hid)
  rw [h.keysASAP] at hmem
  by_cases hcol : id ∈ s.scheduling.columns
  · exact (h.columns id).mp hcol
  · rw [if_neg hcol] at hmem
    cases hmem

/-- The times of an attempt. -/
theorem meets (h : Timed g leavesGraph later s) :
    g.Meets (timeOf s.scheduling.resultASAP) ∧ g.Meets (timeOf s.scheduling.resultALAP) ∧
      ∀ v ∈ g, timeOf s.scheduling.resultASAP v ≤ timeOf s.scheduling.resultALAP v := by
  obtain ⟨hlatest, hkept⟩ := solves_fixed.mp h.latest.solves
  refine ⟨NodeMap.meets_iff.mpr (h.earliest.solves.mono Set.subset_union_left),
    NodeMap.meets_iff.mpr (hlatest.mono Set.subset_union_left), fun v hv => ?_⟩
  have hasap : Solves (fixed (postponed g later) leavesGraph (timeOf s.scheduling.resultASAP))
      fun v => (timeOf s.scheduling.resultASAP v : ℚ) := solves_fixed.mpr ⟨h.earliest.solves, fun _ _ => rfl⟩
  exact Int.cast_le.mp (h.latest.le hasap ((h.names v).mpr hv))

end Timed

/-! ### All attempts -/

section Attempts

variable {g : NodeMap} {leavesGraph : List Text} {later : List (Text × ℤ)} {s : Postponing} {solver : Solver}
  {step : Scheduling → Text → Option Scheduling}
  (hkeeps : ∀ s id s', step s id = some s' → s.KeepsTimes s') (hnone : ∀ s id, step s id = none → 0 < s.recursion)
include hkeeps

/-- A step keeps the times, and the names that are to come. -/
theorem timed_place (s : Postponing) (id : Text) (s' : Postponing) (h : s.place step id = some s')
    (htimed : ∃ later, Timed g leavesGraph later s) :
    (∃ later, Timed g leavesGraph later s') ∧ s'.order = s.order := by
  obtain ⟨scheduling, hstep, rfl⟩ := Option.map_eq_some_iff.mp h
  obtain ⟨later, htimed⟩ := htimed
  exact ⟨⟨later, htimed.of_keepsTimes (hkeeps _ _ _ hstep)⟩, (hkeeps _ _ _ hstep).order⟩

/-- No time of an attempt is earlier than in the one before. -/
theorem isChain_of_timed (hg : Schedulable g leavesGraph) (hsolver : solver.Documented) (h : Timed g leavesGraph later s)
    (fuel : ℕ) : (beginnings (Postponing.place step) Postponing.order (Postponing.again solver leavesGraph) fuel s).IsChain
      (NotEarlier g) := by
  refine isChain_beginnings (timed_place hkeeps) ⟨later, h⟩ ?_ ?_
  · intro s id s' s'' hplace hlater
    obtain ⟨scheduling, hstep, rfl⟩ := Option.map_eq_some_iff.mp hplace
    obtain ⟨-, hasap, halap, -, -⟩ := hkeeps _ _ _ hstep
    obtain ⟨hle, hleALAP, id, hid, hlt⟩ := hlater
    have hTstart : ∀ v, scheduling.Tstart v = s.scheduling.Tstart v := fun v => by
      unfold Scheduling.Tstart
      rw [halap]
    refine ⟨fun v hv => ?_, fun v hv => ?_, id, hid, ?_⟩
    · rw [← hasap]
      exact hle v hv
    · rw [← hTstart]
      exact hleALAP v hv
    · rw [← hTstart]
      exact hlt
  · rintro s id s' ⟨later, htimed⟩ hmem - hagain
    obtain ⟨s₁, hs₁, htimed₁, hnotearlier, -⟩ := htimed.again hg hsolver (htimed.mem_of_mem_order hmem)
    obtain rfl := Option.some.inj (hs₁.symm.trans hagain)
    exact ⟨⟨_, htimed₁⟩, hnotearlier⟩

include hnone

/-- All attempts begin, and the last one ends, as a run with some answers. -/
theorem exists_attempts_of_timed (hg : Schedulable g leavesGraph) (hsolver : solver.Documented)
    (h : Timed g leavesGraph later s) :
    ∃ later s', Timed g leavesGraph later s' ∧
      s.schedule step solver leavesGraph = some s'.scheduling.connect_HWedge ∧
      ∃ answers, attempts step Scheduling.order Scheduling.restart answers s.scheduling = some s'.scheduling := by
  have hagain : ∀ (s : Postponing) (id : Text), (∃ later, Timed g leavesGraph later s) → id ∈ s.order →
      ∃ s', s.again solver leavesGraph id = some s' ∧ (∃ later, Timed g leavesGraph later s') ∧
        s'.scheduling.recursion = s.scheduling.recursion - 1 ∧ ∃ answer, s'.scheduling = s.scheduling.restart answer := by
    rintro s id ⟨later, htimed⟩ hmem
    obtain ⟨s', hs', htimed', -, hcount, hanswer⟩ := htimed.again hg hsolver (htimed.mem_of_mem_order hmem)
    exact ⟨s', hs', ⟨_, htimed'⟩, hcount, _, hanswer⟩
  have hcount : ∀ (s : Postponing) id s', s.place step id = some s' → s'.scheduling.recursion = s.scheduling.recursion := by
    intro s id s' hplace
    obtain ⟨scheduling, hstep, rfl⟩ := Option.map_eq_some_iff.mp hplace
    exact (hkeeps _ _ _ hstep).recursion
  obtain ⟨s', hs', later', htimed'⟩ := isSome_retries (timed_place hkeeps)
    ⟨later, h⟩ hcount (fun s id htimed hmem hstep => by
      obtain ⟨s', hs', htimed', hcount', -⟩ := hagain s id htimed hmem
      exact ⟨hnone _ _ (Option.map_eq_none_iff.mp hstep), s', hs', htimed', hcount'⟩) (Nat.le_refl _)
  refine ⟨later', s', htimed', ?_, ?_⟩
  · rw [Postponing.schedule, hs', Option.map_some]
  · refine exists_attempts_of_retries (timed_place hkeeps) ⟨later, h⟩
      (fun _ => rfl) (fun s id => ?_) (fun s id s' htimed hmem _ hs' => ?_) hs'
    · rw [Postponing.place, Option.map_map]
      exact Option.map_id'.symm
    · obtain ⟨s₁, hs₁, htimed₁, -, hanswer⟩ := hagain s id htimed hmem
      obtain rfl := Option.some.inj (hs₁.symm.trans hs')
      exact ⟨htimed₁, hanswer⟩

end Attempts

/-- Before the first attempt nothing is postponed. -/
theorem timed_first {solver : Solver} {sizes : Sizes} {graph : SchedulerGraph} {s : Postponing} (hsolver : solver.Documented)
    (hclosed : graph.graph.Closed) (hdelays : graph.graph.DelaysNonneg) (hleaves : ∀ leaf ∈ graph.leavesGraph, leaf ∈ graph.graph)
    (h : Postponing.first solver sizes graph = some s) :
    Timed graph.graph graph.leavesGraph [] s ∧ Schedulable graph.graph graph.leavesGraph ∧
      ∃ first, s.scheduling = .start sizes graph.graph first := by
  obtain ⟨asap, hasap, h⟩ := Option.bind_eq_some_iff.mp h
  obtain ⟨alap, halap, h⟩ := Option.bind_eq_some_iff.mp h
  rw [alap_sdc_snd, Option.some.injEq] at h
  have hmeans := means_ofGraph hclosed
  have hnames : ∀ leaf ∈ graph.leavesGraph, leaf ∈ (ofGraph graph).names := fun leaf hleaf =>
    (mem_names_ofGraph hclosed).mpr (hleaves leaf hleaf)
  have htimed : Timed graph.graph graph.leavesGraph [] s := by
    rw [← h]
    refine Timed.of_solved hsolver (postponed_nil _ ▸ hmeans) (fun id => mem_names_ofGraph hclosed) hleaves hasap halap
      (fun id => ExtTreeMap.mem_keys) fun _ => rfl
  refine ⟨htimed, ⟨hclosed, hdelays, hleaves, fun v hv => ?_⟩,
    ⟨timeOf s.scheduling.resultASAP, timeOf s.scheduling.resultALAP⟩, ?_⟩
  · have hmin := (isMinimal_of_asap_sdc hsolver hmeans hasap).1
    obtain ⟨leaf, hleaf, hreach⟩ := (alap_sdc_isSome_iff hsolver hmeans hdelays.forward NodeMap.below_not_mem_dependences hnames
      hmin.solves).mp (Option.isSome_of_eq_some halap) v ((mem_names_ofGraph hclosed).mpr hv)
    exact ⟨leaf, hleaf, NodeMap.reach_dependences.mp hreach⟩
  · apply htimed.solve_eq.symm.trans
    rw [← h]
    rfl

/-- The first attempt begins when no node with a delay is on a cycle and every node has a leaf after it. -/
theorem exists_first {solver : Solver} (hsolver : solver.Documented) (sizes : Sizes) {graph : SchedulerGraph}
    (hg : Schedulable graph.graph graph.leavesGraph) (huntimed : graph.graph.Untimed) :
    ∃ s, Postponing.first solver sizes graph = some s := by
  obtain ⟨asap, alap, hasap, halap⟩ := Timed.exists_solved hg hsolver (postponed_nil _ ▸ means_ofGraph hg.closed)
    (fun id => mem_names_ofGraph hg.closed)
    (postponed_nil graph.graph ▸ (NodeMap.exists_solves_iff_untimed hg.delays).mpr huntimed)
  refine ⟨⟨Postponing.ofTimes sizes graph.graph asap alap, ofGraph graph⟩, ?_⟩
  simp only [Postponing.first, hasap, halap, Option.bind_eq_bind, Option.bind_some, alap_sdc_snd]

/-- The times that a graph is scheduled with. -/
structure Ends (g : NodeMap) (scheduling : Scheduling) : Prop where
  asap : g.Meets (timeOf scheduling.resultASAP)
  alap : g.Meets (timeOf scheduling.resultALAP)
  mobile : ∀ v ∈ g, timeOf scheduling.resultASAP v ≤ timeOf scheduling.resultALAP v

end Octantis
