import Octantis.SchedulerGraph.Sdc

/-!
# The times of a file

The graph that `fileToGraph` makes has what the system of constraints asks for: its children are
nodes, no delay is negative, and its leaves are nodes. So the times that `asap_sdc` and `alap_sdc` give
can be told from the graph.

## The model

`Meets` are the times that meet the dependences, `Earliest` and `Latest` are the first and the last
of them.

## What is proved

* `graphInv_fileToGraph`: a line keeps the graph as the constraints ask for;
* `times_of_fileToGraph`: when `asap_sdc` and `alap_sdc` succeed, and what they give, for every file.

## Honest scope

As in `Solver`: the solver is exact. `Solver.exact` is one, by choice.
-/

namespace Octantis

open Std Lib

/-! ### The graph of a file -/

namespace NodeMap

variable {g : NodeMap} {u v id rd op_n : Text} {sources : List Text} {node : Node} {f : Node → Node}

@[simp] theorem mem_set : u ∈ g.set id node ↔ u = id ∨ u ∈ g := by
  rw [set, ExtTreeMap.mem_insert, Std.compare_eq_iff_eq, eq_comm]

@[simp] theorem mem_update : u ∈ g.update id f ↔ u = id ∨ u ∈ g := mem_set

@[simp] theorem mem_ensure : u ∈ g.ensure id ↔ u = id ∨ u ∈ g := by
  rw [ensure, ExtTreeMap.mem_insertIfNew, Std.compare_eq_iff_eq, eq_comm]

/-- The nodes after the edges of an operation. -/
theorem mem_addEdges : u ∈ g.addEdges rd op_n sources ↔ u = rd ∨ u = op_n ∨ u ∈ sources ∨ u ∈ g := by
  have hchildren : ∀ (sources : List Text) (g : NodeMap),
      u ∈ sources.foldl (fun g rs => g.update rs (·.setChild op_n)) g ↔ u ∈ sources ∨ u ∈ g := by
    intro sources
    induction sources with
    | nil => simp
    | cons rs sources ih =>
      intro g
      rw [List.foldl_cons, ih, mem_update, List.mem_cons]
      exact ⟨fun h => h.elim (.inl ∘ .inr) fun h => h.elim (.inl ∘ .inl) .inr,
        fun h => h.elim (fun h => h.elim (.inr ∘ .inl) .inl) (.inr ∘ .inr)⟩
  have hfathers : ∀ (sources : List Text) (g : NodeMap), op_n ∈ g →
      (u ∈ sources.foldl (fun g rs => g.update op_n (·.setFather rs)) g ↔ u ∈ g) := by
    intro sources
    induction sources with
    | nil => simp
    | cons rs sources ih =>
      intro g hop
      rw [List.foldl_cons, ih _ (mem_update.mpr (.inl rfl)), mem_update]
      exact or_iff_right_of_imp fun h => h ▸ hop
  have hop : ∀ sources : List Text, op_n ∈ sources.foldl (fun g rs => g.update rs (·.setChild op_n))
      ((g.update rd (·.setFather op_n)).update op_n (·.setChild rd)) := by
    intro sources
    generalize hg : (g.update rd (·.setFather op_n)).update op_n (·.setChild rd) = g'
    have hmem : op_n ∈ g' := hg ▸ mem_update.mpr (.inl rfl)
    clear hg
    induction sources generalizing g' with
    | nil => exact hmem
    | cons rs sources ih => exact ih _ (mem_update.mpr (.inr hmem))
  rw [addEdges, hfathers _ _ (hop sources), hchildren, mem_update, mem_update]
  exact ⟨fun h => h.elim (.inr ∘ .inr ∘ .inl) fun h => h.elim (.inr ∘ .inl) fun h => h.elim .inl (.inr ∘ .inr ∘ .inr),
    fun h => h.elim (.inr ∘ .inr ∘ .inl) fun h => h.elim (.inr ∘ .inl) fun h => h.elim .inl (.inr ∘ .inr ∘ .inr)⟩

/-- No node has a negative delay. -/
def DelaysNonneg (g : NodeMap) : Prop := ∀ u, 0 ≤ (g.node u).delay

namespace DelaysNonneg

variable (h : g.DelaysNonneg)
include h

theorem set (hnode : 0 ≤ node.delay) : (g.set id node).DelaysNonneg := by
  intro u
  rw [node_set]
  split
  · exact hnode
  · exact h u

theorem update (hf : ∀ node, (f node).delay = node.delay) : (g.update id f).DelaysNonneg :=
  h.set ((hf _).symm ▸ h id)

theorem ensure : (g.ensure id).DelaysNonneg := by
  intro u
  rcases node_ensure g id u with heq | ⟨-, heq⟩
  · rw [heq]
    exact h u
  · rw [heq]
    exact Int.one_nonneg

theorem setLiM : (g.update id (·.setLiM op_n)).DelaysNonneg := h.update fun node => by
  unfold Node.setLiM
  split <;> rfl

theorem foldl_update {change : Text → Node → Node} (hchange : ∀ rs node, (change rs node).delay = node.delay)
    (key : Text → Text) (sources : List Text) :
    (sources.foldl (fun g rs => NodeMap.update g (key rs) (change rs)) g).DelaysNonneg := by
  induction sources generalizing g with
  | nil => exact h
  | cons rs sources ih => exact ih (h.update (hchange rs))

theorem addEdges (rd op_n : Text) (sources : List Text) : (g.addEdges rd op_n sources).DelaysNonneg := by
  have h₁ : (g.update rd (·.setFather op_n)).DelaysNonneg := h.update fun _ => rfl
  have h₂ : ((g.update rd (·.setFather op_n)).update op_n (·.setChild rd)).DelaysNonneg := h₁.update fun _ => rfl
  have h₃ := h₂.foldl_update (fun _ _ => rfl : ∀ (rs : Text) node, (Node.setChild node op_n).delay = node.delay)
    (fun rs => rs) sources
  exact h₃.foldl_update (fun rs node => (rfl : (Node.setFather node rs).delay = node.delay)) (fun _ => op_n) sources

end DelaysNonneg

end NodeMap

namespace Reading

variable {r : Reading} {line : Line}

/-- What holds of the graph between two lines. -/
structure GraphInv (r : Reading) : Prop where
  closed : r.graph.graph.Closed
  delays : r.graph.graph.DelaysNonneg
  flags : ∀ id ∈ r.graph.leavesFlag, id ∈ r.graph.graph

/-- The graph with the logic has the nodes of the graph, and no negative delay. -/
theorem GraphInv.placed (h : r.GraphInv) (line : Line) :
    (∀ id ∈ r.graph.graph, id ∈ (r.placed line).1) ∧ (r.placed line).1.DelaysNonneg := by
  have hensured : (∀ id ∈ r.graph.graph, id ∈ r.ensured line) ∧ (r.ensured line).DelaysNonneg := by
    have hset : (r.graph.graph.set (r.op_n line) (.ofId (r.op_n line))).DelaysNonneg := h.delays.set (Int.le_refl 0)
    cases line with
    | two rd op rs1 rs2 hop => exact ⟨fun id hid => by simp [ensured, hid], hset.ensure.ensure.ensure⟩
    | one rd rs1 => exact ⟨fun id hid => by simp [ensured, hid], hset.ensure.ensure⟩
  cases hcopied : r.copied line with
  | none =>
    obtain ⟨row, hplaced⟩ := placed_of_copied_eq_none hcopied
    rw [hplaced]
    exact ⟨fun id hid => NodeMap.mem_update.mpr (.inr (hensured.1 id hid)), hensured.2.setLiM⟩
  | some row =>
    rw [(placed_of_copied_eq_some hcopied).2.2]
    refine ⟨fun id hid => NodeMap.mem_update.mpr (.inr (NodeMap.mem_set.mpr (.inr (hensured.1 id hid)))), ?_⟩
    have hdup : ((r.ensured line).duplicate row).DelaysNonneg :=
      hensured.2.set (hensured.2 row : 0 ≤ (Node.copy (row ++ row) ((r.ensured line).node row)).delay)
    exact hdup.setLiM

/-- The rows of a line have a flag. -/
theorem mem_leavesFlag_readLine {id : Text} (hid : id ∈ (r.readLine line).graph.leavesFlag) :
    id ∈ r.sources line ∨ id = line.rd ∨ id ∈ r.graph.leavesFlag := by
  have hleaves : (r.readLine line).graph.leavesFlag =
      (r.sources line).foldl (fun flags rs => flags.insert rs false) (r.graph.leavesFlag.insertIfNew line.rd true) := by
    unfold sources
    rw [← placed_snd]
    cases line with
    | two => rfl
    | one => rfl
  have hfold : ∀ (sources : List Text) (flags : ExtTreeMap Text Bool),
      id ∈ sources.foldl (fun flags rs => flags.insert rs false) flags → id ∈ sources ∨ id ∈ flags := by
    intro sources
    induction sources with
    | nil => exact fun _ hid => .inr hid
    | cons rs sources ih =>
      intro flags hid
      rcases ih _ hid with hid | hid
      · exact .inl (List.mem_cons_of_mem _ hid)
      · rw [ExtTreeMap.mem_insert, Std.compare_eq_iff_eq] at hid
        exact hid.imp (fun heq => List.mem_cons.mpr (.inl heq.symm)) fun hid => hid
  rw [hleaves] at hid
  refine (hfold _ _ hid).imp_right fun hid => ?_
  rw [ExtTreeMap.mem_insertIfNew, Std.compare_eq_iff_eq, eq_comm] at hid
  exact hid

/-- **A line keeps the invariant.** -/
theorem GraphInv.readLine (h : r.GraphInv) (line : Line) : (r.readLine line).GraphInv := by
  obtain ⟨hmem, hdelays⟩ := h.placed line
  have hgraph : ∀ id, id ∈ (r.readLine line).graph.graph ↔
      id = line.rd ∨ id = r.op_n line ∨ id ∈ r.sources line ∨ id ∈ (r.placed line).1 := by
    intro id
    rw [graph_readLine, NodeMap.mem_addEdges]
  refine ⟨fun u v hv => ?_, ?_, fun id hid => ?_⟩
  · have hchange := congrFun (congrFun (congrArg Adjacency.succ (adjacency_readLine r line)) u) v
    rcases (iff_of_eq hchange).mp hv with ⟨-, hold⟩ | ⟨-, rfl⟩ | ⟨-, rfl⟩
    · exact (hgraph v).mpr (.inr (.inr (.inr (hmem v (h.closed u v hold)))))
    · exact (hgraph _).mpr (.inl rfl)
    · exact (hgraph _).mpr (.inr (.inl rfl))
  · rw [graph_readLine]
    exact hdelays.addEdges _ _ _
  · rcases mem_leavesFlag_readLine hid with hid | rfl | hid
    · exact (hgraph id).mpr (.inr (.inr (.inl hid)))
    · exact (hgraph _).mpr (.inl rfl)
    · exact (hgraph id).mpr (.inr (.inr (.inr (hmem id (h.flags id hid)))))

end Reading

namespace SchedulerGraph

/-- The graph of a file: its children are nodes, no delay is negative, and the leaves are nodes. -/
theorem graphInv_fileToGraph (lines : List Line) : (fileToGraph lines).graph.Closed ∧
    (fileToGraph lines).graph.DelaysNonneg ∧ ∀ leaf ∈ (fileToGraph lines).leavesGraph, leaf ∈ (fileToGraph lines).graph := by
  have hstart : Reading.start.GraphInv := by
    refine ⟨fun u v hv => ?_, fun u => ?_, fun id hid => ?_⟩
    · exact absurd hv (not_succ_start u v)
    · rw [NodeMap.node_of_not_mem]
      · exact Int.le_refl 0
      · exact ExtTreeMap.not_mem_empty
    · exact absurd hid ExtTreeMap.not_mem_empty
  have hall : ∀ (lines : List Line) (r : Reading), r.GraphInv → (lines.foldl Reading.readLine r).GraphInv := by
    intro lines
    induction lines with
    | nil => exact fun _ h => h
    | cons line lines ih => exact fun r h => ih _ (h.readLine line)
  have hinv := hall lines _ hstart
  refine ⟨hinv.closed, hinv.delays, fun leaf hleaf => hinv.flags leaf ?_⟩
  obtain ⟨e, he, hleaf⟩ := List.mem_filterMap.mp hleaf
  obtain ⟨-, rfl⟩ := Option.ite_none_right_eq_some.mp hleaf |>.imp_right Option.some.inj
  have hget := ExtTreeMap.mem_toList_iff_getElem?_eq_some.mp (List.of_mem_zip he).1
  exact ExtTreeMap.isSome_getElem?_iff_mem.mp (Option.isSome_of_eq_some hget)

end SchedulerGraph

/-! ### Both times -/

namespace NodeMap

variable {g : NodeMap}

/-- The times meet the dependences of the graph. -/
structure Meets (g : NodeMap) (t : Text → ℤ) : Prop where
  nonneg : ∀ v ∈ g, 0 ≤ t v
  child : ∀ u v, v ∈ g.children u → t u + (g.node v).delay ≤ t v

theorem meets_iff {t : Text → ℤ} : g.Meets t ↔ Solves g.dependences fun v => (t v : ℚ) := by
  constructor
  · rintro ⟨hnonneg, hchild⟩ c (⟨u, v, hv, rfl⟩ | ⟨v, hv, rfl⟩)
    · show (t u : ℚ) + ((g.node v).delay : ℚ) ≤ (t v : ℚ)
      exact_mod_cast hchild u v hv
    · exact Int.cast_le.mpr (hnonneg v hv)
  · intro h
    refine ⟨fun v hv => Int.cast_le.mp (h _ (.inr ⟨v, hv, rfl⟩)), fun u v hv => ?_⟩
    have hstep : (t u : ℚ) + ((g.node v).delay : ℚ) ≤ (t v : ℚ) := h _ (.inl ⟨u, v, hv, rfl⟩)
    exact_mod_cast hstep

theorem DelaysNonneg.forward (h : g.DelaysNonneg) : Forward g.dependences := by
  intro u v d hd
  obtain ⟨-, rfl⟩ := step_mem_dependences.mp hd
  exact h v

/-- A path over the children. -/
def Path (g : NodeMap) : Text → Text → Prop := Relation.ReflTransGen fun u v => v ∈ g.children u

/-- No node with a delay is on a cycle. -/
def Untimed (g : NodeMap) : Prop := ∀ u v, v ∈ g.children u → 0 < (g.node v).delay → ¬ g.Path v u

/-- The dependences can be met. -/
theorem exists_solves_iff_untimed (h : g.DelaysNonneg) : (∃ t : Text → ℚ, Solves g.dependences t) ↔ g.Untimed := by
  rw [exists_solves_iff g.finite_dependences h.forward below_not_mem_dependences]
  unfold Untimed Path
  simp only [step_mem_dependences, reach_dependences]
  exact ⟨fun hall u v hv hpos => hall u v _ ⟨hv, rfl⟩ hpos, fun hall u v d hd hpos => hall u v hd.1 (hd.2 ▸ hpos)⟩

end NodeMap

/-- The earliest times of a graph. -/
structure Earliest (g : NodeMap) (asap : ExtTreeMap Text ℤ) : Prop where
  meets : g.Meets (timeOf asap)
  least : ∀ t, g.Meets t → ∀ v ∈ g, timeOf asap v ≤ t v

/-- The latest times of a graph, with its leaves at their earliest ones. -/
structure Latest (g : NodeMap) (leavesGraph : List Text) (asap alap : ExtTreeMap Text ℤ) : Prop where
  meets : g.Meets (timeOf alap)
  kept : ∀ leaf ∈ leavesGraph, timeOf alap leaf = timeOf asap leaf
  greatest : ∀ t, g.Meets t → (∀ leaf ∈ leavesGraph, t leaf = timeOf asap leaf) → ∀ v ∈ g, t v ≤ timeOf alap v
  mobile : ∀ v ∈ g, timeOf asap v ≤ timeOf alap v

open Sdc in
/-- **The times of a graph.** `asap_sdc` succeeds exactly when no node with a delay is on a cycle, and
gives the earliest times that meet the dependences. Then `alap_sdc` succeeds exactly when every node
has a leaf after it, and gives the latest times with the leaves where they are; no node is later in the
first than in the second. -/
theorem times_of_fileToGraph (solver : Solver) (hsolver : solver.Documented) (lines : List Line) :
    ((asap_sdc solver (ofGraph (SchedulerGraph.fileToGraph lines)) ∅).isSome ↔
        (SchedulerGraph.fileToGraph lines).graph.Untimed) ∧
      ∀ asap, asap_sdc solver (ofGraph (SchedulerGraph.fileToGraph lines)) ∅ = some asap →
        Earliest (SchedulerGraph.fileToGraph lines).graph asap ∧
        ((alap_sdc solver (ofGraph (SchedulerGraph.fileToGraph lines)) (SchedulerGraph.fileToGraph lines).leavesGraph
            asap ∅).1.isSome ↔ ∀ v ∈ (SchedulerGraph.fileToGraph lines).graph,
              ∃ leaf ∈ (SchedulerGraph.fileToGraph lines).leavesGraph, (SchedulerGraph.fileToGraph lines).graph.Path v leaf) ∧
        ∀ alap, (alap_sdc solver (ofGraph (SchedulerGraph.fileToGraph lines))
            (SchedulerGraph.fileToGraph lines).leavesGraph asap ∅).1 = some alap →
          Latest (SchedulerGraph.fileToGraph lines).graph (SchedulerGraph.fileToGraph lines).leavesGraph asap alap := by
  obtain ⟨hclosed, hdelays, hleaves⟩ := SchedulerGraph.graphInv_fileToGraph lines
  generalize SchedulerGraph.fileToGraph lines = s at hclosed hdelays hleaves ⊢
  have hmeans := means_ofGraph hclosed
  have hnames : ∀ leaf ∈ s.leavesGraph, leaf ∈ (ofGraph s).names := fun leaf hleaf =>
    (mem_names_ofGraph hclosed).mpr (hleaves leaf hleaf)
  refine ⟨(asap_sdc_isSome_iff_solves hsolver hmeans).trans (NodeMap.exists_solves_iff_untimed hdelays), fun asap hasap => ?_⟩
  have hmin := (isMinimal_of_asap_sdc hsolver hmeans hasap).1
  refine ⟨⟨NodeMap.meets_iff.mpr hmin.solves, fun t ht v hv => ?_⟩, ?_, fun alap halap => ?_⟩
  · exact Int.cast_le.mp (hmin.le (NodeMap.meets_iff.mp ht) ((mem_names_ofGraph hclosed).mpr hv))
  · rw [alap_sdc_isSome_iff hsolver hmeans hdelays.forward NodeMap.below_not_mem_dependences hnames hmin.solves]
    simp only [mem_names_ofGraph hclosed, NodeMap.reach_dependences]
    rfl
  · have hmax := (isMaximal_of_alap_sdc hsolver hmeans hnames halap).1
    obtain ⟨hsolves, hfixed⟩ := solves_fixed.mp hmax.solves
    have hgreatest : ∀ t, s.graph.Meets t → (∀ leaf ∈ s.leavesGraph, t leaf = timeOf asap leaf) →
        ∀ v ∈ s.graph, t v ≤ timeOf alap v := fun t ht heq v hv =>
      Int.cast_le.mp (hmax.le (solves_fixed.mpr ⟨NodeMap.meets_iff.mp ht, fun leaf hleaf => by rw [heq leaf hleaf]⟩)
        ((mem_names_ofGraph hclosed).mpr hv))
    refine ⟨NodeMap.meets_iff.mpr hsolves, fun leaf hleaf => Int.cast_injective (hfixed leaf hleaf), hgreatest, ?_⟩
    exact hgreatest _ (NodeMap.meets_iff.mpr hmin.solves) fun _ _ => rfl

/-! ### A solver -/

open Classical in
/-- A solver that finds every optimum. -/
noncomputable def Solver.exact : Solver := fun sdc direction =>
  if h : ∃ x, sdc.Optimal direction x then some h.choose else none

theorem Solver.documented_exact : Solver.exact.Documented := by
  refine ⟨fun sdc direction x hx => ?_, fun sdc direction x hx => ?_⟩
  · unfold Solver.exact at hx
    split at hx
    · next h => exact Option.some.inj hx ▸ h.choose_spec
    · cases hx
  · unfold Solver.exact
    rw [dif_pos ⟨x, hx⟩]
    rfl

/-- `c AND a b; d NOT c` -/
def twoGates : List Line :=
  [.two "c".toList "AND".toList "a".toList "b".toList and_ne_notOp, .one "d".toList "c".toList]

/-- Times of the nodes of the two gates. -/
def twoGatesTime (id : Text) : ℤ :=
  if id = "c".toList ∨ id = "NOT2".toList then 1 else if id = "d".toList then 2 else 0

theorem untimed_twoGates : (SchedulerGraph.fileToGraph twoGates).graph.Untimed := by
  obtain ⟨-, hdelays, -⟩ := SchedulerGraph.graphInv_fileToGraph twoGates
  have hchild : ∀ e ∈ (SchedulerGraph.fileToGraph twoGates).graph.toList, ∀ v ∈ e.2.children,
      twoGatesTime e.1 + ((SchedulerGraph.fileToGraph twoGates).graph.node v).delay ≤ twoGatesTime v := by decide +kernel
  rw [← NodeMap.exists_solves_iff_untimed hdelays]
  have hmeets : (SchedulerGraph.fileToGraph twoGates).graph.Meets twoGatesTime := by
    refine ⟨fun v _ => ?_, fun u v hv => ?_⟩
    · unfold twoGatesTime
      split
      · exact Int.one_nonneg
      · split <;> decide
    · obtain ⟨node, hnode⟩ := Option.isSome_iff_exists.mp (ExtTreeMap.isSome_getElem?_iff_mem.mpr
        (NodeMap.mem_of_mem_children hv))
      rw [NodeMap.children, NodeMap.node, hnode, Option.getD_some] at hv
      exact hchild (u, node) (ExtTreeMap.mem_toList_iff_getElem?_eq_some.mpr hnode) v hv
  exact ⟨_, NodeMap.meets_iff.mp hmeets⟩

theorem path_twoGates : ∀ v ∈ (SchedulerGraph.fileToGraph twoGates).graph,
    ∃ leaf ∈ (SchedulerGraph.fileToGraph twoGates).leavesGraph, (SchedulerGraph.fileToGraph twoGates).graph.Path v leaf := by
  have hleaf : "d".toList ∈ (SchedulerGraph.fileToGraph twoGates).leavesGraph := by decide +kernel
  have hkeys : (SchedulerGraph.fileToGraph twoGates).graph.keys =
      ["AND1", "NOT2", "a", "b", "c", "d"].map String.toList := by decide +kernel
  have hd : (SchedulerGraph.fileToGraph twoGates).graph.Path "d".toList "d".toList := .refl
  have hnot : (SchedulerGraph.fileToGraph twoGates).graph.Path "NOT2".toList "d".toList := .head (by decide +kernel) hd
  have hc : (SchedulerGraph.fileToGraph twoGates).graph.Path "c".toList "d".toList := .head (by decide +kernel) hnot
  have hand : (SchedulerGraph.fileToGraph twoGates).graph.Path "AND1".toList "d".toList := .head (by decide +kernel) hc
  have ha : (SchedulerGraph.fileToGraph twoGates).graph.Path "a".toList "d".toList := .head (by decide +kernel) hand
  have hb : (SchedulerGraph.fileToGraph twoGates).graph.Path "b".toList "d".toList := .head (by decide +kernel) hand
  intro v hv
  rw [← ExtTreeMap.mem_keys, hkeys] at hv
  simp only [List.map_cons, List.map_nil, List.mem_cons, List.not_mem_nil, or_false] at hv
  refine ⟨_, hleaf, ?_⟩
  rcases hv with rfl | rfl | rfl | rfl | rfl | rfl
  · exact hand
  · exact hnot
  · exact ha
  · exact hb
  · exact hc
  · exact hd

open Sdc in
/-- The two gates have earliest and latest times. -/
theorem times_of_fileToGraph_twoGates : ∃ asap alap,
    asap_sdc Solver.exact (ofGraph (SchedulerGraph.fileToGraph twoGates)) ∅ = some asap ∧
      (alap_sdc Solver.exact (ofGraph (SchedulerGraph.fileToGraph twoGates))
        (SchedulerGraph.fileToGraph twoGates).leavesGraph asap ∅).1 = some alap ∧
      Earliest (SchedulerGraph.fileToGraph twoGates).graph asap ∧
      Latest (SchedulerGraph.fileToGraph twoGates).graph (SchedulerGraph.fileToGraph twoGates).leavesGraph asap alap := by
  obtain ⟨hiff, htimes⟩ := times_of_fileToGraph Solver.exact Solver.documented_exact twoGates
  obtain ⟨asap, hasap⟩ := Option.isSome_iff_exists.mp (hiff.mpr untimed_twoGates)
  obtain ⟨hearliest, halap, hlatest⟩ := htimes asap hasap
  obtain ⟨alap, halap⟩ := Option.isSome_iff_exists.mp (halap.mpr path_twoGates)
  exact ⟨asap, alap, hasap, halap, hearliest, hlatest alap halap⟩

end Octantis
