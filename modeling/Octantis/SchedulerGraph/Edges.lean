import Octantis.Lib.Adjacency
import Octantis.SchedulerGraph.Graph

/-!
# The edges of the graph

A node keeps its children and its fathers in two lists, and an edge is to be in both. A line
of the file adds its edges to both lists; but the node of its operator replaces one of that
name, and so does the copy of a row, which takes over the fathers of the row without their
being told of it.

## The model

`Reading.change` is what a line does to the lists, as a change of `Lib.Adjacency`: the nodes
that it replaces, the fathers that a copy takes over, and the edges of the operator.
`KeepsDependences` is what the graph is to be after some lines: every dependence of a line
is an edge, in both lists, and has its constraint.

## What is proved

* `adjacency_readLine`: the lists after a line;
* `constrains_graphToSDC`: `graphToSDC` makes a constraint of every child;
* `fileToGraph_iff`: the graph keeps the dependences after every line exactly when every
  line is sound for the graph that it is read into.
-/

namespace Octantis

open Std Lib

namespace NodeMap

variable {g : NodeMap} {id u v op_n rd : Text} {sources : List Text}

/-- The children of a node. -/
def children (g : NodeMap) (u : Text) : List Text := (g.node u).children

/-- The fathers of a node. -/
def fathers (g : NodeMap) (v : Text) : List Text := (g.node v).fathers

/-- The graph, by its lists. -/
def adjacency (g : NodeMap) : Adjacency Text where
  succ u v := v ∈ g.children u
  pred u v := u ∈ g.fathers v

/-! ### The changes of the map -/

theorem node_set (g : NodeMap) (id u : Text) (node : Node) :
    (g.set id node).node u = if u = id then node else g.node u := by
  rw [set, NodeMap.node, ExtTreeMap.getElem?_insert]
  by_cases h : u = id
  · rw [if_pos (Std.compare_eq_iff_eq.mpr h.symm), if_pos h, Option.getD_some]
  · rw [if_neg fun heq => h (Std.compare_eq_iff_eq.mp heq).symm, if_neg h, NodeMap.node]

theorem node_update (g : NodeMap) (id u : Text) (f : Node → Node) :
    (g.update id f).node u = if u = id then f (g.node id) else g.node u := node_set g id u _

theorem node_of_not_mem (h : u ∉ g) : g.node u = .empty := by
  rw [NodeMap.node, ExtTreeMap.getElem?_eq_none h, Option.getD_none]

/-- A node that is added is like one that is not there, but for its name and its delay. -/
theorem node_ensure (g : NodeMap) (id u : Text) :
    (g.ensure id).node u = g.node u ∨ (g.node u = .empty ∧ (g.ensure id).node u = .ofDelay id 1) := by
  unfold ensure NodeMap.node
  rw [ExtTreeMap.getElem?_insertIfNew]
  split
  · next h =>
    have hid := Std.compare_eq_iff_eq.mp h.1
    exact .inr ⟨node_of_not_mem (hid ▸ h.2), rfl⟩
  · exact .inl rfl

section Ensure

variable (g : NodeMap) (id u : Text)

theorem children_ensure : (g.ensure id).children u = g.children u := by
  unfold children
  rcases node_ensure g id u with h | ⟨h, h'⟩
  · rw [h]
  · rw [h, h', Node.ofDelay, Node.empty]

theorem fathers_ensure : (g.ensure id).fathers u = g.fathers u := by
  unfold fathers
  rcases node_ensure g id u with h | ⟨h, h'⟩
  · rw [h]
  · rw [h, h', Node.ofDelay, Node.empty]

theorem carriesLogic_ensure : (g.ensure id).CarriesLogic u ↔ g.CarriesLogic u := by
  unfold CarriesLogic
  rcases node_ensure g id u with h | ⟨h, h'⟩
  · rw [h]
  · rw [h, h', Node.ofDelay, Node.empty]

end Ensure

section Update

variable (g : NodeMap) (id u : Text) {f : Node → Node}

theorem children_update (hf : (f (g.node id)).children = (g.node id).children) :
    (g.update id f).children u = g.children u := by
  unfold children
  rw [node_update]
  split
  · next h => rw [hf, h]
  · rfl

theorem fathers_update (hf : (f (g.node id)).fathers = (g.node id).fathers) :
    (g.update id f).fathers u = g.fathers u := by
  unfold fathers
  rw [node_update]
  split
  · next h => rw [hf, h]
  · rfl

end Update

@[simp] theorem node_setLiM_children (node : Node) (op_n : Text) :
    (node.setLiM op_n).children = node.children := by
  unfold Node.setLiM
  split <;> rfl

@[simp] theorem node_setLiM_fathers (node : Node) (op_n : Text) :
    (node.setLiM op_n).fathers = node.fathers := by
  unfold Node.setLiM
  split <;> rfl

theorem mem_children_setChild (g : NodeMap) (id child : Text) :
    v ∈ (g.update id (·.setChild child)).children u ↔ v ∈ g.children u ∨ (u = id ∧ v = child) := by
  unfold children
  rw [node_update]
  split
  · next h => rw [h, Node.setChild, List.mem_append, List.mem_singleton, eq_self_iff_true, true_and]
  · next h => rw [or_iff_left fun hu => h hu.1]

theorem mem_fathers_setFather (g : NodeMap) (id father : Text) :
    u ∈ (g.update id (·.setFather father)).fathers v ↔ u ∈ g.fathers v ∨ (v = id ∧ u = father) := by
  unfold fathers
  rw [node_update]
  split
  · next h => rw [h, Node.setFather, List.mem_append, List.mem_singleton, eq_self_iff_true, true_and]
  · next h => rw [or_iff_left fun hv => h hv.1]

/-! ### The edges of an operation -/

theorem mem_children_foldl_setChild (g : NodeMap) :
    v ∈ (sources.foldl (fun g rs => g.update rs (·.setChild op_n)) g).children u ↔
      v ∈ g.children u ∨ (u ∈ sources ∧ v = op_n) := by
  induction sources generalizing g with
  | nil => simp
  | cons rs sources ih =>
    rw [List.foldl_cons, ih, mem_children_setChild, or_assoc, List.mem_cons, or_and_right]

theorem fathers_foldl_setChild (g : NodeMap) :
    (sources.foldl (fun g rs => g.update rs (·.setChild op_n)) g).fathers v = g.fathers v := by
  induction sources generalizing g with
  | nil => rfl
  | cons rs sources ih =>
    rw [List.foldl_cons, ih]
    exact fathers_update g rs v rfl

theorem mem_fathers_foldl_setFather (g : NodeMap) :
    u ∈ (sources.foldl (fun g rs => g.update op_n (·.setFather rs)) g).fathers v ↔
      u ∈ g.fathers v ∨ (u ∈ sources ∧ v = op_n) := by
  induction sources generalizing g with
  | nil => simp
  | cons rs sources ih =>
    rw [List.foldl_cons, ih, mem_fathers_setFather, or_assoc, List.mem_cons, or_and_right,
      and_comm (b := u = rs)]

theorem children_foldl_setFather (g : NodeMap) :
    (sources.foldl (fun g rs => g.update op_n (·.setFather rs)) g).children u = g.children u := by
  induction sources generalizing g with
  | nil => rfl
  | cons rs sources ih =>
    rw [List.foldl_cons, ih]
    exact children_update g op_n u rfl

theorem mem_children_addEdges (g : NodeMap) :
    v ∈ (g.addEdges rd op_n sources).children u ↔
      v ∈ g.children u ∨ (u = op_n ∧ v = rd) ∨ (u ∈ sources ∧ v = op_n) := by
  unfold addEdges
  rw [children_foldl_setFather, mem_children_foldl_setChild, mem_children_setChild,
    children_update g rd u rfl, or_assoc]

theorem mem_fathers_addEdges (g : NodeMap) :
    u ∈ (g.addEdges rd op_n sources).fathers v ↔
      u ∈ g.fathers v ∨ (u = op_n ∧ v = rd) ∨ (u ∈ sources ∧ v = op_n) := by
  unfold addEdges
  rw [mem_fathers_foldl_setFather, fathers_foldl_setChild, fathers_update _ op_n v rfl,
    mem_fathers_setFather, or_assoc, and_comm (b := u = op_n)]

/-! ### The logic of an operation -/

theorem children_set_ofId (g : NodeMap) : (g.set id (.ofId id)).children u = if u = id then
    [] else g.children u := by
  unfold children
  rw [node_set]
  split <;> rfl

theorem fathers_set_ofId (g : NodeMap) : (g.set id (.ofId id)).fathers u = if u = id then
    [] else g.fathers u := by
  unfold fathers
  rw [node_set]
  split <;> rfl

theorem carriesLogic_set_ofId (g : NodeMap) :
    (g.set id (.ofId id)).CarriesLogic u ↔ u ≠ id ∧ g.CarriesLogic u := by
  unfold CarriesLogic
  rw [node_set]
  split
  · next h => exact iff_of_false (fun hn => hn rfl) fun hn => hn.1 h
  · next h => rw [and_iff_right h]

theorem children_setLiM (g : NodeMap) : (g.update id (·.setLiM op_n)).children u = g.children u :=
  children_update g id u (node_setLiM_children _ _)

theorem fathers_setLiM (g : NodeMap) : (g.update id (·.setLiM op_n)).fathers u = g.fathers u :=
  fathers_update g id u (node_setLiM_fathers _ _)

theorem children_duplicate (g : NodeMap) (row : Text) :
    ((g.duplicate row).update (row ++ row) (·.setLiM op_n)).children u =
      if u = row ++ row then [] else g.children u := by
  rw [children_setLiM]
  unfold children duplicate
  rw [node_set]
  split <;> rfl

theorem fathers_duplicate (g : NodeMap) (row : Text) :
    ((g.duplicate row).update (row ++ row) (·.setLiM op_n)).fathers v =
      if v = row ++ row then g.fathers row else g.fathers v := by
  rw [fathers_setLiM]
  unfold fathers duplicate
  rw [node_set]
  split <;> rfl

end NodeMap

/-! ### A line -/

namespace Reading

variable {r : Reading} {line : Line} {u v row : Text}

/-- The row carries logic when the line looks for a place for its own. -/
def Busy (r : Reading) (line : Line) (row : Text) : Prop :=
  row ≠ r.op_n line ∧ r.graph.graph.CarriesLogic row

instance (r : Reading) (line : Line) (row : Text) : Decidable (r.Busy line row) := by
  unfold Busy
  infer_instance

/-- The name of the copy of a row. -/
def copyName (row : Text) : Text := row ++ row

/-- The row that the line copies. -/
def copied (r : Reading) (line : Line) : Option Text :=
  match line with
  | .two _ _ rs1 rs2 _ => if r.Busy line rs2 ∧ r.Busy line rs1 then some rs1 else none
  | .one _ rs1 => if r.Busy line rs1 then some rs1 else none

/-- The rows that the operator reads: the copy stands for the row that is copied. -/
def sources (r : Reading) (line : Line) : List Text :=
  match line with
  | .two _ _ _ rs2 _ => [(r.copied line).elim line.rs1 copyName, rs2]
  | .one _ _ => [(r.copied line).elim line.rs1 copyName]

/-- What the line does to the lists. -/
def change (r : Reading) (line : Line) : Change Text where
  reset u := u = r.op_n line ∨ ∃ row, r.copied line = some row ∧ u = copyName row
  handed u v := ∃ row, r.copied line = some row ∧ v = copyName row ∧ u ∈ r.graph.graph.fathers row
  added u v := (u = r.op_n line ∧ v = line.rd) ∨ (u ∈ r.sources line ∧ v = r.op_n line)

/-- The graph with the nodes of the line. -/
def ensured (r : Reading) (line : Line) : NodeMap :=
  match line with
  | .two rd _ rs1 rs2 _ =>
    (((r.graph.graph.set (r.op_n line) (.ofId (r.op_n line))).ensure rd).ensure rs1).ensure rs2
  | .one rd rs1 => ((r.graph.graph.set (r.op_n line) (.ofId (r.op_n line))).ensure rd).ensure rs1

/-- The graph with the logic of the line. -/
def placed (r : Reading) (line : Line) : NodeMap × Text :=
  match line with
  | .two _ _ rs1 rs2 _ => (r.ensured line).placeLogic (r.op_n line) rs1 rs2
  | .one _ rs1 => (r.ensured line).placeOrCopy (r.op_n line) rs1

theorem children_ensured (r : Reading) (line : Line) (u : Text) :
    (r.ensured line).children u = if u = r.op_n line then [] else r.graph.graph.children u := by
  cases line <;> simp only [ensured, NodeMap.children_ensure, NodeMap.children_set_ofId]

theorem fathers_ensured (r : Reading) (line : Line) (u : Text) :
    (r.ensured line).fathers u = if u = r.op_n line then [] else r.graph.graph.fathers u := by
  cases line <;> simp only [ensured, NodeMap.fathers_ensure, NodeMap.fathers_set_ofId]

theorem carriesLogic_ensured (r : Reading) (line : Line) (u : Text) :
    (r.ensured line).CarriesLogic u ↔ r.Busy line u := by
  cases line <;> simp only [ensured, NodeMap.carriesLogic_ensure, NodeMap.carriesLogic_set_ofId, Busy]

/-- With no copy, the logic goes to one of the rows. -/
theorem placed_of_copied_eq_none (h : r.copied line = none) :
    ∃ row, r.placed line = ((r.ensured line).update row (·.setLiM (r.op_n line)), line.rs1) := by
  cases line with
  | two rd op rs1 rs2 hop =>
    simp only [copied] at h
    unfold placed NodeMap.placeLogic NodeMap.placeOrCopy
    simp only [carriesLogic_ensured]
    split_ifs at h with hbusy
    by_cases h₂ : r.Busy (.two rd op rs1 rs2 hop) rs2
    · rw [if_pos h₂, if_neg fun h₁ => hbusy ⟨h₂, h₁⟩]
      exact ⟨rs1, rfl⟩
    · rw [if_neg h₂]
      exact ⟨rs2, rfl⟩
  | one rd rs1 =>
    simp only [copied] at h
    unfold placed NodeMap.placeOrCopy
    simp only [carriesLogic_ensured]
    split_ifs at h with hbusy
    rw [if_neg hbusy]
    exact ⟨rs1, rfl⟩

/-- A copy is of the first row, which carries logic, and gets the logic. -/
theorem placed_of_copied_eq_some (h : r.copied line = some row) :
    r.Busy line row ∧ row = line.rs1 ∧ r.placed line =
      (((r.ensured line).duplicate row).update (row ++ row) (·.setLiM (r.op_n line)), copyName row) := by
  cases line with
  | two rd op rs1 rs2 hop =>
    simp only [copied] at h
    unfold placed NodeMap.placeLogic NodeMap.placeOrCopy
    simp only [carriesLogic_ensured]
    split_ifs at h with hbusy
    cases h
    rw [if_pos hbusy.1, if_pos hbusy.2]
    exact ⟨hbusy.2, rfl, rfl⟩
  | one rd rs1 =>
    simp only [copied] at h
    unfold placed NodeMap.placeOrCopy
    simp only [carriesLogic_ensured]
    split_ifs at h with hbusy
    cases h
    rw [if_pos hbusy]
    exact ⟨hbusy, rfl, rfl⟩

theorem placed_snd (r : Reading) (line : Line) :
    (r.placed line).2 = (r.copied line).elim line.rs1 copyName := by
  cases h : r.copied line with
  | none =>
    obtain ⟨row, hplaced⟩ := placed_of_copied_eq_none h
    rw [hplaced]
    rfl
  | some row =>
    rw [(placed_of_copied_eq_some h).2.2]
    rfl

theorem graph_readLine (r : Reading) (line : Line) :
    (r.readLine line).graph.graph =
      (r.placed line).1.addEdges line.rd (r.op_n line) (r.sources line) := by
  unfold sources
  rw [← placed_snd]
  cases line with
  | two => rfl
  | one => rfl

theorem mem_children_placed (r : Reading) (line : Line) (u v : Text) :
    v ∈ (r.placed line).1.children u ↔ ¬ (r.change line).reset u ∧ v ∈ r.graph.graph.children u := by
  unfold change
  cases h : r.copied line with
  | none =>
    obtain ⟨row, hplaced⟩ := placed_of_copied_eq_none h
    rw [hplaced]
    simp only [NodeMap.children_setLiM, children_ensured]
    split <;> simp [*]
  | some row =>
    rw [(placed_of_copied_eq_some h).2.2]
    simp only [NodeMap.children_duplicate, children_ensured, Option.some.injEq, exists_eq_left', copyName]
    split_ifs <;> simp [*]

theorem mem_fathers_placed (r : Reading) (line : Line) (u v : Text) :
    u ∈ (r.placed line).1.fathers v ↔
      (¬ (r.change line).reset v ∧ u ∈ r.graph.graph.fathers v) ∨ (r.change line).handed u v := by
  unfold change
  cases h : r.copied line with
  | none =>
    obtain ⟨row, hplaced⟩ := placed_of_copied_eq_none h
    rw [hplaced]
    simp only [NodeMap.fathers_setLiM, fathers_ensured]
    split <;> simp [*]
  | some row =>
    obtain ⟨hbusy, -, hplaced⟩ := placed_of_copied_eq_some h
    rw [hplaced]
    simp only [NodeMap.fathers_duplicate, fathers_ensured, if_neg hbusy.1, Option.some.injEq,
      exists_eq_left', copyName]
    by_cases hv : v = row ++ row
    · simp only [hv, if_true, true_and, or_true, not_true_eq_false, false_and, false_or]
    · rw [if_neg hv]
      split
      · next ho =>
        subst ho
        simp [hv]
      · next ho => simp [ho, hv]

/-- **The lists after a line.** -/
theorem adjacency_readLine (r : Reading) (line : Line) :
    (r.readLine line).graph.graph.adjacency = (r.change line).apply r.graph.graph.adjacency := by
  unfold NodeMap.adjacency Change.apply
  rw [graph_readLine]
  congr
  · funext u v
    rw [NodeMap.mem_children_addEdges, mem_children_placed]
    rfl
  · funext u v
    rw [NodeMap.mem_fathers_addEdges, mem_fathers_placed, or_assoc]
    rfl

end Reading

/-! ### The constraints -/

namespace SchedulerGraph

variable {g : NodeMap} {system : System} {id child u v : Text}

/-- The constraint of an edge is in the system. -/
def System.Constrains (system : System) (g : NodeMap) (u v : Text) : Prop :=
  ∃ i j, system.posId[u]? = some i ∧ system.posId[v]? = some j ∧
    ⟨[(i, -1), (j, 1)], (g.node v).delay⟩ ∈ system.rows

/-- The columns are those of the names, and no row is dropped. -/
structure System.Extends (system system' : System) : Prop where
  posId : ∀ (id : Text) (i : ℕ), system.posId[id]? = some i → system'.posId[id]? = some i
  rows : system.rows ⊆ system'.rows

theorem System.Extends.refl (system : System) : system.Extends system := ⟨fun _ _ h => h, List.Subset.refl _⟩

theorem System.Extends.trans {s₁ s₂ s₃ : System} (h : s₁.Extends s₂) (h' : s₂.Extends s₃) : s₁.Extends s₃ :=
  ⟨fun id i hi => h'.posId id i (h.posId id i hi), List.Subset.trans h.rows h'.rows⟩

theorem System.Extends.constrains {s₁ s₂ : System} (h : s₁.Extends s₂) (hc : s₁.Constrains g u v) :
    s₂.Constrains g u v := by
  obtain ⟨i, j, hi, hj, hrow⟩ := hc
  exact ⟨i, j, h.posId u i hi, h.posId v j hj, h.rows hrow⟩

theorem getElem?_setVariableNameLP (posId : ExtTreeMap Text ℕ) (id u : Text) :
    (setVariableNameLP posId id)[u]? = if u = id ∧ id ∉ posId then some (1 + posId.size) else posId[u]? := by
  rw [setVariableNameLP, ExtTreeMap.getElem?_insertIfNew]
  by_cases h : u = id ∧ id ∉ posId
  · rw [if_pos ⟨Std.compare_eq_iff_eq.mpr h.1.symm, h.2⟩, if_pos h]
  · rw [if_neg fun hn => h ⟨(Std.compare_eq_iff_eq.mp hn.1).symm, hn.2⟩, if_neg h]

theorem mem_of_getElem?_eq_some {posId : ExtTreeMap Text ℕ} {i : ℕ} (h : posId[u]? = some i) : u ∈ posId :=
  ExtTreeMap.isSome_getElem?_iff_mem.mp (Option.isSome_of_eq_some h)

theorem getElem?_setVariableNameLP_of_some {posId : ExtTreeMap Text ℕ} {i : ℕ} (h : posId[u]? = some i) :
    (setVariableNameLP posId id)[u]? = some i := by
  rw [getElem?_setVariableNameLP, if_neg, h]
  rintro ⟨rfl, hn⟩
  exact hn (mem_of_getElem?_eq_some h)

/-- The name has a column. -/
theorem exists_getElem?_setVariableNameLP (posId : ExtTreeMap Text ℕ) (id : Text) :
    ∃ i, (setVariableNameLP posId id)[id]? = some i :=
  Option.isSome_iff_exists.mp (ExtTreeMap.isSome_getElem?_iff_mem.mpr ExtTreeMap.mem_insertIfNew_self)

theorem extends_addChild (g : NodeMap) (id : Text) (system : System) (child : Text) :
    system.Extends (addChild g id system child) :=
  ⟨fun _ _ h => getElem?_setVariableNameLP_of_some h, List.subset_append_left _ _⟩

theorem constrains_addChild {i : ℕ} (hi : system.posId[id]? = some i) :
    (addChild g id system child).Constrains g id child := by
  obtain ⟨j, hj⟩ := exists_getElem?_setVariableNameLP system.posId child
  refine ⟨i, j, getElem?_setVariableNameLP_of_some hi, hj, ?_⟩
  simp only [addChild, getElem?_setVariableNameLP_of_some hi, hj, Option.getD_some]
  exact List.mem_append_right _ (List.mem_singleton.mpr rfl)

theorem extends_name (system : System) (id : Text) :
    system.Extends ⟨setVariableNameLP system.posId id, system.rows⟩ :=
  ⟨fun _ _ h => getElem?_setVariableNameLP_of_some h, List.Subset.refl _⟩

theorem extends_addChildren (g : NodeMap) (system : System) (entry : Text × Node) :
    system.Extends (addChildren g system entry) := by
  refine (extends_name system entry.1).trans ?_
  unfold addChildren
  generalize (⟨_, _⟩ : System) = system'
  induction entry.2.children generalizing system' with
  | nil => exact .refl system'
  | cons child children ih => exact (extends_addChild g entry.1 system' child).trans (ih _)

/-- The constraints of a node: one for every child. -/
theorem constrains_addChildren {entry : Text × Node} (h : v ∈ entry.2.children) :
    (addChildren g system entry).Constrains g entry.1 v := by
  obtain ⟨i, hi⟩ := exists_getElem?_setVariableNameLP system.posId entry.1
  obtain ⟨system', hpre, hpost⟩ := exists_foldl_of_mem System.Extends.refl (fun _ _ _ => System.Extends.trans)
    (extends_addChild g entry.1) (s := ⟨setVariableNameLP system.posId entry.1, system.rows⟩) h
  exact hpost.constrains (constrains_addChild (hpre.posId _ i hi))

/-- **`graphToSDC`**: every child has its constraint. -/
theorem constrains_graphToSDC {s : SchedulerGraph} (h : v ∈ s.graph.children u) :
    (graphToSDC s).Constrains s.graph u v := by
  cases hu : s.graph[u]? with
  | none =>
    rw [NodeMap.children, NodeMap.node, hu] at h
    cases h
  | some node =>
    rw [NodeMap.children, NodeMap.node, hu, Option.getD_some] at h
    have hmem : (u, node) ∈ s.graph.toList := ExtTreeMap.mem_toList_iff_getElem?_eq_some.mpr hu
    obtain ⟨system, -, hpost⟩ := exists_foldl_of_mem System.Extends.refl (fun _ _ _ => System.Extends.trans)
      (extends_addChildren s.graph) (s := ⟨∅, []⟩) hmem
    exact hpost.constrains (constrains_addChildren h)

/-! ### The columns -/

/-- Every name has a column of its own. -/
structure Numbered (posId : ExtTreeMap Text ℕ) : Prop where
  le_size : ∀ (id : Text) (i : ℕ), posId[id]? = some i → i ≤ posId.size
  inj : ∀ (id id' : Text) (i : ℕ), posId[id]? = some i → posId[id']? = some i → id = id'

theorem numbered_setVariableNameLP {posId : ExtTreeMap Text ℕ} (h : Numbered posId) (id : Text) :
    Numbered (setVariableNameLP posId id) := by
  by_cases hid : id ∈ posId
  · have hget : ∀ u, (setVariableNameLP posId id)[u]? = posId[u]? := fun u => by
      rw [getElem?_setVariableNameLP, if_neg fun hn => hn.2 hid]
    refine ⟨fun u i hu => ?_, fun u v i hu hv => h.inj u v i (hget u ▸ hu) (hget v ▸ hv)⟩
    rw [setVariableNameLP, ExtTreeMap.size_insertIfNew, if_pos hid]
    exact h.le_size u i (hget u ▸ hu)
  · -- the new column is above the others
    have hget : ∀ u i, (setVariableNameLP posId id)[u]? = some i →
        (u = id ∧ i = 1 + posId.size) ∨ (posId[u]? = some i ∧ i ≤ posId.size) := by
      intro u i hu
      rw [getElem?_setVariableNameLP] at hu
      split_ifs at hu with hn
      · exact .inl ⟨hn.1, (Option.some.inj hu).symm⟩
      · exact .inr ⟨hu, h.le_size u i hu⟩
    refine ⟨fun u i hu => ?_, fun u v i hu hv => ?_⟩
    · rw [setVariableNameLP, ExtTreeMap.size_insertIfNew, if_neg hid]
      rcases hget u i hu with ⟨-, hi⟩ | ⟨-, hi⟩ <;> lia
    · rcases hget u i hu with ⟨hu', hi⟩ | ⟨hu', hi⟩ <;> rcases hget v i hv with ⟨hv', hj⟩ | ⟨hv', hj⟩
      · rw [hu', hv']
      · lia
      · lia
      · exact h.inj u v i hu' hv'

theorem numbered_addChildren {g : NodeMap} {system : System} (h : Numbered system.posId)
    (entry : Text × Node) :
    Numbered (addChildren g system entry).posId := by
  have hname : Numbered (⟨setVariableNameLP system.posId entry.1, system.rows⟩ : System).posId :=
    numbered_setVariableNameLP h entry.1
  unfold addChildren
  revert hname
  generalize (⟨_, _⟩ : System) = system'
  induction entry.2.children generalizing system' with
  | nil => exact id
  | cons child children ih => exact fun hname => ih _ (numbered_setVariableNameLP hname child)

/-- The columns of the system are of different names. -/
theorem numbered_graphToSDC (s : SchedulerGraph) : Numbered (graphToSDC s).posId := by
  have hstart : Numbered (⟨∅, []⟩ : System).posId :=
    ⟨fun id i h => by simp at h, fun id id' i h => by simp at h⟩
  unfold graphToSDC
  revert hstart
  generalize (⟨_, _⟩ : System) = system
  induction s.graph.toList generalizing system with
  | nil => exact id
  | cons entry entries ih => exact fun hstart => ih _ (numbered_addChildren hstart entry)

/-! ### The file -/

/-- What happened as the lines were read. -/
def history (lines : List Line) : List (Transition Reading Line) :=
  transitions (fun r line => some (r.readLine line)) .start lines

/-- **The dependences are kept**, in the graph of the file and in its constraints. -/
structure KeepsDependences (lines : List Line) : Prop where
  /-- The children and the fathers are inverse to each other. -/
  inverse : (fileToGraph lines).graph.adjacency.Agree
  /-- Every line has its edges: the rows that it reads, or the copy, to the operator, and that to the result. -/
  line : ∀ t ∈ history lines,
    (fileToGraph lines).graph.adjacency.Edge (t.pre.op_n t.act) t.act.rd ∧
      ∀ row ∈ t.pre.sources t.act, (fileToGraph lines).graph.adjacency.Edge row (t.pre.op_n t.act)
  /-- A copy has the producers of its row. -/
  copy : ∀ t ∈ history lines, ∀ row, t.pre.copied t.act = some row →
    ∀ producer ∈ t.pre.graph.graph.fathers row,
      (fileToGraph lines).graph.adjacency.Edge producer (row ++ row)
  /-- No edge of an earlier graph is lost. -/
  kept : ∀ t ∈ history lines, ∀ u v, t.post.graph.graph.adjacency.Edge u v →
    (fileToGraph lines).graph.adjacency.Edge u v
  /-- Every dependence has its constraint. -/
  constraint : ∀ t ∈ history lines, ∀ u v, (t.pre.change t.act).Dependence u v →
    (graphToSDC (fileToGraph lines)).Constrains (fileToGraph lines).graph u v
  /-- The columns are of different names. -/
  columns : Numbered (graphToSDC (fileToGraph lines)).posId

end SchedulerGraph

/-- The line is sound for the graph that it is read into: the nodes that it replaces have no edges
but those that it adds, and the producers of the row that it copies have the copy as a child
already. -/
def Reading.KeepsEdges (r : Reading) (line : Line) : Prop := (r.change line).Sound r.graph.graph.adjacency

/-- The names of the line are fresh, and the row that it copies has no producers. -/
def Reading.Fresh (r : Reading) (line : Line) : Prop :=
  (r.graph.graph.children (r.op_n line) = [] ∧ r.graph.graph.fathers (r.op_n line) = []) ∧
    ∀ row ∈ r.copied line,
      (r.graph.graph.children (Reading.copyName row) = [] ∧
        r.graph.graph.fathers (Reading.copyName row) = []) ∧ r.graph.graph.fathers row = []

instance (r : Reading) (line : Line) : Decidable (r.Fresh line) := by
  unfold Reading.Fresh
  infer_instance

theorem Reading.Fresh.keepsEdges {r : Reading} {line : Line} (h : r.Fresh line) : r.KeepsEdges line := by
  have hlists : ∀ u, (r.change line).reset u →
      r.graph.graph.children u = [] ∧ r.graph.graph.fathers u = [] := by
    rintro u (rfl | ⟨row, hrow, rfl⟩)
    · exact h.1
    · exact (h.2 row hrow).1
  refine ⟨fun u v hu hv => ?_, fun u v hv hu => ?_, ?_⟩
  · exact absurd hv (List.eq_nil_iff_forall_not_mem.mp (hlists u hu).1 v)
  · exact absurd hu (List.eq_nil_iff_forall_not_mem.mp (hlists v hv).2 u)
  · rintro u v ⟨row, hrow, -, hu⟩
    exact absurd hu (List.eq_nil_iff_forall_not_mem.mp (h.2 row hrow).2 u)

namespace SchedulerGraph

variable {lines : List Line}

theorem run_readLine (lines : List Line) :
    run (fun (r : Reading) line => some (r.readLine line)) .start lines =
      some (lines.foldl Reading.readLine .start) :=
  run_some Reading.readLine .start lines

theorem adjacency_step (r : Reading) (line : Line) (r' : Reading) (h : some (r.readLine line) = some r') :
    r'.graph.graph.adjacency = (r.change line).apply r.graph.graph.adjacency := by
  rw [← Option.some.inj h]
  exact r.adjacency_readLine line

theorem not_succ_start (u v : Text) : ¬ Reading.start.graph.graph.adjacency.succ u v := by
  show v ∉ (NodeMap.node ∅ u).children
  rw [NodeMap.node_of_not_mem ExtTreeMap.not_mem_empty]
  exact List.not_mem_nil

theorem not_pred_start (u v : Text) : ¬ Reading.start.graph.graph.adjacency.pred u v := by
  show u ∉ (NodeMap.node ∅ v).fathers
  rw [NodeMap.node_of_not_mem ExtTreeMap.not_mem_empty]
  exact List.not_mem_nil

/-- An edge of an earlier graph is a dependence of a line. -/
theorem exists_dependence_of_edge {t : Transition Reading Line} (ht : t ∈ history lines)
    (h : t.post.graph.graph.adjacency.Edge u v) :
    ∃ t' ∈ history lines, (t'.pre.change t'.act).Dependence u v := by
  obtain ⟨before, ⟨after, rfl⟩, hrun, hpost⟩ := exists_prefix_of_mem_transitions ht
  have hreach := (run_snoc hrun).trans hpost
  obtain ⟨t', ht', hd⟩ := exists_dependence_of_run adjacency_step not_succ_start not_pred_start hreach (.inl h.1)
  refine ⟨t', ?_, hd⟩
  rw [history, transitions_append hreach]
  exact List.mem_append_left _ ht'

/-- The dependences are kept when the graph is faithful to the lines. -/
theorem keepsDependences_iff : KeepsDependences lines ↔
    Faithful Reading.change (history lines) (fileToGraph lines).graph.adjacency := by
  constructor
  · intro h
    refine ⟨h.inverse, fun t ht u v hd => ?_⟩
    rcases hd with (⟨rfl, rfl⟩ | ⟨hu, rfl⟩) | ⟨row, hrow, rfl, hu⟩
    · exact (h.line t ht).1
    · exact (h.line t ht).2 u hu
    · exact h.copy t ht row hrow u hu
  · intro h
    refine {
      inverse := h.agree
      line := fun t ht => ⟨h.edge t ht _ _ (.inl (.inl ⟨rfl, rfl⟩)),
        fun row hrow => h.edge t ht _ _ (.inl (.inr ⟨hrow, rfl⟩))⟩
      copy := fun t ht row hrow u hu => h.edge t ht _ _ (.inr ⟨row, hrow, rfl, hu⟩)
      kept := fun t ht u v huv => ?_
      constraint := fun t ht u v hd => constrains_graphToSDC (h.edge t ht u v hd).1
      columns := numbered_graphToSDC _ }
    obtain ⟨t', ht', hd⟩ := exists_dependence_of_edge ht huv
    exact h.edge t' ht' u v hd

/-- **`fileToGraph`**: the dependences are kept after every line exactly when every line is sound
for the graph that it is read into. -/
theorem fileToGraph_iff (lines : List Line) :
    (∀ read, read <+: lines → KeepsDependences read) ↔ ∀ t ∈ history lines, t.pre.KeepsEdges t.act := by
  refine Iff.trans ?_ (faithful_iff adjacency_step not_succ_start not_pred_start)
  constructor
  · intro h read r hread hrun
    rw [run_readLine] at hrun
    cases hrun
    exact keepsDependences_iff.mp (h read hread)
  · intro h read hread
    exact keepsDependences_iff.mpr (h read _ hread (run_readLine read))

/-- `x AND a b`, `y OR a b`, `z XOR a b`: the last line copies a row that is an input. -/
def copiedInput : List Line :=
  [.two "x".toList "AND".toList "a".toList "b".toList and_ne_notOp,
    .two "y".toList "OR".toList "a".toList "b".toList (by decide),
    .two "z".toList "XOR".toList "a".toList "b".toList (by decide)]

theorem fileToGraph_iff_copiedInput : ∀ read, read <+: copiedInput → KeepsDependences read :=
  (fileToGraph_iff copiedInput).mpr fun t ht =>
    Reading.Fresh.keepsEdges ((by decide +kernel : ∀ t ∈ history copiedInput, t.pre.Fresh t.act) t ht)

/-- A file whose last line copies a row with a producer:
`r AND a b`, `y NOT r`, `z NOT r`. -/
def copiedRow : List Line :=
  [.two "r".toList "AND".toList "a".toList "b".toList and_ne_notOp, .one "y".toList "r".toList,
    .one "z".toList "r".toList]

/-- The producer is a father of the copy, which is no child of it. -/
theorem not_keepsDependences_copiedRow : ¬ KeepsDependences copiedRow := by
  intro h
  have hfather : "AND1".toList ∈ (fileToGraph copiedRow).graph.fathers "rr".toList := by decide +kernel
  have hchild : "rr".toList ∉ (fileToGraph copiedRow).graph.children "AND1".toList := by decide +kernel
  exact hchild ((h.inverse _ _).mpr hfather)

end SchedulerGraph

end Octantis
