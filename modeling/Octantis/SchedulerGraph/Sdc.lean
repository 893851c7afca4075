import Octantis.SchedulerGraph.Solver

/-!
# The times of the graph

What the solver makes of the system of a graph. The constraints are the dependences of the graph,
so the least times are the earliest ones, and with the leaves kept where they are the greatest
times are the latest ones.

## The model

`dependences` are the constraints of a graph: a child comes after its father by its own delay, and no
time is negative. `fixed` adds that some nodes keep their times.

## What is proved

* `means_ofGraph`: `graphToSDC` makes the program of the dependences;
* `asap_sdc_isSome_iff_solves`, `isMinimal_of_asap_sdc`: when `asap_sdc` succeeds, and what it gives;
* `alap_sdc_isSome_iff`, `isMaximal_of_alap_sdc`: the same of `alap_sdc`;
* `alap_sdc_snd`: it leaves the system as it was.

## Honest scope

As in `Solver`: the solver is exact.
-/

namespace Octantis

open Std Lib

namespace NodeMap

variable {g : NodeMap} {u v id rd op_n : Text} {sources : List Text}

/-- Every child is a node. -/
def Closed (g : NodeMap) : Prop := ∀ u v, v ∈ g.children u → v ∈ g

/-- The constraints of the graph. -/
def dependences (g : NodeMap) : Set (Difference Text) :=
  {c | (∃ u v, v ∈ g.children u ∧ c = .step u v (g.node v).delay) ∨ ∃ v ∈ g, c = .above v 0}

theorem mem_of_mem_children (h : v ∈ g.children u) : u ∈ g := by
  by_contra hu
  rw [children, node_of_not_mem hu] at h
  exact List.not_mem_nil h

theorem step_mem_dependences {d : ℤ} : .step u v d ∈ g.dependences ↔ v ∈ g.children u ∧ d = (g.node v).delay := by
  constructor
  · rintro (⟨u', v', hv, heq⟩ | ⟨w, -, heq⟩)
    · cases heq
      exact ⟨hv, rfl⟩
    · cases heq
  · rintro ⟨hv, rfl⟩
    exact .inl ⟨u, v, hv, rfl⟩

theorem below_not_mem_dependences (v : Text) (c : ℤ) : .below v c ∉ g.dependences := by
  rintro (⟨_, _, _, heq⟩ | ⟨_, _, heq⟩)
  · cases heq
  · cases heq

/-- The paths of the constraints are those of the graph. -/
theorem reach_dependences : Reach g.dependences u v ↔ Relation.ReflTransGen (fun u v => v ∈ g.children u) u v := by
  unfold Reach
  simp only [step_mem_dependences, exists_and_left, exists_eq, and_true]

theorem finite_dependences (g : NodeMap) : g.dependences.Finite := by
  refine Set.Finite.subset (List.finite_toSet ((g.keys.flatMap fun u => (g.children u).map fun v =>
    Difference.step u v (g.node v).delay) ++ g.keys.map (Difference.above · 0))) ?_
  rintro c (⟨u, v, hv, rfl⟩ | ⟨v, hv, rfl⟩)
  · refine List.mem_append_left _ (List.mem_flatMap.mpr ⟨u, ExtTreeMap.mem_keys.mpr (mem_of_mem_children hv), ?_⟩)
    exact List.mem_map_of_mem hv
  · exact List.mem_append_right _ (List.mem_map_of_mem (ExtTreeMap.mem_keys.mpr hv))

/-- The names of the constraints are nodes. -/
theorem within_dependences (hg : g.Closed) {t t' : Text → ℚ} (heq : ∀ id ∈ g, t id = t' id) (h : Solves g.dependences t) :
    Solves g.dependences t' := by
  rintro c (⟨u, v, hv, rfl⟩ | ⟨v, hv, rfl⟩)
  · show t' u + ((g.node v).delay : ℚ) ≤ t' v
    rw [← heq u (mem_of_mem_children hv), ← heq v (hg u v hv)]
    exact h _ (.inl ⟨u, v, hv, rfl⟩)
  · show ((0 : ℤ) : ℚ) ≤ t' v
    rw [← heq v hv]
    exact h _ (.inr ⟨v, hv, rfl⟩)

end NodeMap

/-! ### The program of a graph -/

namespace SchedulerGraph

variable {g : NodeMap} {s : SchedulerGraph} {system : System} {u v id child : Text}

/-- The names that have a column, and the rows, of a system that is being built. -/
structure System.Built (g : NodeMap) (system : System) : Prop where
  pos : ∀ (id : Text) (j : ℕ), system.posId[id]? = some j → 1 ≤ j
  surj : ∀ j, 1 ≤ j → j ≤ system.posId.size → ∃ id : Text, system.posId[id]? = some j
  mem : ∀ id ∈ system.posId, id ∈ g
  rows : ∀ row ∈ system.rows, ∃ u v i j, v ∈ g.children u ∧ system.posId[u]? = some i ∧ system.posId[v]? = some j ∧
    row = ⟨[(i, -1), (j, 1)], (g.node v).delay⟩

/-- A node gets a column. -/
theorem System.Built.name (h : system.Built g) (hid : id ∈ g) :
    System.Built g ⟨setVariableNameLP system.posId id, system.rows⟩ := by
  refine ⟨fun u j hj => ?_, fun j hj hle => ?_, fun u hu => ?_, fun row hrow => ?_⟩
  · rw [getElem?_setVariableNameLP] at hj
    split at hj
    · have := Option.some.inj hj
      omega
    · exact h.pos u j hj
  · change j ≤ (setVariableNameLP system.posId id).size at hle
    rw [setVariableNameLP, ExtTreeMap.size_insertIfNew] at hle
    by_cases hin : id ∈ system.posId
    · rw [if_pos hin] at hle
      obtain ⟨u, hu⟩ := h.surj j hj hle
      exact ⟨u, getElem?_setVariableNameLP_of_some hu⟩
    · rw [if_neg hin] at hle
      rcases Nat.lt_or_eq_of_le hle with hlt | rfl
      · obtain ⟨u, hu⟩ := h.surj j hj (by omega)
        exact ⟨u, getElem?_setVariableNameLP_of_some hu⟩
      · refine ⟨id, ?_⟩
        rw [getElem?_setVariableNameLP, if_pos ⟨rfl, hin⟩, Nat.add_comm]
  · change u ∈ setVariableNameLP system.posId id at hu
    rw [setVariableNameLP, ExtTreeMap.mem_insertIfNew] at hu
    rcases hu with hu | hu
    · rw [← Std.compare_eq_iff_eq.mp hu]
      exact hid
    · exact h.mem u hu
  · obtain ⟨u, v, i, j, hv, hi, hj, rfl⟩ := h.rows row hrow
    exact ⟨u, v, i, j, hv, getElem?_setVariableNameLP_of_some hi, getElem?_setVariableNameLP_of_some hj, rfl⟩

/-- A child gets its constraint. -/
theorem System.Built.addChild (h : system.Built g) (hid : id ∈ system.posId) (hchild : child ∈ g.children id)
    (hg : g.Closed) : (addChild g id system child).Built g := by
  have hname := h.name (hg id child hchild)
  obtain ⟨i, hi⟩ := Option.isSome_iff_exists.mp (ExtTreeMap.isSome_getElem?_iff_mem.mpr hid)
  obtain ⟨j, hj⟩ := exists_getElem?_setVariableNameLP system.posId child
  refine ⟨hname.pos, hname.surj, hname.mem, fun row hrow => ?_⟩
  rcases List.mem_append.mp hrow with hrow | hrow
  · exact hname.rows row hrow
  · have hi' : (setVariableNameLP system.posId child)[id]? = some i := getElem?_setVariableNameLP_of_some hi
    rw [List.mem_singleton, hi', hj] at hrow
    exact ⟨id, child, i, j, hchild, hi', hj, hrow⟩

theorem System.Built.addChildren (h : system.Built g) (hg : g.Closed) {entry : Text × Node} (hentry : g[entry.1]? = some entry.2) :
    (addChildren g system entry).Built g := by
  have hchildren : entry.2.children = g.children entry.1 := by
    rw [NodeMap.children, NodeMap.node, hentry, Option.getD_some]
  have hmem : entry.1 ∈ g := ExtTreeMap.isSome_getElem?_iff_mem.mp (Option.isSome_of_eq_some hentry)
  unfold SchedulerGraph.addChildren
  have hall : ∀ (children : List Text) (system : System), system.Built g → entry.1 ∈ system.posId →
      (∀ child ∈ children, child ∈ g.children entry.1) →
      (children.foldl (SchedulerGraph.addChild g entry.1) system).Built g := by
    intro children
    induction children with
    | nil => exact fun system h _ _ => h
    | cons child children ih =>
      intro system h hin hall
      refine ih _ (h.addChild hin (hall child List.mem_cons_self) hg) ?_ fun c hc => hall c (List.mem_cons_of_mem _ hc)
      exact ExtTreeMap.mem_insertIfNew.mpr (.inr hin)
  refine hall _ _ (h.name hmem) ?_ fun child hchild => hchildren ▸ hchild
  exact ExtTreeMap.mem_insertIfNew_self

/-- The names and the rows of the system of a graph. -/
theorem built_graphToSDC (hg : s.graph.Closed) : s.graphToSDC.Built s.graph := by
  have hstart : System.Built s.graph ⟨∅, []⟩ :=
    ⟨fun _ _ h => by simp at h, fun j hj hle => by simp at hle; omega, fun _ h => by simp at h, by simp⟩
  have hall : ∀ (entries : List (Text × Node)) (system : System), system.Built s.graph →
      (∀ entry ∈ entries, s.graph[entry.1]? = some entry.2) →
      (entries.foldl (addChildren s.graph) system).Built s.graph := by
    intro entries
    induction entries with
    | nil => exact fun system h _ => h
    | cons entry entries ih =>
      intro system h hentries
      exact ih _ (h.addChildren hg (hentries entry List.mem_cons_self)) fun e he => hentries e (List.mem_cons_of_mem _ he)
  exact hall _ _ hstart fun entry hentry => ExtTreeMap.mem_toList_iff_getElem?_eq_some.mp hentry

/-- Every node has a column. -/
theorem mem_posId_graphToSDC (hg : s.graph.Closed) : id ∈ s.graphToSDC.posId ↔ id ∈ s.graph := by
  refine ⟨(built_graphToSDC hg).mem id, fun hid => ?_⟩
  obtain ⟨node, hnode⟩ := Option.isSome_iff_exists.mp (ExtTreeMap.isSome_getElem?_iff_mem.mpr hid)
  obtain ⟨system, -, hpost⟩ := exists_foldl_of_mem System.Extends.refl (fun _ _ _ => System.Extends.trans)
    (extends_addChildren s.graph) (s := ⟨∅, []⟩) (ExtTreeMap.mem_toList_iff_getElem?_eq_some.mpr hnode)
  obtain ⟨i, hi⟩ := exists_getElem?_setVariableNameLP system.posId id
  have hname : System.Extends ⟨setVariableNameLP system.posId id, system.rows⟩ (addChildren s.graph system (id, node)) := by
    unfold SchedulerGraph.addChildren
    generalize (⟨_, _⟩ : System) = system'
    induction (id, node).2.children generalizing system' with
    | nil => exact .refl system'
    | cons child children ih => exact (extends_addChild s.graph id system' child).trans (ih _)
  exact mem_of_getElem?_eq_some ((hname.trans hpost).posId id i hi)

theorem size_posId_graphToSDC (hg : s.graph.Closed) : s.graphToSDC.posId.size = s.graph.size := by
  rw [← ExtTreeMap.length_keys, ← ExtTreeMap.length_keys]
  refine List.Perm.length_eq ((List.perm_ext_iff_of_nodup ExtTreeMap.nodup_keys ExtTreeMap.nodup_keys).mpr fun id => ?_)
  rw [ExtTreeMap.mem_keys, ExtTreeMap.mem_keys, mem_posId_graphToSDC hg]

end SchedulerGraph

namespace Sdc

variable {s : SchedulerGraph}

theorem mem_names_ofGraph (hg : s.graph.Closed) {id : Text} : id ∈ (ofGraph s).names ↔ id ∈ s.graph :=
  mem_names.trans (SchedulerGraph.mem_posId_graphToSDC hg)

theorem named_ofGraph (hg : s.graph.Closed) : (ofGraph s).Named := by
  have hbuilt := SchedulerGraph.built_graphToSDC hg
  have hnumbered := SchedulerGraph.numbered_graphToSDC s
  have hsize := SchedulerGraph.size_posId_graphToSDC hg
  refine ⟨fun id j hj => ⟨hbuilt.pos id j hj, ?_⟩, hnumbered.inj, fun j hj hle => hbuilt.surj j hj ?_⟩
  · exact (hnumbered.le_size id j hj).trans hsize.le
  · exact hle.trans hsize.ge

/-- **The program of a graph** stands for its dependences. -/
theorem means_ofGraph (hg : s.graph.Closed) : (ofGraph s).Means s.graph.dependences := by
  have hnamed := named_ofGraph hg
  refine ⟨hnamed, fun x => ⟨fun h => ?_, fun h => ⟨fun j hj => ?_, fun row hrow => ?_⟩⟩, fun t t' heq => ?_⟩
  · rintro c (⟨u, v, hv, rfl⟩ | ⟨v, hv, rfl⟩)
    · obtain ⟨i, j, hi, hj, hrow⟩ := SchedulerGraph.constrains_graphToSDC hv
      have hholds : (((s.graph.node v).delay : ℤ) : ℚ) ≤ [((-1 : ℤ) : ℚ) * x i, ((1 : ℤ) : ℚ) * x j].sum :=
        h.rows _ (List.mem_map_of_mem hrow)
      have hu : (ofGraph s).column u = i := by
        show (s.graphToSDC.posId[u]?).getD 0 = i
        rw [hi, Option.getD_some]
      have hv : (ofGraph s).column v = j := by
        show (s.graphToSDC.posId[v]?).getD 0 = j
        rw [hj, Option.getD_some]
      show x ((ofGraph s).column u) + ((s.graph.node v).delay : ℚ) ≤ x ((ofGraph s).column v)
      rw [hu, hv]
      simp only [List.sum_cons, List.sum_nil] at hholds
      push_cast at hholds
      linarith
    · show ((0 : ℤ) : ℚ) ≤ x ((ofGraph s).column v)
      rw [Int.cast_zero]
      exact h.nonneg _ (hnamed.column_mem ((mem_names_ofGraph hg).mpr hv))
  · obtain ⟨hname, hcol⟩ := hnamed.exists_column hj
    have hnonneg : ((0 : ℤ) : ℚ) ≤ x ((ofGraph s).column ((ofGraph s).colName j)) :=
      h _ (.inr ⟨_, (mem_names_ofGraph hg).mp hname, rfl⟩)
    rwa [hcol, Int.cast_zero] at hnonneg
  · obtain ⟨row', hrow', rfl⟩ := List.mem_map.mp hrow
    obtain ⟨u, v, i, j, hv, hi, hj, rfl⟩ := (SchedulerGraph.built_graphToSDC hg).rows row' hrow'
    have hstep : x ((ofGraph s).column u) + ((s.graph.node v).delay : ℚ) ≤ x ((ofGraph s).column v) :=
      h _ (.inl ⟨u, v, hv, rfl⟩)
    have hu : (ofGraph s).column u = i := by
      show (s.graphToSDC.posId[u]?).getD 0 = i
      rw [hi, Option.getD_some]
    have hv : (ofGraph s).column v = j := by
      show (s.graphToSDC.posId[v]?).getD 0 = j
      rw [hj, Option.getD_some]
    rw [hu, hv] at hstep
    show (((s.graph.node v).delay : ℤ) : ℚ) ≤ [((-1 : ℤ) : ℚ) * x i, ((1 : ℤ) : ℚ) * x j].sum
    simp only [List.sum_cons, List.sum_nil]
    push_cast
    linarith
  · exact NodeMap.within_dependences hg fun id hid => heq id ((mem_names_ofGraph hg).mpr hid)

end Sdc

/-! ### The earliest times -/

/-- `result[id]` -/
def timeOf (result : ExtTreeMap Text ℤ) (id : Text) : ℤ := result[id]?.getD 0

namespace Sdc

variable {solver : Solver} {sdc : Sdc} {S : Set (Difference Text)} {result result₀ : ExtTreeMap Text ℤ} {id : Text}
  {leaves : List Text}

theorem truncate_of_nonneg {q : ℚ} (h : 0 ≤ q) : truncate q = ⌊q⌋ := if_pos h

theorem Means.nonneg (h : sdc.Means S) {x : ℕ → ℚ} (hx : Solves S fun id => x (sdc.column id)) (hid : id ∈ sdc.names) :
    0 ≤ x (sdc.column id) :=
  ((h.feasible x).mpr hx).nonneg _ (h.named.column_mem hid)

/-- What is read of integral variables. -/
theorem Means.timeOf_readVariables (h : sdc.Means S) {x : ℕ → ℚ} (hx : Solves S fun id => x (sdc.column id))
    (hint : ∀ id ∈ sdc.names, ((⌊x (sdc.column id)⌋ : ℤ) : ℚ) = x (sdc.column id)) (result₀ : ExtTreeMap Text ℤ)
    (hid : id ∈ sdc.names) :
    (sdc.readVariables result₀ x)[id]? = some (timeOf (sdc.readVariables result₀ x) id) ∧
      (timeOf (sdc.readVariables result₀ x) id : ℚ) = x (sdc.column id) := by
  have hget := getElem?_readVariables h.named result₀ x id
  rw [if_pos hid, truncate_of_nonneg (h.nonneg hx hid)] at hget
  have htime : timeOf (sdc.readVariables result₀ x) id = ⌊x (sdc.column id)⌋ := by
    rw [timeOf, hget, Option.getD_some]
  refine ⟨?_, ?_⟩
  · rw [htime, hget]
  · rw [htime, hint id hid]

/-- `asap_sdc` succeeds exactly when there is a least solution. -/
theorem asap_sdc_isSome_iff_isMinimal (hsolver : solver.Documented) (h : sdc.Means S) :
    (sdc.asap_sdc solver result₀).isSome ↔ ∃ t : Text → ℚ, IsMinimal S sdc.names t := by
  rw [asap_sdc, Option.isSome_map]
  constructor
  · intro hsome
    obtain ⟨x, hx⟩ := Option.isSome_iff_exists.mp hsome
    exact ⟨_, (h.isMinimal_iff x).mp (hsolver.optimal _ _ _ hx)⟩
  · rintro ⟨t, ht⟩
    exact hsolver.isSome _ _ _ (h.optimal_of_isMinimal ht)

/-- **What `asap_sdc` gives**: the least times. -/
theorem isMinimal_of_asap_sdc (hsolver : solver.Documented) (h : sdc.Means S)
    (hresult : sdc.asap_sdc solver result₀ = some result) :
    IsMinimal S sdc.names (fun id => (timeOf result id : ℚ)) ∧ ∀ id ∈ sdc.names, result[id]? = some (timeOf result id) := by
  obtain ⟨x, hx, rfl⟩ := Option.map_eq_some_iff.mp hresult
  have hmin := (h.isMinimal_iff x).mp (hsolver.optimal _ _ _ hx)
  have hread : ∀ id ∈ sdc.names, _ := fun id hid =>
    h.timeOf_readVariables hmin.solves (fun id hid => hmin.floor_eq hid) result₀ hid
  refine ⟨hmin.congr (h.within _ _ (fun id hid => (hread id hid).2.symm) hmin.solves) fun id hid => ?_,
    fun id hid => (hread id hid).1⟩
  exact (hread id hid).2.symm

/-- There are earliest times exactly when there are any. -/
theorem asap_sdc_isSome_iff_solves (hsolver : solver.Documented) (h : sdc.Means S) :
    (sdc.asap_sdc solver result₀).isSome ↔ ∃ t : Text → ℚ, Solves S t := by
  rw [asap_sdc_isSome_iff_isMinimal hsolver h]
  refine ⟨fun ⟨t, ht⟩ => ⟨t, ht.solves⟩, fun hsome => exists_isMinimal hsome fun id hid => ⟨0, fun t ht => ?_⟩⟩
  rw [Int.cast_zero]
  have hnonneg := h.nonneg (h.solves_colName ht) hid
  rwa [Function.comp_apply, h.named.colName_column hid] at hnonneg

/-! ### The latest times -/

/-- Some nodes keep their times. -/
def fixed (S : Set (Difference Text)) (leaves : List Text) (t : Text → ℤ) : Set (Difference Text) :=
  S ∪ {c | ∃ leaf ∈ leaves, c = .above leaf (t leaf) ∨ c = .below leaf (t leaf)}

theorem mem_fixed {t : Text → ℤ} {c : Difference Text} :
    c ∈ fixed S leaves t ↔ c ∈ S ∨ ∃ leaf ∈ leaves, c = .above leaf (t leaf) ∨ c = .below leaf (t leaf) := Iff.rfl

/-- What solves the constraints of the nodes that keep their times. -/
theorem solves_fixed {leaves : List Text} {t : Text → ℤ} {t' : Text → ℚ} :
    Solves (fixed S leaves t) t' ↔ Solves S t' ∧ ∀ leaf ∈ leaves, t' leaf = (t leaf : ℚ) := by
  constructor
  · intro h
    refine ⟨fun c hc => h c (.inl hc), fun leaf hleaf => ?_⟩
    have h1 : t' leaf ≤ (t leaf : ℚ) := h _ (.inr ⟨leaf, hleaf, .inr rfl⟩)
    have h2 : (t leaf : ℚ) ≤ t' leaf := h _ (.inr ⟨leaf, hleaf, .inl rfl⟩)
    exact Std.le_antisymm h1 h2
  · rintro ⟨h, hleaves⟩ c (hc | ⟨leaf, hleaf, rfl | rfl⟩)
    · exact h c hc
    · exact (hleaves leaf hleaf).ge
    · exact (hleaves leaf hleaf).le

/-- The system with the leaves kept where they are. -/
theorem Means.fixLeaves (h : sdc.Means S) (hleaves : ∀ leaf ∈ leaves, leaf ∈ sdc.names) (result : ExtTreeMap Text ℤ) :
    (sdc.fixLeaves leaves result).Means (fixed S leaves (timeOf result)) ∧
      (sdc.fixLeaves leaves result).posId = sdc.posId := by
  unfold Sdc.fixLeaves
  induction leaves generalizing sdc S with
  | nil =>
    refine ⟨?_, rfl⟩
    have hS : fixed S [] (timeOf result) = S := by
      ext c
      simp [mem_fixed]
    rw [hS]
    exact h
  | cons leaf leaves ih =>
    have hadd := (h.add_single_var_constraint_sdc (hleaves leaf List.mem_cons_self) (timeOf result leaf)).2
    obtain ⟨hmeans, hpos⟩ := ih hadd fun l hl => hleaves l (List.mem_cons_of_mem _ hl)
    refine ⟨?_, hpos⟩
    have hS : fixed S (leaf :: leaves) (timeOf result) =
        fixed (insert (.above leaf (timeOf result leaf)) (insert (.below leaf (timeOf result leaf)) S)) leaves
          (timeOf result) := by
      ext c
      simp only [mem_fixed, List.mem_cons, Set.mem_insert_iff, exists_eq_or_imp]
      grind
    rw [hS]
    exact hmeans

theorem foldl_remove_last_constraint_sdc (sdc : Sdc) (leaves : List Text) :
    leaves.foldl (fun sdc _ => sdc.remove_last_constraint_sdc) sdc =
      { sdc with rows := sdc.rows.take (sdc.rows.length - leaves.length) } := by
  induction leaves generalizing sdc with
  | nil => simp
  | cons leaf leaves ih =>
    rw [List.foldl_cons, ih]
    show ({ sdc with rows := _ } : Sdc) = _
    rw [remove_last_constraint_sdc, List.dropLast_eq_take, List.length_take, List.take_take, List.length_cons]
    congr 2
    omega

/-- **`alap_sdc` leaves the system as it was.** -/
theorem alap_sdc_snd (solver : Solver) (sdc : Sdc) (leaves : List Text) (resultASAP resultALAP : ExtTreeMap Text ℤ) :
    (sdc.alap_sdc solver leaves resultASAP resultALAP).2 = sdc := by
  have hfix : ∀ (leaves : List Text) (sdc : Sdc), sdc.fixLeaves leaves resultASAP =
      { sdc with rows := sdc.rows ++ leaves.map fun leaf => ⟨[(sdc.column leaf, 1)], .EQ, resultASAP[leaf]?.getD 0⟩ } := by
    intro leaves
    induction leaves with
    | nil =>
      intro sdc
      simp [fixLeaves]
    | cons leaf leaves ih =>
      intro sdc
      rw [fixLeaves, List.foldl_cons, ← fixLeaves, ih]
      simp only [add_single_var_constraint_sdc, List.append_assoc, List.map_cons, List.singleton_append]
      rfl
  show leaves.foldl (fun sdc _ => sdc.remove_last_constraint_sdc) (sdc.fixLeaves leaves resultASAP) = sdc
  rw [foldl_remove_last_constraint_sdc, hfix]
  simp

/-- `alap_sdc` succeeds exactly when there is a greatest solution. -/
theorem alap_sdc_isSome_iff_isMaximal (hsolver : solver.Documented) (h : sdc.Means S)
    (hleaves : ∀ leaf ∈ leaves, leaf ∈ sdc.names) {resultASAP : ExtTreeMap Text ℤ} :
    (sdc.alap_sdc solver leaves resultASAP result₀).1.isSome ↔
      ∃ t : Text → ℚ, IsMaximal (fixed S leaves (timeOf resultASAP)) sdc.names t := by
  obtain ⟨hmeans, hpos⟩ := h.fixLeaves hleaves resultASAP
  have hnames : (sdc.fixLeaves leaves resultASAP).names = sdc.names := by rw [names, hpos, ← names]
  show ((solver (sdc.fixLeaves leaves resultASAP) .maxim).map _).isSome ↔ _
  rw [Option.isSome_map, ← hnames]
  constructor
  · intro hsome
    obtain ⟨x, hx⟩ := Option.isSome_iff_exists.mp hsome
    exact ⟨_, (hmeans.isMaximal_iff x).mp (hsolver.optimal _ _ _ hx)⟩
  · rintro ⟨t, ht⟩
    exact hsolver.isSome _ _ _ (hmeans.optimal_of_isMaximal ht)

/-- **What `alap_sdc` gives**: the greatest times with the leaves where they are. -/
theorem isMaximal_of_alap_sdc (hsolver : solver.Documented) (h : sdc.Means S)
    (hleaves : ∀ leaf ∈ leaves, leaf ∈ sdc.names) {resultASAP : ExtTreeMap Text ℤ}
    (hresult : (sdc.alap_sdc solver leaves resultASAP result₀).1 = some result) :
    IsMaximal (fixed S leaves (timeOf resultASAP)) sdc.names (fun id => (timeOf result id : ℚ)) ∧
      ∀ id ∈ sdc.names, result[id]? = some (timeOf result id) := by
  obtain ⟨hmeans, hpos⟩ := h.fixLeaves hleaves resultASAP
  have hnames : (sdc.fixLeaves leaves resultASAP).names = sdc.names := by rw [names, hpos, ← names]
  obtain ⟨x, hx, rfl⟩ := Option.map_eq_some_iff.mp hresult
  have hmax := (hmeans.isMaximal_iff x).mp (hsolver.optimal _ _ _ hx)
  rw [← hnames]
  have hread : ∀ id ∈ (sdc.fixLeaves leaves resultASAP).names, _ := fun id hid =>
    hmeans.timeOf_readVariables hmax.solves (fun id hid => hmax.floor_eq hid) result₀ hid
  refine ⟨hmax.congr (hmeans.within _ _ (fun id hid => (hread id hid).2.symm) hmax.solves) fun id hid => ?_,
    fun id hid => (hread id hid).1⟩
  exact (hread id hid).2.symm

/-- **When `alap_sdc` succeeds**, after `asap_sdc`: exactly when every node has a leaf after it. -/
theorem alap_sdc_isSome_iff (hsolver : solver.Documented) (h : sdc.Means S) (hS : Forward S)
    (hbelow : ∀ v c, .below v c ∉ S) (hleaves : ∀ leaf ∈ leaves, leaf ∈ sdc.names) {resultASAP : ExtTreeMap Text ℤ}
    (hasap : Solves S fun id => (timeOf resultASAP id : ℚ)) :
    (sdc.alap_sdc solver leaves resultASAP result₀).1.isSome ↔ ∀ v ∈ sdc.names, ∃ leaf ∈ leaves, Reach S v leaf := by
  rw [alap_sdc_isSome_iff_isMaximal hsolver h hleaves]
  have hstep : ∀ u v d, .step u v d ∈ fixed S leaves (timeOf resultASAP) ↔ .step u v d ∈ S := by
    intro u v d
    simp [mem_fixed]
  have hreach : ∀ u v, Reach (fixed S leaves (timeOf resultASAP)) u v ↔ Reach S u v := by
    intro u v
    unfold Reach
    simp only [hstep]
  constructor
  · rintro ⟨t, ht⟩ v hv
    obtain ⟨w, c, hw, hc⟩ := ht.exists_below hv
    rcases hc with hc | ⟨leaf, hleaf, heq | heq⟩
    · exact absurd hc (hbelow w c)
    · cases heq
    · cases heq
      exact ⟨w, hleaf, (hreach v w).mp hw⟩
  · intro hall
    refine exists_isMaximal ⟨_, solves_fixed.mpr ⟨hasap, fun _ _ => rfl⟩⟩ fun v hv => ?_
    obtain ⟨leaf, hleaf, hpath⟩ := hall v hv
    refine ⟨timeOf resultASAP leaf, fun t ht => ?_⟩
    obtain ⟨ht, heq⟩ := solves_fixed.mp ht
    rw [← heq leaf hleaf]
    exact ht.le_of_reach hS hpath

end Sdc

end Octantis
