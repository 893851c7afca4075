import Octantis.Lib.Run

/-!
# A relation kept in both directions

A graph whose nodes list their successors and their predecessors holds every edge twice. A
change of such a graph resets some nodes, hands predecessors over to them and adds edges.
Only the added edges are added in both directions: the other ends are told neither of a
reset nor of what is handed over.

`Change.sound_iff` says which changes leave the two directions the same, with nothing lost, and
`faithful_iff` lifts that to the runs of a system whose steps are changes.
-/

namespace Octantis.Lib

universe u v w

variable {α : Type u}

/-- The successors and the predecessors, each as the nodes list them. -/
structure Adjacency (α : Type u) where
  /-- `v` is listed as a successor at `u`. -/
  succ : α → α → Prop
  /-- `u` is listed as a predecessor at `v`. -/
  pred : α → α → Prop

namespace Adjacency

/-- The two directions are inverse to each other. -/
def Agree (a : Adjacency α) : Prop := ∀ u v, a.succ u v ↔ a.pred u v

/-- An edge that both of its ends list. -/
def Edge (a : Adjacency α) (u v : α) : Prop := a.succ u v ∧ a.pred u v

end Adjacency

/-- A change of the lists. -/
structure Change (α : Type u) where
  /-- The nodes whose lists are emptied. -/
  reset : α → Prop
  /-- `u` is handed over to `v` as a predecessor. -/
  handed : α → α → Prop
  /-- The edges that are added. -/
  added : α → α → Prop

namespace Change

variable {c : Change α} {a : Adjacency α} {u v : α}

/-- The lists after the change. -/
def apply (c : Change α) (a : Adjacency α) : Adjacency α where
  succ u v := (¬ c.reset u ∧ a.succ u v) ∨ c.added u v
  pred u v := (¬ c.reset v ∧ a.pred u v) ∨ c.handed u v ∨ c.added u v

/-- What the change is to make an edge. -/
def Dependence (c : Change α) (u v : α) : Prop := c.added u v ∨ c.handed u v

/-- A reset loses only edges that the change brings back, and what is handed over is an edge
already. -/
structure Sound (c : Change α) (a : Adjacency α) : Prop where
  succ : ∀ u v, c.reset u → a.succ u v → c.added u v
  pred : ∀ u v, c.reset v → a.pred u v → c.Dependence u v
  handed : ∀ u v, c.handed u v → (¬ c.reset u ∧ a.succ u v) ∨ c.added u v

theorem edge_apply_of_added (h : c.added u v) : (c.apply a).Edge u v := ⟨.inr h, .inr (.inr h)⟩

namespace Sound

theorem edge_of_dependence (hc : c.Sound a) (h : c.Dependence u v) : (c.apply a).Edge u v := by
  rcases h with h | h
  · exact edge_apply_of_added h
  · exact ⟨hc.handed u v h, .inr (.inl h)⟩

theorem succ_apply (hc : c.Sound a) (h : a.succ u v) : (c.apply a).succ u v := by
  by_cases hu : c.reset u
  · exact .inr (hc.succ u v hu h)
  · exact .inl ⟨hu, h⟩

theorem pred_apply (hc : c.Sound a) (h : a.pred u v) : (c.apply a).pred u v := by
  by_cases hv : c.reset v
  · rcases hc.pred u v hv h with h | h
    · exact .inr (.inr h)
    · exact .inr (.inl h)
  · exact .inl ⟨hv, h⟩

theorem edge_apply (hc : c.Sound a) (h : a.Edge u v) : (c.apply a).Edge u v :=
  ⟨hc.succ_apply h.1, hc.pred_apply h.2⟩

theorem agree_apply (hc : c.Sound a) (ha : a.Agree) : (c.apply a).Agree := by
  intro u v
  constructor
  · rintro (⟨-, h⟩ | h)
    · exact hc.pred_apply ((ha u v).mp h)
    · exact .inr (.inr h)
  · rintro (⟨-, h⟩ | h | h)
    · exact hc.succ_apply ((ha u v).mpr h)
    · exact hc.handed u v h
    · exact .inr h

end Sound

/-- **What one change does**: the directions stay inverse, every edge is kept and every dependence
becomes an edge exactly when the change is sound. -/
theorem sound_iff (ha : a.Agree) :
    ((c.apply a).Agree ∧ (∀ u v, a.Edge u v → (c.apply a).Edge u v) ∧
      ∀ u v, c.Dependence u v → (c.apply a).Edge u v) ↔ c.Sound a := by
  constructor
  · rintro ⟨-, hkept, hdep⟩
    refine ⟨fun u v hu h => ?_, fun u v hv h => ?_, fun u v h => (hdep u v (.inr h)).1⟩
    · exact (hkept u v ⟨h, (ha u v).mp h⟩).1.resolve_left fun hn => hn.1 hu
    · exact ((hkept u v ⟨(ha u v).mpr h, h⟩).2.resolve_left fun hn => hn.1 hv).symm
  · intro hc
    exact ⟨hc.agree_apply ha, fun u v => hc.edge_apply, fun u v => hc.edge_of_dependence⟩

end Change

/-! ### Runs -/

section Runs

variable {σ : Type v} {β : Type w} (step : σ → β → Option σ) (adj : σ → Adjacency α)
  (change : σ → β → Change α)

/-- After the steps taken, the directions are inverse, and every dependence of a step is an edge. -/
structure Faithful (tr : List (Transition σ β)) (a : Adjacency α) : Prop where
  agree : a.Agree
  edge : ∀ t ∈ tr, ∀ u v, (change t.pre t.act).Dependence u v → a.Edge u v

variable {step adj change} {s₀ s : σ} {as bs : List β} {u v : α}
  (hstep : ∀ s b s', step s b = some s' → adj s' = (change s b).apply (adj s))
  (hsucc : ∀ u v, ¬ (adj s₀).succ u v) (hpred : ∀ u v, ¬ (adj s₀).pred u v)

include hstep hsucc hpred

/-- Whatever a node lists is a dependence of some step. -/
theorem exists_dependence_of_run (h : run step s₀ as = some s) (hs : (adj s).succ u v ∨ (adj s).pred u v) :
    ∃ t ∈ transitions step s₀ as, (change t.pre t.act).Dependence u v := by
  refine run_transitions (P := fun tr s => ∀ u v, (adj s).succ u v ∨ (adj s).pred u v →
    ∃ t ∈ tr, (change t.pre t.act).Dependence u v) (Q := fun _ => True) ?_ ?_ (fun _ _ => trivial) h u v hs
  · rintro u v (h | h)
    · exact absurd h (hsucc u v)
    · exact absurd h (hpred u v)
  intro tr s b s' _ ih hb u v hs
  rw [hstep s b s' hb] at hs
  -- either it was listed before, or the step has just listed it
  have hcases : ((adj s).succ u v ∨ (adj s).pred u v) ∨ (change s b).Dependence u v := by
    rcases hs with (⟨-, h⟩ | h) | (⟨-, h⟩ | h | h)
    · exact .inl (.inl h)
    · exact .inr (.inl h)
    · exact .inl (.inr h)
    · exact .inr (.inr h)
    · exact .inr (.inl h)
  rcases hcases with h | h
  · obtain ⟨t, ht, hd⟩ := ih u v h
    exact ⟨t, List.mem_append_left _ ht, hd⟩
  · exact ⟨_, List.mem_append_right _ (List.mem_singleton.mpr rfl), h⟩

theorem faithful_of_sound (hsound : ∀ t ∈ transitions step s₀ as, (change t.pre t.act).Sound (adj t.pre))
    (h : run step s₀ as = some s) : Faithful change (transitions step s₀ as) (adj s) := by
  refine run_transitions (P := fun tr s => (∀ t ∈ tr, (change t.pre t.act).Sound (adj t.pre)) →
    Faithful change tr (adj s)) (Q := fun _ => True) ?_ ?_ (fun _ _ => trivial) h hsound
  · exact fun _ => ⟨fun u v => iff_of_false (hsucc u v) (hpred u v), nofun⟩
  intro tr s b s' _ ih hb hsound
  have hf := ih fun t ht => hsound t (List.mem_append_left _ ht)
  have hc := hsound _ (List.mem_append_right _ (List.mem_singleton.mpr rfl))
  rw [hstep s b s' hb]
  refine ⟨hc.agree_apply hf.agree, fun t ht u v hd => ?_⟩
  rcases List.mem_append.mp ht with ht | ht
  · exact hc.edge_apply (hf.edge t ht u v hd)
  · rw [List.mem_singleton.mp ht] at hd
    exact hc.edge_of_dependence hd

/-- **Faithful runs**: the graph is faithful after every beginning of a run exactly when every
change made along it is sound. -/
theorem faithful_iff :
    (∀ bs s, bs <+: as → run step s₀ bs = some s → Faithful change (transitions step s₀ bs) (adj s)) ↔
      ∀ t ∈ transitions step s₀ as, (change t.pre t.act).Sound (adj t.pre) := by
  constructor
  · intro hf t ht
    obtain ⟨bs, hbs, hrun, hpost⟩ := exists_prefix_of_mem_transitions ht
    have hpre := hf bs t.pre ((List.prefix_append bs [t.act]).trans hbs) hrun
    have hafter := hf (bs ++ [t.act]) t.post hbs ((run_snoc hrun).trans hpost)
    rw [transitions_snoc hrun hpost, hstep _ _ _ hpost] at hafter
    refine (Change.sound_iff hpre.agree).mp ⟨hafter.agree, fun u v h => ?_, fun u v hd => ?_⟩
    · -- an edge of the graph before is a dependence of an earlier step
      obtain ⟨t', ht', hd⟩ := exists_dependence_of_run hstep hsucc hpred hrun (.inl h.1)
      exact hafter.edge t' (List.mem_append_left _ ht') u v hd
    · exact hafter.edge _ (List.mem_append_right _ (List.mem_singleton.mpr rfl)) u v hd
  · intro hsound bs s hbs hrun
    refine faithful_of_sound hstep hsucc hpred (fun t ht => hsound t ?_) hrun
    obtain ⟨cs, rfl⟩ := hbs
    rw [transitions_append hrun]
    exact List.mem_append_left _ ht

end Runs

end Octantis.Lib
