import Mathlib.Data.List.Basic
import Mathlib.Data.List.Induction

/-!
# Runs of a partial step function

A component that takes one action after another is a step function
`σ → α → Option σ`: `none` where the component stops in an undefined way. A run
is a list of actions (`run`), and what happened along it is the list of its
transitions (`transitions`), so that a property of a state may speak of the
steps that led to it.

The two rules used by the developments above are `run_induction` — what holds at
the start and is kept by each step holds at the end, where the step may use
everything known of the run so far — and `run_transitions`, its form for a
relation between the history and the state.
-/

namespace Octantis.Lib

universe u v

variable {σ : Type u} {α : Type v}

/-- A step that was taken. -/
structure Transition (σ : Type u) (α : Type v) where
  /-- The state before. -/
  pre : σ
  /-- What was done. -/
  act : α
  /-- The state after. -/
  post : σ

/-- The state after the actions, if every step is defined. -/
def run (step : σ → α → Option σ) (s : σ) (as : List α) : Option σ := as.foldlM step s

/-- The steps taken along the actions, up to the first undefined one. -/
def transitions (step : σ → α → Option σ) : σ → List α → List (Transition σ α)
  | _, [] => []
  | s, a :: as =>
    match step s a with
    | none => []
    | some s' => ⟨s, a, s'⟩ :: transitions step s' as

variable {step : σ → α → Option σ} {s s' s'' : σ} {a : α} {as bs : List α}

@[simp] theorem run_nil : run step s [] = some s := rfl

@[simp] theorem run_cons : run step s (a :: as) = (step s a).bind fun s' => run step s' as := rfl

theorem run_append : run step s (as ++ bs) = (run step s as).bind fun s' => run step s' bs := by
  unfold run
  rw [List.foldlM_append]
  rfl

theorem run_snoc (h : run step s as = some s') : run step s (as ++ [a]) = step s' a := by
  rw [run_append, h]
  cases hs : step s' a <;> simp [hs]

/-- A run that ends passes through a state before its last step. -/
theorem exists_of_run_snoc (h : run step s (as ++ [a]) = some s'') :
    ∃ s', run step s as = some s' ∧ step s' a = some s'' := by
  rw [run_append, Option.bind_eq_some_iff] at h
  obtain ⟨s', h₁, h₂⟩ := h
  refine ⟨s', h₁, ?_⟩
  simpa using h₂

/-- **The run rule**: a property of the actions done and the state reached that holds at the
start and is kept by every step holds at the end of every run. -/
theorem run_induction {P : List α → σ → Prop} {s₀ : σ} (nil : P [] s₀)
    (snoc : ∀ as s a s', run step s₀ as = some s → P as s → step s a = some s' → P (as ++ [a]) s')
    (h : run step s₀ as = some s) : P as s := by
  induction as using List.reverseRecOn generalizing s with
  | nil =>
    rw [run_nil, Option.some.injEq] at h
    exact h ▸ nil
  | append_singleton as a ih =>
    obtain ⟨s', h₁, h₂⟩ := exists_of_run_snoc h
    exact snoc as s' a s h₁ (ih h₁) h₂

/-- The invariant rule: what holds of the start and is kept by the allowed steps holds at the end of
every run of allowed actions. -/
theorem run_invariant {P : σ → Prop} {Q : α → Prop} {s₀ : σ} (init : P s₀)
    (keep : ∀ s a s', Q a → P s → step s a = some s' → P s')
    (ha : ∀ a ∈ as, Q a) (h : run step s₀ as = some s) : P s := by
  refine run_induction (P := fun as s => (∀ a ∈ as, Q a) → P s) (fun _ => init) ?_ h ha
  intro as s a s' _ ih hs ha
  exact keep s a s' (ha a (by simp)) (ih fun b hb => ha b (by simp [hb])) hs

theorem transitions_append (h : run step s as = some s') :
    transitions step s (as ++ bs) = transitions step s as ++ transitions step s' bs := by
  induction as generalizing s with
  | nil =>
    rw [run_nil, Option.some.injEq] at h
    rw [h]
    rfl
  | cons a as ih =>
    rw [run_cons, Option.bind_eq_some_iff] at h
    obtain ⟨s₁, h₁, h₂⟩ := h
    simp only [List.cons_append, transitions, h₁]
    rw [ih h₂]

theorem transitions_snoc (h : run step s as = some s') (hs : step s' a = some s'') :
    transitions step s (as ++ [a]) = transitions step s as ++ [⟨s', a, s''⟩] := by
  rw [transitions_append h]
  simp [transitions, hs]

theorem transitions_map_act (h : run step s as = some s') : (transitions step s as).map (·.act) = as := by
  induction as generalizing s with
  | nil => rfl
  | cons a as ih =>
    rw [run_cons, Option.bind_eq_some_iff] at h
    obtain ⟨s₁, h₁, h₂⟩ := h
    simp only [transitions, h₁, List.map_cons, ih h₂]

/-- **The history rule**: a relation between the transitions taken and the state reached. -/
theorem run_transitions {P : List (Transition σ α) → σ → Prop} {Q : α → Prop} {s₀ : σ}
    (nil : P [] s₀)
    (snoc : ∀ tr s a s', Q a → P tr s → step s a = some s' → P (tr ++ [⟨s, a, s'⟩]) s')
    (ha : ∀ a ∈ as, Q a) (h : run step s₀ as = some s) : P (transitions step s₀ as) s := by
  refine run_induction (P := fun as s => (∀ a ∈ as, Q a) → P (transitions step s₀ as) s)
    (fun _ => nil) ?_ h ha
  intro as s a s' hr ih hs ha
  rw [transitions_snoc hr hs]
  exact snoc _ s a s' (ha a (by simp)) (ih fun b hb => ha b (by simp [hb])) hs

theorem mem_of_mem_transitions {t : Transition σ α} (ht : t ∈ transitions step s as) : t.act ∈ as := by
  induction as generalizing s with
  | nil => simp [transitions] at ht
  | cons a as ih =>
    rw [transitions] at ht
    cases hs : step s a with
    | none => simp [hs] at ht
    | some s₁ =>
      rw [hs] at ht
      rcases List.mem_cons.mp ht with rfl | ht
      · exact List.mem_cons_self
      · exact List.mem_cons_of_mem _ (ih ht)

/-- Every transition of a run is a step, from a state that the actions before it reach. -/
theorem exists_prefix_of_mem_transitions {t : Transition σ α} (ht : t ∈ transitions step s as) :
    ∃ bs, bs ++ [t.act] <+: as ∧ run step s bs = some t.pre ∧ step t.pre t.act = some t.post := by
  induction as generalizing s with
  | nil => simp [transitions] at ht
  | cons a as ih =>
    rw [transitions] at ht
    cases hs : step s a with
    | none => simp [hs] at ht
    | some s₁ =>
      rw [hs] at ht
      rcases List.mem_cons.mp ht with rfl | ht
      · exact ⟨[], List.cons_prefix_cons.mpr ⟨rfl, List.nil_prefix⟩, rfl, hs⟩
      · obtain ⟨bs, hb, hr, hstep⟩ := ih ht
        exact ⟨a :: bs, List.cons_prefix_cons.mpr ⟨rfl, hb⟩, by simp [hs, hr], hstep⟩

/-- Every transition of a run is a step, from a state that a shorter run reaches. -/
theorem exists_run_of_mem_transitions {t : Transition σ α} (ht : t ∈ transitions step s as) :
    ∃ bs, bs <+: as ∧ run step s bs = some t.pre ∧ step t.pre t.act = some t.post := by
  obtain ⟨bs, hb, hr, hstep⟩ := exists_prefix_of_mem_transitions ht
  exact ⟨bs, (List.prefix_append bs [t.act]).trans hb, hr, hstep⟩

/-- A run of a step that is always defined. -/
theorem run_some (f : σ → α → σ) (s : σ) (as : List α) :
    run (fun s a => some (f s a)) s as = some (as.foldl f s) := by
  induction as generalizing s with
  | nil => rfl
  | cons a as ih =>
    rw [run_cons, Option.bind_some, ih, List.foldl_cons]

/-- The step of a member of the list, between two stretches of the others, where every step goes up
in a preorder. -/
theorem exists_foldl_of_mem {R : σ → σ → Prop} {f : σ → α → σ} (refl : ∀ s, R s s)
    (trans : ∀ s s' s'', R s s' → R s' s'' → R s s'') (hf : ∀ s a, R s (f s a)) {s : σ} (ha : a ∈ as) :
    ∃ s', R s s' ∧ R (f s' a) (as.foldl f s) := by
  have hfold : ∀ (as : List α) s, R s (as.foldl f s) := by
    intro as
    induction as with
    | nil => exact refl
    | cons b as ih => exact fun s => trans _ _ _ (hf s b) (ih (f s b))
  induction as generalizing s with
  | nil => cases ha
  | cons b as ih =>
    rcases List.mem_cons.mp ha with rfl | ha
    · exact ⟨s, refl s, hfold as (f s a)⟩
    · obtain ⟨s', h, h'⟩ := ih (s := f s b) ha
      exact ⟨s', trans _ _ _ (hf s b) h, h'⟩

/-- A member of a list that goes along another one has its partner. -/
theorem exists_of_mem_forall₂ {β : Type*} {R : α → β → Prop} {l₁ : List α} {l₂ : List β} {b : β}
    (h : List.Forall₂ R l₁ l₂) (hb : b ∈ l₂) : ∃ a ∈ l₁, R a b := by
  induction h with
  | nil => cases hb
  | cons hab _ ih =>
    rcases List.mem_cons.mp hb with rfl | hb
    · exact ⟨_, List.mem_cons_self, hab⟩
    · obtain ⟨a, ha, hR⟩ := ih hb
      exact ⟨a, List.mem_cons_of_mem _ ha, hR⟩

end Octantis.Lib
