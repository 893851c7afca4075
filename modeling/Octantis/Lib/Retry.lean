import Mathlib.Data.List.Chain
import Octantis.Lib.Restart

/-!
# Retries

Attempts of a component that looks at where it gave up: the next attempt begins in a state made from
the state in which the work stopped, and from the element of the list at which it did. It may also not
begin at all (`none`).

`isSome_retries` says when all attempts begin and the last one ends; `isChain_beginnings` is the
rule for what every attempt has in common with the next one; `exists_attempts_of_retries` forgets
where the component gave up, so that what is known of `attempts` is known of the retries.
-/

namespace Octantis.Lib

universe u v w x

variable {σ : Type u} {α : Type v} {β : Type w} {τ : Type x}

section Retries

variable (step : σ → α → Option σ) (plan : σ → List α) (again : σ → α → Option σ)

/-- The attempts, so many of them: the state in which the last one ends. -/
def retries : ℕ → σ → Option σ
  | fuel, s =>
    match (work step s (plan s)).2, fuel with
    | [], _ => some (work step s (plan s)).1
    | _ :: _, 0 => none
    | a :: _, fuel + 1 => (again (work step s (plan s)).1 a).bind (retries fuel)

/-- The states in which the attempts begin. -/
def beginnings : ℕ → σ → List σ
  | fuel, s => s ::
    match (work step s (plan s)).2, fuel with
    | [], _ => []
    | _ :: _, 0 => []
    | a :: _, fuel + 1 => ((again (work step s (plan s)).1 a).map (beginnings fuel)).getD []

end Retries

variable {step : σ → α → Option σ} {plan : σ → List α} {again : σ → α → Option σ} {s s' : σ} {a : α} {as rest : List α}
  {fuel : ℕ}

theorem mem_of_work (h : (work step s as).2 = a :: rest) : a ∈ as ∧ step (work step s as).1 a = none := by
  induction as generalizing s with
  | nil => cases h
  | cons b as ih =>
    unfold work at h ⊢
    cases hs : step s b with
    | none =>
      rw [hs] at h
      obtain ⟨rfl, -⟩ := List.cons.inj h
      exact ⟨List.mem_cons_self, hs⟩
    | some s' =>
      rw [hs] at h
      exact (ih h).imp_left (List.mem_cons_of_mem _)

theorem retries_of_nil (h : (work step s (plan s)).2 = []) :
    retries step plan again fuel s = some (work step s (plan s)).1 := by
  unfold retries
  cases fuel <;> simp only [h]

theorem retries_of_cons (h : (work step s (plan s)).2 = a :: rest) :
    retries step plan again (fuel + 1) s = (again (work step s (plan s)).1 a).bind (retries step plan again fuel) := by
  conv_lhs => unfold retries
  simp only [h]

section Invariant

variable {P : σ → Prop} (hstep : ∀ s a s', step s a = some s' → P s → P s' ∧ plan s' = plan s)
include hstep

/-- What the steps keep holds where the work ends, and so does the list. -/
theorem work_kept (hP : P s) : P (work step s (plan s)).1 ∧ plan (work step s (plan s)).1 = plan s := by
  refine work_invariant (P := fun s' => P s' ∧ plan s' = plan s) ⟨hP, rfl⟩ fun t _ ht ⟨hP, hplan⟩ => ?_
  obtain ⟨hP', hplan'⟩ := hstep _ _ _ ht hP
  exact ⟨hP', hplan'.trans hplan⟩

/-- The element at which the work gives up is one of the list. -/
theorem mem_plan_of_work (hP : P s) (h : (work step s (plan s)).2 = a :: rest) :
    a ∈ plan (work step s (plan s)).1 ∧ step (work step s (plan s)).1 a = none := by
  obtain ⟨hmem, hnone⟩ := mem_of_work h
  have hplan := (work_kept hstep hP).2
  refine ⟨?_, hnone⟩
  rw [hplan]
  exact hmem

/-- **Every attempt begins, and the last one ends**, when the attempts are counted. -/
theorem isSome_retries {count : σ → ℕ} (hP : P s) (hcount : ∀ s a s', step s a = some s' → count s' = count s)
    (hagain : ∀ s a, P s → a ∈ plan s → step s a = none →
      0 < count s ∧ ∃ s', again s a = some s' ∧ P s' ∧ count s' = count s - 1)
    (h : count s ≤ fuel) : ∃ s', retries step plan again fuel s = some s' ∧ P s' := by
  induction fuel generalizing s with
  | zero =>
    have hwork : count (work step s (plan s)).1 = count s :=
      work_invariant (P := fun s' => count s' = count s) rfl fun t _ ht heq => (hcount _ _ _ ht).trans heq
    cases hrest : (work step s (plan s)).2 with
    | nil => exact ⟨_, retries_of_nil hrest, (work_kept hstep hP).1⟩
    | cons a rest =>
      obtain ⟨hmem, hnone⟩ := mem_plan_of_work hstep hP hrest
      have hpos := (hagain _ a (work_kept hstep hP).1 hmem hnone).1
      omega
  | succ fuel ih =>
    have hwork : count (work step s (plan s)).1 = count s :=
      work_invariant (P := fun s' => count s' = count s) rfl fun t _ ht heq => (hcount _ _ _ ht).trans heq
    cases hrest : (work step s (plan s)).2 with
    | nil => exact ⟨_, retries_of_nil hrest, (work_kept hstep hP).1⟩
    | cons a rest =>
      obtain ⟨hmem, hnone⟩ := mem_plan_of_work hstep hP hrest
      obtain ⟨-, s', hs', hP', hcount'⟩ := hagain _ a (work_kept hstep hP).1 hmem hnone
      rw [retries_of_cons hrest, hs', Option.bind_some]
      exact ih hP' (by omega)

/-- **What an attempt has in common with the next one.** -/
theorem isChain_beginnings {R : σ → σ → Prop} (hP : P s)
    (hleft : ∀ s a s' s'', step s a = some s' → R s' s'' → R s s'')
    (hagain : ∀ s a s', P s → a ∈ plan s → step s a = none → again s a = some s' → P s' ∧ R s s') :
    (beginnings step plan again fuel s).IsChain R := by
  induction fuel generalizing s with
  | zero =>
    unfold beginnings
    cases hrest : (work step s (plan s)).2 with
    | nil => exact .singleton s
    | cons a rest => exact .singleton s
  | succ fuel ih =>
    unfold beginnings
    cases hrest : (work step s (plan s)).2 with
    | nil => exact .singleton s
    | cons a rest =>
      obtain ⟨hmem, hnone⟩ := mem_plan_of_work hstep hP hrest
      simp only
      cases hs' : again (work step s (plan s)).1 a with
      | none => exact .singleton s
      | some s' =>
        obtain ⟨hP', hR⟩ := hagain _ a s' (work_kept hstep hP).1 hmem hnone hs'
        -- the steps of the work are on the left of the relation
        have hfirst : R s s' := by
          have hwork : ∀ s₁, R (work step s (plan s)).1 s₁ → R s s₁ :=
            work_invariant (P := fun s₂ => ∀ s₁, R s₂ s₁ → R s s₁) (fun _ h => h)
              fun t _ ht hall s₁ h => hall s₁ (hleft _ _ _ _ ht h)
          exact hwork s' hR
        have hnext := ih hP'
        rw [Option.map_some, Option.getD_some]
        unfold beginnings at hnext ⊢
        exact .cons_cons hfirst hnext

/-- **The retries are attempts**, with the answers that lead to the same states. -/
theorem exists_attempts_of_retries {π : σ → τ} {step' : τ → α → Option τ} {plan' : τ → List α} {restart : τ → β → τ}
    (hP : P s) (hplan : ∀ s, plan' (π s) = plan s) (hmap : ∀ s a, step' (π s) a = (step s a).map π)
    (hagain : ∀ s a s', P s → a ∈ plan s → step s a = none → again s a = some s' →
      P s' ∧ ∃ answer, π s' = restart (π s) answer)
    (h : retries step plan again fuel s = some s') :
    ∃ answers, attempts step' plan' restart answers (π s) = some (π s') := by
  have hwork : ∀ as s, work step' (π s) as = (π (work step s as).1, (work step s as).2) := by
    intro as
    induction as with
    | nil => exact fun _ => rfl
    | cons a as ih =>
      intro s
      unfold work
      rw [hmap]
      cases step s a with
      | none => rfl
      | some s₁ => exact ih s₁
  have hlast : ∀ s, (work step s (plan s)).2 = [] → (work step s (plan s)).1 = s' →
      attempts step' plan' restart [] (π s) = some (π s') := by
    intro s hrest hs'
    have hend : (work step' (π s) (plan' (π s))).2 = [] := by rw [hplan, hwork, hrest]
    rw [attempts_of_work hend, hplan, hwork, hs']
  induction fuel generalizing s with
  | zero =>
    cases hrest : (work step s (plan s)).2 with
    | nil =>
      rw [retries_of_nil hrest, Option.some.injEq] at h
      exact ⟨[], hlast s hrest h⟩
    | cons a rest =>
      unfold retries at h
      simp only [hrest] at h
      cases h
  | succ fuel ih =>
    cases hrest : (work step s (plan s)).2 with
    | nil =>
      rw [retries_of_nil hrest, Option.some.injEq] at h
      exact ⟨[], hlast s hrest h⟩
    | cons a rest =>
      rw [retries_of_cons hrest] at h
      obtain ⟨s₁, hs₁, h⟩ := Option.bind_eq_some_iff.mp h
      obtain ⟨hmem, hnone⟩ := mem_plan_of_work hstep hP hrest
      obtain ⟨hP₁, answer, hanswer⟩ := hagain _ a s₁ (work_kept hstep hP).1 hmem hnone hs₁
      obtain ⟨answers, hanswers⟩ := ih hP₁ h
      refine ⟨answer :: answers, ?_⟩
      unfold attempts
      rw [hplan, hwork, hrest]
      simp only
      rw [← hanswer, hanswers]

end Invariant

end Octantis.Lib
