import Octantis.Lib.Run

/-!
# Attempts

A component that works through a list which it makes from its state, and that may have to
give up on the way: then it clears its state, asks for an answer of its environment and
begins again, with another list. A run is the list of the answers (`attempts`); its steps
are those of all attempts (`attemptSteps`).

`attempts_invariant` is the rule for what every beginning establishes and every step keeps, and
`isSome_attempts` says that a component whose restarts are counted comes to an end.
-/

namespace Octantis.Lib

universe u v w

variable {σ : Type u} {α : Type v} {β : Type w}

/-- The state in which the work on the list ends, and the rest of the list if it gives up. -/
def work (step : σ → α → Option σ) : σ → List α → σ × List α
  | s, [] => (s, [])
  | s, a :: as =>
    match step s a with
    | none => (s, a :: as)
    | some s' => work step s' as

variable (step : σ → α → Option σ) (plan : σ → List α) (restart : σ → β → σ)

/-- The attempts, with the answers that the environment has: `none` where there is none left. -/
def attempts : List β → σ → Option σ
  | answers, s =>
    match (work step s (plan s)).2, answers with
    | [], _ => some (work step s (plan s)).1
    | _ :: _, [] => none
    | _ :: _, answer :: answers => attempts answers (restart (work step s (plan s)).1 answer)

/-- The steps of all attempts. -/
def attemptSteps : List β → σ → List (Transition σ α)
  | answers, s =>
    transitions step s (plan s) ++
      match (work step s (plan s)).2, answers with
      | [], _ => []
      | _ :: _, [] => []
      | _ :: _, answer :: answers => attemptSteps answers (restart (work step s (plan s)).1 answer)

variable {step plan restart} {s s' : σ} {as : List α} {answers : List β}

/-- What the steps keep holds where the work ends. -/
theorem work_invariant {P : σ → Prop} (h : P s)
    (keep : ∀ t ∈ transitions step s as, step t.pre t.act = some t.post → P t.pre → P t.post) :
    P (work step s as).1 := by
  induction as generalizing s with
  | nil => exact h
  | cons a as ih =>
    unfold work
    cases hs : step s a with
    | none => exact h
    | some s' =>
      simp only [transitions, hs] at keep
      refine ih (keep ⟨s, a, s'⟩ List.mem_cons_self hs h) fun t ht => ?_
      exact keep t (List.mem_cons_of_mem _ ht)

/-- **The rule of the attempts**: what every beginning establishes and every step keeps holds at the
end. -/
theorem attempts_invariant {P : σ → Prop} (init : P s) (hrestart : ∀ s answer, P s → P (restart s answer))
    (keep : ∀ t ∈ attemptSteps step plan restart answers s, step t.pre t.act = some t.post →
      P t.pre → P t.post)
    (h : attempts step plan restart answers s = some s') : P s' := by
  induction answers generalizing s with
  | nil =>
    have hwork := work_invariant init fun t ht => keep t (by
      unfold attemptSteps
      exact List.mem_append_left _ ht)
    unfold attempts at h
    split at h
    · exact Option.some.inj h ▸ hwork
    · cases h
    · next heq => cases heq
  | cons answer answers ih =>
    have hwork := work_invariant init fun t ht => keep t (by
      unfold attemptSteps
      exact List.mem_append_left _ ht)
    unfold attempts at h
    split at h
    · exact Option.some.inj h ▸ hwork
    · next heq => cases heq
    · next hrest heq =>
      cases heq
      refine ih (hrestart _ _ hwork) (fun t ht => keep t ?_) h
      unfold attemptSteps
      rw [hrest]
      exact List.mem_append_right _ ht

/-- What the steps of an attempt keep holds before each of them. -/
theorem pre_of_mem_transitions {P : σ → Prop} (h : P s)
    (keep : ∀ t ∈ transitions step s as, step t.pre t.act = some t.post → P t.pre → P t.post)
    {t : Transition σ α} (ht : t ∈ transitions step s as) : P t.pre := by
  induction as generalizing s with
  | nil => cases ht
  | cons a as ih =>
    cases hs : step s a with
    | none => simp [transitions, hs] at ht
    | some s' =>
      simp only [transitions, hs] at ht keep
      rcases List.mem_cons.mp ht with rfl | ht
      · exact h
      · refine ih (keep ⟨s, a, s'⟩ List.mem_cons_self hs h) (fun t ht => ?_) ht
        exact keep t (List.mem_cons_of_mem _ ht)

/-- What every beginning establishes and every step keeps holds before every step. -/
theorem pre_of_mem_attemptSteps {P : σ → Prop} (init : P s)
    (hrestart : ∀ s answer, P s → P (restart s answer))
    (keep : ∀ t ∈ attemptSteps step plan restart answers s, step t.pre t.act = some t.post →
      P t.pre → P t.post)
    {t : Transition σ α} (ht : t ∈ attemptSteps step plan restart answers s) : P t.pre := by
  induction answers generalizing s with
  | nil =>
    unfold attemptSteps at ht keep
    rcases List.mem_append.mp ht with ht | ht
    · exact pre_of_mem_transitions init (fun t ht => keep t (List.mem_append_left _ ht)) ht
    · split at ht
      · cases ht
      · cases ht
      · next heq => cases heq
  | cons answer answers ih =>
    unfold attemptSteps at ht keep
    have hwork := work_invariant init fun t ht => keep t (List.mem_append_left _ ht)
    rcases List.mem_append.mp ht with ht | ht
    · exact pre_of_mem_transitions init (fun t ht => keep t (List.mem_append_left _ ht)) ht
    · split at ht
      · cases ht
      · cases ht
      · next hrest heq =>
        cases heq
        rw [hrest] at keep
        exact ih (hrestart _ _ hwork) (fun t ht => keep t (List.mem_append_right _ ht)) ht

/-- The work that gives up stops at a step that is not defined. -/
theorem exists_step_eq_none (h : (work step s as).2 ≠ []) : ∃ a, step (work step s as).1 a = none := by
  induction as generalizing s with
  | nil => exact absurd rfl h
  | cons a as ih =>
    unfold work at h ⊢
    cases hs : step s a with
    | none => exact ⟨a, hs⟩
    | some s' =>
      rw [hs] at h
      exact ih h

/-- The first attempt that does not give up is the last. -/
theorem attempts_of_work (h : (work step s (plan s)).2 = []) :
    attempts step plan restart answers s = some (work step s (plan s)).1 := by
  unfold attempts
  cases answers <;> simp only [h]

/-- **The attempts come to an end**: a step that is not defined is one that a count allows, and
every new beginning lowers the count. -/
theorem isSome_attempts {count : σ → ℕ} (hkeep : ∀ s a s', step s a = some s' → count s' = count s)
    (hnone : ∀ s a, step s a = none → 0 < count s)
    (hrestart : ∀ s answer, count (restart s answer) = count s - 1) (h : count s ≤ answers.length) :
    (attempts step plan restart answers s).isSome := by
  induction answers generalizing s with
  | nil =>
    have hwork : count (work step s (plan s)).1 ≤ 0 :=
      work_invariant (P := fun s => count s ≤ 0) h fun t _ ht hle => (hkeep _ _ _ ht) ▸ hle
    have hrest : (work step s (plan s)).2 = [] := by
      by_contra hrest
      obtain ⟨a, ha⟩ := exists_step_eq_none hrest
      exact absurd (hnone _ a ha) (by lia)
    rw [attempts_of_work hrest]
    rfl
  | cons answer answers ih =>
    have hwork : count (work step s (plan s)).1 ≤ answers.length + 1 :=
      work_invariant (P := fun s => count s ≤ answers.length + 1) h
        fun t _ ht hle => (hkeep _ _ _ ht) ▸ hle
    unfold attempts
    split
    · rfl
    · next heq => cases heq
    · next hrest heq =>
      cases heq
      apply ih
      rw [hrestart]
      lia

end Octantis.Lib
