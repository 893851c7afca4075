import Mathlib.Data.Finset.Card
import Mathlib.Data.Finset.Max
import Mathlib.Logic.Relation

/-!
# Recursion along an acyclic relation

A function given by equations, `f a = F f a`, where `F f a` reads `f` only at the
values that `a` depends on. If the dependence is acyclic and stays in a finite set,
the equations have one solution on the set, and iterating `F` as many times as the
set has elements computes it.

Where every element of a finite set leads to a later one or is an end, it leads to an
end (`exists_end`).
-/

namespace Octantis.Lib

universe u v

variable {α : Type u} {β : Type v} {r : α → α → Prop} {s : Finset α} {F : (α → β) → α → β}

/-- No value depends on itself. -/
def Acyclic (r : α → α → Prop) : Prop := ∀ a, ¬ Relation.TransGen r a a

/-- `F f a` reads `f` only at the values that `a` depends on. -/
def Local (r : α → α → Prop) (F : (α → β) → α → β) : Prop :=
  ∀ f g a, (∀ b, r a b → f b = g b) → F f a = F g a

/-- A rank shows that a relation is acyclic. -/
theorem acyclic_of_rank (rank : α → ℕ) (h : ∀ a b, r a b → rank b < rank a) : Acyclic r := by
  have hall : ∀ a b, Relation.TransGen r a b → rank b < rank a := by
    intro a b hab
    induction hab with
    | single hab => exact h _ _ hab
    | tail _ hbc ih => exact (h _ _ hbc).trans ih
  exact fun a ha => Nat.lt_irrefl _ (hall a a ha)

/-- **An acyclic relation into a finite set has a rank** below the size of the set: the number of
values that a value depends on. -/
theorem Acyclic.exists_rank (h : Acyclic r) (hs : ∀ a b, r a b → b ∈ s) :
    ∃ rank : α → ℕ, (∀ a b, r a b → rank b < rank a) ∧ ∀ a ∈ s, rank a < s.card := by
  classical
  refine ⟨fun a => (s.filter fun b => Relation.TransGen r a b).card, fun a b hab => ?_, fun a ha => ?_⟩
  · refine Finset.card_lt_card (Finset.ssubset_iff_of_subset ?_ |>.mpr ⟨b, ?_, ?_⟩)
    · intro c hc
      rw [Finset.mem_filter] at hc ⊢
      exact ⟨hc.1, .head hab hc.2⟩
    · exact Finset.mem_filter.mpr ⟨hs a b hab, .single hab⟩
    · exact fun hb => h b (Finset.mem_filter.mp hb).2
  · refine Finset.card_lt_card (Finset.ssubset_iff_of_subset (Finset.filter_subset _ _) |>.mpr ⟨a, ha, ?_⟩)
    exact fun hmem => h a (Finset.mem_filter.mp hmem).2

/-- After more steps than its rank, a value has reached its fixed point. -/
theorem Local.iterate_succ_eq (hF : Local r F) {rank : α → ℕ} (hrank : ∀ a b, r a b → rank b < rank a)
    (f : α → β) {n : ℕ} {a : α} (h : rank a < n) : F (F^[n] f) a = F^[n] f a := by
  induction n generalizing a with
  | zero => exact absurd h (Nat.not_lt_zero _)
  | succ n ih =>
    rw [Function.iterate_succ_apply']
    refine hF _ _ a fun b hb => ih ?_
    exact Nat.lt_of_lt_of_le (hrank a b hb) (Nat.le_of_lt_succ h)

/-- **The iteration solves the equations** on the set. -/
theorem Local.iterate_card_fixed (hF : Local r F) (h : Acyclic r) (hs : ∀ a b, r a b → b ∈ s)
    (f : α → β) {a : α}
    (ha : a ∈ s) : F (F^[s.card] f) a = F^[s.card] f a := by
  obtain ⟨rank, hrank, hlt⟩ := h.exists_rank hs
  exact hF.iterate_succ_eq hrank f (hlt a ha)

/-- **Two solutions of the equations agree** on the set. -/
theorem Local.fixed_unique (hF : Local r F) (h : Acyclic r) (hs : ∀ a b, r a b → b ∈ s) {f g : α → β}
    (hf : ∀ a ∈ s, F f a = f a) (hg : ∀ a ∈ s, F g a = g a) {a : α} (ha : a ∈ s) : f a = g a := by
  obtain ⟨rank, hrank, -⟩ := h.exists_rank hs
  induction hn : rank a using Nat.strongRecOn generalizing a with
  | ind n ih =>
    rw [← hf a ha, ← hg a ha]
    exact hF f g a fun b hb => ih (rank b) (hn ▸ hrank a b hb) (hs a b hb) rfl

/-- **Every way has an end**: the latest of the elements that a leads to is one. -/
theorem exists_end {γ : Type v} [LinearOrder γ] (time : α → γ) (isEnd : α → Prop)
    (h : ∀ a ∈ s, ¬ isEnd a → ∃ b ∈ s, Relation.ReflTransGen r a b ∧ time a < time b) {a : α} (ha : a ∈ s) :
    ∃ b ∈ s, isEnd b ∧ Relation.ReflTransGen r a b := by
  classical
  obtain ⟨b, hb, hlast⟩ := (s.filter (Relation.ReflTransGen r a)).exists_max_image time
    ⟨a, Finset.mem_filter.mpr ⟨ha, .refl⟩⟩
  obtain ⟨hbs, hab⟩ := Finset.mem_filter.mp hb
  refine ⟨b, hbs, ?_, hab⟩
  by_contra hnot
  obtain ⟨c, hc, hbc, hlt⟩ := h b hbs hnot
  exact absurd hlt (not_lt_of_ge (hlast c (Finset.mem_filter.mpr ⟨hc, hab.trans hbc⟩)))

end Octantis.Lib
