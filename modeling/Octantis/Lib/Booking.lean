import Mathlib.Data.Set.Card
import Mathlib.Order.CompletePartialOrder

/-!
# A booking table

Rows that are booked over stretches of time: the table says who has a row at a time.
Everyone who has a row at some time has it for exactly his life (`Booked`), so the lives on
one row do not overlap. To book a row that is free for the whole life keeps the table so
(`Booking.booked`), and adds one name to that row (`Booking.on_iff`).
-/

namespace Octantis.Lib

universe u v w

variable {ρ : Type u} {τ : Type v} {α : Type w}

/-- Who has a row at a time. -/
abbrev BookingTable (ρ : Type u) (τ : Type v) (α : Type w) := ρ → τ → Option α

namespace BookingTable

/-- The name is on the row. -/
def On (table : BookingTable ρ τ α) (row : ρ) (a : α) : Prop := ∃ t, table row t = some a

/-- **Everyone on a row has it for exactly his life.** -/
def Booked (table : BookingTable ρ τ α) (life : α → Set τ) : Prop :=
  ∀ row a, table.On row a → ∀ t, t ∈ life a ↔ table row t = some a

/-- A row that is free for the life is booked for it. -/
structure Booking (table table' : BookingTable ρ τ α) (life : Set τ) (row : ρ) (a : α) : Prop where
  nonempty : life.Nonempty
  free : ∀ t ∈ life, table row t = none
  inside : ∀ t ∈ life, table' row t = some a
  outside : ∀ t ∉ life, table' row t = table row t
  elsewhere : ∀ r ≠ row, table' r = table r

variable {table table' : BookingTable ρ τ α} {life : α → Set τ} {row r : ρ} {a b : α} {n : ℕ∞}

theorem Booked.disjoint (h : table.Booked life) (ha : table.On row a) (hb : table.On row b) (hne : a ≠ b) :
    Disjoint (life a) (life b) := by
  rw [Set.disjoint_left]
  intro t hta htb
  have hat := (h row a ha t).mp hta
  have hbt := (h row b hb t).mp htb
  exact hne (Option.some.inj (hat.symm.trans hbt))

namespace Booking

/-- The one to be booked is not on the row. -/
theorem not_on (h : Booking table table' (life a) row a) (hbooked : table.Booked life) :
    ¬ table.On row a := by
  intro hon
  obtain ⟨t, ht⟩ := h.nonempty
  have hsome := (hbooked row a hon t).mp ht
  rw [h.free t ht] at hsome
  cases hsome

/-- What is booked stays, and the rest is the new one. -/
theorem eq_some_iff (h : Booking table table' (life a) row a) {t : τ} :
    table' r t = some b ↔ table r t = some b ∨ (r = row ∧ t ∈ life a ∧ b = a) := by
  by_cases hr : r = row
  · rw [hr]
    by_cases ht : t ∈ life a
    · rw [h.inside t ht, h.free t ht]
      simp [ht, eq_comm]
    · rw [h.outside t ht]
      simp [ht]
  · rw [h.elsewhere r hr]
    simp [hr]

theorem on_iff (h : Booking table table' (life a) row a) :
    table'.On r b ↔ table.On r b ∨ (r = row ∧ b = a) := by
  unfold On
  constructor
  · rintro ⟨t, ht⟩
    rcases h.eq_some_iff.mp ht with ht | ⟨hr, -, hb⟩
    · exact .inl ⟨t, ht⟩
    · exact .inr ⟨hr, hb⟩
  · rintro (⟨t, ht⟩ | ⟨hr, hb⟩)
    · exact ⟨t, h.eq_some_iff.mpr (.inl ht)⟩
    · obtain ⟨t, ht⟩ := h.nonempty
      exact ⟨t, h.eq_some_iff.mpr (.inr ⟨hr, ht, hb⟩)⟩

/-- The table stays booked. -/
theorem booked (h : Booking table table' (life a) row a) (hbooked : table.Booked life) :
    table'.Booked life := by
  intro r b hon t
  rw [h.eq_some_iff]
  rcases h.on_iff.mp hon with hon | ⟨rfl, rfl⟩
  · rw [hbooked r b hon t]
    refine ⟨.inl, fun ht => ht.resolve_right ?_⟩
    rintro ⟨rfl, -, rfl⟩
    exact h.not_on hbooked hon
  · refine ⟨fun ht => .inr ⟨rfl, ht, rfl⟩, ?_⟩
    rintro (ht | ⟨-, ht, -⟩)
    · exact absurd ⟨t, ht⟩ (h.not_on hbooked)
    · exact ht

/-- The row has one name more. -/
theorem encard_le (h : Booking table table' (life a) row a) (hn : {b | table.On row b}.encard ≤ n) :
    {b | table'.On row b}.encard ≤ n + 1 := by
  have hinsert : {b | table'.On row b} = insert a {b | table.On row b} := by
    ext b
    rw [Set.mem_ofPred_eq, h.on_iff, Set.mem_insert_iff, Set.mem_ofPred_eq, eq_self_iff_true,
      true_and, or_comm]
  rw [hinsert]
  exact (Set.encard_insert_le _ _).trans (by gcongr)

end Booking

end BookingTable

end Octantis.Lib
