import Mathlib.Data.Nat.Notation
import Mathlib.Logic.Function.Basic

/-!
# Writes

What a memory holds after a sequence of writes: at each address what the last write to it
has left, if there is one.
-/

namespace Octantis.Lib

universe u v

variable {ε : Type u} {ρ : Type v} {addresses : List ε} {values : List ρ} {m : ε → ρ} {e : ε} {n : ℕ}

/-- **The last write** to an address is the one of this number. -/
structure LastWrite (addresses : List ε) (e : ε) (n : ℕ) : Prop where
  written : addresses[n]? = some e
  last : e ∉ addresses.drop (n + 1)

theorem LastWrite.lt (h : LastWrite addresses e n) : n < addresses.length :=
  (List.getElem?_eq_some_iff.mp h.written).1

/-- An address written to has a last write. -/
theorem exists_lastWrite (h : e ∈ addresses) : ∃ n, LastWrite addresses e n := by
  induction addresses with
  | nil => cases h
  | cons x addresses ih =>
    by_cases hmem : e ∈ addresses
    · obtain ⟨n, hn⟩ := ih hmem
      exact ⟨n + 1, hn.written, hn.last⟩
    · have hx : e = x := (List.mem_cons.mp h).resolve_right hmem
      exact ⟨0, by rw [hx]; rfl, hmem⟩

/-- Writes to distinct addresses are the last ones. -/
theorem lastWrite_map_range_iff {f : ℕ → ε} {m : ℕ}
    (hf : ∀ i < n, ∀ j < n, f i = f j → i = j) : LastWrite ((List.range n).map f) e m ↔ m < n ∧ f m = e := by
  constructor
  · intro h
    have hm : m < n := by simpa using h.lt
    have he := h.written
    rw [List.getElem?_map, List.getElem?_range hm, Option.map_some] at he
    exact ⟨hm, Option.some.inj he⟩
  · rintro ⟨hm, rfl⟩
    refine ⟨by rw [List.getElem?_map, List.getElem?_range hm, Option.map_some], fun hmem => ?_⟩
    obtain ⟨j, hj, hmem⟩ := List.mem_drop_iff_getElem.mp hmem
    rw [List.length_map, List.length_range] at hj
    rw [List.getElem_map, List.getElem_range] at hmem
    have heq := hf (m + 1 + j) (by omega) m hm hmem
    omega

variable [DecidableEq ε]

instance (addresses : List ε) (e : ε) (n : ℕ) : Decidable (LastWrite addresses e n) :=
  decidable_of_iff (addresses[n]? = some e ∧ e ∉ addresses.drop (n + 1)) ⟨fun h => ⟨h.1, h.2⟩, fun h => ⟨h.1, h.2⟩⟩

/-- The memory after the writes. -/
def written (m : ε → ρ) (writes : List (ε × ρ)) : ε → ρ :=
  writes.foldl (fun m w => Function.update m w.1 w.2) m

@[simp] theorem written_cons (m : ε → ρ) (x : ε) (v : ρ) (writes : List (ε × ρ)) :
    written m ((x, v) :: writes) = written (Function.update m x v) writes := rfl

/-- What is not written to is as before. -/
theorem written_of_not_mem (h : e ∉ addresses) : written m (addresses.zip values) e = m e := by
  induction addresses generalizing m values with
  | nil => rfl
  | cons x addresses ih =>
    rw [List.mem_cons, not_or] at h
    cases values with
    | nil => rfl
    | cons v values => rw [List.zip_cons_cons, written_cons, ih h.2, Function.update_of_ne h.1]

/-- **What is written to** holds the value of the last write. -/
theorem written_of_lastWrite (hlength : addresses.length = values.length) (h : LastWrite addresses e n) :
    values[n]? = some (written m (addresses.zip values) e) := by
  induction addresses generalizing m values n with
  | nil => cases h.written
  | cons x addresses ih =>
    cases values with
    | nil => cases hlength
    | cons v values =>
      rw [List.zip_cons_cons, written_cons]
      cases n with
      | zero =>
        have hx : x = e := Option.some.inj h.written
        have hlast : e ∉ addresses := h.last
        rw [written_of_not_mem hlast, hx, Function.update_self]
        rfl
      | succ n => exact ih (Nat.succ.inj hlength) ⟨h.written, h.last⟩

end Octantis.Lib
