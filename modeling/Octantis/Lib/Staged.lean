import Mathlib.Data.Nat.Notation

/-!
# Cells computed in stages

Memory cells with a register each, and a time for each cell: at every time the cells of that
time are computed from the registers, and then their registers are loaded from them. The
first time only loads the registers, its cells hold their words from the start.

## The model

The state before step `j` is `cells j` and `registers j`: step `2t - 1` computes the cells
of time `t`, and step `2t` loads their registers. `value` is what a cell holds once it is
computed.

## What is proved

* `cells_eq_value`, `registers_eq`: a cell keeps its value, and a register holds the value
  of its cell from its step on, and nothing of it before.
* `cells_again`, `registers_again`: a step may be done twice.
* `value_eq`: the value of a cell is computed from the values of the cells of earlier times,
  and from the content that the other registers had at the start.
-/

namespace Octantis.Lib

universe u v

/-- Cells, their times, and how they are computed. -/
structure Staged (ι : Type u) (α : Type v) where
  /-- The time of a cell. -/
  time : ι → ℕ
  /-- The words at the start. -/
  word : ι → α
  /-- The content of the registers at the start. -/
  unread : α
  /-- What a cell is computed to, from the registers. -/
  compute : ι → (ι → α) → α

namespace Staged

variable {ι : Type u} {α : Type v} (S : Staged ι α)

/-- The cells and the registers before step `j`. -/
def state : ℕ → (ι → α) × (ι → α)
  | 0 => (S.word, fun _ => S.unread)
  | j + 1 =>
    (fun n => if j + 1 = 2 * S.time n then S.compute n (state j).2 else (state j).1 n,
      fun n => if j = 2 * S.time n then (state j).1 n else (state j).2 n)

/-- The cells before step `j`. -/
def cells (j : ℕ) : ι → α := (S.state j).1

/-- The registers before step `j`. -/
def registers (j : ℕ) : ι → α := (S.state j).2

/-- What a cell holds once it is computed. -/
def value (n : ι) : α := S.cells (2 * S.time n) n

variable {S} {n : ι} {j : ℕ}

theorem cells_succ (j : ℕ) (n : ι) : S.cells (j + 1) n =
    if j + 1 = 2 * S.time n then S.compute n (S.registers j) else S.cells j n := rfl

theorem registers_succ (j : ℕ) (n : ι) : S.registers (j + 1) n =
    if j = 2 * S.time n then S.cells j n else S.registers j n := rfl

/-- A cell keeps its value. -/
theorem cells_eq_value (h : 2 * S.time n ≤ j) : S.cells j n = S.value n := by
  induction j with
  | zero =>
    rw [value, show 2 * S.time n = 0 by omega]
  | succ j ih =>
    by_cases hj : j + 1 = 2 * S.time n
    · rw [hj, value]
    · rw [cells_succ, if_neg hj]
      exact ih (by omega)

/-- A register holds what it had at the start until the step that loads it, and the value of its
cell after it. -/
theorem registers_eq (j : ℕ) (n : ι) :
    S.registers j n = if 2 * S.time n < j then S.value n else S.unread := by
  induction j with
  | zero => rw [if_neg (by omega)]; rfl
  | succ j ih =>
    rw [registers_succ, ih]
    by_cases hj : j = 2 * S.time n
    · rw [if_pos hj, if_pos (by omega), cells_eq_value (by omega)]
    · rw [if_neg hj]
      by_cases hlt : 2 * S.time n < j
      · rw [if_pos hlt, if_pos (by omega)]
      · rw [if_neg hlt, if_neg (by omega)]

/-- A cell of the first time holds its word. -/
theorem value_eq_word (h : S.time n = 0) : S.value n = S.word n := by
  rw [value, h]
  rfl

/-- **The value of a cell** is computed from the values of the cells of earlier times. -/
theorem value_eq (h : 0 < S.time n) : S.value n =
    S.compute n fun m => if S.time m < S.time n then S.value m else S.unread := by
  obtain ⟨j, hj⟩ : ∃ j, 2 * S.time n = j + 1 := ⟨2 * S.time n - 1, by omega⟩
  rw [value, hj, cells_succ, if_pos hj.symm]
  congr 1
  funext m
  rw [registers_eq]
  by_cases hm : S.time m < S.time n
  · rw [if_pos hm, if_pos (by omega)]
  · rw [if_neg hm, if_neg (by omega)]

/-- A step may be done twice: done again after it, it computes the same cells. -/
theorem cells_again {c : ℕ} (hc : c = j ∨ c = j + 1) (n : ι) : S.cells (j + 1) n =
    if j + 1 = 2 * S.time n then S.compute n (S.registers c) else S.cells c n := by
  rcases hc with rfl | rfl
  · exact cells_succ c n
  · split
    · next ht =>
      have hregisters : S.registers (j + 1) = S.registers j := by
        funext m
        rw [registers_succ, if_neg (by omega)]
      rw [hregisters, cells_succ, if_pos ht]
    · rfl

/-- A step done again loads the same registers. -/
theorem registers_again {c : ℕ} (hc : c = j ∨ c = j + 1) (n : ι) : S.registers (j + 1) n =
    if j = 2 * S.time n then S.cells c n else S.registers c n := by
  rcases hc with rfl | rfl
  · exact registers_succ c n
  · split
    · next ht => rw [registers_succ, if_pos ht, cells_succ, if_neg (by omega)]
    · rfl

end Staged

end Octantis.Lib
