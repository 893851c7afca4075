import Octantis.Lib.LoopNest

/-!
# Strides

The positions that a nest of loops goes over when each loop moves by a stride of its own,
and when two nests go over the same ones in the same order: exactly when they are the
same nest once the loops of one iteration are dropped and a loop that goes on where the
loop in it ends is made one with it.

A nest is the list of its loops, the number of iterations and the stride of each;
outermost first in `positions`, innermost first everywhere else.
-/

namespace Octantis.Lib

/-- The positions that a nest goes over, from a base, outermost loop first. -/
def positions (base : ℤ) : List (ℕ × ℤ) → List ℤ
  | [] => [base]
  | (n, s) :: loops => (List.range n).flatMap fun (k : ℕ) => positions (base + s * k) loops

/-- The number of iterations of a nest. -/
def volume (loops : List (ℕ × ℤ)) : ℕ := (loops.map (·.1)).prod

/-- How far from the base an iteration is, innermost loop first. -/
def offsetAt : List (ℕ × ℤ) → ℕ → ℤ
  | [], _ => 0
  | (n, s) :: loops, x => s * (x % n : ℕ) + offsetAt loops (x / n)

/-- The nest without the loops that make no difference, innermost loop first. -/
def normal : List (ℕ × ℤ) → List (ℕ × ℤ)
  | [] => []
  | (n, s) :: loops =>
    if n = 1 then normal loops
    else
      match normal loops with
      | [] => [(n, s)]
      | (m, t) :: outer => if t = n * s then (n * m, s) :: outer else (n, s) :: (m, t) :: outer

/-- What the positions depend on, outermost loop first. -/
def shapeOf (base : ℤ) (loops : List (ℕ × ℤ)) : Option (ℤ × List (ℕ × ℤ)) :=
  if volume loops = 0 then none else some (base, normal loops.reverse)

@[simp] theorem volume_nil : volume [] = 1 := rfl

@[simp] theorem volume_cons (l : ℕ × ℤ) (loops : List (ℕ × ℤ)) :
    volume (l :: loops) = l.1 * volume loops := by
  rw [volume, List.map_cons, List.prod_cons, volume]

theorem volume_reverse (loops : List (ℕ × ℤ)) : volume loops.reverse = volume loops := by
  rw [volume, List.map_reverse, List.prod_reverse, volume]

/-! ### The positions by the number of the iteration -/

/-- The offset goes round with the nest. -/
theorem offsetAt_mod (loops : List (ℕ × ℤ)) (x : ℕ) :
    offsetAt loops (x % volume loops) = offsetAt loops x := by
  induction loops generalizing x with
  | nil => rfl
  | cons l loops ih =>
    obtain ⟨n, s⟩ := l
    rw [volume_cons, offsetAt, offsetAt, Nat.mod_mul_right_mod, Nat.mod_mul_right_div_self, ih]

@[simp] theorem offsetAt_zero (loops : List (ℕ × ℤ)) : offsetAt loops 0 = 0 := by
  induction loops with
  | nil => rfl
  | cons l loops ih => rw [offsetAt, Nat.zero_mod, Nat.zero_div, ih, Nat.cast_zero, Int.mul_zero,
    Int.add_zero]

/-- In the first iterations only the first loop moves. -/
theorem offsetAt_of_lt {n x : ℕ} (s : ℤ) (loops : List (ℕ × ℤ)) (h : x < n) :
    offsetAt ((n, s) :: loops) x = s * x := by
  rw [offsetAt, Nat.mod_eq_of_lt h, Nat.div_eq_of_lt h, offsetAt_zero, Int.add_zero]

/-- Where it starts, the other loops move. -/
theorem offsetAt_mul {n : ℕ} (hn : 0 < n) (s : ℤ) (loops : List (ℕ × ℤ)) (y : ℕ) :
    offsetAt ((n, s) :: loops) (n * y) = offsetAt loops y := by
  rw [offsetAt, Nat.mul_mod_right, Nat.mul_div_cancel_left _ hn, Nat.cast_zero, Int.mul_zero, Int.zero_add]

/-- A loop around a nest. -/
theorem offsetAt_append (loops : List (ℕ × ℤ)) (n : ℕ) (s : ℤ) (x : ℕ) :
    offsetAt (loops ++ [(n, s)]) x = s * (x / volume loops % n : ℕ) + offsetAt loops x := by
  induction loops generalizing x with
  | nil => simp [offsetAt]
  | cons l loops ih =>
    obtain ⟨m, t⟩ := l
    rw [List.cons_append, offsetAt, ih, offsetAt, volume_cons, Nat.div_div_eq_div_mul]
    ring

/-- **The positions of a nest**, over the number of the iteration. -/
theorem positions_eq (base : ℤ) (loops : List (ℕ × ℤ)) :
    positions base loops = (List.range (volume loops)).map fun x => base + offsetAt loops.reverse x := by
  induction loops generalizing base with
  | nil => simp [positions, offsetAt]
  | cons l loops ih =>
    obtain ⟨n, s⟩ := l
    simp only [positions, ih]
    rw [flatMap_range n (volume loops) fun k x => base + s * (k : ℕ) + offsetAt loops.reverse x, volume_cons]
    refine List.map_congr_left fun x hx => ?_
    have hlt : x / volume loops < n := Nat.div_lt_of_lt_mul (by rw [Nat.mul_comm]; exact List.mem_range.mp hx)
    rw [List.reverse_cons, offsetAt_append, volume_reverse, Nat.mod_eq_of_lt hlt,
      ← offsetAt_mod loops.reverse x, volume_reverse]
    ring

/-! ### The normal form -/

theorem volume_normal (loops : List (ℕ × ℤ)) : volume (normal loops) = volume loops := by
  induction loops with
  | nil => rfl
  | cons l loops ih =>
    obtain ⟨n, s⟩ := l
    rw [normal, volume_cons, ← ih]
    split_ifs with h1
    · rw [h1, Nat.one_mul]
    · cases hloops : normal loops with
      | nil => rfl
      | cons m outer =>
        dsimp only
        split_ifs
        · rw [volume_cons, volume_cons, Nat.mul_assoc]
        · rw [volume_cons]

/-- The normal form goes over the same positions. -/
theorem offsetAt_normal (loops : List (ℕ × ℤ)) (x : ℕ) : offsetAt (normal loops) x = offsetAt loops x := by
  induction loops generalizing x with
  | nil => rfl
  | cons l loops ih =>
    obtain ⟨n, s⟩ := l
    rw [normal, offsetAt, ← ih]
    split_ifs with h1
    · rw [h1, Nat.mod_one, Nat.div_one]
      simp
    · cases hloops : normal loops with
      | nil => rfl
      | cons m outer =>
        obtain ⟨m, t⟩ := m
        dsimp only
        split_ifs with ht
        · rw [offsetAt, offsetAt, ht, Nat.mod_mul, Nat.div_div_eq_div_mul]
          push_cast
          ring
        · rw [offsetAt]

/-- No loop of one iteration or none, and none that goes on where the loop in it ends. -/
def IsNormal : List (ℕ × ℤ) → Prop
  | [] => True
  | (n, s) :: loops => 2 ≤ n ∧ (∀ l ∈ loops.head?, l.2 ≠ n * s) ∧ IsNormal loops

theorem isNormal_normal {loops : List (ℕ × ℤ)} (h : volume loops ≠ 0) : IsNormal (normal loops) := by
  induction loops with
  | nil => trivial
  | cons l loops ih =>
    obtain ⟨n, s⟩ := l
    rw [volume_cons] at h
    have hn : n ≠ 0 := left_ne_zero_of_mul h
    specialize ih (right_ne_zero_of_mul h)
    rw [normal]
    split_ifs with h1
    · exact ih
    · cases hloops : normal loops with
      | nil => exact ⟨by omega, by simp, trivial⟩
      | cons m outer =>
        obtain ⟨m, t⟩ := m
        rw [hloops] at ih
        obtain ⟨hm, hne, houter⟩ := ih
        dsimp only
        split_ifs with ht
        · refine ⟨by nlinarith [Nat.pos_of_ne_zero hn], fun l hl => ?_, houter⟩
          have := hne l hl
          rw [ht] at this
          push_cast
          rwa [show (n : ℤ) * m * s = m * (n * s) by ring]
        · exact ⟨by omega, by simpa using ht, hm, hne, houter⟩

theorem IsNormal.volume_pos {loops : List (ℕ × ℤ)} (h : IsNormal loops) : 0 < volume loops := by
  induction loops with
  | nil => simp
  | cons l loops ih =>
    obtain ⟨hn, -, hloops⟩ := h
    rw [volume_cons]
    exact Nat.mul_pos (by omega) (ih hloops)

/-- The offset where the first loop of a nest starts again is not the one where it would go on. -/
theorem IsNormal.offsetAt_ne {n : ℕ} {s : ℤ} {loops : List (ℕ × ℤ)} (h : IsNormal ((n, s) :: loops))
    (hlt : n < volume ((n, s) :: loops)) : offsetAt ((n, s) :: loops) n ≠ n * s := by
  obtain ⟨hn, hne, hloops⟩ := h
  cases loops with
  | nil => simp at hlt
  | cons l loops =>
    obtain ⟨m, t⟩ := l
    have hm : 2 ≤ m := hloops.1
    have hne := hne (m, t) rfl
    have hstart : offsetAt ((n, s) :: (m, t) :: loops) n = offsetAt ((m, t) :: loops) 1 := by
      simpa using offsetAt_mul (by omega) s ((m, t) :: loops) 1
    rw [hstart, offsetAt_of_lt t loops (by omega), Nat.cast_one, Int.mul_one]
    exact hne

/-- The first loop of a normal nest ends where the positions stop going on. -/
theorem IsNormal.not_shorter {n n' : ℕ} {s : ℤ} {loops loops' : List (ℕ × ℤ)} (h : IsNormal ((n, s) :: loops))
    (hvol : n' ≤ volume ((n, s) :: loops))
    (heq : ∀ x < volume ((n, s) :: loops), offsetAt ((n, s) :: loops) x = offsetAt ((n', s) :: loops') x) :
    ¬ n < n' := by
  intro hlt
  apply h.offsetAt_ne (hlt.trans_le hvol)
  rw [heq n (hlt.trans_le hvol), offsetAt_of_lt s loops' hlt, Int.mul_comm]

/-- **Normal nests are told apart** by their positions. -/
theorem IsNormal.eq_of_offsetAt {loops loops' : List (ℕ × ℤ)} (h : IsNormal loops) (h' : IsNormal loops')
    (hvol : volume loops = volume loops') (heq : ∀ x < volume loops, offsetAt loops x = offsetAt loops' x) :
    loops = loops' := by
  induction loops generalizing loops' with
  | nil =>
    cases loops' with
    | nil => rfl
    | cons l loops' =>
      have := h'.2.2.volume_pos
      have := h'.1
      rw [volume_cons, volume_nil] at hvol
      nlinarith
  | cons l loops ih =>
    cases loops' with
    | nil =>
      have := h.2.2.volume_pos
      have := h.1
      rw [volume_cons, volume_nil] at hvol
      nlinarith
    | cons l' loops' =>
      obtain ⟨n, s⟩ := l
      obtain ⟨n', s'⟩ := l'
      have hn : 2 ≤ n := h.1
      have hn' : 2 ≤ n' := h'.1
      have hle : n ≤ volume ((n, s) :: loops) := Nat.le_mul_of_pos_right n h.2.2.volume_pos
      have hle' : n' ≤ volume ((n', s') :: loops') := Nat.le_mul_of_pos_right n' h'.2.2.volume_pos
      obtain rfl : s = s' := by
        have := heq 1 (by omega)
        rwa [offsetAt_of_lt s loops (by omega), offsetAt_of_lt s' loops' (by omega), Nat.cast_one,
          Int.mul_one,
          Int.mul_one] at this
      obtain rfl : n = n' :=
        le_antisymm (not_lt.mp (h'.not_shorter (hle.trans hvol.le) fun x hx => (heq x (hvol ▸ hx)).symm))
          (not_lt.mp (h.not_shorter (hle'.trans hvol.ge) heq))
      rw [volume_cons, volume_cons] at hvol
      have hvol' := Nat.eq_of_mul_eq_mul_left (by omega) hvol
      rw [ih h.2.2 h'.2.2 hvol' fun y hy => ?_]
      have := heq (n * y) (by rw [volume_cons]; exact Nat.mul_lt_mul_of_pos_left hy (by omega))
      rwa [offsetAt_mul (by omega), offsetAt_mul (by omega)] at this

/-- **Two nests go over the same positions** exactly when they have the same shape. -/
theorem positions_eq_iff {base base' : ℤ} {loops loops' : List (ℕ × ℤ)} :
    positions base loops = positions base' loops' ↔ shapeOf base loops = shapeOf base' loops' := by
  have hlen : ∀ base loops, (positions base loops).length = volume loops := fun base loops => by
    rw [positions_eq, List.length_map, List.length_range]
  have hrev : ∀ loops : List (ℕ × ℤ), volume (normal loops.reverse) = volume loops := fun loops => by
    rw [volume_normal, volume_reverse]
  unfold shapeOf
  constructor
  · intro h
    have hvol : volume loops = volume loops' := by rw [← hlen base, h, hlen]
    rw [← hvol]
    split_ifs with h0
    · rfl
    rw [positions_eq, positions_eq, ← hvol, List.map_inj_left] at h
    obtain rfl : base = base' := by
      simpa using h 0 (List.mem_range.mpr (Nat.pos_of_ne_zero h0))
    rw [IsNormal.eq_of_offsetAt (isNormal_normal (by rwa [volume_reverse]))
      (isNormal_normal (by rwa [volume_reverse, ← hvol])) (by rw [hrev, hrev, hvol])]
    intro x hx
    rw [offsetAt_normal, offsetAt_normal]
    rw [hrev] at hx
    simpa using h x (List.mem_range.mpr hx)
  · intro h
    split_ifs at h with h0 h0' h0'
    · rw [positions_eq, positions_eq, h0, h0']
      rfl
    · obtain ⟨rfl, hnormal⟩ := Prod.mk.inj (Option.some.inj h)
      rw [positions_eq, positions_eq, ← hrev loops, hnormal, hrev]
      refine List.map_congr_left fun x _ => ?_
      rw [← offsetAt_normal, hnormal, offsetAt_normal]

end Octantis.Lib
