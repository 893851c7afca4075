import Mathlib.Algebra.Order.Ring.Int
import Mathlib.Tactic.LinearCombination
import Octantis.Lib.Writes
import Octantis.Binding.SelectedRows

/-!
# Nests that go straight over an array

Two nests with one iterator in each subscript, the outer one in the first: the elements stored and
the elements loaded are intervals of a vector, or windows of a matrix row by row.

## What is proved

* `Window.sameNumbers_iff`: when each element of a window has the same number in the matrix and in
  another window;
* `selected_vector`, `selected_matrix`: the number of the row selected for an element;
* `numbers_vectors_iff`, `numbers_matrices_iff`: when it is that of the iteration that stored to the
  element last, in the bounds of the loops.

## Honest scope

The columns saved for a matrix are the rows of its type. So a matrix that is not square is right only
where the rows of the window stored have that length, or where one row is loaded.
-/

namespace Octantis

open Lib AddressList

/-- The number of an element in a matrix, row by row. -/
theorem rowByRow {height width q r : ℕ} (hq : q < height) (hr : r < width) :
    width * q + r < height * width ∧ (width * q + r) / width = q ∧ (width * q + r) % width = r := by
  refine ⟨?_, ?_, by rw [Nat.mul_add_mod, Nat.mod_eq_of_lt hr]⟩
  · calc width * q + r < width * (q + 1) := by
          rw [Nat.mul_succ]
          exact Nat.add_lt_add_left hr _
      _ ≤ height * width := by
          rw [Nat.mul_comm]
          exact Nat.mul_le_mul_right width hq
  · rw [Nat.mul_add_div (Nat.zero_lt_of_lt hr), Nat.div_eq_of_lt hr, Nat.add_zero]

/-- A loop over a vector, with the subscript that it is used in. -/
structure VectorSweep where
  /-- The loop. -/
  loop : ConstantLoop
  /-- The number of its executions. -/
  count : ℕ
  /-- The subscript. -/
  subscript : Subscript
  /-- The constant added to the iterator. -/
  constant : ℤ
  /-- The operation asked for. -/
  isAdd : Bool
  index : subscript.indexInfo = some ⟨[loop.iterator], constant, isAdd⟩

/-- The first element. -/
def VectorSweep.first (v : VectorSweep) : ℤ := v.loop.initValue + v.constant

/-- Two loops over a matrix, row by row. -/
structure MatrixSweep where
  /-- The loop over the rows. -/
  outer : ConstantLoop
  /-- The loop over the columns. -/
  inner : ConstantLoop
  /-- The number of rows. -/
  height : ℕ
  /-- The number of columns. -/
  width : ℕ
  /-- The subscript of the rows. -/
  subscript₁ : Subscript
  /-- The subscript of the columns. -/
  subscript₂ : Subscript
  /-- The constant added in the first. -/
  constant₁ : ℤ
  /-- The constant added in the second. -/
  constant₂ : ℤ
  /-- The operation asked for in the first. -/
  isAdd₁ : Bool
  /-- The operation asked for in the second. -/
  isAdd₂ : Bool
  index₁ : subscript₁.indexInfo = some ⟨[outer.iterator], constant₁, isAdd₁⟩
  index₂ : subscript₂.indexInfo = some ⟨[inner.iterator], constant₂, isAdd₂⟩

/-- The part of the matrix. -/
def MatrixSweep.window (w : MatrixSweep) : Window :=
  ⟨w.outer.initValue + w.constant₁, w.inner.initValue + w.constant₂, w.height, w.width⟩

/-- The elements loaded have the same numbers in the matrix, with `cols` columns, and in the window
stored: they are in it, and its rows are as long as those of the matrix, unless only one is loaded. -/
structure Window.SameNumbers (stored loaded : Window) (cols : ℤ) : Prop where
  top : stored.top ≤ loaded.top
  bottom : loaded.top + loaded.height ≤ stored.top + stored.height
  left : stored.left ≤ loaded.left
  right : loaded.left + loaded.width ≤ stored.left + stored.width
  first : loaded.top * cols + stored.left = (loaded.top - stored.top) * stored.width
  width : 1 < loaded.height → cols = stored.width
  least : -2 ^ 31 ≤ loaded.top * cols
  most : (loaded.top + loaded.height - 1) * cols < 2 ^ 31
  last : (loaded.top + loaded.height - 1) * cols + loaded.left + loaded.width ≤ 2 ^ 31

/-- The element in the row `a` and the column `b` of the window loaded has the number `n` in the matrix
and in the window stored. -/
structure Window.Numbered (stored loaded : Window) (cols : ℤ) (a b n : ℕ) : Prop where
  selected : (CInt.mul (loaded.top + a) cols).bind (CInt.add · (loaded.left + b)) = some (n : ℤ)
  lt : n < stored.height * stored.width
  row : loaded.top + a = stored.top + (n / stored.width : ℕ)
  col : loaded.left + b = stored.left + (n % stored.width : ℕ)

namespace Window

variable {stored loaded : Window} {cols : ℤ} {a b n : ℕ}

/-- Where an element with a number is, and how the rows are numbered. -/
theorem Numbered.bounds (h : stored.Numbered loaded cols a b n) :
    (stored.top ≤ loaded.top + a ∧ loaded.top + a < stored.top + stored.height) ∧
      (stored.left ≤ loaded.left + b ∧ loaded.left + b < stored.left + stored.width) ∧
        (loaded.top + a) * cols + stored.left = (loaded.top + a - stored.top) * stored.width ∧
          -2 ^ 31 ≤ (loaded.top + a) * cols ∧ (loaded.top + a) * cols < 2 ^ 31 ∧
            (loaded.top + a) * cols + loaded.left + b < 2 ^ 31 := by
  obtain ⟨hselected, hlt, hrow, hcol⟩ := h
  obtain ⟨x, hx, hn⟩ := Option.bind_eq_some_iff.mp hselected
  obtain ⟨rfl, hrange⟩ := CInt.checked_eq_some.mp hx
  obtain ⟨hsum, hn⟩ := CInt.checked_eq_some.mp hn
  have hpos : 0 < stored.width := Nat.pos_of_mul_pos_left (Nat.zero_lt_of_lt hlt)
  have hdiv : n / stored.width < stored.height := Nat.div_lt_of_lt_mul (by rwa [Nat.mul_comm] at hlt)
  have hmod : n % stored.width < stored.width := Nat.mod_lt n hpos
  have hdecompose : (n : ℤ) = stored.width * (n / stored.width : ℕ) + (n % stored.width : ℕ) := by
    exact_mod_cast (Nat.div_add_mod n stored.width).symm
  generalize n / stored.width = q at *
  generalize n % stored.width = r at *
  refine ⟨by omega, by omega, ?_, hrange.1, hrange.2, by omega⟩
  have hq : loaded.top + a - stored.top = q := by omega
  rw [hq]
  linear_combination hdecompose - hsum - hcol

/-- The rows are as long as those of the matrix, or there is only one. -/
theorem SameNumbers.row (h : stored.SameNumbers loaded cols) (ha : a < loaded.height) :
    (loaded.top + a) * cols + stored.left = (loaded.top + a - stored.top) * stored.width ∧
      loaded.top * cols ≤ (loaded.top + a) * cols ∧
        (loaded.top + a) * cols ≤ (loaded.top + loaded.height - 1) * cols := by
  have hfirst := h.first
  by_cases hone : 1 < loaded.height
  · rw [h.width hone] at hfirst ⊢
    refine ⟨by linear_combination hfirst, ?_, ?_⟩ <;>
      exact mul_le_mul_of_nonneg_right (by omega) (Int.natCast_nonneg stored.width)
  · have hheight : loaded.height = 1 := by omega
    obtain rfl : a = 0 := by omega
    simpa [hheight] using hfirst

/-- Then every element loaded has a number. -/
theorem SameNumbers.exists_numbered (h : stored.SameNumbers loaded cols) (ha : a < loaded.height)
    (hb : b < loaded.width) : ∃ n, stored.Numbered loaded cols a b n := by
  obtain ⟨hrow, hle, hge⟩ := h.row ha
  obtain ⟨htop, hbottom, hleft, hright, -, -, hleast, hmost, hlast⟩ := h
  obtain ⟨q, hq⟩ : ∃ q : ℕ, loaded.top + a - stored.top = q := ⟨_, (Int.toNat_of_nonneg (by omega)).symm⟩
  obtain ⟨r, hr⟩ : ∃ r : ℕ, loaded.left + b - stored.left = r := ⟨_, (Int.toNat_of_nonneg (by omega)).symm⟩
  obtain ⟨hlt, hdiv, hmod⟩ := rowByRow (by omega : q < stored.height) (by omega : r < stored.width)
  have hnumber : (loaded.top + a) * cols + (loaded.left + b) = ((stored.width * q + r : ℕ) : ℤ) := by
    push_cast
    rw [hq] at hrow
    linear_combination hrow + hr
  refine ⟨stored.width * q + r, ?_, hlt, by omega, by omega⟩
  have hmul : CInt.mul (loaded.top + a) cols = some ((loaded.top + a) * cols) :=
    CInt.checked_eq_some.mpr ⟨rfl, by omega, by omega⟩
  rw [hmul, Option.bind_some, CInt.add, hnumber]
  exact CInt.checked_of_nonneg (Int.natCast_nonneg _) (by omega)

/-- **Every element loaded has a number** exactly when the windows have the same ones: the elements at
the corners and in the second row decide it. -/
theorem sameNumbers_iff (hheight : 0 < loaded.height) (hwidth : 0 < loaded.width) :
    stored.SameNumbers loaded cols ↔
      ∀ a < loaded.height, ∀ b < loaded.width, ∃ n, stored.Numbered loaded cols a b n := by
  refine ⟨fun h a ha b hb => h.exists_numbered ha hb, fun hall => ?_⟩
  obtain ⟨first, hfirst⟩ := hall 0 hheight 0 hwidth
  obtain ⟨last, hlast⟩ := hall (loaded.height - 1) (by omega) (loaded.width - 1) (by omega)
  obtain ⟨⟨htop, -⟩, ⟨hleft, -⟩, hfirst, hleast, -⟩ := hfirst.bounds
  obtain ⟨⟨-, hbottom⟩, ⟨-, hright⟩, -, -, hmost, hlast⟩ := hlast.bounds
  have hcast : loaded.top + ((loaded.height - 1 : ℕ) : ℤ) = loaded.top + loaded.height - 1 := by omega
  rw [hcast] at hbottom hmost hlast
  simp only [Nat.cast_zero, add_zero] at htop hleft hfirst hleast
  refine ⟨htop, by omega, hleft, by omega, hfirst, fun hone => ?_, hleast, hmost, by omega⟩
  obtain ⟨second, hsecond⟩ := hall 1 hone 0 hwidth
  obtain ⟨-, -, hsecond, -⟩ := hsecond.bounds
  rw [Nat.cast_one] at hsecond
  linear_combination hsecond - hfirst

end Window

namespace TwoNests

variable {P : TwoNests}

/-- The numbers selected are those of the last stores. -/
def NumbersOfLast (P : TwoNests) : Prop :=
  ∀ k x, P.loaded[k]? = some x → ∃ n : ℕ, P.selected k = some (n : ℤ) ∧ LastWrite P.stored x n

/-! ### Vectors -/

/-- Both nests go over a vector, and what is read past the end of its pattern is a value. -/
structure OverVectors (P : TwoNests) (v v' : VectorSweep) : Prop where
  array : ∃ numElements, P.arrayType = .array numElements .other
  outside : (P.outside.incrementVector 1).isSome
  storeLoops : P.storeLoops = [v.loop]
  storeCounts : P.storeCounts = [v.count]
  storeSubscripts : P.storeSubscripts = [v.subscript]
  loadLoops : P.loadLoops = [v'.loop]
  loadCounts : P.loadCounts = [v'.count]
  loadSubscripts : P.loadSubscripts = [v'.subscript]

/-- The elements of a vector that a loop accesses. -/
theorem elementsAccessed_vector (v : VectorSweep) (hloop : v.loop.increment = 1) :
    elementsAccessed [v.loop] [v.count] [v.subscript] =
      (List.range v.count).map fun (k : ℕ) => [v.first + (k : ℤ)] := by
  rw [elementsAccessed, tuples_one, List.map_map]
  refine List.map_congr_left fun k _ => ?_
  simp [Subscript.eval_of_indexInfo v.index, iteratorValues, ConstantLoop.value, hloop, VectorSweep.first,
    add_right_comm]

/-- **A load of a vector** selects the row with the number of the element. -/
theorem selected_vector {v v' : VectorSweep} (hV : P.OverVectors v v') {k : ℕ} {x : ℤ}
    (hx : P.loaded[k]? = some [x]) : P.selected k = CInt.checked x := by
  obtain ⟨numElements, harray⟩ := hV.array
  obtain ⟨past, hpast⟩ := Option.isSome_iff_exists.mp hV.outside
  have hit : v'.loop.iterator ∈ P.loadLoops.map (·.iterator) := by simp [hV.loadLoops]
  rw [loaded, elementsAccessed, hV.loadSubscripts, List.getElem?_map] at hx
  obtain ⟨t, ht, hx⟩ := Option.map_eq_some_iff.mp hx
  have hx : v'.subscript.eval (iteratorValues P.loadLoops t) = x := (List.cons.inj hx).1
  rw [Subscript.eval_of_indexInfo v'.index] at hx
  have hnumber : P.vectorNumber ⟨[v'.loop.iterator], v'.constant, v'.isAdd⟩ k = CInt.checked x := by
    simp only [vectorNumber, if_pos hit, hpast, ht, hx, Option.bind_eq_bind, Option.bind_some]
  simpa [selected, harray, AllocatedType.sizeList, CollectInfo.parsePointer, hV.loadSubscripts, v'.index] using hnumber

/-- **Vectors**: the numbers selected are those of the last stores exactly when the first nest begins at
the element 0 and stores to all the elements that the second one loads. -/
theorem numbers_vectors_iff (hP : P.WellFormed) {v v' : VectorSweep} (hV : P.OverVectors v v') :
    P.NumbersOfLast ↔
      v.first = 0 ∧ 0 ≤ v'.first ∧ v'.first + v'.count ≤ v.count ∧ v'.first + v'.count ≤ 2 ^ 31 := by
  have hstored : P.stored = (List.range v.count).map fun (k : ℕ) => [v.first + (k : ℤ)] := by
    rw [stored, hV.storeLoops, hV.storeCounts, hV.storeSubscripts]
    exact elementsAccessed_vector v (hP.increment v.loop (by simp [hV.storeLoops]))
  have hloaded : P.loaded = (List.range v'.count).map fun (k : ℕ) => [v'.first + (k : ℤ)] := by
    rw [loaded, hV.loadLoops, hV.loadCounts, hV.loadSubscripts]
    exact elementsAccessed_vector v' (hP.increment v'.loop (by simp [hV.loadLoops]))
  have hpos : 0 < v'.count := by simpa [hloaded] using length_loaded_pos hP
  have helement : ∀ k < v'.count, P.loaded[k]? = some [v'.first + (k : ℤ)] := fun k hk => by
    rw [hloaded, List.getElem?_map, List.getElem?_range hk, Option.map_some]
  have hselected : ∀ k < v'.count, P.selected k = CInt.checked (v'.first + (k : ℤ)) := fun k hk =>
    selected_vector hV (helement k hk)
  have hlast : ∀ (x : ℤ) (n : ℕ), LastWrite P.stored [x] n ↔ n < v.count ∧ x = v.first + n := by
    intro x n
    rw [hstored, lastWrite_map_range_iff fun i _ j _ h => by simpa using h]
    simp [eq_comm]
  constructor
  · intro hall
    have hnumber : ∀ k < v'.count, ∃ n : ℕ, v'.first + (k : ℤ) = n ∧ v'.first + (k : ℤ) < 2 ^ 31 ∧
        n < v.count ∧ v'.first + (k : ℤ) = v.first + n := by
      intro k hk
      obtain ⟨n, hn, hlast'⟩ := hall k _ (helement k hk)
      rw [hselected k hk, CInt.checked_eq_some] at hn
      exact ⟨n, hn.1.symm, hn.2.2, (hlast _ n).mp hlast'⟩
    obtain ⟨n, hn, -, -, hzero⟩ := hnumber 0 hpos
    obtain ⟨n', hn', hlt, hle, -⟩ := hnumber (v'.count - 1) (by omega)
    refine ⟨?_, ?_, ?_, ?_⟩ <;> omega
  · rintro ⟨hzero, hnonneg, hle, hlt⟩ k x hx
    have hk : k < v'.count := by simpa [hloaded] using (List.getElem?_eq_some_iff.mp hx).1
    obtain rfl := Option.some.inj ((helement k hk).symm.trans hx)
    refine ⟨(v'.first + (k : ℤ)).toNat, ?_, (hlast _ _).mpr ⟨?_, ?_⟩⟩
    · rw [hselected k hk, Int.toNat_of_nonneg (by omega)]
      exact CInt.checked_of_nonneg (by omega) (by omega)
    · omega
    · omega

/-! ### Matrices -/

/-- Both nests go over a matrix, of which `cols` columns are saved. -/
structure OverMatrices (P : TwoNests) (w w' : MatrixSweep) (cols : ℤ) : Prop where
  array : ∃ rows, 1 < rows ∧ P.arrayType.sizeList = some [rows, cols]
  storeLoops : P.storeLoops = [w.outer, w.inner]
  storeCounts : P.storeCounts = [w.height, w.width]
  storeSubscripts : P.storeSubscripts = [w.subscript₁, w.subscript₂]
  loadLoops : P.loadLoops = [w'.outer, w'.inner]
  loadCounts : P.loadCounts = [w'.height, w'.width]
  loadSubscripts : P.loadSubscripts = [w'.subscript₁, w'.subscript₂]

/-- The elements of a matrix that two loops access. -/
theorem elementsAccessed_matrix (w : MatrixSweep) (houter : w.outer.increment = 1) (hinner : w.inner.increment = 1)
    (hne : w.outer.iterator ≠ w.inner.iterator) :
    elementsAccessed [w.outer, w.inner] [w.height, w.width] [w.subscript₁, w.subscript₂] =
      (List.range (w.height * w.width)).map fun k =>
        [w.window.top + (k / w.width : ℕ), w.window.left + (k % w.width : ℕ)] := by
  rw [elementsAccessed, tuples_two, List.map_map]
  refine List.map_congr_left fun k _ => ?_
  simp [Subscript.eval_of_indexInfo w.index₁, Subscript.eval_of_indexInfo w.index₂, iteratorValues,
    ConstantLoop.value, houter, hinner, hne, MatrixSweep.window, add_right_comm]

/-- The elements loaded from a matrix. -/
theorem loaded_matrix (hP : P.WellFormed) (hc : P.Collectable) {w w' : MatrixSweep} {cols : ℤ}
    (hM : P.OverMatrices w w' cols) : P.loaded = (List.range (w'.height * w'.width)).map fun k =>
      [w'.window.top + (k / w'.width : ℕ), w'.window.left + (k % w'.width : ℕ)] := by
  have hnodup := hc.iterators
  rw [List.map_append] at hnodup
  have hne : w'.outer.iterator ≠ w'.inner.iterator := by
    simpa [hM.loadLoops] using (List.nodup_append.mp hnodup).2.1
  rw [loaded, hM.loadLoops, hM.loadCounts, hM.loadSubscripts]
  exact elementsAccessed_matrix w' (hP.increment _ (by simp [hM.loadLoops])) (hP.increment _ (by simp [hM.loadLoops]))
    hne

/-- The elements stored to a matrix. -/
theorem stored_matrix (hP : P.WellFormed) (hc : P.Collectable) {w w' : MatrixSweep} {cols : ℤ}
    (hM : P.OverMatrices w w' cols) : P.stored = (List.range (w.height * w.width)).map fun k =>
      [w.window.top + (k / w.width : ℕ), w.window.left + (k % w.width : ℕ)] := by
  have hnodup := hc.iterators
  rw [List.map_append] at hnodup
  have hne : w.outer.iterator ≠ w.inner.iterator := by
    simpa [hM.storeLoops] using (List.nodup_append.mp hnodup).1
  rw [stored, hM.storeLoops, hM.storeCounts, hM.storeSubscripts]
  exact elementsAccessed_matrix w (hP.increment _ (by simp [hM.storeLoops])) (hP.increment _ (by simp [hM.storeLoops]))
    hne

/-- **A load of a matrix** row by row selects the row with the number of the element in a matrix of the
columns saved, which are the rows of the type. -/
theorem selected_matrix (hP : P.WellFormed) (hc : P.Collectable) {w w' : MatrixSweep} {cols : ℤ}
    (hM : P.OverMatrices w w' cols) (k : ℕ) :
    P.selected k = (CInt.mul (w'.window.top + (k / w'.width : ℕ)) cols).bind
      (CInt.add · (w'.window.left + (k % w'.width : ℕ))) := by
  obtain ⟨rows, hrows, hsizes⟩ := hM.array
  have houter : P.loopOf w'.outer.iterator = some (w'.outer, w'.height) :=
    loopOf_of_mem (x := (w'.outer, w'.height)) hP hc
      (List.mem_append_right _ (by simp [hM.loadLoops, hM.loadCounts]))
  have hinner : P.loopOf w'.inner.iterator = some (w'.inner, w'.width) :=
    loopOf_of_mem (x := (w'.inner, w'.width)) hP hc
      (List.mem_append_right _ (by simp [hM.loadLoops, hM.loadCounts]))
  have hlength : w'.height * w'.width = P.loaded.length := by
    rw [loaded_matrix hP hc hM, List.length_map, List.length_range]
  have hnumber : P.matrixNumber cols ⟨[w'.outer.iterator], w'.constant₁, w'.isAdd₁⟩
      ⟨[w'.inner.iterator], w'.constant₂, w'.isAdd₂⟩ k =
        (CInt.mul (w'.window.top + (k / w'.width : ℕ)) cols).bind
          (CInt.add · (w'.window.left + (k % w'.width : ℕ))) := by
    simp [matrixNumber, hM.loadLoops, order, AccessPattern.unitOrder, window, houter, hinner, hlength,
      extractIteratorAdvancement, MatrixSweep.window]
  rw [selected, hsizes, hM.loadSubscripts]
  simp only [Option.bind_eq_bind, Option.bind_some, List.head?_cons, List.getLast?_cons_cons,
    List.getLast?_singleton, CollectInfo.parsePointer, if_neg hrows.ne', w'.index₁, w'.index₂, Option.map_some,
    Option.getD_some]
  rw [if_pos hrows, hnumber]

/-- **Matrices**: the numbers selected are those of the last stores exactly when the window loaded has
the same numbers in the matrix and in the window stored. -/
theorem numbers_matrices_iff (hP : P.WellFormed) (hc : P.Collectable) {w w' : MatrixSweep} {cols : ℤ}
    (hM : P.OverMatrices w w' cols) :
    P.NumbersOfLast ↔ w.window.SameNumbers w'.window cols := by
  have hloaded := loaded_matrix hP hc hM
  have hpos : 0 < w'.height * w'.width := by simpa [hloaded] using length_loaded_pos hP
  have helement : ∀ k < w'.height * w'.width,
      P.loaded[k]? = some [w'.window.top + (k / w'.width : ℕ), w'.window.left + (k % w'.width : ℕ)] := fun k hk => by
    rw [hloaded, List.getElem?_map, List.getElem?_range hk, Option.map_some]
  have hlast : ∀ (r c : ℤ) (n : ℕ), LastWrite P.stored [r, c] n ↔ n < w.height * w.width ∧
      r = w.window.top + (n / w.width : ℕ) ∧ c = w.window.left + (n % w.width : ℕ) := by
    intro r c n
    rw [stored_matrix hP hc hM, lastWrite_map_range_iff fun i _ j _ h => ?_]
    · simp [eq_comm]
    · obtain ⟨hdiv, hmod⟩ : i / w.width = j / w.width ∧ i % w.width = j % w.width := by
        simp only [List.cons.injEq, and_true] at h
        omega
      rw [← Nat.div_add_mod i w.width, hdiv, hmod, Nat.div_add_mod]
  rw [Window.sameNumbers_iff (Nat.pos_of_mul_pos_right hpos) (Nat.pos_of_mul_pos_left hpos)]
  constructor
  · intro hall a ha b hb
    obtain ⟨hk, hdiv, hmod⟩ : w'.width * a + b < w'.height * w'.width ∧ (w'.width * a + b) / w'.width = a ∧
        (w'.width * a + b) % w'.width = b := rowByRow ha hb
    obtain ⟨n, hn, hlast'⟩ := hall _ _ (helement _ hk)
    rw [selected_matrix hP hc hM] at hn
    rw [hdiv, hmod] at hn hlast'
    obtain ⟨hlt, hrow, hcol⟩ := (hlast _ _ n).mp hlast'
    exact ⟨n, hn, hlt, hrow, hcol⟩
  · intro hall k x hx
    have hk : k < w'.height * w'.width := by simpa [hloaded] using (List.getElem?_eq_some_iff.mp hx).1
    obtain rfl := Option.some.inj ((helement k hk).symm.trans hx)
    obtain ⟨n, hn, hlt, hrow, hcol⟩ := hall (k / w'.width) (Nat.div_lt_of_lt_mul (by rwa [Nat.mul_comm] at hk))
      (k % w'.width) (Nat.mod_lt k (Nat.pos_of_mul_pos_left hpos))
    exact ⟨n, (selected_matrix hP hc hM k).trans hn, (hlast _ _ n).mpr ⟨hlt, hrow, hcol⟩⟩

end TwoNests

end Octantis
