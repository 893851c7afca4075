import Octantis.Binding.ComputedArray
import Octantis.Utils.NestPatterns

/-!
# The rows that a load selects

Which row of its source a load takes in an iteration of its nest, from the subscripts and the
bounds of the loops.

## The model

`selected` numbers the rows of the source. A vector has no second index, and a pointer into it
goes over the loop of its iterator. A pointer into a matrix goes over a `Window`, in the order of
the loops that the subscripts use.

## What is proved

* `selected_eq_some_iff`: the number is the place that the pointer info gives;
* `addressList_iff`: when the rows of the address list are those of the elements loaded.

## Honest scope

The rows and the columns of a matrix change places in `sizeList`, so the number of an element is
its own in a square matrix only. The numbers do not depend on what was stored.
-/

namespace Octantis

open Lib AddressList

/-- The part of a matrix that a pointer goes over. -/
structure Window where
  /-- The first row. -/
  top : ℤ
  /-- The first column. -/
  left : ℤ
  /-- The number of rows. -/
  height : ℕ
  /-- The number of columns. -/
  width : ℕ

namespace TwoNests

variable (P : TwoNests)

/-- The window of two subscripts: as many rows as the first loop of the first index is executed,
and as many columns as that of the second. With two loops in the first index and one in the
second the columns begin at the initial value of the first loop, and the operation asked for is
that of the second index. -/
def window (first second : IndexInfo) : Option Window :=
  match first.iterators, second.iterators with
  | [a], [b] => do
    let (rowLoop, height) ← P.loopOf a
    let (colLoop, width) ← P.loopOf b
    some ⟨rowLoop.initValue + first.constant, colLoop.initValue + second.constant, height, width⟩
  | [a, a'], [b, b'] =>
    if first.isAdd && second.isAdd then do
      let (rowLoop, height) ← P.loopOf a
      let (rowLoop', _) ← P.loopOf a'
      let (colLoop, width) ← P.loopOf b
      let (colLoop', _) ← P.loopOf b'
      some ⟨rowLoop.initValue + rowLoop'.initValue + first.constant,
        colLoop.initValue + colLoop'.initValue + second.constant, height, width⟩
    else none
  | [a], [b, b'] =>
    if second.isAdd then do
      let (rowLoop, height) ← P.loopOf a
      let (colLoop, width) ← P.loopOf b
      let (colLoop', _) ← P.loopOf b'
      some ⟨rowLoop.initValue + first.constant,
        colLoop.initValue + colLoop'.initValue + second.constant, height, width⟩
    else none
  | [a, a'], [b] =>
    if second.isAdd then do
      let (rowLoop, height) ← P.loopOf a
      let (rowLoop', _) ← P.loopOf a'
      let (_, width) ← P.loopOf b
      some ⟨rowLoop.initValue + rowLoop'.initValue + first.constant,
        rowLoop.initValue + second.constant, height, width⟩
    else none
  | _, _ => none

/-- The order of the rows selected, when the subscripts use both loops of the nest. -/
def order (first second : IndexInfo) (outer inner : Reg) : Option ArrayAccessPattern :=
  if (outer ∈ first.iterators ∨ outer ∈ second.iterators) ∧
      (inner ∈ first.iterators ∨ inner ∈ second.iterators) then
    AccessPattern.unitOrder P.outside (outer ∈ first.iterators) (inner ∈ first.iterators)
      (inner ∈ second.iterators)
  else none

/-- The number of the row selected from a vector: that of the element, for an iterator of the nest.
An iterator of another loop is used when that is executed once, and what is read past the end of
the pattern is no zero. -/
def vectorNumber (index : IndexInfo) (k : ℕ) : Option ℤ :=
  match index.iterators with
  | [it] =>
    if it ∈ P.loadLoops.map (·.iterator) then do
      let _ ← P.outside.incrementVector 1
      let t ← (tuples P.loadCounts)[k]?
      CInt.checked (iteratorValues P.loadLoops t it + index.constant)
    else if P.loadLoops.length = 1 then do
      let x ← P.outside.incrementVector 0
      let _ ← P.outside.incrementVector 1
      let (l, n) ← P.loopOf it
      if x ≠ 0 ∧ n = 1 then CInt.checked (l.initValue + index.constant) else none
    else none
  | _ => none

/-- The number of the row selected from a matrix: its place in the window, which has as many
elements as the nest has iterations. -/
def matrixNumber (arrayCols : ℤ) (first second : IndexInfo) (k : ℕ) : Option ℤ :=
  match P.loadLoops with
  | [outer, inner] => do
    let apmType ← P.order first second outer.iterator inner.iterator
    let w ← P.window first second
    if w.height * w.width = P.loaded.length then
      extractIteratorAdvancement apmType (w.top + (k / w.width : ℕ)) (w.left + (k % w.width : ℕ)) 0 0 arrayCols
    else none
  | _ => none

/-- **The number of the row selected** in an iteration of the second nest. -/
def selected (k : ℕ) : Option ℤ := do
  let sizes ← P.arrayType.sizeList
  let arrayRows ← sizes.head?
  let arrayCols ← sizes.getLast?
  let indexes ← CollectInfo.parsePointer arrayRows P.previous P.loadSubscripts
  if arrayRows > 1 then P.matrixNumber arrayCols indexes.1 indexes.2 k else P.vectorNumber indexes.1 k

/-- A pattern without subsets, whose rows are as many as the iterations of the nest, has this place
for an iteration. -/
structure Selects (pis : PointerInfoStruct) (k : ℕ) (m : ℤ) : Prop where
  pattern : pis.pointerAccessPattern.apmType = .rowMajor ∨ pis.pointerAccessPattern.apmType = .colMajor
  initZeros : pis.pointerAccessPattern.initZerosM ≠ 2
  extent : ∃ e, pis.extent = some e ∧ 0 < e.spacingX ∧ 0 < e.spacingY ∧
    pis.repeatList P.loadCounts * (height e * width e) * pis.repeatEach P.loadCounts = P.loaded.length ∧
    pis.place P.loadCounts e k = some m

variable {P} {s : LoopCollection} {α : Type}

/-- **The rows of the address list** are those of the elements loaded when the number of each row
selected is that of such a row. -/
theorem addressList_iff_selects (hP : P.WellFormed) (hs : P.collected = some s) (rows : List α)
    (target : List ℤ → Option α) :
    (∃ ops, P.addressList rows = some ops ∧ ops.map some = P.loaded.map target) ↔
      ∃ pis, P.pointerInfo s.LIT = some pis ∧ ∀ k x, P.loaded[k]? = some x →
        ∃ m row, P.Selects pis k m ∧ rowAt rows m = some row ∧ target x = some row := by
  have hpos := length_loaded_pos hP
  cases hpis : P.pointerInfo s.LIT with
  | none =>
    have hnone : P.addressList rows = none := by
      simp only [addressList, hs, hpis, Option.bind_eq_bind, Option.bind_some, Option.bind_none]
    simp [hnone]
  | some pis =>
    obtain ⟨hpattern, ⟨p, hple, f, hfle, hp, hf⟩, htriangles, hlist⟩ := addressList_eq (α := α) hP hs hpis
    rw [hlist rows]
    simp only [Option.some.injEq, exists_eq_left']
    by_cases h : ∃ e, pis.extent = some e ∧
        (pis.pointerAccessPattern.apmType = .rowMajor ∨ pis.pointerAccessPattern.apmType = .colMajor) ∧
          pis.pointerAccessPattern.initZerosM ≠ 2 ∧ 0 < e.spacingX ∧ 0 < e.spacingY
    · obtain ⟨e, hextent, hmajor, hinit, hspacing⟩ := h
      rw [expand_shapeAddressList hextent hmajor hinit hspacing hP.load.entered hp hf hple hfle,
        exists_mapM_range_iff]
      constructor
      · rintro ⟨hlength, hall⟩ k x hx
        obtain ⟨row, hrow, htarget⟩ := hall k x hx
        obtain ⟨m, hm, hrow⟩ := Option.bind_eq_some_iff.mp hrow
        exact ⟨m, row, ⟨hmajor, hinit, e, hextent, hspacing.1, hspacing.2, hlength, hm⟩, hrow, htarget⟩
      · intro hall
        have hselects : ∀ {k m}, P.Selects pis k m →
            pis.repeatList P.loadCounts * (height e * width e) * pis.repeatEach P.loadCounts = P.loaded.length ∧
              pis.place P.loadCounts e k = some m := by
          rintro k m ⟨-, -, e', hextent', -, -, hlength, hm⟩
          obtain rfl := Option.some.inj (hextent.symm.trans hextent')
          exact ⟨hlength, hm⟩
        obtain ⟨m, _, hm, -⟩ := hall 0 _ (List.getElem?_eq_getElem hpos)
        refine ⟨(hselects hm).1, fun k x hx => ?_⟩
        obtain ⟨m, row, hm, hrow, htarget⟩ := hall k x hx
        exact ⟨row, by rw [(hselects hm).2, Option.bind_some, hrow], htarget⟩
    · have hempty := @expandAddressList_empty α pis _ (@shapeAddressList_empty α pis rows hpattern htriangles h)
        (P.loadCounts.map Nat.cast)
      constructor
      · rintro ⟨ops, hops, htarget⟩
        rw [hops] at hempty
        obtain rfl : ops = [] := hempty
        have hlength := congrArg List.length htarget
        simp only [List.map_nil, List.length_nil, List.length_map] at hlength
        omega
      · intro hall
        obtain ⟨m, _, ⟨hmajor, hinit, e, hextent, hX, hY, -⟩, -⟩ := hall 0 _ (List.getElem?_eq_getElem hpos)
        exact absurd ⟨e, hextent, hmajor, hinit, hX, hY⟩ h

/-! ### The pointer of the load -/

/-- The increments of an index: one for each loop whose iterator it has. -/
def usedBy (P : TwoNests) (index : IndexInfo) : List ℤ :=
  P.loadLoops.map fun l => AccessPattern.unitIncrement (l.iterator ∈ index.iterators)

theorem increments_eq (hP : P.WellFormed) (hs : P.collected = some s) (index : IndexInfo) :
    CollectInfo.increments s.LIT (P.loadLoops.map (·.iterator)) index.iterators = some (P.usedBy index) := by
  rw [CollectInfo.increments, mapM_eq_some_iff_map, usedBy, List.map_map, List.map_map]
  refine List.map_congr_left fun l hl => ?_
  have hmem := List.mem_append_right P.storeLoops hl
  obtain ⟨k, -, hinfo⟩ := (known_of_collected hs).2.1 l hmem
  simp only [Function.comp_apply, hinfo, Option.map_some, AccessPattern.unitIncrement, ConstantLoop.loopInfo,
    hP.increment l hmem, decide_eq_true_eq]
  split_ifs <;> rfl

/-- **What `setPointerInfo` sets**, from the loops of the nest. -/
theorem setPointerInfo_eq (hP : P.WellFormed) (hs : P.collected = some s) :
    ∃ it, ∀ arrayRows arrayCols first second,
      CollectInfo.setPointerInfo s.LIT P.outside P.loadBlock arrayRows arrayCols first second =
        ((AccessPattern.ofIncrements (if arrayRows > 1 then 2 else 1) P.loadLoops.length
          (if arrayRows > 1 then P.usedBy first ++ P.usedBy second
            else P.usedBy first)).detected P.outside).bind fun ap =>
          (if arrayRows > 1 then CollectInfo.matrixExtent s.LIT first second
            else CollectInfo.vectorExtent s.LIT first).map fun extent =>
              ⟨it, arrayRows, arrayCols, extent, ap⟩ := by
  obtain ⟨it, hit, hvector, -⟩ := collected_eq_some hP hs
  refine ⟨it, fun arrayRows arrayCols first second => ?_⟩
  have hlength : (P.loadLoops.map (·.iterator)).length = P.loadLoops.length := List.length_map _
  unfold CollectInfo.setPointerInfo
  rw [hit]
  simp only [Option.bind_eq_bind, Option.bind_some, hvector, hlength, AccessPattern.detected, Option.bind_assoc]
  split_ifs with hmatrix
  · simp only [List.mapM_cons, List.mapM_nil, increments_eq hP hs, Option.bind_eq_bind, Option.bind_some,
      Option.pure_def, List.flatten_cons, List.flatten_nil, List.append_nil, List.length_cons, List.length_nil,
      Option.map_eq_bind]
    rfl
  · simp only [List.mapM_cons, List.mapM_nil, increments_eq hP hs, Option.bind_eq_bind, Option.bind_some,
      Option.pure_def, List.flatten_cons, List.flatten_nil, List.append_nil, List.length_cons, List.length_nil,
      Option.map_eq_bind]
    rfl

/-! ### Vectors -/

/-- **The place of a vector's element** is the element. -/
theorem selectedPlace_vector {index : IndexInfo} {l : ConstantLoop} {n : ℕ} (hl : l.increment = 1) :
    height (CollectInfo.vectorSingleExtent index (l.loopInfo n)) = 1 ∧
      width (CollectInfo.vectorSingleExtent index (l.loopInfo n)) = n ∧ ∀ (arrayCols : ℤ) (k : ℕ), k < n →
        selectedPlace .rowMajor (CollectInfo.vectorSingleExtent index (l.loopInfo n)) arrayCols k =
          CInt.checked (l.value k + index.constant) := by
  have hinc : 0 < (l.loopInfo n).iteratorIncrement := by
    rw [ConstantLoop.loopInfo, hl]
    exact Int.one_pos
  have hwidth : width (CollectInfo.vectorSingleExtent index (l.loopInfo n)) = n := by
    rw [width, CollectInfo.vectorSingleExtent]
    exact trips_stop hinc _ n
  refine ⟨rfl, hwidth, fun arrayCols k hk => ?_⟩
  rw [selectedPlace, hwidth, Nat.div_eq_of_lt hk, Nat.mod_eq_of_lt hk]
  simp [CollectInfo.vectorSingleExtent, extractIteratorAdvancement, CInt.mul, CInt.add, CInt.checked_of_nonneg,
    ConstantLoop.loopInfo, ConstantLoop.value, add_right_comm]

/-- The elements of a nest of two loops, over the number of the iteration. -/
theorem tuples_two (m n : ℕ) : tuples [m, n] = (List.range (m * n)).map fun k => [k / n, k % n] := by
  have h := NestAccess.map_tuples_pair m n (fun t => t)
  rw [List.map_id'] at h
  rw [h]
  exact flatMap_range m n _

theorem tuples_one (n : ℕ) : tuples [n] = (List.range n).map fun k => [k] := by
  have h := NestAccess.map_tuples_single n (fun t => t)
  rw [List.map_id'] at h
  exact h

/-- **A loop of the nest in the subscript of a vector**: the pattern, and the value of the iterator
in an iteration. -/
theorem vector_nest (hP : P.WellFormed) (hc : P.Collectable) {index : IndexInfo} {it : Reg}
    (hindex : index.iterators = [it]) (hit : it ∈ P.loadLoops.map (·.iterator)) :
    ∃ (l : ConstantLoop) (n p f : ℕ) (row : List ℤ), P.loopOf it = some (l, n) ∧ l.increment = 1 ∧ 0 < n ∧ p ≠ 2 ∧
      (AccessPattern.ofIncrements 1 P.loadLoops.length (P.usedBy index)).detected P.outside =
        ((P.outside.incrementVector 1).map fun _ => ⟨1, P.loadLoops.length, row, p, f, .rowMajor⟩) ∧
      (P.loadCounts.take p).prod * n * (P.loadCounts.drop (P.loadCounts.length - f)).prod = P.loaded.length ∧
      ∀ k < P.loaded.length, ∃ t, (tuples P.loadCounts)[k]? = some t ∧ iteratorValues P.loadLoops t it =
        l.value (k / (P.loadCounts.drop (P.loadCounts.length - f)).prod % n) := by
  have hlength : P.loaded.length = P.loadCounts.prod := by
    rw [loaded, elementsAccessed, List.length_map, length_tuples]
  have hloop : ∀ {l : ConstantLoop} {n : ℕ}, (l, n) ∈ P.loadLoops.zip P.loadCounts →
      P.loopOf l.iterator = some (l, n) ∧ l.increment = 1 ∧ 0 < n := fun {l n} h =>
    have hmem := List.mem_append_right (P.storeLoops.zip P.storeCounts) h
    ⟨loopOf_of_mem hP hc hmem, hP.increment _ (executes_of_mem hP hmem).1, (executes_of_mem hP hmem).2.2⟩
  have hexecutes := hP.load.executes
  obtain ⟨l, hl, rfl⟩ := List.mem_map.mp hit
  rw [hlength]
  rcases hP.load.depth with hdepth | hdepth
  · obtain ⟨l', hloops⟩ := List.length_eq_one_iff.mp hdepth
    rw [hloops] at hexecutes hl
    obtain rfl := List.mem_singleton.mp hl
    obtain ⟨n, rest, -, hrest, hcounts⟩ := List.forall₂_cons_left_iff.mp hexecutes
    obtain rfl := List.forall₂_nil_left_iff.mp hrest
    obtain ⟨hfind, hinc, hn⟩ := @hloop l n (by simp [hloops, hcounts])
    refine ⟨l, n, 0, 0, [1], hfind, hinc, hn, by decide, ?_, by simp [hcounts], fun k hk => ⟨[k], ?_, ?_⟩⟩
    · rw [usedBy, hindex, hloops, List.map_singleton, List.length_singleton]
      simpa [AccessPattern.unitIncrement] using AccessPattern.detected_single P.outside
    · rw [hcounts, List.prod_singleton] at hk
      rw [hcounts, tuples_one, List.getElem?_map, List.getElem?_range hk, Option.map_some]
    · rw [hcounts, List.prod_singleton] at hk
      simp [iteratorValues, hloops, hcounts, Nat.mod_eq_of_lt hk]
  · obtain ⟨o, i, hloops⟩ := List.length_eq_two.mp hdepth
    have hne : o.iterator ≠ i.iterator := by
      have hnodup := (List.nodup_append.mp (List.map_append ▸ hc.iterators)).2.1
      rw [hloops] at hnodup
      simpa using hnodup
    rw [hloops] at hexecutes hl
    obtain ⟨m, rest, -, hrest, hcounts⟩ := List.forall₂_cons_left_iff.mp hexecutes
    obtain ⟨n, rest', -, hrest', rfl⟩ := List.forall₂_cons_left_iff.mp hrest
    obtain rfl := List.forall₂_nil_left_iff.mp hrest'
    have htuple : ∀ k < P.loadCounts.prod, (tuples P.loadCounts)[k]? = some [k / n, k % n] := fun k hk => by
      have hk : k < m * n := by simpa [hcounts] using hk
      rw [hcounts, tuples_two, List.getElem?_map, List.getElem?_range hk, Option.map_some]
    rcases List.mem_cons.mp hl with rfl | hl
    · obtain ⟨hfind, hinc, hm⟩ := @hloop l m (by simp [hloops, hcounts])
      refine ⟨l, m, 0, 1, [1, 0], hfind, hinc, hm, by decide, ?_, by simp [hcounts],
        fun k hk => ⟨_, htuple k hk, ?_⟩⟩
      · rw [usedBy, hindex, hloops]
        simpa [AccessPattern.unitIncrement, hne.symm] using AccessPattern.detected_outer P.outside
      · rw [hcounts, List.prod_cons, List.prod_singleton] at hk
        simp [iteratorValues, hloops, hcounts, Nat.mod_eq_of_lt (Nat.div_lt_of_lt_mul (Nat.mul_comm m n ▸ hk))]
    · obtain rfl := List.mem_singleton.mp hl
      obtain ⟨hfind, hinc, hn⟩ := @hloop l n (by simp [hloops, hcounts])
      refine ⟨l, n, 1, 0, [0, 1], hfind, hinc, hn, by decide, ?_, by simp [hcounts],
        fun k hk => ⟨_, htuple k hk, ?_⟩⟩
      · rw [usedBy, hindex, hloops]
        simpa [AccessPattern.unitIncrement, hne] using AccessPattern.detected_inner P.outside
      · simp [iteratorValues, hloops, hcounts, hne]

/-- What is selected for one iterator, from the columns of zeros around its loop. -/
theorem selects_vector_iff {ap : AccessPattern} {index : IndexInfo} {l : ConstantLoop} {n p f : ℕ} {it : Reg}
    {arrayRows arrayCols m : ℤ} {k : ℕ} (hl : l.increment = 1) (hn : 0 < n) (htype : ap.apmType = .rowMajor)
    (hinit : ap.initZerosM = p) (hp : p ≠ 2) (hfinal : ap.finalZerosM = f) :
    P.Selects ⟨it, arrayRows, arrayCols, some (CollectInfo.vectorSingleExtent index (l.loopInfo n)), ap⟩ k m ↔
      (P.loadCounts.take p).prod * n * (P.loadCounts.drop (P.loadCounts.length - f)).prod = P.loaded.length ∧
        CInt.checked (l.value (k / (P.loadCounts.drop (P.loadCounts.length - f)).prod % n) + index.constant) =
          some m := by
  obtain ⟨hheight, hwidth, hplace⟩ := @selectedPlace_vector index l n hl
  have hspacing : 0 < (CollectInfo.vectorSingleExtent index (l.loopInfo n)).spacingX := by
    rw [CollectInfo.vectorSingleExtent, ConstantLoop.loopInfo, hl]
    exact Int.one_pos
  have hselected := hplace arrayCols (k / (P.loadCounts.drop (P.loadCounts.length - f)).prod % n) (Nat.mod_lt _ hn)
  constructor
  · rintro ⟨-, -, e, he, -, -, hlength, hm⟩
    obtain rfl := Option.some.inj he
    simp only [PointerInfoStruct.repeatList, PointerInfoStruct.repeatEach, PointerInfoStruct.place, htype, hinit,
      hfinal, Int.toNat_natCast, hheight, hwidth, Nat.one_mul] at hlength hm
    exact ⟨hlength, hselected.symm.trans hm⟩
  · rintro ⟨hlength, hm⟩
    refine ⟨.inl htype, fun htwo => hp (by exact_mod_cast hinit.symm.trans htwo), _, rfl, hspacing, Int.one_pos,
      ?_, ?_⟩
    · simpa only [PointerInfoStruct.repeatList, PointerInfoStruct.repeatEach, hinit, hfinal, Int.toNat_natCast,
        hheight, hwidth, Nat.one_mul] using hlength
    · simp only [PointerInfoStruct.repeatEach, PointerInfoStruct.place, htype, hfinal, Int.toNat_natCast, hheight,
        hwidth, Nat.one_mul]
      exact hselected.trans hm

/-- What the collector knows of an index with one iterator. -/
theorem vectorExtent_single (hP : P.WellFormed) (hs : P.collected = some s) {index : IndexInfo} {it : Reg}
    (hindex : index.iterators = [it]) : CollectInfo.vectorExtent s.LIT index =
      (P.loopOf it).map fun x => some (CollectInfo.vectorSingleExtent index (x.1.loopInfo x.2)) := by
  rw [CollectInfo.vectorExtent, hindex]
  simp only [getLoopInfo_eq hP hs, Option.bind_eq_bind]
  cases P.loopOf it <;> rfl

/-- Nothing is selected without a pattern. -/
theorem not_selects_of_undefined {pis : PointerInfoStruct} {k : ℕ} {m : ℤ}
    (h : pis.pointerAccessPattern.apmType = .undefined) : ¬ P.Selects pis k m := by
  intro hsel
  rcases hsel.pattern with hp | hp <;> rw [h] at hp <;> cases hp

/-- The pointer of another loop, in a nest of one: that loop is executed once. -/
theorem selects_elsewhere_iff (hP : P.WellFormed) (hdepth : P.loadLoops.length = 1) {k : ℕ} {index : IndexInfo}
    {it it' : Reg} {arrayRows arrayCols m : ℤ} {x : ConstantLoop × ℕ} (hloop : P.loopOf it' = some x) :
    P.Selects ⟨it, arrayRows, arrayCols, some (CollectInfo.vectorSingleExtent index (x.1.loopInfo x.2)),
      ⟨1, 1, [0], 1, 0, .rowMajor⟩⟩ k m ↔ x.2 = 1 ∧ CInt.checked (x.1.initValue + index.constant) = some m := by
  obtain ⟨l', hloops⟩ := List.length_eq_one_iff.mp hdepth
  have hexecutes := hP.load.executes
  rw [hloops] at hexecutes
  obtain ⟨N, rest, -, hrest, hcounts⟩ := List.forall₂_cons_left_iff.mp hexecutes
  obtain rfl := List.forall₂_nil_left_iff.mp hrest
  have hlength : P.loaded.length = N := by
    rw [loaded, elementsAccessed, List.length_map, length_tuples, hcounts, List.prod_singleton]
  have hN : 0 < N := hlength ▸ length_loaded_pos hP
  obtain ⟨hl, hn⟩ := executes_of_mem hP (loopOf_eq_some hloop).1
  rw [selects_vector_iff (hP.increment _ hl) hn.2 rfl (p := 1) rfl (by decide) (f := 0) rfl]
  have hcover : (P.loadCounts.take 1).prod * x.2 * (P.loadCounts.drop (P.loadCounts.length - 0)).prod =
      P.loaded.length ↔ x.2 = 1 := by
    rw [hlength, Nat.sub_zero, List.drop_length, List.prod_nil, Nat.mul_one, hcounts, List.take_of_length_le
      (Nat.le_refl 1), List.prod_singleton]
    constructor
    · intro h
      exact Nat.eq_of_mul_eq_mul_left hN (h.trans (Nat.mul_one N).symm)
    · intro h
      rw [h, Nat.mul_one]
  rw [hcover]
  refine and_congr_right fun hone => ?_
  rw [hone, Nat.mod_one]
  simp only [ConstantLoop.value, Nat.cast_zero, Int.mul_zero, Int.add_zero]

/-- An iterator of another loop: there is a pattern for one loop only, where what is read past its end
is no zero. -/
theorem elsewhere_iff (hP : P.WellFormed) {k : ℕ} {index : IndexInfo} {it it' : Reg} {arrayRows arrayCols m : ℤ}
    (hindex : index.iterators = [it']) (hit : it' ∉ P.loadLoops.map (·.iterator)) :
    (if P.loadLoops.length = 1 then do
      let x ← P.outside.incrementVector 0
      let _ ← P.outside.incrementVector 1
      let looped ← P.loopOf it'
      if x ≠ 0 ∧ looped.2 = 1 then CInt.checked (looped.1.initValue + index.constant) else none
    else none) = some m ↔ ∃ ap extent,
      (AccessPattern.ofIncrements 1 P.loadLoops.length (P.usedBy index)).detected P.outside = some ap ∧
        ((P.loopOf it').map fun x => some (CollectInfo.vectorSingleExtent index (x.1.loopInfo x.2))) =
          some extent ∧ P.Selects ⟨it, arrayRows, arrayCols, extent, ap⟩ k m := by
  have hused : P.usedBy index = P.loadLoops.map fun _ => 0 := by
    refine List.map_congr_left fun l hl => ?_
    have hne : l.iterator ≠ it' := fun heq => hit (heq ▸ List.mem_map_of_mem hl)
    simp [AccessPattern.unitIncrement, hindex, hne]
  rcases hP.load.depth with hdepth | hdepth
  · obtain ⟨l', hloops⟩ := List.length_eq_one_iff.mp hdepth
    rw [if_pos hdepth, hused, hdepth, hloops, List.map_singleton, AccessPattern.detected_none]
    cases hloop : P.loopOf it' with
    | none => cases P.outside.incrementVector 0 <;> cases P.outside.incrementVector 1 <;> simp
    | some x =>
      cases P.outside.incrementVector 0 with
      | none => simp
      | some x0 =>
        simp only [Option.bind_eq_bind, Option.bind_some, Option.map_some, Option.some.injEq, exists_eq_left',
          exists_and_left]
        by_cases hx0 : x0 = 0
        · rw [if_pos hx0]
          constructor
          · intro h
            obtain ⟨_, -, h⟩ := Option.bind_eq_some_iff.mp h
            rw [if_neg fun hne => hne.1 hx0] at h
            cases h
          · rintro ⟨ap, hap, hsel⟩
            obtain rfl := Option.some.inj hap
            exact (not_selects_of_undefined rfl hsel).elim
        · rw [if_neg hx0]
          cases P.outside.incrementVector 1 with
          | none => simp
          | some x1 =>
            simp only [Option.bind_some, Option.map_some, Option.some.injEq, exists_eq_left', ne_eq, hx0,
              not_false_eq_true, true_and, Option.ite_none_right_eq_some]
            exact (selects_elsewhere_iff hP hdepth hloop).symm
  · obtain ⟨o, i, hloops⟩ := List.length_eq_two.mp hdepth
    rw [if_neg (by omega), hused, hloops]
    constructor
    · exact fun h => nomatch h
    · rintro ⟨ap, extent, hap, -, hsel⟩
      exact absurd (AccessPattern.initZerosM_of_detected P.outside hap) hsel.initZeros

/-- **The number in a vector** is the place that the pointer info gives. -/
theorem vectorNumber_iff (hP : P.WellFormed) (hs : P.collected = some s) {k : ℕ} (hk : k < P.loaded.length)
    (index : IndexInfo) (it : Reg) (arrayRows arrayCols m : ℤ) :
    P.vectorNumber index k = some m ↔ ∃ ap extent,
      (AccessPattern.ofIncrements 1 P.loadLoops.length (P.usedBy index)).detected P.outside = some ap ∧
        CollectInfo.vectorExtent s.LIT index = some extent ∧
          P.Selects ⟨it, arrayRows, arrayCols, extent, ap⟩ k m := by
  have hc := (known_of_collected hs).1
  rcases hindex : index.iterators with _ | ⟨it', _ | ⟨it'', rest⟩⟩
  · rw [vectorNumber, hindex]
    constructor
    · exact fun h => nomatch h
    · rintro ⟨ap, extent, -, hextent, hselects⟩
      rw [CollectInfo.vectorExtent, hindex] at hextent
      obtain rfl := Option.some.inj hextent
      obtain ⟨e, he, -⟩ := hselects.extent
      cases he
  · rw [vectorExtent_single hP hs hindex]
    simp only [vectorNumber, hindex]
    by_cases hit : it' ∈ P.loadLoops.map (·.iterator)
    · obtain ⟨l, n, p, f, row, hloop, hl, hn, hp, hdetected, hlength, hvalue⟩ := vector_nest hP hc hindex hit
      obtain ⟨t, ht, hval⟩ := hvalue k hk
      rw [if_pos hit, hdetected, hloop]
      cases P.outside.incrementVector 1 with
      | none => simp
      | some x =>
        simp only [Option.bind_eq_bind, Option.bind_some, Option.map_some, Option.some.injEq, ht, hval,
          exists_and_left, exists_eq_left']
        rw [selects_vector_iff hl hn rfl rfl hp rfl]
        exact ⟨fun h => ⟨hlength, h⟩, fun h => h.2⟩
    · rw [if_neg hit]
      exact elsewhere_iff hP hindex hit
  · -- two iterators: the spacing of the rows is negative
    rw [vectorNumber, hindex]
    constructor
    · exact fun h => nomatch h
    · rintro ⟨ap, extent, -, hextent, hselects⟩
      obtain ⟨e, rfl, -, hspacing, -⟩ := hselects.extent
      rw [CollectInfo.vectorExtent, hindex] at hextent
      simp only [Option.bind_eq_bind, Option.pure_def] at hextent
      split_ifs at hextent
      · obtain ⟨l1, -, hextent⟩ := Option.bind_eq_some_iff.mp hextent
        obtain ⟨l2, -, hextent⟩ := Option.bind_eq_some_iff.mp hextent
        obtain ⟨e', he', hextent⟩ := Option.bind_eq_some_iff.mp hextent
        obtain ⟨cols, -, he'⟩ := Option.bind_eq_some_iff.mp he'
        cases he'
        cases hextent
        exact absurd (show (0 : ℤ) < -1 from hspacing) (by decide)
      · cases hextent

/-! ### Matrices -/

/-- **The window** is what the extent of the pointer goes over, with spacings of one. -/
theorem window_eq (hP : P.WellFormed) (hs : P.collected = some s) (first second : IndexInfo) :
    (P.window first second).map (fun w => ((1 : ℤ), (1 : ℤ), w)) =
      (CollectInfo.matrixExtent s.LIT first second).join.map fun e =>
        (e.spacingX, e.spacingY, ⟨e.offsetY, e.offsetX, height e, width e⟩) := by
  have hincrement : ∀ {it : Reg} {x : ConstantLoop × ℕ}, P.loopOf it = some x → x.1.increment = 1 := fun h =>
    hP.increment _ (executes_of_mem hP (loopOf_eq_some h).1).1
  have htrips : ∀ (offset : ℤ) (n : ℕ), trips offset (CollectInfo.stop offset 1 n + 1) 1 = n := fun offset n =>
    trips_stop Int.one_pos offset n
  unfold window CollectInfo.matrixExtent
  rcases first.iterators with _ | ⟨a, _ | ⟨a', _ | ⟨a'', rest⟩⟩⟩ <;>
    rcases second.iterators with _ | ⟨b, _ | ⟨b', _ | ⟨b'', rest'⟩⟩⟩ <;> try rfl
  · simp only [getLoopInfo_eq hP hs]
    cases ha : P.loopOf a with
    | none => rfl
    | some x =>
      cases hb : P.loopOf b with
      | none => rfl
      | some y =>
        simp [CollectInfo.singleExtent, ConstantLoop.loopInfo, hincrement ha, hincrement hb, height, width, htrips]
  · simp only [getLoopInfo_eq hP hs]
    cases second.isAdd with
    | false => rfl
    | true =>
      cases ha : P.loopOf a with
      | none => rfl
      | some x =>
        cases hb : P.loopOf b with
        | none => rfl
        | some y =>
          cases hb' : P.loopOf b' with
          | none => rfl
          | some y' =>
            simp [CollectInfo.secondDoubleExtent, CollectInfo.setLength, ConstantLoop.loopInfo, hincrement ha,
              hincrement hb, hincrement hb', height, width, htrips]
  · simp only [getLoopInfo_eq hP hs]
    cases second.isAdd with
    | false => rfl
    | true =>
      cases ha : P.loopOf a with
      | none => rfl
      | some x =>
        cases ha' : P.loopOf a' with
        | none => rfl
        | some x' =>
          cases hb : P.loopOf b with
          | none => rfl
          | some y =>
            simp [CollectInfo.firstDoubleExtent, CollectInfo.setLength, ConstantLoop.loopInfo, hincrement ha,
              hincrement ha', hincrement hb, height, width, htrips]
  · simp only [getLoopInfo_eq hP hs]
    cases first.isAdd && second.isAdd with
    | false => rfl
    | true =>
      cases ha : P.loopOf a with
      | none => rfl
      | some x =>
        cases ha' : P.loopOf a' with
        | none => rfl
        | some x' =>
          cases hb : P.loopOf b with
          | none => rfl
          | some y =>
            cases hb' : P.loopOf b' with
            | none => rfl
            | some y' =>
              simp [CollectInfo.doubleExtent, CollectInfo.setLength, ConstantLoop.loopInfo, hincrement ha,
                hincrement ha', hincrement hb, hincrement hb', height, width, htrips]

/-- What is selected from a matrix, over the window. -/
theorem selects_matrix_iff {ap : AccessPattern} {e : Extent} {it : Reg} {arrayRows arrayCols m : ℤ} {k : ℕ}
    (hk : k < P.loaded.length) (hmajor : ap.apmType = .rowMajor ∨ ap.apmType = .colMajor)
    (hinit : ap.initZerosM = 0) (hfinal : ap.finalZerosM = 0) (hX : e.spacingX = 1) (hY : e.spacingY = 1) :
    P.Selects ⟨it, arrayRows, arrayCols, some e, ap⟩ k m ↔ height e * width e = P.loaded.length ∧
      extractIteratorAdvancement ap.apmType (e.offsetY + (k / width e : ℕ)) (e.offsetX + (k % width e : ℕ)) 0 0
        arrayCols = some m := by
  have hone : ∀ e', (PointerInfoStruct.repeatList ⟨it, arrayRows, arrayCols, some e, ap⟩ P.loadCounts) *
      (height e' * width e') * (PointerInfoStruct.repeatEach ⟨it, arrayRows, arrayCols, some e, ap⟩ P.loadCounts) =
        height e' * width e' := by
    intro e'
    simp [PointerInfoStruct.repeatList, PointerInfoStruct.repeatEach, hinit, hfinal]
  have hplace : height e * width e = P.loaded.length →
      PointerInfoStruct.place ⟨it, arrayRows, arrayCols, some e, ap⟩ P.loadCounts e k =
        extractIteratorAdvancement ap.apmType (e.offsetY + (k / width e : ℕ)) (e.offsetX + (k % width e : ℕ)) 0 0
          arrayCols := by
    intro hlength
    simp [PointerInfoStruct.place, PointerInfoStruct.repeatEach, hfinal, selectedPlace, hX, hY, hlength,
      Nat.mod_eq_of_lt hk]
  constructor
  · rintro ⟨-, -, e', he, -, -, hlength, hm⟩
    obtain rfl := Option.some.inj he
    rw [hone] at hlength
    exact ⟨hlength, (hplace hlength).symm.trans hm⟩
  · rintro ⟨hlength, hm⟩
    exact ⟨hmajor, by rw [hinit]; decide, e, rfl, by rw [hX]; exact Int.one_pos, by rw [hY]; exact Int.one_pos,
      (hone e).trans hlength, (hplace hlength).trans hm⟩

theorem unitOrder_cases {outside : OutOfRange} {o1 i1 i2 : Bool} {t : ArrayAccessPattern}
    (h : AccessPattern.unitOrder outside o1 i1 i2 = some t) : t = .rowMajor ∨ t = .colMajor := by
  unfold AccessPattern.unitOrder at h
  split_ifs at h
  · exact .inl (Option.some.inj h).symm
  · exact .inr (Option.some.inj h).symm
  all_goals
    obtain ⟨x, -, rfl⟩ := Option.map_eq_some_iff.mp h
    split_ifs
    · exact .inl rfl
    · exact .inr rfl

/-- **The number in a matrix** is the place that the pointer info gives. -/
theorem matrixNumber_iff (hP : P.WellFormed) (hs : P.collected = some s) {k : ℕ} (hk : k < P.loaded.length)
    (first second : IndexInfo) (it : Reg) (arrayRows arrayCols m : ℤ) :
    P.matrixNumber arrayCols first second k = some m ↔ ∃ ap extent,
      (AccessPattern.ofIncrements 2 P.loadLoops.length (P.usedBy first ++ P.usedBy second)).detected P.outside =
        some ap ∧ CollectInfo.matrixExtent s.LIT first second = some extent ∧
          P.Selects ⟨it, arrayRows, arrayCols, extent, ap⟩ k m := by
  rcases hP.load.depth with hdepth | hdepth
  · obtain ⟨l, hloops⟩ := List.length_eq_one_iff.mp hdepth
    obtain ⟨ap', hap', htype⟩ := AccessPattern.detected_column P.outside (l.iterator ∈ first.iterators)
      (l.iterator ∈ second.iterators)
    rw [matrixNumber, hloops]
    constructor
    · exact fun h => nomatch h
    · rintro ⟨ap, extent, hap, -, hsel⟩
      rw [usedBy, usedBy, hloops] at hap
      obtain rfl := Option.some.inj (hap'.symm.trans hap)
      exact (not_selects_of_undefined htype hsel).elim
  · obtain ⟨o, i, hloops⟩ := List.length_eq_two.mp hdepth
    have hpattern : P.usedBy first ++ P.usedBy second =
        [AccessPattern.unitIncrement (o.iterator ∈ first.iterators),
          AccessPattern.unitIncrement (i.iterator ∈ first.iterators),
          AccessPattern.unitIncrement (o.iterator ∈ second.iterators),
          AccessPattern.unitIncrement (i.iterator ∈ second.iterators)] := by
      rw [usedBy, usedBy, hloops]
      rfl
    rw [matrixNumber, hloops, hpattern]
    simp only [order, List.length_cons, List.length_nil, Option.bind_eq_bind]
    split_ifs with hused
    · rw [AccessPattern.detected_used P.outside (by simpa using hused.1) (by simpa using hused.2)]
      cases horder : AccessPattern.unitOrder P.outside (o.iterator ∈ first.iterators)
          (i.iterator ∈ first.iterators) (i.iterator ∈ second.iterators) with
      | none => simp
      | some t =>
        have hwindow := window_eq hP hs first second
        simp only [Option.bind_some, Option.map_some, Option.some.injEq, exists_and_left, exists_eq_left']
        cases hextent : CollectInfo.matrixExtent s.LIT first second with
        | none =>
          rw [hextent, Option.join_none, Option.map_none, Option.map_eq_none_iff] at hwindow
          simp [hwindow]
        | some extent =>
          simp only [Option.some.injEq, exists_eq_left']
          cases extent with
          | none =>
            rw [hextent, Option.join_some, Option.map_none, Option.map_eq_none_iff] at hwindow
            rw [hwindow, Option.bind_none]
            refine ⟨(fun h => nomatch h), fun hsel => ?_⟩
            obtain ⟨e, he, -⟩ := hsel.extent
            cases he
          | some e =>
            rw [hextent, Option.join_some, Option.map_some] at hwindow
            obtain ⟨w, hw, hwindow⟩ := Option.map_eq_some_iff.mp hwindow
            obtain ⟨hX, hY, rfl⟩ : 1 = e.spacingX ∧ 1 = e.spacingY ∧
                w = ⟨e.offsetY, e.offsetX, height e, width e⟩ := by simpa using hwindow
            rw [hw, selects_matrix_iff hk (unitOrder_cases horder) rfl rfl hX.symm hY.symm, Option.bind_some,
              Option.ite_none_right_eq_some]
    · obtain ⟨ap', hap', htype⟩ := @AccessPattern.detected_unused (o.iterator ∈ first.iterators)
        (i.iterator ∈ first.iterators) (o.iterator ∈ second.iterators) (i.iterator ∈ second.iterators) P.outside (by
          simp only [Bool.or_eq_false_iff, decide_eq_false_iff_not]
          tauto)
      constructor
      · exact fun h => nomatch h
      · rintro ⟨ap, extent, hap, -, hsel⟩
        obtain rfl := Option.some.inj (hap'.symm.trans hap)
        exact (not_selects_of_undefined htype hsel).elim

/-! ### The number selected -/

/-- **The number of the row selected** is the place that the pointer info gives. -/
theorem selected_eq_some_iff (hP : P.WellFormed) (hs : P.collected = some s) {k : ℕ} (hk : k < P.loaded.length)
    {m : ℤ} : P.selected k = some m ↔ ∃ pis, P.pointerInfo s.LIT = some pis ∧ P.Selects pis k m := by
  obtain ⟨it, hset⟩ := setPointerInfo_eq hP hs
  have hboth : ∀ arrayRows arrayCols (indexes : IndexInfo × IndexInfo),
      (if arrayRows > 1 then P.matrixNumber arrayCols indexes.1 indexes.2 k
        else P.vectorNumber indexes.1 k) = some m ↔
      ∃ pis, CollectInfo.setPointerInfo s.LIT P.outside P.loadBlock arrayRows arrayCols indexes.1 indexes.2 =
        some pis ∧ P.Selects pis k m := by
    intro arrayRows arrayCols indexes
    rw [hset]
    simp only [Option.bind_eq_some_iff, Option.map_eq_some_iff]
    split_ifs with hmatrix
    · rw [matrixNumber_iff hP hs hk indexes.1 indexes.2 it arrayRows arrayCols m]
      constructor
      · rintro ⟨ap, extent, hap, hextent, hsel⟩
        exact ⟨_, ⟨ap, hap, extent, hextent, rfl⟩, hsel⟩
      · rintro ⟨_, ⟨ap, hap, extent, hextent, rfl⟩, hsel⟩
        exact ⟨ap, extent, hap, hextent, hsel⟩
    · rw [vectorNumber_iff hP hs hk indexes.1 it arrayRows arrayCols m]
      constructor
      · rintro ⟨ap, extent, hap, hextent, hsel⟩
        exact ⟨_, ⟨ap, hap, extent, hextent, rfl⟩, hsel⟩
      · rintro ⟨_, ⟨ap, hap, extent, hextent, rfl⟩, hsel⟩
        exact ⟨ap, extent, hap, hextent, hsel⟩
  simp only [selected, pointerInfo, Option.bind_eq_bind, Option.bind_eq_some_iff, hboth]
  constructor
  · rintro ⟨sizes, hsizes, r, hr, c, hc, indexes, hindexes, pis, hpis, hsel⟩
    exact ⟨pis, ⟨sizes, hsizes, r, hr, c, hc, indexes, hindexes, hpis⟩, hsel⟩
  · rintro ⟨pis, ⟨sizes, hsizes, r, hr, c, hc, indexes, hindexes, hpis⟩, hsel⟩
    exact ⟨sizes, hsizes, r, hr, c, hc, indexes, hindexes, pis, hpis, hsel⟩

/-- **The rows of the address list** are those of the elements loaded, when the loops can be collected
and the row with each number selected is that of the element. -/
theorem addressList_iff (hP : P.WellFormed) (rows : List α) (target : List ℤ → Option α) :
    (∃ ops, P.addressList rows = some ops ∧ ops.map some = P.loaded.map target) ↔
      P.Collectable ∧ ∀ k x, P.loaded[k]? = some x →
        ∃ m row, P.selected k = some m ∧ rowAt rows m = some row ∧ target x = some row := by
  rw [← isSome_collected_iff]
  cases hs : P.collected with
  | none =>
    have hnone : P.addressList rows = none := by simp only [addressList, hs, Option.bind_eq_bind, Option.bind_none]
    simp [hnone]
  | some s =>
    rw [addressList_iff_selects hP hs rows target]
    simp only [Option.isSome_some, true_and]
    constructor
    · rintro ⟨pis, hpis, hall⟩ k x hx
      obtain ⟨m, row, hsel, hrow, htarget⟩ := hall k x hx
      have hm := (selected_eq_some_iff hP hs (List.getElem?_eq_some_iff.mp hx).1).mpr ⟨pis, hpis, hsel⟩
      exact ⟨m, row, hm, hrow, htarget⟩
    · intro hall
      have hselects : ∀ k x, P.loaded[k]? = some x → ∃ m row pis,
          P.pointerInfo s.LIT = some pis ∧ P.Selects pis k m ∧ rowAt rows m = some row ∧ target x = some row := by
        intro k x hx
        obtain ⟨m, row, hm, hrow, htarget⟩ := hall k x hx
        obtain ⟨pis, hpis, hsel⟩ := (selected_eq_some_iff hP hs (List.getElem?_eq_some_iff.mp hx).1).mp hm
        exact ⟨m, row, pis, hpis, hsel, hrow, htarget⟩
      obtain ⟨_, _, pis, hpis, -⟩ := hselects 0 _ (List.getElem?_eq_getElem (length_loaded_pos hP))
      refine ⟨pis, hpis, fun k x hx => ?_⟩
      obtain ⟨m, row, pis', hpis', hsel, hrow, htarget⟩ := hselects k x hx
      obtain rfl := Option.some.inj (hpis.symm.trans hpis')
      exact ⟨m, row, hsel, hrow, htarget⟩

end TwoNests

end Octantis
