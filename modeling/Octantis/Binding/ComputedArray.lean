import Mathlib.Algebra.Order.BigOperators.GroupWithZero.List
import Octantis.Analysis.ArraySizes
import Octantis.Analysis.DependencyDetector
import Octantis.Analysis.Iterations
import Octantis.Binding.LiMBinder
import Octantis.Utils.ExpandedRows

/-!
# The rows of a computed array

Two nests of loops follow each other: the first stores to the elements of an array, the
second loads them. `getRealSrcReg` gives the load the register of the result stored, whose
rows are those of the iterations of the first nest, and `shapeAddressList` and
`expandAddressList` select among them as among the rows of the array.

## The model

The loops are those of `LoopCollection`, in preorder; the block of the load is in the body
of the innermost loop of the second nest only. A subscript is a tree, as the collector
walks it, and so any affine form.

## What is proved

* `expand_shapeAddressList`: the row that a pattern without subsets selects in each
  iteration of its nest;
* `shapeAddressList_empty`: a pointer without such a pattern selects no row;
* `isSome_collected_iff`, `getLoopInfo_eq`: what the collector knows of the two nests.
-/

namespace Octantis

open Lib AddressList

/-- A nest of one or two loops that are entered, outermost first, with the numbers of their
executions. -/
structure IsNest (loops : List ConstantLoop) (counts : List ℕ) : Prop where
  depth : loops.length = 1 ∨ loops.length = 2
  executes : List.Forall₂ ConstantLoop.Executes loops counts
  entered : ∀ n ∈ counts, 0 < n

/-- The values of the iterators in an iteration of a nest. -/
def iteratorValues (loops : List ConstantLoop) (t : List ℕ) (it : Reg) : ℤ :=
  ((loops.zip t).find? fun x => x.1.iterator = it).elim 0 fun x => x.1.value x.2

/-- The elements that a nest accesses, in program order. -/
def elementsAccessed (loops : List ConstantLoop) (counts : List ℕ) (subscripts : List Subscript) : List (List ℤ) :=
  (tuples counts).map fun t => subscripts.map (·.eval (iteratorValues loops t))

/-- The loops of a nest, each with the iterators of the loops around it, the next one first. -/
def withParents (parents : List Reg) : List ConstantLoop → List (ConstantLoop × List Reg)
  | [] => []
  | l :: rest => (l, parents) :: withParents (l.iterator :: parents) rest

/-- Two nests, of which the second loads from the array that the first stores to. -/
structure TwoNests where
  /-- The loops of the first nest. -/
  storeLoops : List ConstantLoop
  /-- The numbers of their executions. -/
  storeCounts : List ℕ
  /-- The subscripts of the store. -/
  storeSubscripts : List Subscript
  /-- The loops of the second nest. -/
  loadLoops : List ConstantLoop
  /-- The numbers of their executions. -/
  loadCounts : List ℕ
  /-- The subscripts of the load. -/
  loadSubscripts : List Subscript
  /-- The block of the load. -/
  loadBlock : Reg
  /-- The type of the array. -/
  arrayType : AllocatedType
  /-- The index infos that the pointers before the load leave. -/
  previous : IndexInfo × IndexInfo
  /-- What is read outside of the vectors of the access pattern. -/
  outside : OutOfRange

namespace TwoNests

variable (P : TwoNests)

/-- The increments are one, and the block of the load is in the body of the innermost loop, and of no
other. -/
structure WellFormed : Prop where
  store : IsNest P.storeLoops P.storeCounts
  load : IsNest P.loadLoops P.loadCounts
  increment : ∀ l ∈ P.storeLoops ++ P.loadLoops, l.increment = 1
  loadBlock : ∃ outer inner, P.loadLoops = outer ++ [inner] ∧ P.loadBlock ∈ [inner.LB1, inner.LB2] ∧
    ∀ l ∈ P.storeLoops ++ outer, P.loadBlock ∉ [l.LB1, l.LB2]

/-- The loops can be collected: their iterators are distinct, and the difference of the bounds and the
number of iterations are values of type `int`. -/
structure Collectable : Prop where
  iterators : ((P.storeLoops ++ P.loadLoops).map (·.iterator)).Nodup
  iterations : ∀ l ∈ P.storeLoops ++ P.loadLoops, l.iterations.isSome

/-- The loop with the iterator, and how often it is executed. -/
def loopOf (it : Reg) : Option (ConstantLoop × ℕ) :=
  (P.storeLoops.zip P.storeCounts ++ P.loadLoops.zip P.loadCounts).find? fun x => x.1.iterator = it

/-- The elements stored. -/
def stored : List (List ℤ) := elementsAccessed P.storeLoops P.storeCounts P.storeSubscripts

/-- The elements loaded. -/
def loaded : List (List ℤ) := elementsAccessed P.loadLoops P.loadCounts P.loadSubscripts

/-- What the collector knows of the loops. -/
def collected : Option LoopCollection :=
  LoopCollection.empty.collectLoopInfo (withParents [] P.storeLoops ++ withParents [] P.loadLoops)

/-- What it knows of the pointer of the load. -/
def pointerInfo (LIT : LoopInfoTable) : Option PointerInfoStruct := do
  let sizes ← P.arrayType.sizeList
  let arrayRows ← sizes.head?
  let arrayCols ← sizes.getLast?
  let indexes ← CollectInfo.parsePointer arrayRows P.previous P.loadSubscripts
  CollectInfo.setPointerInfo LIT P.outside P.loadBlock arrayRows arrayCols indexes.1 indexes.2

/-- The address list of the load, from the rows of its source. -/
def addressList {α : Type} (rows : List α) : Option (List α) := do
  let s ← P.collected
  let pis ← P.pointerInfo s.LIT
  let rows ← shapeAddressList pis rows
  let iterationList ← (s.LIT.getIterationVector pis.loopIterator).mapM fun it => (s.LIT.getLoopInfo it).map (·.iterations)
  expandAddressList pis iterationList rows

/-- The operand list of a load of the array `c`. -/
def operandList (d : DependencyDetector) (b : LiMBinder) (c : Reg) : Option (List Name) := do
  P.addressList (← b.findInANM (d.getRealSrcReg c))

end TwoNests

namespace PointerInfoStruct

variable (pis : PointerInfoStruct) (counts : List ℕ)

/-- How often the list is repeated for the loops before those used. -/
def repeatList : ℕ := (counts.take pis.pointerAccessPattern.initZerosM.toNat).prod

/-- How often each row is repeated for the loops after those used. -/
def repeatEach : ℕ := (counts.drop (counts.length - pis.pointerAccessPattern.finalZerosM.toNat)).prod

/-- The place of the row selected in an iteration of the nest. -/
def place (e : Extent) (k : ℕ) : Option ℤ :=
  selectedPlace pis.pointerAccessPattern.apmType e pis.arrayCols (k / pis.repeatEach counts % (height e * width e))

end PointerInfoStruct

variable {α : Type} {pis : PointerInfoStruct} {e : Extent} {counts : List ℕ} {rows : List α}

/-! ### The rows selected -/

/-- **The address list** of a pattern without subsets, over the number of the iteration of the
nest. -/
theorem expand_shapeAddressList (hextent : pis.extent = some e)
    (hpattern : pis.pointerAccessPattern.apmType = .rowMajor ∨ pis.pointerAccessPattern.apmType = .colMajor)
    (hinit : pis.pointerAccessPattern.initZerosM ≠ 2) (hspacing : 0 < e.spacingX ∧ 0 < e.spacingY)
    (hcounts : ∀ n ∈ counts, 0 < n) {p f : ℕ} (hp : pis.pointerAccessPattern.initZerosM = p)
    (hf : pis.pointerAccessPattern.finalZerosM = f) (hple : p ≤ counts.length) (hfle : f ≤ counts.length) :
    ((shapeAddressList pis rows).bind fun l => expandAddressList pis (counts.map Nat.cast) l) =
      (List.range (pis.repeatList counts * (height e * width e) * pis.repeatEach counts)).mapM fun k =>
        (pis.place counts e k).bind (rowAt rows) := by
  have hshape : shapeAddressList pis rows =
      (List.range (height e * width e)).mapM fun k =>
        (selectedPlace pis.pointerAccessPattern.apmType e pis.arrayCols k).bind (rowAt rows) := by
    rw [← shapeRows_selectedPlace rows hspacing.1 hspacing.2]
    unfold shapeAddressList
    rcases hpattern with hap | hap <;> simp only [hap, hextent, Option.bind_some, if_neg hinit]
  have hlist : 0 < pis.repeatList counts :=
    List.prod_pos fun n hn => hcounts n (List.mem_of_mem_take hn)
  have heach : 0 < pis.repeatEach counts :=
    List.prod_pos fun n hn => hcounts n (List.mem_of_mem_drop hn)
  have hexpand : ∀ l : List α, expandAddressList pis (counts.map Nat.cast) l =
      some (List.replicate (pis.repeatList counts) (l.flatMap (List.replicate (pis.repeatEach counts)))).flatten := by
    intro l
    rw [NestAccess.expandAddressList_eq hp hf hple hfle, PointerInfoStruct.repeatList,
      PointerInfoStruct.repeatEach, hp, hf, Int.toNat_natCast, Int.toNat_natCast]
  -- the iterations of the nest in which a row is selected: the list is repeated, and each row in it
  have hiterations : (List.range (pis.repeatList counts * (height e * width e) * pis.repeatEach counts)).map
      (fun k => k / pis.repeatEach counts % (height e * width e)) =
        (List.replicate (pis.repeatList counts)
          ((List.range (height e * width e)).flatMap (List.replicate (pis.repeatEach counts)))).flatten := by
    rw [← List.map_id (List.range (height e * width e)), flatMap_replicate_map_range,
      flatten_replicate_map_range, Nat.mul_assoc]
    refine List.map_congr_left fun k _ => ?_
    rw [id, Nat.mod_mul_left_div_self]
  have hplaces : (List.range (pis.repeatList counts * (height e * width e) * pis.repeatEach counts)).mapM
      (fun k => (pis.place counts e k).bind (rowAt rows)) =
        ((List.range (pis.repeatList counts * (height e * width e) * pis.repeatEach counts)).map
          fun k => k / pis.repeatEach counts % (height e * width e)).mapM fun k =>
            (selectedPlace pis.pointerAccessPattern.apmType e pis.arrayCols k).bind (rowAt rows) := by
    rw [List.mapM_map]
    rfl
  rw [hplaces, hiterations, mapM_flatten_replicate _ hlist, mapM_flatMap_replicate _ heach, hshape]
  simp only [hexpand]
  cases (List.range (height e * width e)).mapM fun k =>
    (selectedPlace pis.pointerAccessPattern.apmType e pis.arrayCols k).bind (rowAt rows) <;> rfl

/-! ### No row selected -/

/-- A loop that counts nothing or for ever, or whose body pushes nothing, pushes nothing. -/
theorem pushed_empty {values : Option (List ℤ)} {body : ℤ → Option (List α)}
    (h : (values = some [] ∨ values = none) ∨ ∀ v, (body v).getD [] = []) :
    (pushed values body).getD [] = [] := by
  rcases h with (rfl | rfl) | hbody
  · rfl
  · rfl
  · cases hpushed : pushed values body with
    | none => rfl
    | some l =>
      obtain ⟨vs, -, hl⟩ := Option.bind_eq_some_iff.mp hpushed
      obtain ⟨ls, hls, hl⟩ := Option.bind_eq_some_iff.mp hl
      obtain rfl := Option.some.inj hl
      refine List.flatten_eq_nil_iff.mpr fun l hmem => ?_
      have hmem' : some l ∈ vs.map body := mapM_eq_some_iff_map.mp hls ▸ List.mem_map_of_mem hmem
      obtain ⟨v, -, hv⟩ := List.mem_map.mp hmem'
      have hempty := hbody v
      rwa [hv] at hempty

theorem shapeTriangles_empty (h : e.spacingInSubsetX ≤ 0 ∨ e.spacingInSubsetY ≤ 0) (arrayCols : ℤ) :
    (shapeTriangles e arrayCols rows).getD [] = [] := by
  refine pushed_empty (.inr fun i => pushed_empty (.inr fun j => ?_))
  rcases h with h | h
  · exact pushed_empty (.inl (counter_of_nonpos h))
  · exact pushed_empty (.inr fun k => pushed_empty (.inl (counter_of_nonpos h)))

theorem shapeRows_empty (h : ¬ (0 < e.spacingX ∧ 0 < e.spacingY)) (ap : ArrayAccessPattern) (arrayCols : ℤ) :
    (shapeRows ap e arrayCols rows).getD [] = [] := by
  by_cases hX : 0 < e.spacingX
  · exact pushed_empty (.inl (counter_of_nonpos (not_lt.mp fun hY => h ⟨hX, hY⟩)))
  · exact pushed_empty (.inr fun i => pushed_empty (.inl (counter_of_nonpos (not_lt.mp hX))))

/-- **A pointer without a pattern** selects no row. -/
theorem shapeAddressList_empty (hpattern : pis.pointerAccessPattern.apmType = .rowMajor ∨
      pis.pointerAccessPattern.apmType = .colMajor ∨ pis.pointerAccessPattern.apmType = .undefined)
    (htriangles : pis.pointerAccessPattern.initZerosM = 2 → pis.pointerAccessPattern.apmType = .undefined ∨
      ∀ e, pis.extent = some e → e.spacingInSubsetX ≤ 0 ∨ e.spacingInSubsetY ≤ 0)
    (h : ¬ ∃ e, pis.extent = some e ∧
      (pis.pointerAccessPattern.apmType = .rowMajor ∨ pis.pointerAccessPattern.apmType = .colMajor) ∧
        pis.pointerAccessPattern.initZerosM ≠ 2 ∧ 0 < e.spacingX ∧ 0 < e.spacingY) :
    (shapeAddressList pis rows).getD [] = [] := by
  have hmajor : ∀ ap, ap = .rowMajor ∨ ap = .colMajor → pis.pointerAccessPattern.apmType = ap →
      (shapeAddressList pis rows).getD [] = [] := by
    intro ap hap heq
    have hdefined : pis.pointerAccessPattern.apmType ≠ .undefined := by
      rcases hap with rfl | rfl <;> simp [heq]
    have hshape : shapeAddressList pis rows = pis.extent.bind fun e =>
        if pis.pointerAccessPattern.initZerosM = 2 then shapeTriangles e pis.arrayCols rows
        else shapeRows ap e pis.arrayCols rows := by
      unfold shapeAddressList
      rcases hap with rfl | rfl <;> simp only [heq]
    rw [hshape]
    cases hextent : pis.extent with
    | none => rfl
    | some e =>
      rw [Option.bind_some]
      split_ifs with htwo
      · exact shapeTriangles_empty ((htriangles htwo).resolve_left hdefined e hextent) _
      · exact shapeRows_empty (fun hspacing => h ⟨e, hextent, heq ▸ hap, htwo, hspacing⟩) _ _
  rcases hpattern with hap | hap | hap
  · exact hmajor _ (.inl rfl) hap
  · exact hmajor _ (.inr rfl) hap
  · unfold shapeAddressList
    simp only [hap, Option.getD_some]

/-- Of no row there is nothing to repeat. -/
theorem expandAddressList_empty {l : Option (List α)} (h : l.getD [] = []) (loopIterations : List ℤ) :
    (l.bind (expandAddressList pis loopIterations)).getD [] = [] := by
  cases l with
  | none => rfl
  | some l =>
    obtain rfl : l = [] := h
    rw [Option.bind_some, expandAddressList]
    split_ifs
    · cases repetitions loopIterations pis.pointerAccessPattern.initZerosM with
      | none => rfl
      | some m =>
        cases repetitions loopIterations.reverse pis.pointerAccessPattern.finalZerosM with
        | none => rfl
        | some n => simp
    · rfl

/-! ### What the collector knows -/

/-- A loop that is entered has as many iterations as it is executed. -/
theorem ConstantLoop.Executes.iterations {l : ConstantLoop} {n : ℕ} {k : ℤ} (h : l.Executes n) (hn : 0 < n)
    (hk : l.iterations = some k) : k = n := by
  have hs : l.increment ≠ 0 := by
    intro h0
    unfold ConstantLoop.iterations at hk
    obtain ⟨_, -, hk⟩ := Option.bind_eq_some_iff.mp hk
    rw [if_pos h0] at hk
    cases hk
  exact ((ConstantLoop.iterations_eq_some_iff hs).mp hk).2.2.symm.trans (ConstantLoop.computed_of_pos h hn)

theorem map_fst_withParents (loops : List ConstantLoop) (parents : List Reg) :
    (withParents parents loops).map (·.1) = loops := by
  induction loops generalizing parents with
  | nil => rfl
  | cons l rest ih => rw [withParents, List.map_cons, ih]

/-- The innermost loop has all the others around it. -/
theorem mem_withParents (outer : List ConstantLoop) (inner : ConstantLoop) (parents : List Reg) :
    (inner, (outer.map (·.iterator)).reverse ++ parents) ∈ withParents parents (outer ++ [inner]) := by
  induction outer generalizing parents with
  | nil => exact List.mem_cons_self
  | cons l rest ih =>
    have hmem := ih (l.iterator :: parents)
    rw [List.map_cons, List.reverse_cons, List.append_assoc]
    exact List.mem_cons_of_mem _ hmem

/-- The iterations recorded for the loops of a nest are those of their executions. -/
theorem mapM_iterations {LIT : LoopInfoTable} {loops : List ConstantLoop}
    (hexecutes : List.Forall₂ ConstantLoop.Executes loops counts) (hentered : ∀ n ∈ counts, 0 < n)
    (hknown : ∀ l ∈ loops, ∃ k, l.iterations = some k ∧ LIT.getLoopInfo l.iterator = some (l.loopInfo k)) :
    (loops.map (·.iterator)).mapM (fun it => (LIT.getLoopInfo it).map (·.iterations)) =
      some (counts.map Nat.cast) := by
  induction hexecutes with
  | nil => rfl
  | @cons l n loops counts hl _ ih =>
    rw [List.forall_mem_cons] at hentered hknown
    obtain ⟨k, hk, hinfo⟩ := hknown.1
    obtain rfl := hl.iterations hentered.1 hk
    rw [List.map_cons, List.mapM_cons, hinfo, ih hentered.2 hknown.2]
    rfl

/-- A pointer into a vector has no two-dimensional subsets. -/
theorem spacing_vectorExtent {LIT : LoopInfoTable} {first : IndexInfo}
    (h : CollectInfo.vectorExtent LIT first = some (some e)) :
    e.spacingInSubsetX ≤ 0 ∨ e.spacingInSubsetY ≤ 0 := by
  unfold CollectInfo.vectorExtent at h
  split at h
  · cases h
  · obtain ⟨l1, -, h⟩ := Option.bind_eq_some_iff.mp h
    obtain rfl := Option.some.inj (Option.some.inj h)
    exact .inl (show (-1 : ℤ) ≤ 0 by decide)
  · split at h
    · obtain ⟨l1, -, h⟩ := Option.bind_eq_some_iff.mp h
      obtain ⟨l2, -, h⟩ := Option.bind_eq_some_iff.mp h
      obtain ⟨e', he', h⟩ := Option.bind_eq_some_iff.mp h
      obtain rfl := Option.some.inj (Option.some.inj h)
      obtain ⟨cols, -, he'⟩ := Option.bind_eq_some_iff.mp he'
      obtain rfl := Option.some.inj he'
      exact .inr (show (-1 : ℤ) ≤ 0 by decide)
    · cases h

/-- **A pointer in a nest of two loops at most**: it has no subsets, its columns of zeros are
columns, and two of them are those of no pattern, or of a vector. -/
theorem setPointerInfo_two {LIT : LoopInfoTable} {outside : OutOfRange} {block : Reg}
    {arrayRows arrayCols : ℤ}
    {first second : IndexInfo}
    (h : CollectInfo.setPointerInfo LIT outside block arrayRows arrayCols first second = some pis)
    (hcols : (LIT.getIterationVector pis.loopIterator).length ≤ 2) :
    (pis.pointerAccessPattern.apmType = .rowMajor ∨ pis.pointerAccessPattern.apmType = .colMajor ∨
        pis.pointerAccessPattern.apmType = .undefined) ∧
      (∃ p ≤ (LIT.getIterationVector pis.loopIterator).length, ∃ f ≤ (LIT.getIterationVector pis.loopIterator).length,
        pis.pointerAccessPattern.initZerosM = (p : ℕ) ∧ pis.pointerAccessPattern.finalZerosM = (f : ℕ)) ∧
      (pis.pointerAccessPattern.initZerosM = 2 → pis.pointerAccessPattern.apmType = .undefined ∨
        ∀ e, pis.extent = some e → e.spacingInSubsetX ≤ 0 ∨ e.spacingInSubsetY ≤ 0) := by
  obtain ⟨-, hextent, rows, ap, hrows, hap, hzeros⟩ := CollectInfo.setPointerInfo_eq_some h
  obtain ⟨htype, p, hp, f, hf, hpzeros, hfzeros⟩ := AccessPattern.zeros_le_colsM hzeros
  obtain ⟨-, hcolsM, -⟩ := AccessPattern.matrix_detectAccessPatternType hap
  have hcolsM' : ap.colsM = (LIT.getIterationVector pis.loopIterator).length := hcolsM
  rw [hcolsM'] at hp hf
  refine ⟨htype ▸ AccessPattern.apmType_of_colsM_le_two hcols hap, ⟨p, hp, f, hf, hpzeros, hfzeros⟩,
    fun htwo => ?_⟩
  by_cases hmatrix : arrayRows > 1
  · left
    have hlen : (LIT.getIterationVector pis.loopIterator).length = 2 := by
      rw [hpzeros] at htwo
      omega
    have hrow : ∀ {iterators row : List _},
        CollectInfo.increments LIT (LIT.getIterationVector pis.loopIterator) iterators = some row →
          ∃ a b, row = [a, b] := by
      intro iterators row hrow
      have hlength := congrArg List.length (mapM_eq_some_iff_map.mp hrow)
      rw [List.length_map, List.length_map, hlen] at hlength
      exact List.length_eq_two.mp hlength
    rw [if_pos hmatrix] at hrows hap
    have hmap := mapM_eq_some_iff_map.mp hrows
    obtain ⟨row1, row2, rfl⟩ := List.length_eq_two.mp (by simpa using congrArg List.length hmap : rows.length = 2)
    simp only [List.map_cons, List.map_nil, List.cons.injEq, and_true] at hmap
    obtain ⟨a, b, rfl⟩ := hrow hmap.1.symm
    obtain ⟨c, d, rfl⟩ := hrow hmap.2.symm
    rw [hlen] at hap
    exact AccessPattern.apmType_of_zeros hap hzeros htwo
  · right
    intro e he
    rw [if_neg hmatrix, he] at hextent
    exact spacing_vectorExtent hextent

namespace TwoNests

variable {P : TwoNests} {s : LoopCollection}

theorem map_fst_nests (P : TwoNests) :
    (withParents [] P.storeLoops ++ withParents [] P.loadLoops).map (·.1) = P.storeLoops ++ P.loadLoops := by
  rw [List.map_append, map_fst_withParents, map_fst_withParents]

/-- What the collector knows of the loops: all of them, and no other. -/
theorem known_of_collected (hs : P.collected = some s) : P.Collectable ∧
    (∀ l ∈ P.storeLoops ++ P.loadLoops, ∃ k, l.iterations = some k ∧
      s.LIT.getLoopInfo l.iterator = some (l.loopInfo k)) ∧
    ∀ it ∉ (P.storeLoops ++ P.loadLoops).map (·.iterator), s.LIT.getLoopInfo it = none := by
  obtain ⟨hnodup, hnew⟩ := LoopCollection.nodup_of_collectLoopInfo hs
  have hsome := LoopCollection.isSome_iterations_of_collectLoopInfo LoopCollection.wellFormed_empty hs
  obtain ⟨s', hs', hknown, hunknown⟩ :=
    LoopCollection.collectLoopInfo_of_nodup LoopCollection.wellFormed_empty hnodup hnew hsome
  obtain rfl : s' = s := Option.some.inj (hs'.symm.trans hs)
  have hiterators : (withParents [] P.storeLoops ++ withParents [] P.loadLoops).map (·.1.iterator) =
      (P.storeLoops ++ P.loadLoops).map (·.iterator) := by
    rw [← map_fst_nests P, List.map_map]
    rfl
  rw [hiterators] at hnodup hunknown
  refine ⟨⟨hnodup, fun l hl => ?_⟩, fun l hl => ?_, fun it hit => (hunknown it hit).1⟩
  · obtain ⟨x, hx, rfl⟩ := List.mem_map.mp (map_fst_nests P ▸ hl)
    exact hsome x hx
  · obtain ⟨x, hx, rfl⟩ := List.mem_map.mp (map_fst_nests P ▸ hl)
    obtain ⟨k, hk, hinfo, -⟩ := hknown x hx
    exact ⟨k, hk, hinfo⟩

/-- **The collector knows the loops** exactly when it can. -/
theorem isSome_collected_iff : P.collected.isSome ↔ P.Collectable := by
  constructor
  · intro h
    obtain ⟨s, hs⟩ := Option.isSome_iff_exists.mp h
    exact (known_of_collected hs).1
  · rintro ⟨hnodup, hsome⟩
    have hmem : ∀ x ∈ withParents [] P.storeLoops ++ withParents [] P.loadLoops,
        x.1 ∈ P.storeLoops ++ P.loadLoops := fun x hx => map_fst_nests P ▸ List.mem_map_of_mem hx
    have hiterators : ((withParents [] P.storeLoops ++ withParents [] P.loadLoops).map (·.1.iterator)).Nodup := by
      rw [← map_fst_nests P, List.map_map] at hnodup
      exact hnodup
    obtain ⟨s, hs, -⟩ := LoopCollection.collectLoopInfo_of_nodup LoopCollection.wellFormed_empty hiterators
      (fun _ _ hnil => nomatch hnil) fun x hx => hsome _ (hmem x hx)
    exact Option.isSome_of_eq_some hs

/-- The loop with an iterator is the one that has it. -/
theorem loopOf_eq_some {x : ConstantLoop × ℕ} {it : Reg} (h : P.loopOf it = some x) :
    x ∈ P.storeLoops.zip P.storeCounts ++ P.loadLoops.zip P.loadCounts ∧ x.1.iterator = it := by
  unfold loopOf at h
  have hit := List.find?_some h
  simp only [decide_eq_true_eq] at hit
  exact ⟨List.mem_of_find?_eq_some h, hit⟩

theorem map_fst_counts (hP : P.WellFormed) :
    (P.storeLoops.zip P.storeCounts ++ P.loadLoops.zip P.loadCounts).map (·.1) = P.storeLoops ++ P.loadLoops := by
  rw [List.map_append, List.map_fst_zip hP.store.executes.length_eq.le, List.map_fst_zip hP.load.executes.length_eq.le]

/-- The only loop with its iterator. -/
theorem loopOf_of_mem (hP : P.WellFormed) (hc : P.Collectable) {x : ConstantLoop × ℕ}
    (h : x ∈ P.storeLoops.zip P.storeCounts ++ P.loadLoops.zip P.loadCounts) : P.loopOf x.1.iterator = some x := by
  cases hfind : P.loopOf x.1.iterator with
  | none => exact absurd (decide_eq_true rfl) (List.find?_eq_none.mp hfind x h)
  | some y =>
    obtain ⟨hy, hiterator⟩ := loopOf_eq_some hfind
    have hnodup := hc.iterators
    rw [← map_fst_counts hP, List.map_map] at hnodup
    rw [List.inj_on_of_nodup_map hnodup hy h hiterator]

/-- A loop of the nests, with the number of its executions. -/
theorem executes_of_mem (hP : P.WellFormed) {x : ConstantLoop × ℕ}
    (h : x ∈ P.storeLoops.zip P.storeCounts ++ P.loadLoops.zip P.loadCounts) :
    x.1 ∈ P.storeLoops ++ P.loadLoops ∧ x.1.Executes x.2 ∧ 0 < x.2 := by
  have hnest : ∀ {loops : List ConstantLoop} {counts : List ℕ}, IsNest loops counts → x ∈ loops.zip counts →
      x.1 ∈ loops ∧ x.1.Executes x.2 ∧ 0 < x.2 := fun hnest hx =>
    ⟨(List.of_mem_zip hx).1, List.forall₂_zip hnest.executes hx, hnest.entered _ (List.of_mem_zip hx).2⟩
  rcases List.mem_append.mp h with h | h
  · obtain ⟨hl, hexecutes⟩ := hnest hP.store h
    exact ⟨List.mem_append_left _ hl, hexecutes⟩
  · obtain ⟨hl, hexecutes⟩ := hnest hP.load h
    exact ⟨List.mem_append_right _ hl, hexecutes⟩

/-- **What the collector knows of an iterator**: its loop, with the number of executions. -/
theorem getLoopInfo_eq (hP : P.WellFormed) (hs : P.collected = some s) (it : Reg) :
    s.LIT.getLoopInfo it = (P.loopOf it).map fun x => x.1.loopInfo x.2 := by
  obtain ⟨-, hknown, hunknown⟩ := known_of_collected hs
  cases h : P.loopOf it with
  | some x =>
    obtain ⟨hx, rfl⟩ := loopOf_eq_some h
    obtain ⟨hl, hexecutes, hpos⟩ := executes_of_mem hP hx
    obtain ⟨k, hk, hinfo⟩ := hknown _ hl
    rw [hinfo, hexecutes.iterations hpos hk]
    rfl
  | none =>
    refine hunknown it fun hmem => ?_
    obtain ⟨l, hl, rfl⟩ := List.mem_map.mp hmem
    obtain ⟨x, hx, rfl⟩ := List.mem_map.mp (map_fst_counts hP ▸ hl)
    exact (List.find?_eq_none.mp h) x hx (decide_eq_true rfl)

/-- **What the collector knows of the second nest**: the loop of the block, the iterators, and the
numbers of iterations. -/
theorem collected_eq_some (hP : P.WellFormed) (hs : P.collected = some s) :
    ∃ it, s.LIT.getLoopIteratorFromLoopBody P.loadBlock = some it ∧
      s.LIT.getIterationVector it = P.loadLoops.map (·.iterator) ∧
        (s.LIT.getIterationVector it).mapM (fun it => (s.LIT.getLoopInfo it).map (·.iterations)) =
          some (P.loadCounts.map Nat.cast) := by
  obtain ⟨outer, inner, hloops, hbody, hother⟩ := hP.loadBlock
  obtain ⟨hnodup, hnew⟩ := LoopCollection.nodup_of_collectLoopInfo hs
  obtain ⟨s', hs', hknown, hunknown⟩ :=
    LoopCollection.collectLoopInfo_of_nodup LoopCollection.wellFormed_empty hnodup hnew
    (LoopCollection.isSome_iterations_of_collectLoopInfo LoopCollection.wellFormed_empty hs)
  obtain rfl : s' = s := Option.some.inj (hs'.symm.trans hs)
  have hfst := map_fst_nests P
  have hinner := List.mem_append_right (withParents [] P.storeLoops)
    (hloops ▸ mem_withParents outer inner [] :
      (inner, (outer.map (·.iterator)).reverse ++ []) ∈ withParents [] P.loadLoops)
  obtain ⟨n, -, hinfo, hnested⟩ := hknown _ hinner
  have hvector : s'.LIT.getIterationVector inner.iterator = P.loadLoops.map (·.iterator) := by
    rw [LoopInfoTable.getIterationVector, hnested, hloops, List.append_nil]
    simp only [List.reverse_reverse, List.map_append, List.map_singleton]
  refine ⟨inner.iterator, LoopInfoTable.getLoopIteratorFromLoopBody_of_unique hinfo hbody ?_, hvector, ?_⟩
  · intro it info hit hmem
    by_cases hloop : it ∈ (withParents [] P.storeLoops ++ withParents [] P.loadLoops).map (·.1.iterator)
    · obtain ⟨l, hl, rfl⟩ := List.mem_map.mp hloop
      obtain ⟨k, -, hinfo', -⟩ := hknown l hl
      obtain rfl := Option.some.inj (hit.symm.trans hinfo')
      have hl' : l.1 ∈ P.storeLoops ++ P.loadLoops := hfst ▸ List.mem_map_of_mem hl
      rw [hloops, ← List.append_assoc, List.mem_append, List.mem_singleton] at hl'
      rcases hl' with hl' | hl'
      · exact absurd hmem (hother _ hl')
      · rw [hl']
    · cases ((hunknown it hloop).1.symm.trans hit : none = some info)
  · rw [hvector]
    exact mapM_iterations hP.load.executes hP.load.entered fun l hl =>
      (known_of_collected hs).2.1 l (List.mem_append_right _ hl)

/-- What the pointer info of the load is, and the iterations that it is expanded with. -/
theorem addressList_eq (hP : P.WellFormed) (hs : P.collected = some s)
    (hpis : P.pointerInfo s.LIT = some pis) :
    (pis.pointerAccessPattern.apmType = .rowMajor ∨ pis.pointerAccessPattern.apmType = .colMajor ∨
        pis.pointerAccessPattern.apmType = .undefined) ∧
      (∃ p ≤ P.loadCounts.length, ∃ f ≤ P.loadCounts.length,
        pis.pointerAccessPattern.initZerosM = (p : ℕ) ∧ pis.pointerAccessPattern.finalZerosM = (f : ℕ)) ∧
      (pis.pointerAccessPattern.initZerosM = 2 → pis.pointerAccessPattern.apmType = .undefined ∨
        ∀ e, pis.extent = some e → e.spacingInSubsetX ≤ 0 ∨ e.spacingInSubsetY ≤ 0) ∧
      ∀ rows : List α, P.addressList rows =
        (shapeAddressList pis rows).bind (expandAddressList pis (P.loadCounts.map Nat.cast)) := by
  obtain ⟨it, hit, hvector, hiterations⟩ := collected_eq_some hP hs
  obtain ⟨sizes, -, h⟩ := Option.bind_eq_some_iff.mp hpis
  obtain ⟨arrayRows, -, h⟩ := Option.bind_eq_some_iff.mp h
  obtain ⟨arrayCols, -, h⟩ := Option.bind_eq_some_iff.mp h
  obtain ⟨indexes, -, h⟩ := Option.bind_eq_some_iff.mp h
  obtain rfl : it = pis.loopIterator :=
    Option.some.inj (hit.symm.trans (CollectInfo.setPointerInfo_eq_some h).1)
  have hdepth : P.loadLoops.length ≤ 2 := by
    rcases hP.load.depth with h | h <;> omega
  have hlength := congrArg List.length hvector
  rw [List.length_map] at hlength
  obtain ⟨htype, hzeros, htriangles⟩ := setPointerInfo_two h (hlength ▸ hdepth)
  rw [hlength, hP.load.executes.length_eq] at hzeros
  refine ⟨htype, hzeros, htriangles, fun rows => ?_⟩
  simp only [addressList, hs, hpis, hiterations, Option.bind_eq_bind, Option.bind_some]

/-- The second nest loads some element. -/
theorem length_loaded_pos (hP : P.WellFormed) : 0 < P.loaded.length := by
  rw [loaded, elementsAccessed, List.length_map, length_tuples]
  exact List.prod_pos hP.load.entered

end TwoNests

end Octantis
