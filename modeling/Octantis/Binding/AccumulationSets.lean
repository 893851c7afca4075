import Mathlib.Data.List.Forall2
import Octantis.Binding.BindingPhase

/-!
# The accumulation sets

What `handleAccumulationBindingProcess` passes to `performAccBinding`: the address
lists of the two sources, from the pointer records, and the sets made of them.

## The model

The pointer records and the address lists are members of the binder, which an entry
that does not assign them finds as the entry before left them (`AccumulationState`). A
record that was never assigned is `none`; so is what the source leaves undefined, such as
`front()` of an empty list. The list that the source clears after each set is a member of
the same name as the parameter of `performAccBinding`, not the one it fills.

## What is proved

* `setsRight_iff`: the sets are those of the program, for destinations of as many elements
  each, only by accident, and never when the source is an array;
* `summedArea_not_setsRight`: the sets of a summed-area accumulation never are.
-/

namespace Octantis

open Lib

/-- A `pointerInfoStruct` with its first index. -/
structure AccPointer where
  /-- The fields that the address lists are made with. -/
  info : PointerInfoStruct
  /-- The first index. -/
  firstIdxInfo : IndexInfo
  deriving DecidableEq, Repr

/-- The members of the binder that an accumulation reads. -/
structure AccumulationState where
  /-- The maps of the binder. -/
  binder : LiMBinder
  /-- The record of the first source. -/
  srcReg1PointerInfo : Option AccPointer
  /-- That of the second. -/
  srcReg2PointerInfo : Option AccPointer
  /-- The address list of the first source. -/
  addrListSrc1 : List Name
  /-- That of the second. -/
  addrListSrc2 : List Name

/-- The tables that the collector has filled. -/
structure AccumulationTables where
  /-- The loops. -/
  LIT : LoopInfoTable
  /-- The pointers. -/
  PIT : Reg → Option AccPointer

namespace AccumulationTables

open AddressList

variable (I : AccumulationTables)

/-- The iterations of the loops around a pointer. -/
def iterationList : Option AccPointer → Option (List ℤ)
  | none => some []
  | some p => (I.LIT.getIterationVector p.info.loopIterator).mapM fun it => (I.LIT.getLoopInfo it).map (·.iterations)

/-- The record of the first source: that of its own pointer, when it is an array. -/
def pointerInfo1 (s : AccumulationState) (d : InstructionData) : Option AccPointer :=
  if d.srcReg1Type = .array then I.PIT d.srcReg1Ptr else s.srcReg1PointerInfo

/-- The record of the second source. -/
def pointerInfo2 (s : AccumulationState) (d : InstructionData) : Option AccPointer :=
  if d.srcReg2Type = .array then I.PIT d.srcReg2Ptr else s.srcReg2PointerInfo

/-- The address list of the first source. -/
def addressList1 (s : AccumulationState) (d : InstructionData) : Option (List Name) :=
  match d.srcReg1Type with
  | .singleVariable | .fakeArray => s.binder.findInANM d.sourceReg1
  | .array => do shapeAddressList (← I.PIT d.srcReg1Ptr).info (← s.binder.findInANM d.sourceReg1)
  | .temporaryVariable | .constant | .undefined => some s.addrListSrc1

/-- That of the second, which is made from the one it was before, and repeated with the loops around
the pointer of the entry before. -/
def addressList2 (s : AccumulationState) (d : InstructionData) (iterationListSrc2 : List ℤ) : Option (List Name) :=
  match d.srcReg2Type with
  | .array => do
    let p ← I.PIT d.srcReg2Ptr
    expandAddressList p.info iterationListSrc2 (← shapeAddressList p.info s.addrListSrc2)
  | .fakeArray => s.binder.findInANM d.sourceReg2
  | .singleVariable | .temporaryVariable | .constant | .undefined => some s.addrListSrc2

/-- The members before the sets are made. -/
def addressLists (s : AccumulationState) (d : InstructionData) : Option AccumulationState := do
  let _ ← I.iterationList s.srcReg1PointerInfo
  let iterationListSrc2 ← I.iterationList s.srcReg2PointerInfo
  let addrListSrc1 ← I.addressList1 s d
  let addrListSrc2 ← I.addressList2 s d iterationListSrc2
  return { s with
    srcReg1PointerInfo := I.pointerInfo1 s d, srcReg2PointerInfo := I.pointerInfo2 s d, addrListSrc1, addrListSrc2 }

/-- The sets for constant bounds, `fuel` of them from `i` on: one more row each time, of a list that
is not cleared. -/
def constantSets (addrListSrc1 : List Name) : (fuel i : ℕ) → (tmpAccList : List Name) → Option (List (List Name))
  | 0, _, _ => some []
  | fuel + 1, i, tmpAccList => do
    let tmpAccList := tmpAccList ++ [← rowAt addrListSrc1 i]
    return tmpAccList :: (← constantSets addrListSrc1 fuel (i + 1) tmpAccList)

/-- The number of elements of the subset `i`. -/
def subsetSize (arrayCols i : ℤ) : ℤ :=
  if i.tdiv arrayCols = 0 then i + 1 else (i.tdiv arrayCols + 1) * (i.tmod arrayCols + 1)

/-- The sets for variable bounds, `fuel` of them from `i` on: a subset, and a row of the same
list. -/
def variableSets (addrListSrc1 : List Name) (arrayCols : ℤ) :
    (fuel i : ℕ) → (skipElements : ℤ) → Option (List (List Name))
  | 0, _, _ => some []
  | fuel + 1, i, skipElements =>
    if arrayCols = 0 then none
    else do
      let subset ← getSubset addrListSrc1 i (subsetSize arrayCols i) skipElements
      let tmpAccList := subset ++ [← rowAt addrListSrc1 i]
      return tmpAccList :: (← variableSets addrListSrc1 arrayCols fuel (i + 1) (skipElements + subsetSize arrayCols i))

/-- The sets, by the bound of the loop of the first iterator of the first source. -/
def accumulationSets (s : AccumulationState) : Option (List (List Name)) := do
  let src1 ← s.srcReg1PointerInfo
  let info ← I.LIT.getLoopInfo (← src1.firstIdxInfo.iterators.head?)
  let src2 ← s.srcReg2PointerInfo
  let extent ← src2.info.extent
  if info.isFinalValueConstant then constantSets s.addrListSrc1 extent.numberOfSubsets.toNat 0 []
  else variableSets s.addrListSrc1 src2.info.arrayCols extent.numberOfSubsetsElements.toNat 0 0

/-- `handleAccumulationBindingProcess`, with the sets it binds. -/
def handleAccumulationBindingProcess (s : AccumulationState) (destReg : Reg) (d : InstructionData) :
    Option (AccumulationState × List (List Name)) := do
  let s ← I.addressLists s d
  let sets ← I.accumulationSets s
  let binder ← run (fun b l => b.performAccBinding l d.operation d.specifications destReg) s.binder sets
  return ({ s with binder }, sets)

/-- The accumulation is bound with the sets of the program, one for each destination, in order, and
comes to nothing that is undefined. -/
def SetsRight (s : AccumulationState) (destReg : Reg) (d : InstructionData) (expected : List (List Name)) : Prop :=
  ∃ s' sets, I.handleAccumulationBindingProcess s destReg d = some (s', sets) ∧ List.Forall₂ List.Perm sets expected

/-- The loop that the bounds are read from: that of the first iterator of the record of the first
source. -/
def HasBounds (s : AccumulationState) (d : InstructionData) (info : LoopInfo) : Prop :=
  ∃ src1 it, I.pointerInfo1 s d = some src1 ∧ src1.firstIdxInfo.iterators.head? = some it ∧ I.LIT.getLoopInfo it = some info

/-- The record of the second source and its extent. -/
def HasExtent (s : AccumulationState) (d : InstructionData) (src2 : AccPointer) (extent : Extent) : Prop :=
  I.pointerInfo2 s d = some src2 ∧ src2.info.extent = some extent

/-- No element is accumulated, and the record has no set. -/
structure NoSets (s : AccumulationState) (d : InstructionData) (expected : List (List Name)) : Prop where
  none : expected = []
  defined : (I.addressLists s d).isSome
  counts : ∃ info src2 extent, I.HasBounds s d info ∧ I.HasExtent s d src2 extent ∧
    if info.isFinalValueConstant then extent.numberOfSubsets ≤ 0 else extent.numberOfSubsetsElements ≤ 0

/-- The loop found is one with a variable bound, the record has one element, and the program
accumulates the first row of the list twice into its only destination. -/
structure Accident (s : AccumulationState) (destReg : Reg) (d : InstructionData) (expected : List (List Name)) : Prop where
  defined : (I.addressLists s d).isSome
  variableBound : ∃ info, I.HasBounds s d info ∧ info.isFinalValueConstant = false
  oneElement : ∃ src2 extent, I.HasExtent s d src2 extent ∧ extent.numberOfSubsetsElements = 1 ∧ src2.info.arrayCols ≠ 0
  twice : ∃ row set, (I.addressList1 s d).bind List.head? = some row ∧ expected = [set] ∧ [row, row].Perm set ∧
    (s.binder.performAccBinding [row, row] d.operation d.specifications destReg).isSome

variable {I} {s : AccumulationState} {destReg : Reg} {d : InstructionData} {expected : List (List Name)}

/-! ### The first sets -/

/-- The first set for constant bounds has one row. -/
theorem constantSets_succ {L : List Name} {fuel : ℕ} {sets : List (List Name)}
    (h : constantSets L (fuel + 1) 0 [] = some sets) : ∃ row rest, sets = [row] :: rest := by
  rw [constantSets] at h
  obtain ⟨row, -, h⟩ := Option.bind_eq_some_iff.mp h
  obtain ⟨rest, -, h⟩ := Option.bind_eq_some_iff.mp h
  exact ⟨row, rest, (Option.some.inj h).symm⟩

/-- **A set of one row** comes to `front()` of an empty list. -/
theorem performAccBinding_single (b : LiMBinder) (row : Name) (operation : Operation)
    (specifications : List String) :
    b.performAccBinding [row] operation specifications destReg = none := by
  rw [LiMBinder.performAccBinding, if_neg (List.cons_ne_nil _ _)]
  rfl

/-- A subset has no element, or as many as asked for. -/
theorem getSubsetFrom_length {L : List Name} {i n skip : ℤ} {fuel : ℕ} {j position current : ℤ}
    {l : List Name}
    (h : getSubsetFrom L i n skip fuel j position current = some l) : l = [] ∨ (l.length : ℤ) = n := by
  induction fuel generalizing j position current with
  | zero => cases h
  | succ fuel ih =>
    rw [getSubsetFrom] at h
    split at h
    · split at h
      · have hlen := congrArg List.length (mapM_eq_some_iff_map.mp h)
        rw [List.length_map, List.length_map, List.length_range] at hlen
        exact .inr (by omega)
      · exact ih h
    · exact .inl (Option.some.inj h).symm

/-- The first subset is the first row. -/
theorem getSubset_zero (row : Name) (L : List Name) : getSubset (row :: L) 0 1 0 = some [row] := by
  simp [getSubset, getSubsetFrom, rowAt]

/-- The second one does not have one element. -/
theorem subsetSize_one (arrayCols : ℤ) : subsetSize arrayCols 1 ≠ 1 := by
  unfold subsetSize
  split_ifs with h0
  · decide
  · have hone : arrayCols.natAbs = 1 := by
      by_contra hne
      refine h0 (Int.natAbs_eq_zero.mp ?_)
      rw [Int.natAbs_tdiv]
      rcases Nat.lt_or_ge arrayCols.natAbs 1 with hlt | hge
      · rw [show arrayCols.natAbs = 0 by omega]
        rfl
      · exact Nat.div_eq_of_lt (by simp only [Int.natAbs_one]; omega)
    rcases Int.natAbs_eq arrayCols with h | h <;> rw [h, hone] <;> decide

/-- The size of the first subset. -/
theorem subsetSize_zero (arrayCols : ℤ) : subsetSize arrayCols 0 = 1 := by
  rw [subsetSize, Int.zero_tdiv, if_pos rfl, Int.zero_add]

/-- The sets for variable bounds: the first one has the first row twice. -/
theorem variableSets_succ_iff {L : List Name} {arrayCols : ℤ} {fuel : ℕ} {sets : List (List Name)} :
    variableSets L arrayCols (fuel + 1) 0 0 = some sets ↔ arrayCols ≠ 0 ∧ ∃ row rest,
      L.head? = some row ∧ sets = [row, row] :: rest ∧ variableSets L arrayCols fuel 1 1 = some rest := by
  rw [variableSets, Nat.cast_zero, subsetSize_zero, Int.zero_add, Nat.zero_add]
  split_ifs with h0
  · simp [h0]
  · cases L with
    | nil =>
      simp [getSubset, getSubsetFrom, rowAt]
    | cons first L =>
      have hrow : rowAt (first :: L) 0 = some first := rfl
      simp only [getSubset_zero, hrow, Option.bind_eq_bind, Option.bind_some]
      constructor
      · intro h
        obtain ⟨rest, hrest, h⟩ := Option.bind_eq_some_iff.mp h
        exact ⟨h0, first, rest, rfl, (Option.some.inj h).symm, hrest⟩
      · rintro ⟨-, row, rest, hhead, rfl, hrest⟩
        obtain rfl := Option.some.inj hhead
        exact Option.bind_eq_some_iff.mpr ⟨rest, hrest, rfl⟩

/-- The second one does not have two rows. -/
theorem variableSets_length {L : List Name} {arrayCols : ℤ} {fuel : ℕ} {rest : List (List Name)}
    (h : variableSets L arrayCols fuel 1 1 = some rest) (hlen : ∀ set ∈ rest, set.length = 2) : fuel = 0 := by
  cases fuel with
  | zero => rfl
  | succ fuel =>
    rw [variableSets] at h
    split_ifs at h with h0
    obtain ⟨subset, hsubset, h⟩ := Option.bind_eq_some_iff.mp h
    obtain ⟨row, hrow, h⟩ := Option.bind_eq_some_iff.mp h
    obtain ⟨rest', -, h⟩ := Option.bind_eq_some_iff.mp h
    obtain rfl := Option.some.inj h
    have hset := hlen _ List.mem_cons_self
    rw [List.length_append, List.length_singleton] at hset
    rcases getSubsetFrom_length hsubset with rfl | hsize
    · simp at hset
    · have := subsetSize_one arrayCols
      rw [Nat.cast_one] at hsize
      omega

/-! ### The handler -/

/-- The members before the sets are made are those of the entry. -/
theorem addressLists_eq_some {s₁ : AccumulationState} (h : I.addressLists s d = some s₁) :
    s₁.binder = s.binder ∧ s₁.srcReg1PointerInfo = I.pointerInfo1 s d ∧
    s₁.srcReg2PointerInfo = I.pointerInfo2 s d ∧
      I.addressList1 s d = some s₁.addrListSrc1 := by
  obtain ⟨_, -, h⟩ := Option.bind_eq_some_iff.mp h
  obtain ⟨_, -, h⟩ := Option.bind_eq_some_iff.mp h
  obtain ⟨list1, hlist1, h⟩ := Option.bind_eq_some_iff.mp h
  obtain ⟨_, -, h⟩ := Option.bind_eq_some_iff.mp h
  obtain rfl := Option.some.inj h
  exact ⟨rfl, rfl, rfl, hlist1⟩

/-- The sets of an entry, by the loop found and the record of the second source. -/
theorem accumulationSets_eq_some {s₁ : AccumulationState} (h : I.addressLists s d = some s₁)
    {sets : List (List Name)} :
    I.accumulationSets s₁ = some sets ↔ ∃ info src2 extent, I.HasBounds s d info ∧
    I.HasExtent s d src2 extent ∧
      (if info.isFinalValueConstant then constantSets s₁.addrListSrc1 extent.numberOfSubsets.toNat 0 []
      else variableSets s₁.addrListSrc1 src2.info.arrayCols extent.numberOfSubsetsElements.toNat 0 0) = some sets := by
  obtain ⟨-, h1, h2, -⟩ := addressLists_eq_some h
  simp only [accumulationSets, h1, h2, Option.bind_eq_bind, Option.bind_eq_some_iff, HasBounds, HasExtent]
  constructor
  · rintro ⟨src1, hsrc1, it, hit, info, hinfo, src2, hsrc2, extent, hextent, hsets⟩
    exact ⟨info, src2, extent, ⟨src1, it, hsrc1, hit, hinfo⟩, ⟨hsrc2, hextent⟩, hsets⟩
  · rintro ⟨info, src2, extent, ⟨src1, it, hsrc1, hit, hinfo⟩, ⟨hsrc2, hextent⟩, hsets⟩
    exact ⟨src1, hsrc1, it, hit, info, hinfo, src2, hsrc2, extent, hextent, hsets⟩

/-- The sets that the handler binds. -/
theorem handleAccumulationBindingProcess_eq_some {s' : AccumulationState} {sets : List (List Name)} :
    I.handleAccumulationBindingProcess s destReg d = some (s', sets) ↔ ∃ s₁ b, I.addressLists s d = some s₁ ∧
      I.accumulationSets s₁ = some sets ∧
      run (fun b l => b.performAccBinding l d.operation d.specifications destReg) s.binder sets = some b ∧
      s' = { s₁ with binder := b } := by
  constructor
  · intro h
    obtain ⟨s₁, hs₁, h⟩ := Option.bind_eq_some_iff.mp h
    obtain ⟨sets', hsets, h⟩ := Option.bind_eq_some_iff.mp h
    obtain ⟨b, hb, h⟩ := Option.bind_eq_some_iff.mp h
    obtain ⟨rfl, rfl⟩ := Prod.mk.inj (Option.some.inj h)
    exact ⟨s₁, b, hs₁, hsets, (addressLists_eq_some hs₁).1 ▸ hb, rfl⟩
  · rintro ⟨s₁, b, hs₁, hsets, hb, rfl⟩
    rw [handleAccumulationBindingProcess, hs₁, Option.bind_eq_bind, Option.bind_some, hsets,
      Option.bind_eq_bind, Option.bind_some, (addressLists_eq_some hs₁).1, hb]
    rfl

/-- **The handler of the binding phase** is this one, for an input with its address list and its
sets. -/
theorem handleAccumulationBindingProcess_binderInput {B : BinderInput} {s' : AccumulationState}
    {sets : List (List Name)}
    (h : I.handleAccumulationBindingProcess s destReg d = some (s', sets))
    (hlist : ∀ rows, (B.access destReg).accessed1 rows = s'.addrListSrc1)
    (hsets : (B.access destReg).sets s'.addrListSrc1 = some sets) :
    B.handleAccumulationBindingProcess ⟨s.binder, s.addrListSrc1⟩ destReg d =
      some ⟨s'.binder, s'.addrListSrc1⟩ := by
  obtain ⟨s₁, b, hs₁, -, hb, rfl⟩ := handleAccumulationBindingProcess_eq_some.mp h
  obtain ⟨-, -, -, hlist1⟩ := addressLists_eq_some hs₁
  have hfirst : B.addrListSrc1 ⟨s.binder, s.addrListSrc1⟩ destReg d = some s₁.addrListSrc1 := by
    unfold addressList1 at hlist1
    unfold BinderInput.addrListSrc1
    cases htype : d.srcReg1Type with
    | singleVariable | fakeArray | temporaryVariable | constant | undefined => simpa only [htype] using hlist1
    | array =>
      simp only [htype] at hlist1 ⊢
      obtain ⟨_, -, hlist1⟩ := Option.bind_eq_some_iff.mp hlist1
      obtain ⟨rows, hrows, -⟩ := Option.bind_eq_some_iff.mp hlist1
      rw [hrows, Option.map_some, hlist]
  have hsecond : ∃ rows, (if d.srcReg2Type = .fakeArray then s.binder.findInANM d.sourceReg2 else some []) = some rows := by
    split_ifs with hfake
    · obtain ⟨_, -, h⟩ := Option.bind_eq_some_iff.mp hs₁
      obtain ⟨_, -, h⟩ := Option.bind_eq_some_iff.mp h
      obtain ⟨_, -, h⟩ := Option.bind_eq_some_iff.mp h
      obtain ⟨rows, hrows, -⟩ := Option.bind_eq_some_iff.mp h
      rw [addressList2, hfake] at hrows
      exact ⟨rows, hrows⟩
    · exact ⟨[], rfl⟩
  obtain ⟨rows, hrows⟩ := hsecond
  rw [BinderInput.handleAccumulationBindingProcess, hfirst, Option.bind_eq_bind, Option.bind_some, hrows,
    Option.bind_eq_bind, Option.bind_some, hsets, Option.bind_eq_bind, Option.bind_some, hb]
  rfl

/-- **With constant bounds** and an element, the first set has one row, of which `performAccBinding`
does not find the last list. -/
theorem constantSets_not_bound {L : List Name} {fuel : ℕ} {sets : List (List Name)} {b : LiMBinder}
    (h : constantSets L (fuel + 1) 0 [] = some sets) :
    run (fun b l => b.performAccBinding l d.operation d.specifications destReg) b sets = none := by
  obtain ⟨row, rest, rfl⟩ := constantSets_succ h
  rw [run_cons, performAccBinding_single]
  rfl

/-- **The sets are those of the program only by accident**, when each destination accumulates as
many elements: with constant bounds the first set has one row, and with variable ones the second is
not as long as the first. -/
theorem setsRight_iff {n : ℕ} (hlen : ∀ set ∈ expected, set.length = n) :
    I.SetsRight s destReg d expected ↔ I.NoSets s d expected ∨ I.Accident s destReg d expected := by
  constructor
  · rintro ⟨s', sets, h, hright⟩
    obtain ⟨s₁, b, hs₁, hsets, hb, -⟩ := handleAccumulationBindingProcess_eq_some.mp h
    obtain ⟨-, -, -, hlist1⟩ := addressLists_eq_some hs₁
    obtain ⟨info, src2, extent, hbounds, hextent, hsets⟩ := (accumulationSets_eq_some hs₁).mp hsets
    have hdefined : (I.addressLists s d).isSome := by rw [hs₁]; rfl
    cases hfinal : info.isFinalValueConstant with
    | true =>
      rw [if_pos hfinal] at hsets
      cases hcount : extent.numberOfSubsets.toNat with
      | succ fuel =>
        rw [hcount] at hsets
        rw [constantSets_not_bound hsets] at hb
        cases hb
      | zero =>
        rw [hcount, constantSets] at hsets
        obtain rfl := Option.some.inj hsets
        obtain rfl := List.forall₂_nil_left_iff.mp hright
        exact .inl ⟨rfl, hdefined, info, src2, extent, hbounds, hextent, by rw [if_pos hfinal]; omega⟩
    | false =>
      rw [hfinal, if_neg Bool.false_ne_true] at hsets
      cases hcount : extent.numberOfSubsetsElements.toNat with
      | zero =>
        rw [hcount, variableSets] at hsets
        obtain rfl := Option.some.inj hsets
        obtain rfl := List.forall₂_nil_left_iff.mp hright
        exact .inl ⟨rfl, hdefined, info, src2, extent, hbounds, hextent,
          by rw [hfinal, if_neg Bool.false_ne_true]; omega⟩
      | succ fuel =>
        rw [hcount] at hsets
        obtain ⟨hcols, row, rest, hrow, rfl, hrest⟩ := variableSets_succ_iff.mp hsets
        obtain ⟨set, tail, hset, htail, rfl⟩ := List.forall₂_cons_left_iff.mp hright
        have hn : n = 2 := by rw [← hlen set List.mem_cons_self, ← hset.length_eq]; rfl
        have hrestlen : ∀ l ∈ rest, l.length = 2 := by
          intro l hl
          obtain ⟨i, hi, rfl⟩ := List.getElem_of_mem hl
          have hperm := (List.forall₂_iff_get.mp htail).2 i hi (htail.length_eq ▸ hi)
          rw [← hn, ← hlen _ (List.mem_cons_of_mem _ (List.get_mem tail ⟨i, htail.length_eq ▸ hi⟩))]
          exact hperm.length_eq
        obtain rfl := variableSets_length hrest hrestlen
        rw [variableSets] at hrest
        obtain rfl := Option.some.inj hrest
        obtain rfl := List.forall₂_nil_left_iff.mp htail
        refine .inr ⟨hdefined, ⟨info, hbounds, hfinal⟩, ⟨src2, extent, hextent, by omega, hcols⟩,
          row, set, ?_, rfl, hset, ?_⟩
        · rw [hlist1, Option.bind_some, hrow]
        · rw [run_cons] at hb
          obtain ⟨b', hb', -⟩ := Option.bind_eq_some_iff.mp hb
          rw [hb']
          rfl
  · rintro (hnone | haccident)
    · obtain ⟨s₁, hs₁⟩ := Option.isSome_iff_exists.mp hnone.defined
      obtain ⟨info, src2, extent, hbounds, hextent, hcount⟩ := hnone.counts
      refine ⟨_, [], handleAccumulationBindingProcess_eq_some.mpr ⟨s₁, s.binder, hs₁,
        (accumulationSets_eq_some hs₁).mpr ⟨info, src2, extent, hbounds, hextent, ?_⟩, rfl, rfl⟩, ?_⟩
      · split_ifs at hcount ⊢ with hfinal
        · rw [Int.toNat_of_nonpos hcount, constantSets]
        · rw [Int.toNat_of_nonpos hcount, variableSets]
      · rw [hnone.none]
        exact .nil
    · obtain ⟨s₁, hs₁⟩ := Option.isSome_iff_exists.mp haccident.defined
      obtain ⟨-, -, -, hlist1⟩ := addressLists_eq_some hs₁
      obtain ⟨info, hbounds, hfinal⟩ := haccident.variableBound
      obtain ⟨src2, extent, hextent, hone, hcols⟩ := haccident.oneElement
      obtain ⟨row, set, hrow, rfl, hset, hbound⟩ := haccident.twice
      obtain ⟨b, hb⟩ := Option.isSome_iff_exists.mp hbound
      rw [hlist1, Option.bind_some] at hrow
      refine ⟨_, [[row, row]], handleAccumulationBindingProcess_eq_some.mpr ⟨s₁, b, hs₁,
        (accumulationSets_eq_some hs₁).mpr ⟨info, src2, extent, hbounds, hextent, ?_⟩, ?_, rfl⟩,
          .cons hset .nil⟩
      · rw [hfinal, if_neg Bool.false_ne_true, hone]
        exact variableSets_succ_iff.mpr ⟨hcols, row, [], hrow, rfl, rfl⟩
      · rw [run_cons, hb]
        rfl

/-- Two loops, one after the other, the second with a variable bound, and the pointer `x[k]` in the
first one. -/
def twoBounds : AccumulationTables :=
  { LIT :=
      { nestedLoopMap := ((∅ : Std.ExtTreeMap Reg (List Reg)).insert 4 []).insert 8 []
        loopInfoMap :=
          ((∅ : Std.ExtTreeMap Reg LoopInfo).insert 4 ⟨[20], 0, 2, 1, 2, nullptr, nullptr, true, true⟩).insert 8
            ⟨[24], 0, 0, 1, 1, nullptr, 4, true, false⟩ }
    PIT := fun pointer => if pointer = 12 then some (vectorPointer 4 2) else none }
where
  /-- The record of a pointer into a vector with one iterator. -/
  vectorPointer (it : Reg) (iterations : ℤ) : AccPointer :=
    { info :=
        ⟨it, 1, 2, some ⟨-1, -1, -1, -1, 1, 1, 0, 0, iterations - 1, 0, 1, iterations⟩, ⟨1, 1, [1], 0, 0, .rowMajor⟩⟩
      firstIdxInfo := ⟨[it], 0, false⟩ }

/-- A register with two rows, and the members after an entry with this record. -/
def afterVector (p : AccPointer) : AccumulationState :=
  { binder := (LiMBinder.init 1 "").handleLoadOperationBindingProcess 16 0 2
    srcReg1PointerInfo := some p
    srcReg2PointerInfo := some p
    addrListSrc1 := []
    addrListSrc2 := [] }

/-- `d += x`, for a source of this type. -/
def accumulate (srcReg1Type : OperandType) : InstructionData :=
  ⟨1, 1, .add, ["accumulation"], 28, .singleVariable, nullptr, 16, srcReg1Type, 12, 32, .singleVariable, nullptr, true⟩

/-- `d += x` twice, after an entry with a variable bound and one element. -/
theorem setsRight_iff_leftOver :
    twoBounds.SetsRight (afterVector (twoBounds.vectorPointer 8 1)) 28 (accumulate .singleVariable) [[0, 0]] :=
  (setsRight_iff (n := 2) (by decide)).mpr (.inr
    { defined := by decide +kernel
      variableBound := ⟨⟨[24], 0, 0, 1, 1, nullptr, 4, true, false⟩, ⟨_, 8, rfl, rfl, by decide +kernel⟩, rfl⟩
      oneElement := ⟨_, _, ⟨rfl, rfl⟩, rfl, by decide⟩
      twice := ⟨0, [0, 0], by decide +kernel, rfl, .refl _, by decide +kernel⟩ })

/-- `d += x[k]` over two elements comes to `front()` of an empty list. -/
theorem vector_not_setsRight :
    ¬ twoBounds.SetsRight (afterVector (twoBounds.vectorPointer 4 2)) 28 (accumulate .array) [[0, 4]] := by
  rintro ⟨s', sets, h, -⟩
  have hnone : (twoBounds.handleAccumulationBindingProcess (afterVector (twoBounds.vectorPointer 4 2)) 28
    (accumulate .array)).isNone := by decide +kernel
  rw [h] at hnone
  cases hnone

/-! ### Summed areas -/

/-- The sets of a summed-area accumulation, for each element of `D` in program order: the rows of
`A` up to the element, and the row of its previous value. -/
def summedAreaSets (A D : ℕ → ℕ → Name) (R C : ℕ) : List (List Name) :=
  (List.range R).flatMap fun i => (List.range C).map fun j =>
    ((List.range (i + 1)).flatMap fun k => (List.range (j + 1)).map fun l => A k l) ++ [D i j]

theorem summedAreaSets_head {A D : ℕ → ℕ → Name} {R C : ℕ} (hR : 0 < R) (hC : 0 < C) :
    ∃ rest, summedAreaSets A D R C = [A 0 0, D 0 0] :: rest := by
  obtain ⟨R, rfl⟩ := Nat.exists_eq_add_one.mpr hR
  obtain ⟨C, rfl⟩ := Nat.exists_eq_add_one.mpr hC
  simp [summedAreaSets, List.range_succ_eq_map]

/-- **The sets of a summed-area accumulation are never bound**: the last row of each is one of the
list of the first source, whose first set has its first row twice. -/
theorem summedArea_not_setsRight {A D : ℕ → ℕ → Name} {R C : ℕ} (hR : 0 < R) (hC : 0 < C) (hrow : A 0 0 ≠ D 0 0) :
    ¬ I.SetsRight s destReg d (summedAreaSets A D R C) := by
  rintro ⟨s', sets, h, hright⟩
  obtain ⟨s₁, b, hs₁, hsets, hb, -⟩ := handleAccumulationBindingProcess_eq_some.mp h
  obtain ⟨info, src2, extent, -, -, hsets⟩ := (accumulationSets_eq_some hs₁).mp hsets
  obtain ⟨rest, hhead⟩ := summedAreaSets_head (A := A) (D := D) hR hC
  rw [hhead] at hright
  obtain ⟨set, tail, hset, -, rfl⟩ := List.forall₂_cons_right_iff.mp hright
  split_ifs at hsets
  · cases hcount : extent.numberOfSubsets.toNat with
    | zero =>
      rw [hcount, constantSets] at hsets
      cases hsets
    | succ fuel =>
      rw [hcount] at hsets
      rw [constantSets_not_bound hsets] at hb
      cases hb
  · cases hcount : extent.numberOfSubsetsElements.toNat with
    | zero =>
      rw [hcount, variableSets] at hsets
      cases hsets
    | succ fuel =>
      rw [hcount] at hsets
      obtain ⟨-, row, _, -, heq, -⟩ := variableSets_succ_iff.mp hsets
      obtain ⟨rfl, -⟩ := List.cons.inj heq
      have hA : A 0 0 ∈ [row, row] := hset.mem_iff.mpr List.mem_cons_self
      have hD : D 0 0 ∈ [row, row] := hset.mem_iff.mpr (List.mem_cons_of_mem _ List.mem_cons_self)
      simp only [List.mem_cons, List.not_mem_nil, or_false, or_self] at hA hD
      exact hrow (hA.trans hD.symm)

/-- The loops of `for i < 2, for j < 2, for k <= i, for l <= j` and the pointers `A[k][l]` and
`D[i][j]`. -/
def summedArea : AccumulationTables :=
  { LIT := loops
    PIT := fun pointer => if pointer = 36 then matrixPointer 1 12 16 else if pointer = 40 then matrixPointer 0 4 8 else none }
where
  /-- The loops. -/
  loops : LoopInfoTable :=
    { nestedLoopMap := ((((∅ : Std.ExtTreeMap Reg (List Reg)).insert 4 []).insert 8 [4]).insert 12 [8, 4]).insert 16
        [12, 8, 4]
      loopInfoMap :=
        ((((∅ : Std.ExtTreeMap Reg LoopInfo).insert 4 ⟨[44], 0, 2, 1, 2, nullptr, nullptr, true, true⟩).insert 8
          ⟨[48], 0, 2, 1, 2, nullptr, nullptr, true, true⟩).insert 12 ⟨[52], 0, 0, 1, 0, nullptr, 4, true, false⟩).insert 16
          ⟨[56], 0, 0, 1, 0, nullptr, 8, true, false⟩ }
  /-- The record of a pointer in the body of the innermost loop. -/
  matrixPointer (outside : ℤ) (first second : Reg) : Option AccPointer :=
    (CollectInfo.setPointerInfo loops ⟨fun _ => some outside, fun _ => some outside, fun _ => some outside⟩ 56 2 2 ⟨[first], 0, false⟩
      ⟨[second], 0, false⟩).map fun info => ⟨info, ⟨[first], 0, false⟩⟩

/-- The members after an entry with the rows of `D` for its second source. -/
def afterMatrix : AccumulationState :=
  { binder := ((LiMBinder.init 1 "").handleLoadOperationBindingProcess 20 0 4).handleLoadOperationBindingProcess 24 0 4
    srcReg1PointerInfo := summedArea.matrixPointer 0 4 8
    srcReg2PointerInfo := summedArea.matrixPointer 0 4 8
    addrListSrc1 := []
    addrListSrc2 := [16, 20, 24, 28] }

/-- `D[i][j] += A[k][l]`. -/
def accumulateMatrix : InstructionData :=
  ⟨1, 1, .add, ["accumulation"], 28, .array, 40, 20, .array, 36, 24, .array, 40, true⟩

/-- The rows of `A`. -/
def rowsA (k l : ℕ) : Name := 8 * k + 4 * l

/-- The rows of `D`. -/
def rowsD (i j : ℕ) : Name := 16 + 8 * i + 4 * j

/-- The sets of this accumulation. -/
theorem handle_summedArea : (summedArea.handleAccumulationBindingProcess afterMatrix 28 accumulateMatrix).map (·.2) =
    some [[0, 0], [0, 4, 0], [0, 8, 4], [0, 4, 8, 12, 0]] := by
  decide +kernel

/-- They are not those of the program. -/
theorem summedArea_not_setsRight_two :
    ¬ summedArea.SetsRight afterMatrix 28 accumulateMatrix (summedAreaSets rowsA rowsD 2 2) :=
  summedArea_not_setsRight two_pos two_pos (by decide)

/-- The subsets of this accumulation are those of the program, and its last rows are not. -/
theorem summedArea_lastRows : ∃ s' sets,
    summedArea.handleAccumulationBindingProcess afterMatrix 28 accumulateMatrix = some (s', sets) ∧
      sets.map List.dropLast = (summedAreaSets rowsA rowsD 2 2).map List.dropLast ∧
      ¬ List.Forall₂ List.Perm sets (summedAreaSets rowsA rowsD 2 2) := by
  obtain ⟨⟨s', sets⟩, h, rfl⟩ := Option.map_eq_some_iff.mp handle_summedArea
  refine ⟨s', _, h, by decide, fun hright => ?_⟩
  have hperm : [0, 0].Perm (rowsA 0 0 :: [rowsD 0 0]) := (List.forall₂_cons.mp hright).1
  exact absurd hperm (by decide)

end AccumulationTables

end Octantis
