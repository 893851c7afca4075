import Octantis.Analysis.LoopMaps

/-!
# The accesses to arrays

What `setPointerInfo` looks up for the pointers that `parseFunction` enters: the loop of
the block, the loops around it and their infos, the sizes of the array, and the infos of
the iterators of the subscripts.

## The model

`parseFunction` collects the loops and hands to `parseLoopBody` the blocks recorded as
bodies, and all others that are neither a header nor a latch. An access is the pointer
with the collector as it comes to it (`Access`), and `lookups` is `none` when one of the
lookups of `setPointerInfo` ends at the end of a map, or reads a field of a
`loopInfoStruct` that nothing has set.

## What is proved

* `lookups_isSome_iff`: when the lookups of an access hit;
* `lookups_hit_iff`: the lookups of all accesses of a function hit exactly when the block
  of each is recorded as a body, its array is allocated, and its subscripts are made from
  iterators of loops, which for `A[i][j]` have constant bounds, or both bounds that are
  iterators.

## Honest scope

Only the block that a header branches to and the predecessor of the latch are recorded:
an access in another block of the loop, or outside all loops, has none
(`access_outside_bodies`).
-/

namespace Octantis

open Std Lib

/-- A function: the alloca instructions of its first block, its loops in preorder, and the other
blocks. -/
structure Function where
  /-- The alloca instructions. -/
  allocas : List (Reg × AllocatedType)
  /-- The loops. -/
  loops : List Loop
  /-- The other blocks. -/
  blocks : List Block
  deriving DecidableEq, Repr

/-- The result of an instruction. -/
def Instr.result : Instr → Option Reg
  | .load result _ | .binary result _ _ _ | .icmp result _ _ _ | .ptr result _ _ | .sext result _ => some result
  | .store _ _ | .branch _ | .other => none

/-- Results that are LLVM values of their own, and no registers allocated in the first block. -/
structure FreshResults (allocas : List (Reg × AllocatedType)) (results : List Reg) : Prop where
  nodup : results.Nodup
  ne_nullptr : nullptr ∉ results ∧ nullptr ∉ allocas.map (·.1)
  ne_allocated : ∀ r ∈ results, r ∉ allocas.map (·.1)

instance (allocas : List (Reg × AllocatedType)) (results : List Reg) : Decidable (FreshResults allocas results) :=
  decidable_of_iff (results.Nodup ∧ (nullptr ∉ results ∧ nullptr ∉ allocas.map (·.1)) ∧
    ∀ r ∈ results, r ∉ allocas.map (·.1))
    ⟨fun ⟨h1, h2, h3⟩ => ⟨h1, h2, h3⟩, fun ⟨h1, h2, h3⟩ => ⟨h1, h2, h3⟩⟩

theorem FreshResults.sublist {allocas : List (Reg × AllocatedType)} {results results' : List Reg}
    (h : FreshResults allocas results) (hsub : results'.Sublist results) : FreshResults allocas results' :=
  ⟨h.nodup.sublist hsub, ⟨fun hmem => h.ne_nullptr.1 (hsub.subset hmem), h.ne_nullptr.2⟩,
    fun r hr => h.ne_allocated r (hsub.subset hr)⟩

/-- The results of the instructions of a block. -/
def Block.results (BB : Block) : List Reg := BB.instrs.filterMap (·.result)

/-- The results of the instructions of a function. -/
def Function.results (F : Function) : List Reg := F.blocks.flatMap (·.results)

namespace Collector

/-! ### The blocks handed to `parseLoopBody` -/

/-- The blocks that `parseFunction` hands to `parseLoopBody`: the bodies, and those that are no
header and no latch. -/
def isHanded (loops : List Loop) (c : Collector) (BB : Reg) : Bool :=
  c.loopBodyList.contains BB ||
    !(loops.any (·.header.address = BB)) && !(loops.any (·.latch.address = BB))

/-- A block of `parseFunction`. -/
def parseBlock (emptyFront : ℤ) (loops : List Loop) (c : Collector) (BB : Block) : Collector :=
  if c.isHanded loops BB.address then parseLoopBody emptyFront c BB.instrs else c

/-- A pointer that is entered: the collector comes to the instruction, in a block. -/
structure Access where
  /-- The collector. -/
  c : Collector
  /-- The block. -/
  BB : Reg
  /-- The pointer. -/
  result : Reg
  /-- The pointer operand. -/
  pointerOperand : Reg
  /-- The operand 2. -/
  operand2 : Operand

/-- The instruction enters a pointer. -/
def access? (emptyFront : ℤ) (c : Collector) (BB : Reg) : Instr → Option Access
  | .ptr result pointerOperand operand2 =>
    c.arraysInfoMap[pointerOperand]?.bind fun sizes =>
      if sizes.headD emptyFront = 1 || (c.takeIndex sizes operand2).ptrValid then
        some ⟨c, BB, result, pointerOperand, operand2⟩
      else none
  | _ => none

/-- The accesses of a block. -/
def blockAccesses (emptyFront : ℤ) (BB : Reg) : Collector → List Instr → List Access
  | _, [] => []
  | c, I :: rest => (access? emptyFront c BB I).toList ++ blockAccesses emptyFront BB (bodyStep emptyFront c I) rest

/-- The accesses of the blocks handed to `parseLoopBody`. -/
def accesses (emptyFront : ℤ) (loops : List Loop) : Collector → List Block → List Access
  | _, [] => []
  | c, BB :: rest =>
    (if c.isHanded loops BB.address then blockAccesses emptyFront BB.address c BB.instrs else []) ++
      accesses emptyFront loops (parseBlock emptyFront loops c BB) rest

/-- `parseFunction`, with the accesses that it comes to. -/
def parseFunction (emptyFront : ℤ) (F : Function) : Option (Collector × List Access) :=
  ((start F.allocas).collectLoopInfo F.loops).map fun c =>
    (F.blocks.foldl (parseBlock emptyFront F.loops) c, accesses emptyFront F.loops c F.blocks)

/-! ### The lookups -/

/-- `getIterationVector`. -/
def getIterationVector (c : Collector) (innermostLoopIterator : Reg) : List Reg :=
  match c.nestedLoopMap[innermostLoopIterator]? with
  | some loops => loops.reverse ++ [innermostLoopIterator]
  | none => []

/-- The iterators whose infos the third part of `setPointerInfo` looks up. -/
def subscriptIterators (isMatrix : Bool) (first second : IndexInfo) : List Reg :=
  if isMatrix then
    match first.iterators, second.iterators with
    | [it1], [it3] => [it1, it3]
    | [it1, it2], [it3, it4] => if first.isAdd && second.isAdd then [it1, it2, it3, it4] else []
    | [it1], [it3, it4] => if second.isAdd then [it1, it3, it4] else []
    | [it1, it2], [it3] => if second.isAdd then [it1, it2, it3] else []
    | _, _ => []
  else
    match first.iterators with
    | [] => []
    | [it1] => [it1]
    | it1 :: it2 :: rest => if first.isAdd then [it1, (it2 :: rest).getLastD it2] else []

/-- The final and the initial value are constants. -/
def constantBounds (l : LoopInfoStruct) : Option Bool :=
  l.isFinalValueConstant.bind fun isFinalValueConstant =>
    if isFinalValueConstant then l.isInitValueConstant else some false

/-- The bounds of the loops of `[it1][it3]`: with one that is no constant the infos of both final
values are looked up. -/
def boundLookups (c : Collector) (LISIt1 LISIt3 : LoopInfoStruct) : Option Unit := do
  let constant1 ← constantBounds LISIt1
  let constant ← if constant1 then constantBounds LISIt3 else some false
  if constant then return ()
  else
    let _ ← c.getLoopInfo (← LISIt1.variableFinalValue)
    let _ ← c.getLoopInfo (← LISIt3.variableFinalValue)

/-- The lookups of the third part of `setPointerInfo`. -/
def extentLookups (c : Collector) (isMatrix : Bool) (first second : IndexInfo) : Option Unit := do
  let infos ← (subscriptIterators isMatrix first second).mapM c.getLoopInfo
  match isMatrix, infos with
  | true, [LISIt1, LISIt3] => boundLookups c LISIt1 LISIt3
  | _, _ => return ()

/-- The lookups of `setPointerInfo`, for a pointer in a block. -/
def setPointerInfoLookups (emptyFront : ℤ) (c : Collector) (pointer instrLoopBody : Reg) : Option Unit := do
  let (first, second) ← c.pointerInfoMap[pointer]?
  let loopIteratorOp ← c.getLoopIteratorFromLoopBody instrLoopBody
  let _ ← c.nestedLoopMap[loopIteratorOp]?
  let iterationVector := c.getIterationVector loopIteratorOp
  let _ ← iterationVector.mapM c.getLoopInfo
  let arraySizes ← c.arraysInfoMap[c.getAllocatedReg pointer]?
  let isMatrix := arraySizes.headD emptyFront > 1
  let indexInfoList := if isMatrix then [first, second] else [first]
  let _ ← indexInfoList.mapM fun idxInfo =>
    (iterationVector.filter (idxInfo.iterators.contains ·)).mapM c.getLoopInfo
  extentLookups c isMatrix first second

namespace Access

variable (emptyFront : ℤ) (a : Access)

/-- The collector when `setPointerInfo` is called. -/
def entered : Collector := bodyPtr emptyFront a.c a.result a.pointerOperand a.operand2

/-- The lookups of `setPointerInfo`. -/
def lookups : Option Unit := setPointerInfoLookups emptyFront (a.entered emptyFront) a.result a.BB

/-- The register that the pointer is made an alias of. -/
def register : Reg :=
  if (a.c.arraysInfoMap[a.pointerOperand]?.getD []).headD emptyFront = 1 then a.pointerOperand
  else a.c.getAllocatedReg a.pointerOperand

/-- The array is a matrix. -/
def isMatrix : Bool := (a.c.arraysInfoMap[a.register emptyFront]?.getD []).headD emptyFront > 1

/-- The bounds of two loops are constants, or both final values are iterators of loops. -/
def BoundsMeet (loops : List Loop) (LISIt1 LISIt3 : LoopInfoStruct) : Prop :=
  constantBounds LISIt1 = some true ∧ constantBounds LISIt3 = some true ∨
    (constantBounds LISIt1 = some false ∨ constantBounds LISIt1 = some true ∧ constantBounds LISIt3 = some false) ∧
      (∃ it ∈ headerIterators [] loops, LISIt1.variableFinalValue = some it) ∧
        ∃ it ∈ headerIterators [] loops, LISIt3.variableFinalValue = some it

/-- **The condition on an access**: its block is recorded as a body, its array is allocated, and the
iterators of its subscripts are those of loops, whose bounds meet the condition in a matrix with one
in each index. -/
structure Meets (loops : List Loop) : Prop where
  block : a.BB ∈ loops.flatMap (·.bodies)
  array : a.register emptyFront ∈ a.c.aliasInfoMap ∧ a.register emptyFront ∈ a.c.arraysInfoMap
  iterators : ∀ infos, (a.entered emptyFront).pointerInfoMap[a.result]? = some infos →
    ∀ it ∈ subscriptIterators (a.isMatrix emptyFront) infos.1 infos.2, it ∈ headerIterators [] loops
  bounds : ∀ infos, (a.entered emptyFront).pointerInfoMap[a.result]? = some infos → a.isMatrix emptyFront = true →
    ∀ it1 it3, subscriptIterators true infos.1 infos.2 = [it1, it3] → ∀ LISIt1 LISIt3,
      a.c.getLoopInfo it1 = some LISIt1 → a.c.getLoopInfo it3 = some LISIt3 → BoundsMeet loops LISIt1 LISIt3

end Access

/-! ### The instructions of a block -/

variable {emptyFront : ℤ} {c c' c₀ : Collector} {seen : List Reg} {allocas : List (Reg × AllocatedType)}
  {loops : List Loop}

theorem takeIndex_keeps (c : Collector) (sizes : List ℤ) (operand2 : Operand) :
    (c.takeIndex sizes operand2).aliasInfoMap = c.aliasInfoMap ∧
      (c.takeIndex sizes operand2).arraysInfoMap = c.arraysInfoMap ∧
      (c.takeIndex sizes operand2).loopInfoMap = c.loopInfoMap ∧
      (c.takeIndex sizes operand2).nestedLoopMap = c.nestedLoopMap := by
  unfold takeIndex
  split
  · split <;> exact ⟨rfl, rfl, rfl, rfl⟩
  · exact ⟨rfl, rfl, rfl, rfl⟩

/-- What an instruction of a block does to the maps that are looked up: it may make its result an
alias. -/
structure Keeps (c : Collector) (result : Option Reg) (c' : Collector) : Prop where
  loopInfoMap : c'.loopInfoMap = c.loopInfoMap
  nestedLoopMap : c'.nestedLoopMap = c.nestedLoopMap
  aliasInfoMap : c'.aliasInfoMap = c.aliasInfoMap ∨
    ∃ r register, result = some r ∧ c'.aliasInfoMap = c.aliasInfoMap.modify register (· ++ [r])
  arraysInfoMap : ∀ A : Reg, A ∈ c'.arraysInfoMap → A ∈ c.arraysInfoMap ∨ result = some A

/-- **What a pointer does** to the maps. -/
theorem keeps_bodyPtr (c : Collector) (result pointerOperand : Reg) (operand2 : Operand) :
    Keeps c (some result) (bodyPtr emptyFront c result pointerOperand operand2) := by
  unfold bodyPtr
  cases hsizes : c.arraysInfoMap[pointerOperand]? with
  | none => exact ⟨rfl, rfl, .inl rfl, fun _ => .inl⟩
  | some sizes =>
    obtain ⟨halias, harrays, hinfos, hnested⟩ := takeIndex_keeps c sizes operand2
    have hsame : ∀ A : Reg, A ∈ (c.takeIndex sizes operand2).arraysInfoMap →
      A ∈ c.arraysInfoMap ∨ some result = some A :=
      fun A hA => .inl (harrays ▸ hA)
    have hpush : ∀ register, (c.takeIndex sizes operand2).aliasInfoMap.modify register (· ++ [result]) =
        c.aliasInfoMap.modify register (· ++ [result]) := fun register => by rw [halias]
    simp only
    split
    · exact ⟨hinfos, hnested, .inr ⟨result, _, rfl, hpush _⟩, hsame⟩
    split
    · exact ⟨hinfos, hnested, .inr ⟨result, _, rfl, hpush _⟩, hsame⟩
    · refine ⟨hinfos, hnested, .inr ⟨result, _, rfl, hpush _⟩, fun A hA => ?_⟩
      rcases mem_insertIfNew_iff.mp hA with hA | rfl
      · exact hsame A hA
      · exact .inr rfl

theorem keeps_bodyStep (emptyFront : ℤ) (c : Collector) (I : Instr) :
    Keeps c I.result (bodyStep emptyFront c I) := by
  cases I with
  | store operand0 pointer => cases operand0 <;> exact ⟨rfl, rfl, .inl rfl, fun _ => .inl⟩
  | load result pointer =>
    rw [bodyStep, bodyLoad]
    split
    · exact ⟨rfl, rfl, .inl rfl, fun _ => .inl⟩
    · exact ⟨rfl, rfl, .inr ⟨result, pointer, rfl, rfl⟩, fun _ => .inl⟩
  | binary result opcode op1 op2 =>
    rw [bodyStep, bodyBinary]
    split
    · split <;> exact ⟨rfl, rfl, .inl rfl, fun _ => .inl⟩
    · exact ⟨rfl, rfl, .inl rfl, fun _ => .inl⟩
  | ptr result pointerOperand operand2 => exact keeps_bodyPtr c result pointerOperand operand2
  | sext result operand0 =>
    rw [bodyStep, bodySext]
    split <;> exact ⟨rfl, rfl, .inl rfl, fun _ => .inl⟩
  | icmp | branch | other => exact ⟨rfl, rfl, .inl rfl, fun _ => .inl⟩

/-- What is known of the collector while the blocks are parsed: the maps of the loops are as they
were, and the aliases are results of instructions that have been seen. -/
structure Parsing (allocas : List (Reg × AllocatedType)) (c₀ : Collector) (seen : List Reg) (c : Collector) : Prop where
  loopInfoMap : c.loopInfoMap = c₀.loopInfoMap
  nestedLoopMap : c.nestedLoopMap = c₀.nestedLoopMap
  aliases : ∀ (A : Reg) (aliases : List Reg), c.aliasInfoMap[A]? = some aliases →
    A ∈ allocas.map (·.1) ∧ ∀ r ∈ aliases, r ∈ seen
  arrays : ∀ A : Reg, A ∈ c.arraysInfoMap → A ∈ allocas.map (·.1) ∨ A ∈ seen

/-- An instruction is parsed. -/
theorem Parsing.bodyStep (hc : Parsing allocas c₀ seen c) (emptyFront : ℤ) (I : Instr) :
    Parsing allocas c₀ (seen ++ I.result.toList) (bodyStep emptyFront c I) := by
  have hkeeps := keeps_bodyStep emptyFront c I
  refine ⟨hkeeps.loopInfoMap.trans hc.loopInfoMap, hkeeps.nestedLoopMap.trans hc.nestedLoopMap,
    fun A aliases hA => ?_,
    fun A hA => ?_⟩
  rcases hkeeps.aliasInfoMap with hsame | ⟨r, register, hr, hpush⟩
  · rw [hsame] at hA
    obtain ⟨hmem, hseen⟩ := hc.aliases A aliases hA
    exact ⟨hmem, fun r hr => List.mem_append_left _ (hseen r hr)⟩
  · rw [hpush, ExtTreeMap.getElem?_modify] at hA
    split at hA
    · next heq =>
      obtain rfl := Std.compare_eq_iff_eq.mp heq
      obtain ⟨old, hold, rfl⟩ := Option.map_eq_some_iff.mp hA
      obtain ⟨hmem, hseen⟩ := hc.aliases register old hold
      refine ⟨hmem, fun r' hr' => ?_⟩
      rcases List.mem_append.mp hr' with hr' | hr'
      · exact List.mem_append_left _ (hseen r' hr')
      · rw [List.mem_singleton] at hr'
        rw [hr, hr']
        exact List.mem_append_right _ (List.mem_singleton_self r)
    · obtain ⟨hmem, hseen⟩ := hc.aliases A aliases hA
      exact ⟨hmem, fun r hr => List.mem_append_left _ (hseen r hr)⟩
  · rcases hkeeps.arraysInfoMap A hA with hA | hA
    · exact (hc.arrays A hA).imp_right fun hA => List.mem_append_left _ hA
    · exact .inr (List.mem_append_right _ (Option.mem_toList.mpr hA))

/-! ### The lookups of an access -/

/-- The register of a pointer that has just been made an alias of one. -/
theorem getAllocatedReg_modify {info info' : CollectInfo} {register result : Reg}
    (hmap : info'.aliasInfoMap = info.aliasInfoMap.modify register (· ++ [result]))
    (hkey : result ∉ info.aliasInfoMap)
    (hfresh : ∀ (A : Reg) (aliases : List Reg), info.aliasInfoMap[A]? = some aliases → result ∉ aliases) :
    info'.getAllocatedReg result = if register ∈ info.aliasInfoMap then register else nullptr := by
  have hentry : ∀ entry ∈ info'.aliasInfoMap.toList, (entry.1 = result || entry.2.contains result) = true →
      entry.1 = register ∧ register ∈ info.aliasInfoMap := by
    intro entry hmem hfound
    have hget := ExtTreeMap.mem_toList_iff_getElem?_eq_some.mp hmem
    rw [hmap, ExtTreeMap.getElem?_modify] at hget
    split at hget
    · next heq =>
      obtain ⟨old, hold, -⟩ := Option.map_eq_some_iff.mp hget
      exact ⟨(Std.compare_eq_iff_eq.mp heq).symm,
        ExtTreeMap.mem_iff_isSome_getElem?.mpr (Option.isSome_of_eq_some hold)⟩
    · rw [Bool.or_eq_true, decide_eq_true_eq, List.contains_iff_mem] at hfound
      rcases hfound with rfl | hmem
      · exact absurd (ExtTreeMap.mem_iff_isSome_getElem?.mpr (Option.isSome_of_eq_some hget)) hkey
      · exact absurd hmem (hfresh _ _ hget)
  rw [CollectInfo.getAllocatedReg]
  split
  · next hregister =>
    obtain ⟨old, hold⟩ := Option.isSome_iff_exists.mp (ExtTreeMap.mem_iff_isSome_getElem?.mp hregister)
    have hmem : (register, old ++ [result]) ∈ info'.aliasInfoMap.toList := by
      rw [ExtTreeMap.mem_toList_iff_getElem?_eq_some, hmap, ExtTreeMap.getElem?_modify_self, hold]
      rfl
    have hsome : (info'.aliasInfoMap.toList.find? fun entry =>
      entry.1 = result || entry.2.contains result).isSome := by
      rw [List.find?_isSome]
      exact ⟨_, hmem, by simp⟩
    obtain ⟨entry, hfind⟩ := Option.isSome_iff_exists.mp hsome
    rw [hfind]
    exact (hentry entry (List.mem_of_find?_eq_some hfind) (List.find?_some hfind :)).1
  · next hregister =>
    have hnone : (info'.aliasInfoMap.toList.find? fun entry =>
      entry.1 = result || entry.2.contains result) = none := by
      rw [List.find?_eq_none]
      exact fun entry hmem hfound => hregister (hentry entry hmem hfound).2
    rw [hnone]
    rfl

/-- The pointer that is entered is made an alias of `register`, and no other map changes. -/
theorem entered_keeps {BB : Reg} {I : Instr} {a : Access} (h : access? emptyFront c BB I = some a) :
    a.c = c ∧ a.BB = BB ∧ I.result = some a.result ∧ a.result ∈ (a.entered emptyFront).pointerInfoMap ∧
      (a.entered emptyFront).aliasInfoMap = c.aliasInfoMap.modify (a.register emptyFront) (· ++ [a.result]) ∧
      (a.entered emptyFront).arraysInfoMap = c.arraysInfoMap ∧
      (a.entered emptyFront).loopInfoMap = c.loopInfoMap ∧
      (a.entered emptyFront).nestedLoopMap = c.nestedLoopMap := by
  cases I with
  | ptr result pointerOperand operand2 =>
    obtain ⟨sizes, hsizes, h⟩ := Option.bind_eq_some_iff.mp h
    obtain ⟨hentered, h⟩ := Option.ite_none_right_eq_some.mp h
    obtain rfl := Option.some.inj h
    obtain ⟨halias, harrays, hinfos, hnested⟩ := takeIndex_keeps c sizes operand2
    refine ⟨rfl, rfl, rfl, ?_⟩
    simp only [Access.entered, Access.register, bodyPtr, hsizes, Option.getD_some]
    by_cases hone : sizes.headD emptyFront = 1
    · simp only [if_pos hone]
      refine ⟨ExtTreeMap.mem_insertIfNew_self, ?_, harrays, hinfos, hnested⟩
      show (c.takeIndex sizes operand2).aliasInfoMap.modify _ _ = _
      rw [halias]
    · have hvalid : (c.takeIndex sizes operand2).ptrValid = true := by
        exact (Bool.or_eq_true _ _ ▸ hentered).resolve_left fun h => hone (of_decide_eq_true h)
      simp only [if_neg hone, hvalid, if_true]
      refine ⟨ExtTreeMap.mem_insertIfNew_self, ?_, harrays, hinfos, hnested⟩
      show (c.takeIndex sizes operand2).aliasInfoMap.modify _ _ = _
      rw [halias, CollectInfo.getAllocatedReg, CollectInfo.getAllocatedReg, halias]
  | store | load | binary | icmp | branch | sext | other => cases h

theorem isSome_getLoopInfo_iff (hG : Gathered allocas loops c₀)
    (hinfos : c.loopInfoMap = c₀.loopInfoMap) {it : Reg} :
    (c.getLoopInfo it).isSome ↔ it ∈ headerIterators [] loops := by
  rw [getLoopInfo, hinfos, ← ExtTreeMap.mem_iff_isSome_getElem?, hG.infos]

theorem mem_of_getLoopIteratorFromLoopBody {BB it : Reg} (h : c.getLoopIteratorFromLoopBody BB = some it) :
    it ∈ c.loopInfoMap := by
  obtain ⟨entry, hentry, rfl⟩ := Option.map_eq_some_iff.mp h
  rw [ExtTreeMap.mem_iff_isSome_getElem?]
  exact Option.isSome_of_eq_some (ExtTreeMap.mem_toList_iff_getElem?_eq_some.mp (List.mem_of_find?_eq_some hentry))

/-- **The loops around a body** all have an info. -/
theorem isSome_getLoopInfo_of_mem (hG : Gathered allocas loops c₀) (hinfos : c.loopInfoMap = c₀.loopInfoMap)
    (hnested : c.nestedLoopMap = c₀.nestedLoopMap) {BB it it' : Reg}
    (hit : c.getLoopIteratorFromLoopBody BB = some it) (hmem : it' ∈ c.getIterationVector it) :
    (c.getLoopInfo it').isSome := by
  have hown : it ∈ c₀.loopInfoMap := hinfos ▸ mem_of_getLoopIteratorFromLoopBody hit
  rw [isSome_getLoopInfo_iff hG hinfos, ← hG.infos]
  unfold getIterationVector at hmem
  split at hmem
  · next around haround =>
    rw [hnested] at haround
    rcases List.mem_append.mp hmem with hmem | hmem
    · exact hG.around it around haround it' (List.mem_reverse.mp hmem)
    · rw [List.mem_singleton] at hmem
      exact hmem ▸ hown
  · cases hmem

/-- The lookups of the bounds. -/
theorem isSome_boundLookups_iff (hG : Gathered allocas loops c₀) (hinfos : c.loopInfoMap = c₀.loopInfoMap)
    (LISIt1 LISIt3 : LoopInfoStruct) :
    (boundLookups c LISIt1 LISIt3).isSome ↔ Access.BoundsMeet loops LISIt1 LISIt3 := by
  have hvalue : ∀ value : Option Reg, (∃ it ∈ headerIterators [] loops, value = some it) ↔
      (value.bind c.getLoopInfo).isSome := by
    intro value
    cases value with
    | none => simp
    | some it => simp [isSome_getLoopInfo_iff hG hinfos]
  have hboth : ∀ v1 v3 : Option Reg, ((v1.bind fun it => (c.getLoopInfo it).bind fun _ => v3.bind fun it =>
      (c.getLoopInfo it).bind fun _ => some ()).isSome) ↔
      (v1.bind c.getLoopInfo).isSome ∧ (v3.bind c.getLoopInfo).isSome := by
    intro v1 v3
    cases v1 with
    | none => simp
    | some it1 =>
      cases v3 with
      | none => cases h1 : c.getLoopInfo it1 <;> simp [h1]
      | some it3 => cases h1 : c.getLoopInfo it1 <;> cases h3 : c.getLoopInfo it3 <;> simp [h1, h3]
  rw [Access.BoundsMeet, hvalue, hvalue, ← hboth, boundLookups]
  rcases constantBounds LISIt1 with _ | _ | _
  · simp
  · simp
  · rcases constantBounds LISIt3 with _ | _ | _ <;> simp

/-- The lookups of the subscripts. -/
theorem isSome_extentLookups_iff (hG : Gathered allocas loops c₀) (hinfos : c.loopInfoMap = c₀.loopInfoMap)
    (isMatrix : Bool) (first second : IndexInfo) :
    (extentLookups c isMatrix first second).isSome ↔
      (∀ it ∈ subscriptIterators isMatrix first second, it ∈ headerIterators [] loops) ∧
        (isMatrix = true → ∀ it1 it3, subscriptIterators true first second = [it1, it3] → ∀ LISIt1 LISIt3,
          c.getLoopInfo it1 = some LISIt1 → c.getLoopInfo it3 = some LISIt3 →
            Access.BoundsMeet loops LISIt1 LISIt3) := by
  have hall : ((subscriptIterators isMatrix first second).mapM c.getLoopInfo).isSome ↔
      ∀ it ∈ subscriptIterators isMatrix first second, it ∈ headerIterators [] loops := by
    rw [isSome_mapM_iff]
    exact forall₂_congr fun it _ => isSome_getLoopInfo_iff hG hinfos
  rw [← hall, extentLookups]
  cases hinfo : (subscriptIterators isMatrix first second).mapM c.getLoopInfo with
  | none => simp
  | some infos =>
    have hmap := mapM_eq_some_iff_map.mp hinfo
    cases isMatrix with
    | false => simp
    | true =>
      simp only [Option.bind_eq_bind, Option.bind_some, Option.isSome_some, true_and, forall_const]
      by_cases htwo : ∃ LISIt1 LISIt3, infos = [LISIt1, LISIt3]
      · -- one iterator in each index
        obtain ⟨LISIt1, LISIt3, rfl⟩ := htwo
        rw [isSome_boundLookups_iff hG hinfos]
        obtain ⟨it1, it3, hits⟩ : ∃ it1 it3, subscriptIterators true first second = [it1, it3] :=
          List.length_eq_two.mp (by simpa using (congrArg List.length hmap).symm)
        rw [hits] at hmap
        simp only [List.map_cons, List.map_nil, List.cons.injEq, and_true] at hmap
        constructor
        · intro hmeets it1' it3' hits' LISIt1' LISIt3' h1 h3
          obtain ⟨rfl, rfl⟩ : it1 = it1' ∧ it3 = it3' := by simpa [hits] using hits'
          obtain rfl := Option.some.inj (hmap.1.trans h1)
          obtain rfl := Option.some.inj (hmap.2.trans h3)
          exact hmeets
        · exact fun hall => hall it1 it3 hits LISIt1 LISIt3 hmap.1.symm hmap.2.symm
      · refine iff_of_true ?_ fun it1 it3 hits => ?_
        · split
          · exact absurd ⟨_, _, rfl⟩ htwo
          · rfl
        · have hlength : infos.length = 2 := by simpa [hits] using congrArg List.length hmap
          exact absurd (List.length_eq_two.mp hlength) htwo

/-- **The lookups of an access** all hit exactly when it meets the condition, while the blocks are
parsed. -/
theorem lookups_isSome_iff (hG : Gathered allocas loops c₀) (hc : Parsing allocas c₀ seen c)
    (hnull : nullptr ∉ allocas.map (·.1)) {BB : Reg} {I : Instr} {a : Access}
    (ha : access? emptyFront c BB I = some a) (hnew : a.result ∉ seen) (hseen : nullptr ∉ seen)
    (hkey : a.result ∉ allocas.map (·.1)) :
    (a.lookups emptyFront).isSome ↔ a.Meets emptyFront loops := by
  obtain ⟨rfl, rfl, -, hentered, hpush, harrays, hinfos, hnested⟩ := entered_keeps ha
  have hinfos₀ := hinfos.trans hc.loopInfoMap
  have hnested₀ := hnested.trans hc.nestedLoopMap
  obtain ⟨infos, hpointer⟩ := Option.isSome_iff_exists.mp (ExtTreeMap.mem_iff_isSome_getElem?.mp hentered)
  have hallocated : (a.entered emptyFront).getAllocatedReg a.result =
      if a.register emptyFront ∈ a.c.aliasInfoMap then a.register emptyFront else nullptr := by
    refine getAllocatedReg_modify hpush (fun hmem => hkey ?_) fun A aliases hA hmem =>
      hnew ((hc.aliases A aliases hA).2 _ hmem)
    obtain ⟨aliases, hA⟩ := Option.isSome_iff_exists.mp (ExtTreeMap.mem_iff_isSome_getElem?.mp hmem)
    exact (hc.aliases _ aliases hA).1
  have hbody : ((a.entered emptyFront).getLoopIteratorFromLoopBody a.BB).isSome ↔
    a.BB ∈ loops.flatMap (·.bodies) := by
    rw [← hG.isSome_getLoopIteratorFromLoopBody, getLoopIteratorFromLoopBody,
      getLoopIteratorFromLoopBody, hinfos₀]
  have harray : ((a.entered emptyFront).arraysInfoMap[(a.entered emptyFront).getAllocatedReg a.result]?).isSome ↔
      a.register emptyFront ∈ a.c.aliasInfoMap ∧ a.register emptyFront ∈ a.c.arraysInfoMap := by
    rw [hallocated, harrays, ← ExtTreeMap.mem_iff_isSome_getElem?]
    split
    · next hmem => exact (and_iff_right hmem).symm
    · next hmem => exact iff_of_false (fun h => (hc.arrays _ h).elim hnull hseen) fun h => hmem h.1
  have hextent := isSome_extentLookups_iff hG hinfos₀ (a.isMatrix emptyFront) infos.1 infos.2
  have hmatrix : ∀ sizes, (a.entered emptyFront).arraysInfoMap[(a.entered emptyFront).getAllocatedReg a.result]? = some sizes →
      decide (sizes.headD emptyFront > 1) = a.isMatrix emptyFront := by
    intro sizes hsizes
    obtain ⟨hmem, -⟩ := harray.mp (Option.isSome_of_eq_some hsizes)
    rw [hallocated, if_pos hmem, harrays] at hsizes
    rw [Access.isMatrix, hsizes]
    rfl
  constructor
  · intro hall
    obtain ⟨u, hall⟩ := Option.isSome_iff_exists.mp hall
    rw [Access.lookups, setPointerInfoLookups, hpointer, Option.bind_eq_bind, Option.bind_some] at hall
    obtain ⟨it, hit, hall⟩ := Option.bind_eq_some_iff.mp hall
    obtain ⟨-, -, hall⟩ := Option.bind_eq_some_iff.mp hall
    obtain ⟨-, -, hall⟩ := Option.bind_eq_some_iff.mp hall
    obtain ⟨sizes, hsizes, hall⟩ := Option.bind_eq_some_iff.mp hall
    obtain ⟨-, -, hall⟩ := Option.bind_eq_some_iff.mp hall
    rw [hmatrix sizes hsizes] at hall
    obtain ⟨hiterators, hbounds⟩ := hextent.mp (Option.isSome_of_eq_some hall)
    refine ⟨hbody.mp (Option.isSome_of_eq_some hit), harray.mp (Option.isSome_of_eq_some hsizes), ?_, ?_⟩
    · intro infos' hinfos'
      obtain rfl := Option.some.inj (hpointer.symm.trans hinfos')
      exact hiterators
    · intro infos' hinfos' hmatrix' it1 it3 hits LISIt1 LISIt3 h1 h3
      obtain rfl := Option.some.inj (hpointer.symm.trans hinfos')
      rw [getLoopInfo, ← hinfos] at h1 h3
      exact hbounds hmatrix' it1 it3 hits LISIt1 LISIt3 h1 h3
  · intro hmeets
    obtain ⟨it, hit⟩ := Option.isSome_iff_exists.mp (hbody.mpr hmeets.block)
    obtain ⟨sizes, hsizes⟩ := Option.isSome_iff_exists.mp (harray.mpr hmeets.array)
    have haround : ∀ it' ∈ (a.entered emptyFront).getIterationVector it,
      ((a.entered emptyFront).getLoopInfo it').isSome :=
      fun it' => isSome_getLoopInfo_of_mem hG hinfos₀ hnested₀ hit
    have hindex : ∀ indexInfoList : List IndexInfo, (indexInfoList.mapM fun idxInfo =>
        (((a.entered emptyFront).getIterationVector it).filter (idxInfo.iterators.contains ·)).mapM
          (a.entered emptyFront).getLoopInfo).isSome := fun _ =>
      isSome_mapM_iff.mpr fun _ _ => isSome_mapM_iff.mpr fun it' hit' =>
        haround it' (List.mem_of_mem_filter hit')
    obtain ⟨around, hnest⟩ : ∃ around, (a.entered emptyFront).nestedLoopMap[it]? = some around := by
      rw [← Option.isSome_iff_exists, ← ExtTreeMap.mem_iff_isSome_getElem?, hnested₀, hG.nested, ← hinfos₀]
      exact mem_of_getLoopIteratorFromLoopBody hit
    obtain ⟨iterationInfos, hiteration⟩ := Option.isSome_iff_exists.mp (isSome_mapM_iff.mpr haround)
    have hlast : (extentLookups (a.entered emptyFront) (a.isMatrix emptyFront) infos.1 infos.2).isSome := by
      refine hextent.mpr ⟨hmeets.iterators infos hpointer,
        fun hmatrix' it1 it3 hits LISIt1 LISIt3 h1 h3 => ?_⟩
      rw [getLoopInfo, hinfos] at h1 h3
      exact hmeets.bounds infos hpointer hmatrix' it1 it3 hits LISIt1 LISIt3 h1 h3
    rw [Access.lookups, setPointerInfoLookups, hpointer]
    simp only [Option.bind_eq_bind, Option.bind_some, hit, hnest, hiteration, hsizes, hmatrix sizes hsizes]
    obtain ⟨indexInfos, hindex⟩ := Option.isSome_iff_exists.mp
      (hindex (if sizes.headD emptyFront > 1 then [infos.1, infos.2] else [infos.1]))
    rw [hindex]
    exact hlast

/-! ### Functions -/

/-- The accesses of a block, and what is known after it. -/
theorem blockAccesses_hit (emptyFront : ℤ) (hG : Gathered allocas loops c₀) (BB : Reg) {instrs : List Instr}
    (hc : Parsing allocas c₀ seen c) (hfresh : FreshResults allocas (seen ++ instrs.filterMap (·.result))) :
    (∀ a ∈ blockAccesses emptyFront BB c instrs, (a.lookups emptyFront).isSome ↔ a.Meets emptyFront loops) ∧
      Parsing allocas c₀ (seen ++ instrs.filterMap (·.result)) (parseLoopBody emptyFront c instrs) := by
  induction instrs generalizing c seen with
  | nil => exact ⟨fun a ha => (nomatch ha), by rwa [List.filterMap_nil, List.append_nil]⟩
  | cons I rest ih =>
    have hcons : (I :: rest).filterMap (·.result) = I.result.toList ++ rest.filterMap (·.result) := by
      cases hI : I.result <;> simp [hI]
    rw [hcons, ← List.append_assoc] at hfresh ⊢
    obtain ⟨hrest, hparsed⟩ := ih (hc.bodyStep emptyFront I) hfresh
    refine ⟨fun a ha => ?_, hparsed⟩
    rcases List.mem_append.mp ha with ha | ha
    · have haccess := Option.mem_toList.mp ha
      obtain ⟨-, -, hresult, -⟩ := entered_keeps haccess
      have hfirst := hfresh.sublist (List.sublist_append_left _ _)
      rw [hresult] at hfirst
      have hmem : a.result ∈ seen ++ (some a.result).toList :=
        List.mem_append_right _ (List.mem_singleton_self _)
      refine lookups_isSome_iff hG hc hfresh.ne_nullptr.2 haccess (fun hseen => ?_) (fun hnull => ?_)
        (hfirst.ne_allocated _ hmem)
      · exact (List.nodup_append.mp hfirst.nodup).2.2 _ hseen _ (List.mem_singleton_self _) rfl
      · exact hfirst.ne_nullptr.1 (List.mem_append_left _ hnull)
    · exact hrest a ha

/-- The accesses of the blocks. -/
theorem accesses_hit (hG : Gathered allocas loops c₀) {blocks : List Block} (hc : Parsing allocas c₀ seen c)
    (hfresh : FreshResults allocas (seen ++ blocks.flatMap (·.results))) :
    ∀ a ∈ accesses emptyFront loops c blocks, (a.lookups emptyFront).isSome ↔ a.Meets emptyFront loops := by
  induction blocks generalizing c seen with
  | nil => exact fun a ha => nomatch ha
  | cons BB rest ih =>
    rw [List.flatMap_cons, ← List.append_assoc] at hfresh
    obtain ⟨hblock, hparsed⟩ := blockAccesses_hit emptyFront hG BB.address hc
      (hfresh.sublist (List.sublist_append_left _ _))
    intro a ha
    rw [accesses, parseBlock] at ha
    split at ha
    · rcases List.mem_append.mp ha with ha | ha
      · exact hblock a ha
      · exact ih hparsed hfresh a ha
    · refine ih hc (hfresh.sublist ?_) a ha
      exact (List.sublist_append_left _ _).append_right _

/-- **The lookups of all accesses of a function hit exactly when every access meets the
condition.** -/
theorem lookups_hit_iff {F : Function} {as : List Access} (hF : FreshResults F.allocas F.results)
    (hparse : parseFunction emptyFront F = some (c, as)) :
    (∀ a ∈ as, (a.lookups emptyFront).isSome) ↔ ∀ a ∈ as, a.Meets emptyFront F.loops := by
  obtain ⟨c₀, hloops, heq⟩ := Option.map_eq_some_iff.mp hparse
  obtain ⟨-, rfl⟩ := Prod.mk.inj heq
  have hG := gathered_collectLoopInfo hloops
  have hstart : Parsing F.allocas c₀ [] c₀ :=
    ⟨rfl, rfl, fun A aliases hA => ⟨(hG.aliases A aliases hA).1, fun r hr => by
      rw [(hG.aliases A aliases hA).2] at hr
      cases hr⟩, fun A hA => .inl (hG.arrays A hA)⟩
  exact forall₂_congr (accesses_hit hG hstart hF)

/-- `for (i = 0; i < 4; i++) { a[i]; if (…) a[i]; } a[i];`, with `i` and `a` at 4 and 8: the block
108 is the first of the body, 144 that of the `if`, 148 the predecessor of the latch and 152 after
the loop. -/
def conditional (inBody : List Instr) (inBranch : List Instr) (after : List Instr) : Function :=
  { allocas := [(4, .other), (8, .array 4 .other)]
    loops := [⟨100, [.store (.constantInt 1 0) 4],
      ⟨104, [.load 116 4, .icmp 120 (some .slt) (.value 116) (.constantInt 2 4), .branch 108]⟩,
      ⟨112, [.load 124 4, .binary 128 .add (.value 124) (.constantInt 3 1), .store (.value 128) 4]⟩, 148, []⟩]
    blocks := [⟨104, [.load 116 4, .icmp 120 (some .slt) (.value 116) (.constantInt 2 4), .branch 108]⟩,
      ⟨108, inBody⟩, ⟨144, inBranch⟩, ⟨148, []⟩,
      ⟨112, [.load 124 4, .binary 128 .add (.value 124) (.constantInt 3 1), .store (.value 128) 4]⟩, ⟨152, after⟩] }

/-- `a[i]`, with the results at some address. -/
def element (address : Reg) : List Instr :=
  [.load address 4, .sext (address + 1) (.value address), .ptr (address + 2) 8 (.value (address + 1))]

theorem conditional_isSome (inBody inBranch after : List Instr) :
    (parseFunction 0 (conditional inBody inBranch after)).isSome := by
  rw [parseFunction, Option.isSome_map]
  show ((start [(4, .other), (8, .array 4 .other)]).collectLoopInfo (conditional [] [] []).loops).isSome
  decide +kernel

/-- The access in the first block of the body. -/
theorem lookups_hit_iff_body : ∃ c as, parseFunction 0 (conditional (element 200) [] []) = some (c, as) ∧
    as.length = 1 ∧ ∀ a ∈ as, a.Meets 0 (conditional (element 200) [] []).loops := by
  refine ⟨_, _, (Option.some_get (conditional_isSome (element 200) [] [])).symm, by decide +kernel, ?_⟩
  exact (lookups_hit_iff (by decide) (Option.some_get (conditional_isSome (element 200) [] [])).symm).mp
    (by decide +kernel)

/-- An access in a block of an `if` in the loop, or after it, finds no loop. -/
theorem access_outside_bodies :
    (∃ c as, FreshResults (conditional [] (element 200) []).allocas (conditional [] (element 200) []).results ∧
      parseFunction 0 (conditional [] (element 200) []) = some (c, as) ∧ ∃ a ∈ as, a.lookups 0 = none) ∧
    ∃ c as, FreshResults (conditional [] [] (element 200)).allocas (conditional [] [] (element 200)).results ∧
      parseFunction 0 (conditional [] [] (element 200)) = some (c, as) ∧ ∃ a ∈ as, a.lookups 0 = none :=
  ⟨⟨_, _, by decide, (Option.some_get (conditional_isSome [] (element 200) [])).symm, by decide +kernel⟩,
    _, _, by decide, (Option.some_get (conditional_isSome [] [] (element 200))).symm, by decide +kernel⟩

end Collector

end Octantis
