import Octantis.Lib.CInt
import Octantis.Utils.InstructionTable

/-!
# The loops

`LoopInfoTable` keeps what `CollectInfo` finds out about the loops of the function, by
the register of their iterator, and the iterators of the loops around each.

## The model

A loop whose initial value, final value and increment are constants is what
`parseLoopPreheader` and `parseLoopHeaderAndLatch` read of it (`ConstantLoop`). An
iterator that an earlier loop has had already is undefined (`none`): the header then
leaves `it` and `iteratorInitValue` unset.
-/

namespace Octantis

open Std Lib

/-- `loopInfoStruct`, without the addresses of the header and the latch. -/
structure LoopInfo where
  /-- The blocks of the body. -/
  loopBody : List Reg
  /-- The initial value of the iterator. -/
  iteratorInitValue : ℤ
  /-- Its final value. -/
  iteratorFinalValue : ℤ
  /-- Its increment. -/
  iteratorIncrement : ℤ
  /-- The number of iterations. -/
  iterations : ℤ
  /-- The iterator that the initial value refers to. -/
  variableInitValue : Reg
  /-- The iterator that the final value refers to. -/
  variableFinalValue : Reg
  /-- The initial value is a constant. -/
  isInitValueConstant : Bool
  /-- The final value is a constant. -/
  isFinalValueConstant : Bool
  deriving DecidableEq, Repr

/-- `LoopInfoTable`. -/
structure LoopInfoTable where
  /-- The iterators of the loops around the loop of an iterator, the next one first. -/
  nestedLoopMap : ExtTreeMap Reg (List Reg)
  /-- What is known of the loop of an iterator. -/
  loopInfoMap : ExtTreeMap Reg LoopInfo

namespace LoopInfoTable

/-- No loop. -/
def empty : LoopInfoTable := ⟨∅, ∅⟩

/-- `insertNewLoopIt`. -/
def insertNewLoopIt (LIT : LoopInfoTable) (iteratorOp : Reg) : LoopInfoTable :=
  { LIT with nestedLoopMap := LIT.nestedLoopMap.insertIfNew iteratorOp [] }

/-- `pushNestedLoop`. -/
def pushNestedLoop (LIT : LoopInfoTable) (loopIt higherLevelLoop : Reg) : LoopInfoTable :=
  match LIT.nestedLoopMap[loopIt]? with
  | some loops => { LIT with nestedLoopMap := LIT.nestedLoopMap.insert loopIt (loops ++ [higherLevelLoop]) }
  | none => LIT

/-- `insertLoopInfo`. -/
def insertLoopInfo (LIT : LoopInfoTable) (iteratorOp : Reg) (loopInfo : LoopInfo) : LoopInfoTable :=
  { LIT with loopInfoMap := LIT.loopInfoMap.insertIfNew iteratorOp loopInfo }

/-- `getLoopInfo`. -/
def getLoopInfo (LIT : LoopInfoTable) (iteratorOp : Reg) : Option LoopInfo := LIT.loopInfoMap[iteratorOp]?

/-- `getLoopIteratorFromLoopBody`: the first loop that has the block in its body. -/
def getLoopIteratorFromLoopBody (LIT : LoopInfoTable) (loopBody : Reg) : Option Reg :=
  (LIT.loopInfoMap.toList.find? fun entry => entry.2.loopBody.contains loopBody).map (·.1)

/-- `getIterationVector`: the iterators of the nest, outermost first. -/
def getIterationVector (LIT : LoopInfoTable) (innermostLoopIterator : Reg) : List Reg :=
  match LIT.nestedLoopMap[innermostLoopIterator]? with
  | some loops => loops.reverse ++ [innermostLoopIterator]
  | none => []

end LoopInfoTable

/-- The predicates of the comparisons that the number of iterations is computed for. -/
inductive Predicate where
  | slt | sle | sgt | sge
  deriving DecidableEq, Repr

/-- A loop with constant bounds, as the collector reads it. -/
structure ConstantLoop where
  /-- The register of the iterator. -/
  iterator : Reg
  /-- The constant stored to it in the preheader. -/
  initValue : ℤ
  /-- The constant that the header compares it with. -/
  finalValue : ℤ
  /-- The predicate of the comparison. -/
  predicate : Predicate
  /-- The constant added to it in the latch. -/
  increment : ℤ
  /-- The block that the branch of the header goes to. -/
  LB1 : Reg
  /-- The predecessor of the latch. -/
  LB2 : Reg
  deriving DecidableEq, Repr

/-- The number of iterations that `parseLoopHeaderAndLatch` computes. The `float` that it divides in
where the increment divides the difference is taken as exact. -/
def ConstantLoop.iterations (l : ConstantLoop) : Option ℤ := do
  let difference ← CInt.sub l.finalValue l.initValue
  if l.increment = 0 then none
  else if difference % l.increment = 0 then
    match l.predicate with
    | .sge | .sle => CInt.add (difference / l.increment) 1
    | .sgt | .slt => CInt.checked (difference / l.increment)
  else CInt.add (difference.tdiv l.increment) 1

/-- What `parseLoopHeaderAndLatch` records of a loop with these iterations. -/
def ConstantLoop.loopInfo (l : ConstantLoop) (iterations : ℤ) : LoopInfo :=
  { loopBody := [l.LB1, l.LB2]
    iteratorInitValue := l.initValue
    iteratorFinalValue := l.finalValue
    iteratorIncrement := l.increment
    iterations
    variableInitValue := nullptr
    variableFinalValue := nullptr
    isInitValueConstant := true
    isFinalValueConstant := true }

/-- The maps that the collector fills from the loops. -/
structure LoopCollection where
  /-- The constants that registers are initialised with. -/
  initValuesMap : ExtTreeMap Reg ℤ
  /-- The registers known to be iterators. -/
  iterators : List Reg
  /-- The loops. -/
  LIT : LoopInfoTable

namespace LoopCollection

/-- Before the first loop. -/
def empty : LoopCollection := ⟨∅, [], .empty⟩

/-- `parseLoopPreheader` and `parseLoopHeaderAndLatch`, and the loops around the loop: one iteration
of `collectLoopInfo`. -/
def collectLoop (s : LoopCollection) (l : ConstantLoop) (parents : List Reg) : Option LoopCollection :=
  let initValuesMap := s.initValuesMap.insertIfNew l.iterator l.initValue
  if l.iterator ∈ s.iterators then none
  else do
    let l := { l with initValue := ← initValuesMap[l.iterator]? }
    let iterations ← l.iterations
    let LIT := (s.LIT.insertLoopInfo l.iterator (l.loopInfo iterations)).insertNewLoopIt l.iterator
    return ⟨initValuesMap, l.iterator :: s.iterators, parents.foldl (·.pushNestedLoop l.iterator ·) LIT⟩

/-- `collectLoopInfo`, on the loops in preorder, each with the iterators of the loops around it, the
next one first. -/
def collectLoopInfo (s : LoopCollection) (loops : List (ConstantLoop × List Reg)) : Option LoopCollection :=
  loops.foldlM (fun s l => s.collectLoop l.1 l.2) s

end LoopCollection

/-! ### The entries of the tables -/

/-- The entry of a new key. -/
theorem getElem?_insertIfNew_of_none {β : Type} {m : ExtTreeMap Reg β} {k : Reg} (h : m[k]? = none)
    (v : β) (a : Reg) :
    (m.insertIfNew k v)[a]? = if a = k then some v else m[a]? := by
  have hmem : k ∉ m := by
    rw [ExtTreeMap.mem_iff_isSome_getElem?, h]
    exact Bool.false_ne_true
  simp only [ExtTreeMap.getElem?_insertIfNew, Std.compare_eq_iff_eq]
  by_cases ha : a = k
  · rw [if_pos ⟨ha.symm, hmem⟩, if_pos ha]
  · rw [if_neg (fun hk => ha hk.1.symm), if_neg ha]

/-- The key found, when the entries of no other key satisfy the predicate. -/
theorem map_fst_find?_toList_of_unique {β : Type} {m : ExtTreeMap Reg β} {p : Reg × β → Bool}
    {k : Reg} {v : β}
    (h : m[k]? = some v) (hp : p (k, v) = true)
    (hunique : ∀ (a : Reg) (w : β), m[a]? = some w → p (a, w) = true → a = k) :
    (m.toList.find? p).map (·.1) = some k := by
  have hsome : (m.toList.find? p).isSome := by
    rw [List.find?_isSome]
    exact ⟨(k, v), ExtTreeMap.mem_toList_iff_getElem?_eq_some.mpr h, hp⟩
  obtain ⟨entry, hentry⟩ := Option.isSome_iff_exists.mp hsome
  have hmem := ExtTreeMap.mem_toList_iff_getElem?_eq_some.mp (List.mem_of_find?_eq_some hentry)
  rw [hentry, Option.map_some, hunique _ _ hmem (List.find?_some hentry)]

namespace LoopInfoTable

/-- The loops around a loop are entered one after the other. -/
theorem foldl_pushNestedLoop (loopIt : Reg) (parents : List Reg) :
    ∀ {LIT : LoopInfoTable} {loops : List Reg}, LIT.nestedLoopMap[loopIt]? = some loops →
      (parents.foldl (·.pushNestedLoop loopIt ·) LIT).loopInfoMap = LIT.loopInfoMap ∧
      ∀ it : Reg, (parents.foldl (·.pushNestedLoop loopIt ·) LIT).nestedLoopMap[it]? =
        if it = loopIt then some (loops ++ parents) else LIT.nestedLoopMap[it]? := by
  induction parents with
  | nil =>
    intro LIT loops h
    refine ⟨rfl, fun it => ?_⟩
    by_cases hit : it = loopIt
    · rw [if_pos hit, hit, List.append_nil, List.foldl_nil, h]
    · rw [if_neg hit, List.foldl_nil]
  | cons parent rest ih =>
    intro LIT loops h
    have hpush : LIT.pushNestedLoop loopIt parent =
        { LIT with nestedLoopMap := LIT.nestedLoopMap.insert loopIt (loops ++ [parent]) } := by
      rw [pushNestedLoop, h]
    obtain ⟨hinfo, hnested⟩ := @ih (LIT.pushNestedLoop loopIt parent) (loops ++ [parent])
      (by rw [hpush, ExtTreeMap.getElem?_insert_self])
    refine ⟨by rw [List.foldl_cons, hinfo, hpush], fun it => ?_⟩
    rw [List.foldl_cons, hnested, List.append_assoc, List.singleton_append, hpush]
    simp only [ExtTreeMap.getElem?_insert, Std.compare_eq_iff_eq]
    by_cases hit : it = loopIt
    · rw [if_pos hit, if_pos hit]
    · rw [if_neg hit, if_neg hit, if_neg (Ne.symm hit)]

end LoopInfoTable

namespace LoopCollection

/-- Nothing is known of a register that is no iterator. -/
structure WellFormed (s : LoopCollection) : Prop where
  initValues : ∀ it ∉ s.iterators, s.initValuesMap[it]? = none
  loopInfo : ∀ it ∉ s.iterators, s.LIT.loopInfoMap[it]? = none
  nested : ∀ it ∉ s.iterators, s.LIT.nestedLoopMap[it]? = none

theorem wellFormed_empty : empty.WellFormed :=
  ⟨fun _ _ => ExtTreeMap.getElem?_empty, fun _ _ => ExtTreeMap.getElem?_empty,
    fun _ _ => ExtTreeMap.getElem?_empty⟩

variable {s s' : LoopCollection} {l : ConstantLoop} {parents : List Reg} {n : ℤ}

/-- **A loop with an iterator of its own**: its info and the loops around it are entered. -/
theorem collectLoop_of_new (hs : s.WellFormed) (hnew : l.iterator ∉ s.iterators) (hn : l.iterations = some n)
    (parents : List Reg) :
    ∃ s', s.collectLoop l parents = some s' ∧ s'.WellFormed ∧ s'.iterators = l.iterator :: s.iterators ∧
      (∀ it : Reg, s'.LIT.loopInfoMap[it]? =
        if it = l.iterator then some (l.loopInfo n) else s.LIT.loopInfoMap[it]?) ∧
      ∀ it : Reg, s'.LIT.nestedLoopMap[it]? =
        if it = l.iterator then some parents else s.LIT.nestedLoopMap[it]? := by
  have hinit := getElem?_insertIfNew_of_none (hs.initValues _ hnew) l.initValue
  have hinfo := getElem?_insertIfNew_of_none (hs.loopInfo _ hnew) (l.loopInfo n)
  have hnested := getElem?_insertIfNew_of_none (hs.nested _ hnew) ([] : List Reg)
  obtain ⟨hinfo', hnested'⟩ := @LoopInfoTable.foldl_pushNestedLoop l.iterator parents
    ((s.LIT.insertLoopInfo l.iterator (l.loopInfo n)).insertNewLoopIt l.iterator) []
    ((hnested l.iterator).trans (if_pos rfl))
  have hinfo'' : ∀ it : Reg, (parents.foldl (·.pushNestedLoop l.iterator ·)
      ((s.LIT.insertLoopInfo l.iterator (l.loopInfo n)).insertNewLoopIt l.iterator)).loopInfoMap[it]? =
        if it = l.iterator then some (l.loopInfo n) else s.LIT.loopInfoMap[it]? := fun it =>
    (congrArg (·[it]?) hinfo').trans (hinfo it)
  have hnested'' : ∀ it : Reg, (parents.foldl (·.pushNestedLoop l.iterator ·)
      ((s.LIT.insertLoopInfo l.iterator (l.loopInfo n)).insertNewLoopIt l.iterator)).nestedLoopMap[it]? =
        if it = l.iterator then some parents else s.LIT.nestedLoopMap[it]? := by
    intro it
    refine (hnested' it).trans ?_
    by_cases hit : it = l.iterator
    · rw [if_pos hit, if_pos hit, List.nil_append]
    · rw [if_neg hit, if_neg hit]
      exact (hnested it).trans (if_neg hit)
  refine ⟨⟨s.initValuesMap.insertIfNew l.iterator l.initValue, l.iterator :: s.iterators, _⟩, ?_,
    ?_, rfl, hinfo'',
    hnested''⟩
  · rw [collectLoop, if_neg hnew, hinit, if_pos rfl]
    simp only [Option.bind_eq_bind, Option.bind_some, hn]
    rfl
  · constructor
    all_goals
      intro it hit
      rw [List.mem_cons, not_or] at hit
    · exact (hinit it).trans ((if_neg hit.1).trans (hs.initValues it hit.2))
    · exact (hinfo'' it).trans ((if_neg hit.1).trans (hs.loopInfo it hit.2))
    · exact (hnested'' it).trans ((if_neg hit.1).trans (hs.nested it hit.2))

/-- The iterators of the loops entered. -/
theorem iterators_collectLoop (h : s.collectLoop l parents = some s') :
    l.iterator ∉ s.iterators ∧ s'.iterators = l.iterator :: s.iterators := by
  unfold collectLoop at h
  simp only at h
  split at h
  · cases h
  · next hnew =>
    obtain ⟨_, -, h⟩ := Option.bind_eq_some_iff.mp h
    obtain ⟨_, -, h⟩ := Option.bind_eq_some_iff.mp h
    exact ⟨hnew, (Option.some.inj h) ▸ rfl⟩

/-- **Loops that share an iterator are not collected.** -/
theorem nodup_of_collectLoopInfo {loops : List (ConstantLoop × List Reg)}
    (h : s.collectLoopInfo loops = some s') :
    (loops.map (·.1.iterator)).Nodup ∧ ∀ l ∈ loops, l.1.iterator ∉ s.iterators := by
  induction loops generalizing s with
  | nil => exact ⟨List.nodup_nil, fun l hl => nomatch hl⟩
  | cons l rest ih =>
    rw [collectLoopInfo, List.foldlM_cons] at h
    obtain ⟨s₁, h₁, h⟩ := Option.bind_eq_some_iff.mp h
    obtain ⟨hnew, hiterators⟩ := iterators_collectLoop h₁
    obtain ⟨hnodup, hrest⟩ := ih h
    rw [hiterators] at hrest
    constructor
    · refine List.nodup_cons.mpr ⟨fun hmem => ?_, hnodup⟩
      obtain ⟨l', hl', heq⟩ := List.mem_map.mp hmem
      exact hrest l' hl' (heq ▸ List.mem_cons_self)
    · intro l' hl'
      rcases List.mem_cons.mp hl' with rfl | hl'
      · exact hnew
      · exact fun hmem => hrest l' hl' (List.mem_cons_of_mem _ hmem)

/-- A loop that is collected has a number of iterations. -/
theorem isSome_iterations_of_collectLoop (hs : s.WellFormed) (h : s.collectLoop l parents = some s') :
    (l.iterations).isSome := by
  obtain ⟨hnew, -⟩ := iterators_collectLoop h
  have hinit := getElem?_insertIfNew_of_none (hs.initValues _ hnew) l.initValue l.iterator
  rw [if_pos rfl] at hinit
  rw [collectLoop, if_neg hnew, hinit] at h
  obtain ⟨initValue, hinitValue, h⟩ := Option.bind_eq_some_iff.mp h
  obtain rfl := Option.some.inj hinitValue
  obtain ⟨n, hn, -⟩ := Option.bind_eq_some_iff.mp h
  exact Option.isSome_iff_exists.mpr ⟨n, hn⟩

/-- **Loops that are collected** have each a number of iterations. -/
theorem isSome_iterations_of_collectLoopInfo {loops : List (ConstantLoop × List Reg)} (hs : s.WellFormed)
    (h : s.collectLoopInfo loops = some s') : ∀ l ∈ loops, (l.1.iterations).isSome := by
  induction loops generalizing s with
  | nil => exact fun l hl => nomatch hl
  | cons l rest ih =>
    rw [collectLoopInfo, List.foldlM_cons] at h
    obtain ⟨s₁, h₁, h⟩ := Option.bind_eq_some_iff.mp h
    have hl := isSome_iterations_of_collectLoop hs h₁
    obtain ⟨n, hn⟩ := Option.isSome_iff_exists.mp hl
    obtain ⟨s₁', h₁', hs₁, -⟩ := collectLoop_of_new hs (iterators_collectLoop h₁).1 hn l.2
    obtain rfl : s₁' = s₁ := Option.some.inj (h₁'.symm.trans h₁)
    exact List.forall_mem_cons.mpr ⟨hl, ih hs₁ h⟩

/-- **What is known of the loops after all of them**, when each has an iterator of its own. -/
theorem collectLoopInfo_of_nodup {loops : List (ConstantLoop × List Reg)} (hs : s.WellFormed)
    (hnodup : (loops.map (·.1.iterator)).Nodup) (hnew : ∀ l ∈ loops, l.1.iterator ∉ s.iterators)
    (hn : ∀ l ∈ loops, (l.1.iterations).isSome) :
    ∃ s', s.collectLoopInfo loops = some s' ∧
      (∀ l ∈ loops, ∃ n, l.1.iterations = some n ∧ s'.LIT.loopInfoMap[l.1.iterator]? = some (l.1.loopInfo n) ∧
        s'.LIT.nestedLoopMap[l.1.iterator]? = some l.2) ∧
      ∀ it : Reg, it ∉ loops.map (·.1.iterator) → s'.LIT.loopInfoMap[it]? = s.LIT.loopInfoMap[it]? ∧
        s'.LIT.nestedLoopMap[it]? = s.LIT.nestedLoopMap[it]? := by
  induction loops generalizing s with
  | nil => exact ⟨s, rfl, fun l hl => (nomatch hl), fun _ _ => ⟨rfl, rfl⟩⟩
  | cons l rest ih =>
    rw [List.map_cons, List.nodup_cons] at hnodup
    obtain ⟨n, hln⟩ := Option.isSome_iff_exists.mp (hn l List.mem_cons_self)
    obtain ⟨s₁, h₁, hs₁, hiterators, hinfo, hnested⟩ :=
      collectLoop_of_new hs (hnew l List.mem_cons_self) hln l.2
    obtain ⟨s', h', hall, hother⟩ := ih hs₁ hnodup.2
      (fun l' hl' => by
        rw [hiterators, List.mem_cons, not_or]
        exact ⟨fun heq => hnodup.1 (heq ▸ List.mem_map_of_mem hl'), hnew l' (List.mem_cons_of_mem _ hl')⟩)
      fun l' hl' => hn l' (List.mem_cons_of_mem _ hl')
    refine ⟨s', ?_, ?_, fun it hit => ?_⟩
    · rw [collectLoopInfo, List.foldlM_cons, h₁]
      exact h'
    · intro l' hl'
      rcases List.mem_cons.mp hl' with rfl | hl'
      · obtain ⟨hinfo', hnested'⟩ := hother l'.1.iterator hnodup.1
        exact ⟨n, hln, hinfo'.trans ((hinfo _).trans (if_pos rfl)),
          hnested'.trans ((hnested _).trans (if_pos rfl))⟩
      · exact hall l' hl'
    · rw [List.map_cons, List.mem_cons, not_or] at hit
      obtain ⟨hinfo', hnested'⟩ := hother it hit.2
      exact ⟨hinfo'.trans ((hinfo it).trans (if_neg hit.1)),
        hnested'.trans ((hnested it).trans (if_neg hit.1))⟩

end LoopCollection

/-- The loop of a block that is in the body of one loop. -/
theorem LoopInfoTable.getLoopIteratorFromLoopBody_of_unique {LIT : LoopInfoTable}
    {it loopBody : Reg} {info : LoopInfo}
    (h : LIT.loopInfoMap[it]? = some info) (hbody : loopBody ∈ info.loopBody)
    (hunique : ∀ (it' : Reg) (info' : LoopInfo), LIT.loopInfoMap[it']? = some info' →
      loopBody ∈ info'.loopBody →
      it' = it) :
    LIT.getLoopIteratorFromLoopBody loopBody = some it :=
  map_fst_find?_toList_of_unique h (List.contains_iff_mem.mpr hbody) fun it' info' hinfo' hbody' =>
    hunique it' info' hinfo' (List.contains_iff_mem.mp hbody')

end Octantis
