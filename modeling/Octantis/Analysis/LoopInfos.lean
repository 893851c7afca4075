import Mathlib.Data.List.Nodup
import Octantis.Analysis.LoopHeader

/-!
# The infos of the loops

Which info `getLoopInfo` gives for the loop of a block, after `collectLoopInfo` has gone
over the loops of a function with constant bounds.

## What is proved

* `infosKept_iff`: the info of every loop is its own exactly when no two loops have the
  same iterator, the initial value of each is the first constant that any preheader
  stores to its iterator, and the increments are additions that the iterations can be
  counted with.

## Honest scope

A loop that uses the iterator of a loop before it is not known to have one
(`reused_iterator`). Which iterations are counted is the subject of `Iterations`.
-/

namespace Octantis

open Std Lib

/-- A loop with a constant initial value, bound and increment. -/
structure ConstantLoopForm where
  /-- Its address. -/
  address : Reg
  /-- The loops around it, the next one first. -/
  parents : List Reg
  /-- The iterator. -/
  iterator : Reg
  /-- Its initialisation. -/
  preheader : List Instr
  /-- The address of the initial value. -/
  initAddress : Reg
  /-- The initial value. -/
  initValue : ℤ
  /-- The address of the header. -/
  headerAddress : Reg
  /-- The result of the load of the iterator in the header. -/
  loaded : Reg
  /-- The result of the comparison. -/
  compared : Reg
  /-- The predicate. -/
  predicate : Predicate
  /-- The address of the bound. -/
  finalAddress : Reg
  /-- The bound. -/
  finalValue : ℤ
  /-- The block that the branch goes to. -/
  body : Reg
  /-- The address of the latch. -/
  latchAddress : Reg
  /-- The result of the load of the iterator in the latch. -/
  latchLoaded : Reg
  /-- The result of the increment. -/
  stepped : Reg
  /-- The increment is a subtraction. -/
  subtracts : Bool
  /-- The address of what is added or subtracted. -/
  stepAddress : Reg
  /-- What is added or subtracted. -/
  step : ℤ
  /-- The predecessor of the latch. -/
  latchPredecessor : Reg
  initialised : lastStored iterator preheader = some (.constantInt initAddress initValue)
  body_ne : body ≠ nullptr
  deriving DecidableEq

namespace ConstantLoopForm

variable (l : ConstantLoopForm)

/-- The latch. -/
def latch : Block :=
  ⟨l.latchAddress, [.load l.latchLoaded l.iterator,
    .binary l.stepped (if l.subtracts then .sub else .add) (.value l.latchLoaded) (.constantInt l.stepAddress l.step),
    .store (.value l.stepped) l.iterator, .other]⟩

/-- The header and what it is compared with. -/
def form : LoopForm :=
  { iterator := l.iterator
    preheader := l.preheader
    initValue := .constantInt l.initAddress l.initValue
    headerAddress := l.headerAddress
    loaded := l.loaded
    compared := l.compared
    predicate := some l.predicate
    bound := .constant l.finalAddress l.finalValue
    body := l.body
    latch := l.latch
    latchPredecessor := l.latchPredecessor
    initialised := l.initialised
    bound_ne := fun _ _ _ h => nomatch h }

/-- The loop. -/
def loop : Loop := ⟨l.address, l.preheader, l.form.header, l.latch, l.latchPredecessor, l.parents⟩

/-- The blocks of its body that are known. -/
def blocks : List Reg := [l.body, l.latchPredecessor].filter (· ≠ nullptr)

/-- The increment. -/
def increment : ℤ := if l.subtracts then -l.step else l.step

/-- The info that `parseLoopHeaderAndLatch` records for an initial value, an increment and some
iterations. -/
def info (initValue increment : ℤ) (iterations : Option ℤ) : LoopInfoStruct :=
  { loopHeader := l.headerAddress
    loopLatch := l.latchAddress
    loopBody := [l.body, l.latchPredecessor]
    iteratorInitValue := some initValue
    iteratorFinalValue := some l.finalValue
    iteratorIncrement := some increment
    iterations
    variableInitValue := none
    variableFinalValue := none
    isInitValueConstant := some true
    isFinalValueConstant := some true }

/-- The iterations counted from an initial value. -/
def counted (initValue : ℤ) : Option (Option ℤ) :=
  Collector.countIterations (some l.predicate) initValue l.finalValue l.increment

/-- The info of the loop. -/
def ownInfo : Option LoopInfoStruct := (l.counted l.initValue).map (l.info l.initValue l.increment)

end ConstantLoopForm

/-- The loops of a function in preorder: their iterators are allocated, the loops around each come
before it, and no block is in the body of two. -/
structure FunctionLoops (allocas : List (Reg × AllocatedType)) (loops : List ConstantLoopForm) : Prop where
  allocated : ∀ l ∈ loops, l.iterator ∈ allocas.map (·.1)
  parents : ∀ before l after, loops = before ++ l :: after → ∀ parent ∈ l.parents, parent ∈ before.map (·.address)
  blocks : ∀ l ∈ loops, ∀ l' ∈ loops, ∀ block ∈ l.blocks, block ∈ l'.blocks → l = l'

/-- No two loops have the same iterator, the first constant stored to each iterator is the initial
value of its loop, and its iterations can be counted. -/
structure InfosDistinct (loops : List ConstantLoopForm) : Prop where
  iterators : (loops.map (·.iterator)).Nodup
  initValue : ∀ l ∈ loops, firstStored l.iterator (loops.flatMap (·.preheader)) = some l.initValue
  counted : ∀ l ∈ loops, l.subtracts = false ∧ (l.counted l.initValue).isSome

namespace Collector

/-- The loops are collected, and the iterator and the info found for the blocks of each are
its own. -/
def InfosKept (allocas : List (Reg × AllocatedType)) (loops : List ConstantLoopForm) : Prop :=
  ∃ c, (start allocas).collectLoopInfo (loops.map (·.loop)) = some c ∧ ∀ l ∈ loops, ∀ block ∈ l.blocks,
    c.getLoopIteratorFromLoopBody block = some l.iterator ∧
      ∃ info, l.ownInfo = some info ∧ c.getLoopInfo l.iterator = some info

variable {c c' p : Collector} {l : ConstantLoopForm} {allocas : List (Reg × AllocatedType)}
  {loops done : List ConstantLoopForm}

/-! ### A loop -/

/-- The latch gives its increment when it is an addition. -/
theorem latchIncrement_latch (l : ConstantLoopForm) :
    latchIncrement none l.latch.instrs = some (if l.subtracts then none else some l.step) := by
  unfold ConstantLoopForm.latch
  cases l.subtracts <;> rfl

/-- The header of a loop whose iterator is known does not find one. -/
theorem parseLoopHeaderAndLatch_of_mem (hmem : l.iterator ∈ p.iteratorsAliasMap) :
    p.parseLoopHeaderAndLatch l.form.header l.latch l.latchPredecessor = none := by
  rw [Option.eq_none_iff_forall_ne_some]
  rintro ⟨c₁, it⟩ hparse
  obtain ⟨increment, h, h', -, hload, hcompare, hit, -⟩ := parseLoopHeaderAndLatch_eq_some.mp hparse
  obtain ⟨h₁, hfirst, hload⟩ := Option.bind_eq_some_iff.mp hload
  obtain rfl := Option.some.inj ((headerLoad_of_mem hmem).symm.trans hfirst)
  obtain rfl := Option.some.inj hload
  rw [(headerIcmp_keeps hcompare).2.1] at hit
  cases hit

/-- **The header of a loop with a new iterator**. -/
theorem parseLoopHeaderAndLatch_of_not_mem (hnew : l.iterator ∉ p.iteratorsAliasMap)
    (hallocated : l.iterator ∈ p.aliasInfoMap) {initValue : ℤ}
    (hinit : p.initValuesMap[l.iterator]? = some initValue) :
    p.parseLoopHeaderAndLatch l.form.header l.latch l.latchPredecessor =
      if l.subtracts then none
      else (l.counted initValue).map fun iterations =>
        ({ p with
          iteratorsAliasMap := p.iteratorsAliasMap.insert l.iterator l.loaded
          aliasInfoMap := p.aliasInfoMap.erase l.iterator
          loopBodyList := p.loopBodyList ++ [l.body, l.latchPredecessor]
          loopInfoMap := p.loopInfoMap.insertIfNew l.iterator (l.info initValue l.increment iterations) }, l.iterator) := by
  have hload : ∀ loopInfo, headerLoad ⟨p, loopInfo, none⟩ l.loaded l.iterator =
      some (Header.enter ⟨p, loopInfo, none⟩ l.loaded l.iterator initValue) := fun loopInfo =>
    (headerLoad_of_not_mem hnew).mpr ⟨initValue, hinit, hallocated, rfl⟩
  have hinstrs : l.form.header.instrs = [.load l.loaded l.iterator,
      .icmp l.compared (some l.predicate) (.value l.loaded) (.constantInt l.finalAddress l.finalValue), .branch l.body] := rfl
  rw [parseLoopHeaderAndLatch, latchIncrement_latch, hinstrs]
  simp only [Option.bind_eq_bind, Option.bind_some, List.foldlM_cons, List.foldlM_nil, headerStep,
    hload, headerIcmp, Header.enter, latchInfo]
  cases hsubtracts : l.subtracts with
  | true => rfl
  | false =>
    have hincrement : l.increment = l.step := by rw [ConstantLoopForm.increment, hsubtracts]; rfl
    rw [ConstantLoopForm.counted, hincrement]
    simp only [Bool.false_eq_true, if_false, Option.bind_some]
    cases countIterations (some l.predicate) initValue l.finalValue l.step <;> rfl

/-! ### The loops -/

/-- What is known after some loops. -/
structure Collected (allocas : List (Reg × AllocatedType)) (done : List ConstantLoopForm) (c : Collector) : Prop where
  iterators : (done.map (·.iterator)).Nodup
  initValuesMap : ∀ register : Reg, c.initValuesMap[register]? = firstStored register (done.flatMap (·.preheader))
  iteratorsAliasMap : ∀ register : Reg, register ∈ c.iteratorsAliasMap ↔ register ∈ done.map (·.iterator)
  aliasInfoMap : ∀ register : Reg, register ∈ c.aliasInfoMap ↔
    register ∈ allocas.map (·.1) ∧ register ∉ done.map (·.iterator)
  loopIteratorMap : ∀ address ∈ done.map (·.address), (c.loopIteratorMap[address]?).isSome
  onlyLoops : ∀ register : Reg, register ∈ c.loopInfoMap → register ∈ done.map (·.iterator)
  infos : ∀ l ∈ done, l.subtracts = false ∧ ∃ initValue iterations,
    firstStored l.iterator (done.flatMap (·.preheader)) = some initValue ∧ l.counted initValue = some iterations ∧
    c.loopInfoMap[l.iterator]? = some (l.info initValue l.increment iterations)

theorem firstStored_append (register : Reg) (as bs : List Instr) :
    firstStored register (as ++ bs) = (firstStored register as).or (firstStored register bs) :=
  List.findSome?_append

/-- What is stored last is stored. -/
theorem firstStored_isSome_of_lastStored {register address : Reg} {value : ℤ} {instrs : List Instr}
    (h : lastStored register instrs = some (.constantInt address value)) :
    (firstStored register instrs).isSome := by
  obtain ⟨I, hI, hstored⟩ := List.exists_of_findSome?_eq_some h
  rw [firstStored, List.findSome?_isSome_iff]
  refine ⟨I, List.mem_reverse.mp hI, ?_⟩
  cases I with
  | store operand0 pointer =>
    simp only at hstored ⊢
    split_ifs at hstored with heq
    obtain rfl := Option.some.inj hstored
    simp [heq]
  | load | binary | icmp | branch | ptr | sext | other => cases hstored

/-- Before the first loop. -/
theorem collected_start (allocas : List (Reg × AllocatedType)) : Collected allocas [] (start allocas) where
  iterators := List.nodup_nil
  initValuesMap _ := ExtTreeMap.getElem?_empty
  iteratorsAliasMap register := by
    rw [iteratorsAliasMap_start]
    simp
  aliasInfoMap register := by
    rw [mem_aliasInfoMap_start]
    simp
  loopIteratorMap := by simp
  onlyLoops register h := absurd h ExtTreeMap.not_mem_empty
  infos l h := nomatch h

/-- What the iterator of a loop is taken to be initialised with: the first constant stored to it so
far. -/
theorem exists_firstStored (done : List ConstantLoopForm) (l : ConstantLoopForm) :
    ∃ initValue, firstStored l.iterator ((done ++ [l]).flatMap (·.preheader)) = some initValue := by
  rw [List.flatMap_append, firstStored_append, ← Option.isSome_iff_exists, Option.isSome_or,
    List.flatMap_singleton, firstStored_isSome_of_lastStored l.initialised, Bool.or_true]

/-- The iterator of the next loop in the maps, after its preheader. -/
theorem Collected.initValuesMap_preheader (hc : Collected allocas done c) (register : Reg) :
    (c.parseLoopPreheader l.preheader).initValuesMap[register]? =
      firstStored register ((done ++ [l]).flatMap (·.preheader)) := by
  rw [(afterPreheader l.preheader c).initValuesMap, hc.initValuesMap, List.flatMap_append, firstStored_append,
    List.flatMap_singleton]

/-- **A loop after some loops** has a new iterator, and its info is recorded. -/
theorem Collected.collectLoop (hc : Collected allocas done c) (hallocated : l.iterator ∈ allocas.map (·.1))
    (hloop : c.collectLoop l.loop = some c') : Collected allocas (done ++ [l]) c' := by
  have hp := afterPreheader l.preheader c
  obtain ⟨initValue, hinit⟩ := exists_firstStored done l
  obtain ⟨⟨c₁, it⟩, hparse, hloop⟩ := Option.bind_eq_some_iff.mp hloop
  obtain ⟨parentIts, -, hloop⟩ := Option.bind_eq_some_iff.mp hloop
  obtain rfl := Option.some.inj hloop
  have hnew : l.iterator ∉ (c.parseLoopPreheader l.preheader).iteratorsAliasMap := by
    intro hmem
    rw [show c.parseLoopPreheader l.loop.preheader = c.parseLoopPreheader l.preheader from rfl] at hparse
    cases (parseLoopHeaderAndLatch_of_mem hmem).symm.trans hparse
  have hnew' : l.iterator ∉ done.map (·.iterator) := fun h =>
    hnew ((hp.iteratorsAliasMap _).mpr ((hc.iteratorsAliasMap _).mpr h))
  have hallocated' : l.iterator ∈ (c.parseLoopPreheader l.preheader).aliasInfoMap := by
    rw [hp.aliasInfoMap, hc.aliasInfoMap]
    exact ⟨hallocated, hnew'⟩
  have hparse' := (parseLoopHeaderAndLatch_of_not_mem hnew hallocated' (hc.initValuesMap_preheader _ ▸ hinit)).symm.trans hparse
  split_ifs at hparse' with hsubtracts
  obtain ⟨iterations, hiterations, heq⟩ := Option.map_eq_some_iff.mp hparse'
  obtain ⟨rfl, rfl⟩ := Prod.mk.inj heq
  exact
    { iterators := by
        rw [List.map_append, List.map_singleton, List.nodup_append_comm, List.singleton_append,
          List.nodup_cons]
        exact ⟨hnew', hc.iterators⟩
      initValuesMap := hc.initValuesMap_preheader
      iteratorsAliasMap := fun register => by
        rw [ExtTreeMap.mem_insert, Std.compare_eq_iff_eq, hp.iteratorsAliasMap,
          hc.iteratorsAliasMap, List.map_append, List.map_singleton, List.mem_append,
          List.mem_singleton, or_comm, eq_comm]
      aliasInfoMap := fun register => by
        rw [ExtTreeMap.mem_erase, hp.aliasInfoMap, hc.aliasInfoMap, List.map_append,
          List.map_singleton, List.mem_append, List.mem_singleton, ne_eq, Std.compare_eq_iff_eq]
        tauto
      loopIteratorMap := fun address haddress => by
        rw [getElem?_insertIfNew_or, Option.isSome_or, Bool.or_eq_true, hp.loopIteratorMap]
        rw [List.map_append, List.map_singleton, List.mem_append, List.mem_singleton] at haddress
        rcases haddress with haddress | haddress
        · exact .inl (hc.loopIteratorMap address haddress)
        · exact .inr (by rw [if_pos (show l.loop.address = address from haddress.symm)]; rfl)
      onlyLoops := fun register hmem => by
        rw [List.map_append, List.map_singleton, List.mem_append, List.mem_singleton]
        rcases ExtTreeMap.mem_insertIfNew.mp hmem with heq | hmem
        · exact .inr (Std.compare_eq_iff_eq.mp heq).symm
        · rw [hp.loopInfoMap] at hmem
          exact .inl (hc.onlyLoops register hmem)
      infos := fun l' hl' => by
        rcases List.mem_append.mp hl' with hl' | hl'
        · obtain ⟨hsubtracts', v, n, hv, hn, hinfo⟩ := hc.infos l' hl'
          refine ⟨hsubtracts', v, n, ?_, hn, ?_⟩
          · rw [List.flatMap_append, firstStored_append, hv, Option.some_or]
          · rw [getElem?_insertIfNew_or, hp.loopInfoMap, hinfo, Option.some_or]
        · obtain rfl := List.mem_singleton.mp hl'
          refine ⟨Bool.eq_false_of_not_eq_true hsubtracts, initValue, iterations, hinit, hiterations, ?_⟩
          rw [getElem?_insertIfNew_or, hp.loopInfoMap,
            ExtTreeMap.getElem?_eq_none fun h => hnew' (hc.onlyLoops _ h), Option.none_or,
            if_pos rfl] }

/-- A loop with a new iterator is collected when its iterations can be counted. -/
theorem Collected.collectLoop_isSome (hc : Collected allocas done c)
    (hallocated : l.iterator ∈ allocas.map (·.1))
    (hparents : ∀ parent ∈ l.parents, parent ∈ done.map (·.address)) {initValue : ℤ}
    (hinit : firstStored l.iterator ((done ++ [l]).flatMap (·.preheader)) = some initValue)
    (hnew : l.iterator ∉ done.map (·.iterator)) (hsubtracts : l.subtracts = false)
    (hcounted : (l.counted initValue).isSome) : (c.collectLoop l.loop).isSome := by
  have hp := afterPreheader l.preheader c
  obtain ⟨iterations, hiterations⟩ := Option.isSome_iff_exists.mp hcounted
  have hnew' : l.iterator ∉ (c.parseLoopPreheader l.preheader).iteratorsAliasMap := fun h =>
    hnew ((hc.iteratorsAliasMap _).mp ((hp.iteratorsAliasMap _).mp h))
  have hallocated' : l.iterator ∈ (c.parseLoopPreheader l.preheader).aliasInfoMap := by
    rw [hp.aliasInfoMap, hc.aliasInfoMap]
    exact ⟨hallocated, hnew⟩
  have hparse := parseLoopHeaderAndLatch_of_not_mem hnew' hallocated' (hc.initValuesMap_preheader _ ▸ hinit)
  rw [hsubtracts, if_neg Bool.false_ne_true, hiterations, Option.map_some] at hparse
  have hparents' : ∀ parent ∈ l.parents,
      ((c.parseLoopPreheader l.preheader).loopIteratorMap.insertIfNew l.address l.iterator)[parent]?.isSome := by
    intro parent hparent
    rw [getElem?_insertIfNew_or, Option.isSome_or, hp.loopIteratorMap,
      hc.loopIteratorMap parent (hparents parent hparent), Bool.true_or]
  obtain ⟨parentIts, hparentIts⟩ := Option.isSome_iff_exists.mp (isSome_mapM_iff.mpr hparents')
  rw [Option.isSome_iff_exists]
  exact ⟨_, Option.bind_eq_some_iff.mpr ⟨_, hparse, Option.bind_eq_some_iff.mpr ⟨parentIts, hparentIts, rfl⟩⟩⟩

/-- What is known after all loops that are collected. -/
theorem Collected.collectLoopInfo (hc : Collected allocas done c)
    (hallocated : ∀ l ∈ loops, l.iterator ∈ allocas.map (·.1))
    (hloops : c.collectLoopInfo (loops.map (·.loop)) = some c') : Collected allocas (done ++ loops) c' := by
  induction loops generalizing done c with
  | nil =>
    obtain rfl := Option.some.inj hloops
    rwa [List.append_nil]
  | cons l rest ih =>
    obtain ⟨c₁, hloop, hloops⟩ := Option.bind_eq_some_iff.mp hloops
    have hc₁ := hc.collectLoop (hallocated l List.mem_cons_self) hloop
    have hrest := ih hc₁ (fun l' hl' => hallocated l' (List.mem_cons_of_mem _ hl')) hloops
    rwa [List.append_assoc, List.singleton_append] at hrest

/-- All loops are collected, when the iterators are distinct and the iterations can be counted. -/
theorem Collected.collectLoopInfo_isSome (hc : Collected allocas done c)
    (hf : FunctionLoops allocas (done ++ loops))
    (hdistinct : InfosDistinct (done ++ loops)) : (c.collectLoopInfo (loops.map (·.loop))).isSome := by
  induction loops generalizing done c with
  | nil => rfl
  | cons l rest ih =>
    have happend : done ++ l :: rest = (done ++ [l]) ++ rest := List.append_cons done l rest
    have hmem : l ∈ done ++ l :: rest := List.mem_append_right _ List.mem_cons_self
    obtain ⟨initValue, hinit⟩ := exists_firstStored done l
    have hvalue : initValue = l.initValue := by
      have hall := hdistinct.initValue l hmem
      rw [happend, List.flatMap_append, firstStored_append, hinit, Option.some_or] at hall
      exact Option.some.inj hall
    subst hvalue
    obtain ⟨hsubtracts, hcounted⟩ := hdistinct.counted l hmem
    have hnew : l.iterator ∉ done.map (·.iterator) := by
      have hnodup := hdistinct.iterators
      rw [List.map_append, List.map_cons, List.nodup_append_comm, List.cons_append, List.nodup_cons,
        List.mem_append] at hnodup
      exact fun h => hnodup.1 (.inr h)
    obtain ⟨c₁, hloop⟩ := Option.isSome_iff_exists.mp (hc.collectLoop_isSome (hf.allocated l hmem)
      (hf.parents done l rest rfl) hinit hnew hsubtracts hcounted)
    obtain ⟨c', hrest⟩ := Option.isSome_iff_exists.mp
      (ih (hc.collectLoop (hf.allocated l hmem) hloop) (happend ▸ hf) (happend ▸ hdistinct))
    rw [Option.isSome_iff_exists]
    exact ⟨c', Option.bind_eq_some_iff.mpr ⟨c₁, hloop, hrest⟩⟩

/-! ### The infos -/

/-- The loop of a block that is in the body of one loop. -/
theorem getLoopIteratorFromLoopBody_of_unique {it loopBody : Reg} {info : LoopInfoStruct}
    (h : c.loopInfoMap[it]? = some info) (hbody : loopBody ∈ info.loopBody)
    (hunique : ∀ (it' : Reg) (info' : LoopInfoStruct), c.loopInfoMap[it']? = some info' →
      loopBody ∈ info'.loopBody →
      it' = it) :
    c.getLoopIteratorFromLoopBody loopBody = some it :=
  map_fst_find?_toList_of_unique h (List.contains_iff_mem.mpr hbody) fun it' info' hinfo' hbody' =>
    hunique it' info' hinfo' (List.contains_iff_mem.mp hbody')

/-- **The infos of the loops** of a function are their own exactly when the iterators are distinct
and each is first initialised with the value of its loop. -/
theorem infosKept_iff (hf : FunctionLoops allocas loops) : InfosKept allocas loops ↔ InfosDistinct loops := by
  constructor
  · rintro ⟨c, hloops, hkept⟩
    have hc : Collected allocas loops c := (collected_start allocas).collectLoopInfo hf.allocated hloops
    have hown : ∀ l ∈ loops, firstStored l.iterator (loops.flatMap (·.preheader)) = some l.initValue ∧
        l.subtracts = false ∧ (l.counted l.initValue).isSome := by
      intro l hl
      obtain ⟨hsubtracts, initValue, iterations, hinit, -, hinfo⟩ := hc.infos l hl
      have hblock : l.body ∈ l.blocks := List.mem_filter.mpr ⟨List.mem_cons_self, decide_eq_true l.body_ne⟩
      obtain ⟨-, info, hownInfo, hfound⟩ := hkept l hl l.body hblock
      obtain ⟨iterations', hcounted, rfl⟩ := Option.map_eq_some_iff.mp hownInfo
      have heq : initValue = l.initValue :=
        Option.some.inj (congrArg (·.iteratorInitValue) (Option.some.inj (hinfo.symm.trans hfound)))
      exact ⟨heq ▸ hinit, hsubtracts, Option.isSome_of_eq_some hcounted⟩
    exact ⟨hc.iterators, fun l hl => (hown l hl).1, fun l hl => (hown l hl).2⟩
  · intro hdistinct
    obtain ⟨c, hloops⟩ := Option.isSome_iff_exists.mp ((collected_start allocas).collectLoopInfo_isSome hf hdistinct)
    have hc : Collected allocas loops c := (collected_start allocas).collectLoopInfo hf.allocated hloops
    have hinfo : ∀ l ∈ loops, ∃ iterations, l.counted l.initValue = some iterations ∧
        c.loopInfoMap[l.iterator]? = some (l.info l.initValue l.increment iterations) := by
      intro l hl
      obtain ⟨-, initValue, iterations, hinit, hcounted, hinfo⟩ := hc.infos l hl
      obtain rfl : initValue = l.initValue := Option.some.inj (hinit.symm.trans (hdistinct.initValue l hl))
      exact ⟨iterations, hcounted, hinfo⟩
    refine ⟨c, hloops, fun l hl block hblock => ?_⟩
    obtain ⟨iterations, hcounted, hown⟩ := hinfo l hl
    obtain ⟨hbody, hne⟩ := List.mem_filter.mp hblock
    refine ⟨getLoopIteratorFromLoopBody_of_unique hown hbody fun it' info' hinfo' hbody' => ?_, _,
      Option.map_eq_some_iff.mpr ⟨iterations, hcounted, rfl⟩, hown⟩
    -- The entry is that of another loop, whose body has the block too.
    have hit : it' ∈ c.loopInfoMap := ExtTreeMap.mem_iff_isSome_getElem?.mpr (Option.isSome_of_eq_some hinfo')
    obtain ⟨l', hl', rfl⟩ := List.mem_map.mp (hc.onlyLoops it' hit)
    obtain ⟨iterations', -, hown'⟩ := hinfo l' hl'
    obtain rfl := Option.some.inj (hown'.symm.trans hinfo')
    rw [hf.blocks l hl l' hl' block hblock (List.mem_filter.mpr ⟨hbody', hne⟩)]

/-- A loop that counts a register from zero, with its blocks at some address. -/
def countLoop (iterator : Reg) (finalValue : ℤ) (address : Reg) (parents : List Reg) (hbody : address + 8 ≠ nullptr) :
    ConstantLoopForm :=
  { address
    parents
    iterator
    preheader := [.store (.constantInt 1 0) iterator]
    initAddress := 1
    initValue := 0
    headerAddress := address + 4
    loaded := address + 16
    compared := address + 20
    predicate := .slt
    finalAddress := 2
    finalValue
    body := address + 8
    latchAddress := address + 12
    latchLoaded := address + 24
    stepped := address + 28
    subtracts := false
    stepAddress := 3
    step := 1
    latchPredecessor := address + 8
    initialised := by simp [lastStored]
    body_ne := hbody }

/-- The loops around the second of two loops come before it. -/
theorem parents_of_two {first second : ConstantLoopForm} (hfirst : first.parents = [])
    (hsecond : ∀ parent ∈ second.parents, parent = first.address) (before : List ConstantLoopForm)
    (l : ConstantLoopForm)
    (after : List ConstantLoopForm) (h : [first, second] = before ++ l :: after) :
    ∀ parent ∈ l.parents, parent ∈ before.map (·.address) := by
  rcases before with _ | ⟨b, _ | ⟨b', rest⟩⟩
  · obtain rfl := (List.cons.inj h).1
    rw [hfirst]
    exact fun parent h => nomatch h
  · obtain ⟨hb, hsecond'⟩ := List.cons.inj h
    obtain rfl := (List.cons.inj hsecond').1
    subst hb
    exact fun parent hparent => List.mem_singleton.mpr (hsecond parent hparent)
  · have hlength := congrArg List.length h
    simp at hlength

/-- Two loops, one in the other. -/
theorem infosKept_iff_nested : InfosKept [(4, .other), (8, .other)]
    [countLoop 4 3 100 [] (by decide), countLoop 8 5 200 [100] (by decide)] :=
  (infosKept_iff
    { allocated := by decide
      parents := parents_of_two rfl (by decide)
      blocks := by decide }).mpr
    { iterators := by decide
      initValue := by decide
      counted := by decide }

/-- After the first of two loops with the same iterator the second one is not known to have one. -/
theorem reused_iterator :
    FunctionLoops [(4, .other)] [countLoop 4 3 100 [] (by decide), countLoop 4 5 200 [] (by decide)] ∧
      ¬ InfosKept [(4, .other)] [countLoop 4 3 100 [] (by decide), countLoop 4 5 200 [] (by decide)] := by
  refine ⟨⟨by decide, parents_of_two rfl (by decide), by decide⟩, ?_⟩
  rintro ⟨c, hloops, -⟩
  have hnone : ((start [(4, .other)]).collectLoopInfo
    ([countLoop 4 3 100 [] (by decide),
      countLoop 4 5 200 [] (by decide)].map (·.loop))).isNone := by decide +kernel
  rw [hloops] at hnone
  cases hnone

end Collector

end Octantis
