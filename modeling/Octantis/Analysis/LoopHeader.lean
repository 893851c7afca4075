import Octantis.Analysis.Collector

/-!
# The headers of the loops

`parseLoopHeaderAndLatch` finds out which register is the iterator of a loop from the
loads of its header, and what it is initialised with from a map of the constants stored in
the preheaders.

## What is proved

* `headerRight_iff`: after any loops, the iterator of a header that
  compares it with a constant or a variable is found, with its initial value, exactly when
  that is a constant, the first one stored to it, the iterator is not that of a loop
  before, and the loads of the header take no other register for it.

## Honest scope

An initial value that is not a constant is never recorded: the branch for it reads the
iterator from the end of `initValuesMap`.
-/

namespace Octantis

open Std Lib

/-- The first constant stored to a register. -/
def firstStored (register : Reg) (instrs : List Instr) : Option ℤ :=
  instrs.findSome? fun
    | .store (.constantInt _ value) pointer => if pointer = register then some value else none
    | _ => none

/-- What is stored to a register last. -/
def lastStored (register : Reg) (instrs : List Instr) : Option Operand :=
  instrs.reverse.findSome? fun
    | .store operand0 pointer => if pointer = register then some operand0 else none
    | _ => none

/-- What the header of a loop compares the iterator with. -/
inductive Bound where
  /-- A constant. -/
  | constant (address : Reg) (value : ℤ)
  /-- A variable, which the header loads before the iterator or after it. -/
  | variable (result pointer : Reg) (first : Bool)
  deriving DecidableEq, Repr

/-- A loop whose header loads its iterator and compares it, and whose preheader initialises it. -/
structure LoopForm where
  /-- The iterator. -/
  iterator : Reg
  /-- Its initialisation. -/
  preheader : List Instr
  /-- What it is initialised with. -/
  initValue : Operand
  /-- The address of the header. -/
  headerAddress : Reg
  /-- The result of the load of the iterator. -/
  loaded : Reg
  /-- The result of the comparison. -/
  compared : Reg
  /-- The predicate. -/
  predicate : Option Predicate
  /-- What the iterator is compared with. -/
  bound : Bound
  /-- The block that the branch goes to. -/
  body : Reg
  /-- The latch. -/
  latch : Block
  /-- The predecessor of the latch. -/
  latchPredecessor : Reg
  initialised : lastStored iterator preheader = some initValue
  bound_ne : ∀ result pointer first, bound = .variable result pointer first → pointer ≠ iterator

/-- The loads of the header, with their results. -/
def LoopForm.loads (l : LoopForm) : List (Reg × Reg) :=
  match l.bound with
  | .constant .. => [(l.loaded, l.iterator)]
  | .variable result pointer false => [(l.loaded, l.iterator), (result, pointer)]
  | .variable result pointer true => [(result, pointer), (l.loaded, l.iterator)]

/-- Operand 1 of the comparison. -/
def LoopForm.operand1 (l : LoopForm) : Operand :=
  match l.bound with
  | .constant address value => .constantInt address value
  | .variable result _ _ => .value result

/-- The instructions of the header. -/
def LoopForm.instrs (l : LoopForm) : List Instr :=
  l.loads.map (fun load => .load load.1 load.2) ++
    [.icmp l.compared l.predicate (.value l.loaded) l.operand1, .branch l.body]

/-- The header. -/
def LoopForm.header (l : LoopForm) : Block := ⟨l.headerAddress, l.instrs⟩

namespace Collector

/-- The members after some loops of the function. -/
def Reachable (c : Collector) : Prop := ∃ allocas loops, (start allocas).collectLoopInfo loops = some c

/-- The initial value is recorded: the constant, or that it is none. -/
def Records (initValue : Operand) (info : LoopInfoStruct) : Prop :=
  match initValue with
  | .constantInt _ value => info.isInitValueConstant = some true ∧ info.iteratorInitValue = some value
  | .value _ => info.isInitValueConstant = some false

/-- The preheader and the header are parsed: the iterator is returned, its initial value recorded,
and nothing is read from the end of a map. -/
def HeaderRight (c : Collector) (l : LoopForm) : Prop :=
  ∃ c' info, (c.parseLoopPreheader l.preheader).parseLoopHeaderAndLatch l.header l.latch l.latchPredecessor =
    some (c', l.iterator) ∧ c'.loopInfoMap[l.iterator]? = some info ∧ Records l.initValue info

/-- The constant that a register is initialised with, when it is loaded in the header. -/
def initialConstant (c : Collector) (l : LoopForm) (register : Reg) : Option ℤ :=
  (c.initValuesMap[register]?).or (firstStored register l.preheader)

/-- The latch gives what the comparison of the header counts with. -/
def CountKnown (l : LoopForm) (initValue : ℤ) : Prop :=
  match l.bound with
  | .constant _ value => ∃ increment, latchIncrement none l.latch.instrs = some (some increment) ∧
      (countIterations l.predicate initValue value increment).isSome
  | .variable .. => (latchIncrement none l.latch.instrs).isSome

/-- The variable that the iterator is compared with is an iterator of a loop before, or is loaded
before the iterator and initialised with a constant. -/
def VariableKnown (c : Collector) (l : LoopForm) : Prop :=
  match l.bound with
  | .constant .. => True
  | .variable _ pointer first => pointer ∈ c.iteratorsAliasMap ∨
      first = true ∧ pointer ∈ c.aliasInfoMap ∧ (c.initialConstant l pointer).isSome

/-- The iterator is initialised with the constant first stored to it, it is that of no loop before,
and the variable compared with is not taken for it. -/
structure HeaderKnown (c : Collector) (l : LoopForm) : Prop where
  initValue : ∃ address value, l.initValue = .constantInt address value ∧
    c.initialConstant l l.iterator = some value ∧ CountKnown l value
  new : l.iterator ∉ c.iteratorsAliasMap
  allocated : l.iterator ∈ c.aliasInfoMap
  «variable» : c.VariableKnown l

variable {c c' : Collector} {l : LoopForm}

/-! ### The preheader -/

theorem mem_renewAlias {m : ExtTreeMap Reg Reg} {pointer result register : Reg} :
    register ∈ renewAlias m pointer result ↔ register ∈ m := ExtTreeMap.mem_modify

/-- An entry that is there stays. -/
theorem getElem?_insertIfNew_or {β : Type} (m : ExtTreeMap Reg β) (k a : Reg) (v : β) :
    (m.insertIfNew k v)[a]? = (m[a]?).or (if k = a then some v else none) := by
  simp only [ExtTreeMap.getElem?_insertIfNew, Std.compare_eq_iff_eq]
  by_cases heq : k = a
  · subst heq
    by_cases hmem : k ∈ m
    · obtain ⟨w, hw⟩ := Option.isSome_iff_exists.mp (ExtTreeMap.mem_iff_isSome_getElem?.mp hmem)
      rw [if_neg fun h => h.2 hmem, hw, Option.some_or]
    · rw [if_pos ⟨rfl, hmem⟩, ExtTreeMap.getElem?_eq_none hmem, Option.none_or, if_pos rfl]
  · rw [if_neg fun h => heq h.1, if_neg heq, Option.or_none]

/-- What the instructions of a preheader do to the maps. -/
structure AfterPreheader (c : Collector) (preheader : List Instr) (c' : Collector) : Prop where
  initValuesMap : ∀ register : Reg, c'.initValuesMap[register]? =
    (c.initValuesMap[register]?).or (firstStored register preheader)
  iteratorsAliasMap : ∀ register : Reg, register ∈ c'.iteratorsAliasMap ↔ register ∈ c.iteratorsAliasMap
  aliasInfoMap : c'.aliasInfoMap = c.aliasInfoMap
  loopInfoMap : c'.loopInfoMap = c.loopInfoMap
  loopIteratorMap : c'.loopIteratorMap = c.loopIteratorMap

theorem afterPreheader_step (c : Collector) (I : Instr) : AfterPreheader c [I] (c.preheaderStep I) := by
  have hsame : ∀ {c' : Collector}, (fun register => firstStored register [I]) = (fun _ => none) →
    c'.initValuesMap = c.initValuesMap →
      (∀ register : Reg, (c'.initValuesMap[register]?) =
        (c.initValuesMap[register]?).or (firstStored register [I])) := by
    intro c' hnone hmap register
    rw [congrFun hnone register, hmap, Option.or_none]
  cases I with
  | store operand0 pointer =>
    cases operand0 with
    | constantInt address value =>
      refine ⟨fun register => ?_, fun _ => Iff.rfl, rfl, rfl, rfl⟩
      rw [preheaderStep, getElem?_insertIfNew_or]
      by_cases heq : pointer = register <;> simp [firstStored, heq]
    | value address =>
      rw [preheaderStep]
      split
      all_goals exact ⟨hsame rfl rfl, fun _ => Iff.rfl, rfl, rfl, rfl⟩
  | load result pointer => exact ⟨hsame rfl rfl, fun _ => mem_renewAlias, rfl, rfl, rfl⟩
  | binary | icmp | branch | ptr | sext | other => exact ⟨hsame rfl rfl, fun _ => Iff.rfl, rfl, rfl, rfl⟩

theorem firstStored_cons (register : Reg) (I : Instr) (rest : List Instr) :
    firstStored register (I :: rest) = (firstStored register [I]).or (firstStored register rest) := by
  rw [firstStored, firstStored, List.findSome?_cons, List.findSome?_cons, List.findSome?_nil]
  split <;> simp [firstStored]

/-- **A preheader** keeps the constants that are there, and the iterators. -/
theorem afterPreheader (preheader : List Instr) (c : Collector) :
    AfterPreheader c preheader (c.parseLoopPreheader preheader) := by
  induction preheader generalizing c with
  | nil => exact ⟨fun _ => (Option.or_none).symm, fun _ => Iff.rfl, rfl, rfl, rfl⟩
  | cons I rest ih =>
    have hstep := afterPreheader_step c I
    have hrest := ih (c.preheaderStep I)
    exact
      { initValuesMap := fun register => by
          rw [firstStored_cons, ← Option.or_assoc, ← hstep.initValuesMap]
          exact hrest.initValuesMap register
        iteratorsAliasMap := fun register =>
          (hrest.iteratorsAliasMap register).trans (hstep.iteratorsAliasMap register)
        aliasInfoMap := hrest.aliasInfoMap.trans hstep.aliasInfoMap
        loopInfoMap := hrest.loopInfoMap.trans hstep.loopInfoMap
        loopIteratorMap := hrest.loopIteratorMap.trans hstep.loopIteratorMap }

/-! ### The loads of the header -/

/-- A load of an iterator that is known. -/
theorem headerLoad_of_mem {h : Header} {result pointer : Reg} (hmem : pointer ∈ h.c.iteratorsAliasMap) :
    headerLoad h result pointer =
      some { h with c := { h.c with iteratorsAliasMap := renewAlias h.c.iteratorsAliasMap pointer result } } := by
  obtain ⟨a, ha⟩ := Option.isSome_iff_exists.mp (ExtTreeMap.mem_iff_isSome_getElem?.mp hmem)
  rw [headerLoad, ha]
  cases h.c.initValuesMap[pointer]? <;> rfl

/-- A load of a register that is not known to be an iterator. -/
theorem headerLoad_of_not_mem {h h' : Header} {result pointer : Reg}
    (hmem : pointer ∉ h.c.iteratorsAliasMap) :
    headerLoad h result pointer = some h' ↔ ∃ initValue, h.c.initValuesMap[pointer]? = some initValue ∧
      pointer ∈ h.c.aliasInfoMap ∧ h' = h.enter result pointer initValue := by
  rw [headerLoad, ExtTreeMap.getElem?_eq_none hmem]
  cases hinit : h.c.initValuesMap[pointer]? with
  | none => simp
  | some initValue =>
    by_cases hallocated : pointer ∈ h.c.aliasInfoMap
    · simp [hallocated, eq_comm]
    · simp [hallocated]

/-- The loads of a header. -/
def headerLoads (h : Header) (loads : List (Reg × Reg)) : Option Header :=
  loads.foldlM (fun h load => headerLoad h load.1 load.2) h

/-- The loads that the header of a loop makes besides that of its iterator are of iterators that are
known, or come before it. -/
def LoadsKnown (p : Collector) (l : LoopForm) : Prop :=
  match l.bound with
  | .constant .. => True
  | .variable _ pointer first => pointer ∈ p.iteratorsAliasMap ∨
      first = true ∧ pointer ∈ p.aliasInfoMap ∧ (p.initValuesMap[pointer]?).isSome

/-- The iterator of a loop is new, and the only register that its header takes for an iterator
last. -/
structure IteratorKnown (p : Collector) (l : LoopForm) : Prop where
  new : l.iterator ∉ p.iteratorsAliasMap
  allocated : l.iterator ∈ p.aliasInfoMap
  initialised : (p.initValuesMap[l.iterator]?).isSome
  loads : LoadsKnown p l

/-- After the loads of its header the iterator of a loop is found, with the constant recorded for
it. -/
structure Found (p : Collector) (l : LoopForm) (loopInfo : LoopInfoStruct) (h : Header) : Prop where
  it : h.it = some l.iterator
  loopInfo : h.loopInfo = { loopInfo with
    iteratorInitValue := p.initValuesMap[l.iterator]?, isInitValueConstant := some true }
  loopInfoMap : h.c.loopInfoMap = p.loopInfoMap

variable {p : Collector} {loopInfo : LoopInfoStruct}

theorem headerLoads_cons {h : Header} {result pointer : Reg} {rest : List (Reg × Reg)} :
    headerLoads h ((result, pointer) :: rest) = (headerLoad h result pointer).bind (headerLoads · rest) := rfl

/-- **The loads of a header** that find its iterator. -/
theorem found_of_headerLoads {h : Header} (hload : headerLoads ⟨p, loopInfo, none⟩ l.loads = some h)
    (hit : h.it = some l.iterator) : IteratorKnown p l ∧ Found p l loopInfo h := by
  unfold LoopForm.loads at hload
  cases hbound : l.bound with
  | constant address value =>
    rw [hbound, headerLoads_cons] at hload
    by_cases hnew : l.iterator ∈ p.iteratorsAliasMap
    · rw [headerLoad_of_mem hnew] at hload
      obtain rfl := Option.some.inj hload
      cases hit
    · obtain ⟨h₁, h₁', hload⟩ := Option.bind_eq_some_iff.mp hload
      obtain ⟨initValue, hinit, hallocated, rfl⟩ := (headerLoad_of_not_mem hnew).mp h₁'
      obtain rfl := Option.some.inj hload
      exact ⟨⟨hnew, hallocated, Option.isSome_of_eq_some hinit, by rw [LoadsKnown, hbound]; trivial⟩,
        rfl, by rw [hinit]; rfl, rfl⟩
  | «variable» result pointer first =>
    have hne := l.bound_ne result pointer first hbound
    rw [hbound] at hload
    cases first with
    | false =>
      rw [headerLoads_cons] at hload
      obtain ⟨h₁, h₁', hload⟩ := Option.bind_eq_some_iff.mp hload
      rw [headerLoads_cons] at hload
      obtain ⟨h₂, h₂', hload⟩ := Option.bind_eq_some_iff.mp hload
      obtain rfl := Option.some.inj hload
      by_cases hpointer : pointer ∈ h₁.c.iteratorsAliasMap
      · rw [headerLoad_of_mem hpointer] at h₂'
        obtain rfl := Option.some.inj h₂'
        by_cases hnew : l.iterator ∈ p.iteratorsAliasMap
        · rw [headerLoad_of_mem hnew] at h₁'
          obtain rfl := Option.some.inj h₁'
          cases hit
        · obtain ⟨initValue, hinit, hallocated, rfl⟩ := (headerLoad_of_not_mem hnew).mp h₁'
          have hknown : pointer ∈ p.iteratorsAliasMap := by
            rcases ExtTreeMap.mem_insert.mp hpointer with heq | hmem
            · exact absurd (Std.compare_eq_iff_eq.mp heq).symm hne
            · exact hmem
          exact ⟨⟨hnew, hallocated, Option.isSome_of_eq_some hinit,
            by rw [LoadsKnown, hbound]; exact .inl hknown⟩,
            rfl, by rw [hinit]; rfl, rfl⟩
      · obtain ⟨initValue, -, -, rfl⟩ := (headerLoad_of_not_mem hpointer).mp h₂'
        exact absurd (Option.some.inj hit) hne
    | true =>
      rw [headerLoads_cons] at hload
      obtain ⟨h₁, h₁', hload⟩ := Option.bind_eq_some_iff.mp hload
      rw [headerLoads_cons] at hload
      obtain ⟨h₂, h₂', hload⟩ := Option.bind_eq_some_iff.mp hload
      obtain rfl := Option.some.inj hload
      by_cases hpointer : pointer ∈ p.iteratorsAliasMap
      · rw [headerLoad_of_mem hpointer] at h₁'
        obtain rfl := Option.some.inj h₁'
        by_cases hnew : l.iterator ∈ p.iteratorsAliasMap
        · rw [headerLoad_of_mem (mem_renewAlias.mpr hnew)] at h₂'
          obtain rfl := Option.some.inj h₂'
          cases hit
        · obtain ⟨initValue, hinit, hallocated, rfl⟩ :=
            (headerLoad_of_not_mem fun h => hnew (mem_renewAlias.mp h)).mp h₂'
          exact ⟨⟨hnew, hallocated, Option.isSome_of_eq_some hinit,
            by rw [LoadsKnown, hbound]; exact .inl hpointer⟩,
            rfl, by rw [show p.initValuesMap[l.iterator]? = some initValue from hinit]; rfl, rfl⟩
      · obtain ⟨first, hfirst, hpointerAllocated, rfl⟩ := (headerLoad_of_not_mem hpointer).mp h₁'
        by_cases hnew : l.iterator ∈ p.iteratorsAliasMap
        · rw [headerLoad_of_mem (ExtTreeMap.mem_insert.mpr (.inr hnew))] at h₂'
          obtain rfl := Option.some.inj h₂'
          exact absurd (Option.some.inj hit) hne
        · have hnew' : l.iterator ∉ (p.iteratorsAliasMap.insert pointer result) := by
            rw [ExtTreeMap.mem_insert, Std.compare_eq_iff_eq]
            exact not_or.mpr ⟨hne, hnew⟩
          obtain ⟨initValue, hinit, hallocated, rfl⟩ := (headerLoad_of_not_mem hnew').mp h₂'
          exact ⟨⟨hnew, (ExtTreeMap.mem_erase.mp hallocated).2, Option.isSome_of_eq_some hinit, by
              rw [LoadsKnown, hbound]
              exact .inr ⟨rfl, hpointerAllocated, Option.isSome_of_eq_some hfirst⟩⟩,
            rfl, by rw [show p.initValuesMap[l.iterator]? = some initValue from hinit]; rfl, rfl⟩

/-- An iterator that is known is found. -/
theorem headerLoads_of_known (hknown : IteratorKnown p l) (loopInfo : LoopInfoStruct) :
    ∃ h, headerLoads ⟨p, loopInfo, none⟩ l.loads = some h ∧ h.it = some l.iterator := by
  obtain ⟨initValue, hinit⟩ := Option.isSome_iff_exists.mp hknown.initialised
  have hloads := hknown.loads
  unfold LoadsKnown at hloads
  unfold LoopForm.loads
  cases hbound : l.bound with
  | constant address value =>
    exact ⟨_, Option.bind_eq_some_iff.mpr
      ⟨_, (headerLoad_of_not_mem hknown.new).mpr ⟨initValue, hinit, hknown.allocated, rfl⟩, rfl⟩, rfl⟩
  | «variable» result pointer first =>
    have hne := l.bound_ne result pointer first hbound
    simp only [hbound] at hloads
    cases first with
    | false =>
      have hpointer : pointer ∈ p.iteratorsAliasMap := hloads.resolve_right fun h => Bool.false_ne_true h.1
      refine ⟨_, Option.bind_eq_some_iff.mpr
        ⟨_, (headerLoad_of_not_mem hknown.new).mpr ⟨initValue, hinit, hknown.allocated, rfl⟩,
          Option.bind_eq_some_iff.mpr ⟨_, headerLoad_of_mem (ExtTreeMap.mem_insert.mpr (.inr hpointer)), rfl⟩⟩, rfl⟩
    | true =>
      by_cases hpointer : pointer ∈ p.iteratorsAliasMap
      · exact ⟨_, Option.bind_eq_some_iff.mpr ⟨_, headerLoad_of_mem hpointer, Option.bind_eq_some_iff.mpr
          ⟨_, (headerLoad_of_not_mem fun h => hknown.new (mem_renewAlias.mp h)).mpr
            ⟨initValue, hinit, hknown.allocated, rfl⟩, rfl⟩⟩, rfl⟩
      · obtain ⟨-, hpointerAllocated, hfirst⟩ := hloads.resolve_left hpointer
        obtain ⟨first, hfirst⟩ := Option.isSome_iff_exists.mp hfirst
        have hnew' : l.iterator ∉ (p.iteratorsAliasMap.insert pointer result) := by
          rw [ExtTreeMap.mem_insert, Std.compare_eq_iff_eq]
          exact not_or.mpr ⟨hne, hknown.new⟩
        have hallocated' : l.iterator ∈ p.aliasInfoMap.erase pointer :=
          ExtTreeMap.mem_erase.mpr ⟨fun h => hne (Std.compare_eq_iff_eq.mp h), hknown.allocated⟩
        exact ⟨_, Option.bind_eq_some_iff.mpr ⟨_, (headerLoad_of_not_mem hpointer).mpr
          ⟨first, hfirst, hpointerAllocated, rfl⟩, Option.bind_eq_some_iff.mpr
            ⟨_, (headerLoad_of_not_mem hnew').mpr ⟨initValue, hinit, hallocated', rfl⟩, rfl⟩⟩, rfl⟩

/-! ### The comparison -/

/-- A comparison keeps the members, the iterator, what is known of its initial value and the
body. -/
theorem headerIcmp_keeps {h h' : Header} {predicate : Option Predicate} {operand1 : Operand}
    (hcompare : headerIcmp h predicate operand1 = some h') : h'.c = h.c ∧ h'.it = h.it ∧
      h'.loopInfo.iteratorInitValue = h.loopInfo.iteratorInitValue ∧
      h'.loopInfo.isInitValueConstant = h.loopInfo.isInitValueConstant ∧
      h'.loopInfo.loopBody = h.loopInfo.loopBody := by
  cases operand1 with
  | constantInt address value =>
    obtain ⟨_, -, hcompare⟩ := Option.bind_eq_some_iff.mp hcompare
    obtain ⟨_, -, hcompare⟩ := Option.bind_eq_some_iff.mp hcompare
    obtain ⟨_, -, hcompare⟩ := Option.bind_eq_some_iff.mp hcompare
    obtain rfl := Option.some.inj hcompare
    exact ⟨rfl, rfl, rfl, rfl, rfl⟩
  | value address =>
    rw [headerIcmp] at hcompare
    split at hcompare
    all_goals
      obtain rfl := Option.some.inj hcompare
      exact ⟨rfl, rfl, rfl, rfl, rfl⟩

/-- When a comparison comes to nothing that is undefined. -/
theorem headerIcmp_isSome (h : Header) (predicate : Option Predicate) (operand1 : Operand) :
    (headerIcmp h predicate operand1).isSome ↔ ∀ address value, operand1 = .constantInt address value →
      ∃ initValue increment, h.loopInfo.iteratorInitValue = some initValue ∧
        h.loopInfo.iteratorIncrement = some increment ∧
        (countIterations predicate initValue value increment).isSome := by
  cases operand1 with
  | constantInt address value =>
    have hbind : (headerIcmp h predicate (.constantInt address value)).isSome ↔ ∃ initValue increment,
        h.loopInfo.iteratorInitValue = some initValue ∧ h.loopInfo.iteratorIncrement = some increment ∧
          (countIterations predicate initValue value increment).isSome := by
      rw [headerIcmp]
      cases h.loopInfo.iteratorInitValue <;> cases h.loopInfo.iteratorIncrement <;> simp
      cases countIterations predicate _ value _ <;> simp
    rw [hbind]
    exact ⟨fun h _ _ heq => by cases heq; exact h, fun h => h address value rfl⟩
  | value address =>
    rw [headerIcmp]
    split <;> simp

/-- The header of a loop, by its parts. -/
theorem parseLoopHeaderAndLatch_eq_some {c₁ : Collector} {it : Reg} :
    p.parseLoopHeaderAndLatch l.header l.latch l.latchPredecessor = some (c₁, it) ↔ ∃ increment h h',
      latchIncrement none l.latch.instrs = some increment ∧
      headerLoads ⟨p, latchInfo l.header l.latch increment, none⟩ l.loads = some h ∧
      headerIcmp h l.predicate l.operand1 = some h' ∧ h'.it = some it ∧
      c₁ = { h'.c with
        loopBodyList := h'.c.loopBodyList ++ [l.body, l.latchPredecessor]
        loopInfoMap := h'.c.loopInfoMap.insertIfNew it
          { h'.loopInfo with loopBody := h'.loopInfo.loopBody ++ [l.body, l.latchPredecessor] } } := by
  have hheader : ∀ h₀, l.header.instrs.foldlM (headerStep l.latchPredecessor) h₀ =
      (headerLoads h₀ l.loads).bind fun h => (headerIcmp h l.predicate l.operand1).bind fun h' =>
        headerStep l.latchPredecessor h' (.branch l.body) := by
    intro h₀
    rw [LoopForm.header, LoopForm.instrs, List.foldlM_append, List.foldlM_map]
    refine congrArg (Option.bind (headerLoads h₀ l.loads)) (funext fun h => ?_)
    rw [List.foldlM_cons]
    refine congrArg (Option.bind (headerIcmp h l.predicate l.operand1)) (funext fun h' => ?_)
    rfl
  rw [parseLoopHeaderAndLatch]
  simp only [Option.bind_eq_bind, Option.bind_eq_some_iff, hheader]
  constructor
  · rintro ⟨increment, hincrement, h₂, ⟨h, hh, h', hh', hbranch⟩, it', hit', heq⟩
    obtain rfl := Option.some.inj hbranch
    obtain ⟨rfl, rfl⟩ := Prod.mk.inj (Option.some.inj heq)
    exact ⟨increment, h, h', hincrement, hh, hh', hit', rfl⟩
  · rintro ⟨increment, h, h', hincrement, hh, hh', hit', rfl⟩
    exact ⟨increment, hincrement, _, ⟨h, hh, h', hh', rfl⟩, it, hit', rfl⟩

/-! ### The loops before -/

/-- The registers allocated are those of the first block. -/
theorem mem_aliasInfoMap_start (allocas : List (Reg × AllocatedType)) (register : Reg) :
    register ∈ (start allocas).aliasInfoMap ↔ register ∈ allocas.map (·.1) := by
  have hfold : ∀ info : CollectInfo, register ∈ (info.parseAllocaInstructions allocas).aliasInfoMap ↔
      register ∈ info.aliasInfoMap ∨ register ∈ allocas.map (·.1) := by
    induction allocas with
    | nil => simp [CollectInfo.parseAllocaInstructions]
    | cons I rest ih =>
      intro info
      rw [CollectInfo.parseAllocaInstructions, List.foldl_cons]
      refine (ih (info.parseAlloca I)).trans ?_
      rw [CollectInfo.parseAlloca, ExtTreeMap.mem_insertIfNew, Std.compare_eq_iff_eq, List.map_cons,
        List.mem_cons, eq_comm, or_assoc, or_left_comm]
  exact (hfold _).trans (or_iff_right ExtTreeMap.not_mem_empty)

/-- No iterator is known before the first loop. -/
theorem iteratorsAliasMap_start (allocas : List (Reg × AllocatedType)) :
    (start allocas).iteratorsAliasMap = ∅ := by
  have hfold : ∀ info : CollectInfo,
    (info.parseAllocaInstructions allocas).iteratorsAliasMap = info.iteratorsAliasMap := by
    induction allocas with
    | nil => exact fun _ => rfl
    | cons I rest ih => exact fun info => ih (info.parseAlloca I)
  exact hfold _

/-- The loops with an info have an iterator that is known. -/
def InfosKnown (c : Collector) : Prop := ∀ it : Reg, it ∈ c.loopInfoMap → it ∈ c.iteratorsAliasMap

/-- What the instructions of a header do, whatever they are. -/
structure HeaderKeeps (h h' : Header) : Prop where
  loopInfoMap : h'.c.loopInfoMap = h.c.loopInfoMap
  iteratorsAliasMap : ∀ it : Reg, it ∈ h.c.iteratorsAliasMap → it ∈ h'.c.iteratorsAliasMap
  it : ∀ it ∈ h'.it, it ∈ h.it ∨ it ∈ h'.c.iteratorsAliasMap

theorem headerKeeps_step {latchPredecessor : Reg} {h h' : Header} {I : Instr}
    (hstep : headerStep latchPredecessor h I = some h') : HeaderKeeps h h' := by
  cases I with
  | load result pointer =>
    by_cases hmem : pointer ∈ h.c.iteratorsAliasMap
    · rw [headerStep, headerLoad_of_mem hmem] at hstep
      obtain rfl := Option.some.inj hstep
      exact ⟨rfl, fun it hit => mem_renewAlias.mpr hit, fun it hit => .inl hit⟩
    · obtain ⟨initValue, -, -, rfl⟩ := (headerLoad_of_not_mem hmem).mp hstep
      refine ⟨rfl, fun it hit => ExtTreeMap.mem_insert.mpr (.inr hit), fun it hit => .inr ?_⟩
      obtain rfl := Option.some.inj hit
      exact ExtTreeMap.mem_insert_self
  | icmp result predicate operand0 operand1 =>
    obtain ⟨hc, hit, -⟩ := headerIcmp_keeps hstep
    exact ⟨congrArg (·.loopInfoMap) hc, fun it h => by rw [hc]; exact h, fun it h => .inl (hit ▸ h)⟩
  | branch operand2 =>
    obtain rfl := Option.some.inj hstep
    exact ⟨rfl, fun _ h => h, fun _ h => .inl h⟩
  | store | binary | ptr | sext | other => cases hstep

theorem headerKeeps_foldlM {latchPredecessor : Reg} {instrs : List Instr} {h h' : Header}
    (hrun : instrs.foldlM (headerStep latchPredecessor) h = some h') : HeaderKeeps h h' := by
  induction instrs generalizing h with
  | nil =>
    obtain rfl := Option.some.inj hrun
    exact ⟨rfl, fun _ h => h, fun _ h => .inl h⟩
  | cons I rest ih =>
    obtain ⟨h₁, hstep, hrun⟩ := Option.bind_eq_some_iff.mp hrun
    have hfirst := headerKeeps_step hstep
    have hrest := ih hrun
    refine ⟨hrest.loopInfoMap.trans hfirst.loopInfoMap,
      fun it h => hrest.iteratorsAliasMap it (hfirst.iteratorsAliasMap it h),
      fun it h => ?_⟩
    rcases hrest.it it h with h | h
    · exact (hfirst.it it h).imp_right (hrest.iteratorsAliasMap it)
    · exact .inr h

/-- A loop keeps the loops known. -/
theorem infosKnown_collectLoop {L : Loop} (hc : c.InfosKnown) (hloop : c.collectLoop L = some c') :
    c'.InfosKnown := by
  obtain ⟨⟨c₁, it⟩, hparse, hloop⟩ := Option.bind_eq_some_iff.mp hloop
  obtain ⟨parentIts, -, hloop⟩ := Option.bind_eq_some_iff.mp hloop
  obtain rfl := Option.some.inj hloop
  obtain ⟨_, -, hparse⟩ := Option.bind_eq_some_iff.mp hparse
  obtain ⟨h, hrun, hparse⟩ := Option.bind_eq_some_iff.mp hparse
  obtain ⟨it', hit, hparse⟩ := Option.bind_eq_some_iff.mp hparse
  obtain ⟨rfl, rfl⟩ := Prod.mk.inj (Option.some.inj hparse)
  have hkeeps := headerKeeps_foldlM hrun
  have hpreheader := afterPreheader L.preheader c
  intro it h'
  rcases ExtTreeMap.mem_insertIfNew.mp h' with heq | hmem
  · obtain rfl := Std.compare_eq_iff_eq.mp heq
    exact (hkeeps.it _ hit).resolve_left fun h => nomatch h
  · rw [hkeeps.loopInfoMap, hpreheader.loopInfoMap] at hmem
    exact hkeeps.iteratorsAliasMap it ((hpreheader.iteratorsAliasMap it).mpr (hc it hmem))

theorem infosKnown_collectLoopInfo {loops : List Loop} (hc : c.InfosKnown)
    (hloops : c.collectLoopInfo loops = some c') :
    c'.InfosKnown := by
  induction loops generalizing c with
  | nil => exact Option.some.inj hloops ▸ hc
  | cons L rest ih =>
    obtain ⟨c₁, hloop, hloops⟩ := Option.bind_eq_some_iff.mp hloops
    exact ih (infosKnown_collectLoop hc hloop) hloops

/-- After any loops the loops with an info have an iterator that is known. -/
theorem Reachable.infosKnown (hc : c.Reachable) : c.InfosKnown := by
  obtain ⟨allocas, loops, hloops⟩ := hc
  exact infosKnown_collectLoopInfo (fun it h => absurd h ExtTreeMap.not_mem_empty) hloops

/-! ### The header of a loop -/

/-- The loads of a header after its preheader, by the members before the preheader. -/
theorem iteratorKnown_iff :
    IteratorKnown (c.parseLoopPreheader l.preheader) l ↔ l.iterator ∉ c.iteratorsAliasMap ∧
    l.iterator ∈ c.aliasInfoMap ∧ (c.initialConstant l l.iterator).isSome ∧ c.VariableKnown l := by
  have hp := afterPreheader l.preheader c
  have hloads : LoadsKnown (c.parseLoopPreheader l.preheader) l ↔ c.VariableKnown l := by
    unfold LoadsKnown VariableKnown initialConstant
    split
    · rfl
    · rw [hp.iteratorsAliasMap, hp.aliasInfoMap, hp.initValuesMap]
  have hinit :
      (c.parseLoopPreheader l.preheader).initValuesMap[l.iterator]? = c.initialConstant l l.iterator :=
    hp.initValuesMap l.iterator
  constructor
  · rintro ⟨hnew, hallocated, hinitialised, hknown⟩
    exact ⟨fun h => hnew ((hp.iteratorsAliasMap _).mpr h), hp.aliasInfoMap ▸ hallocated, hinit ▸ hinitialised,
      hloads.mp hknown⟩
  · rintro ⟨hnew, hallocated, hinitialised, hknown⟩
    exact ⟨fun h => hnew ((hp.iteratorsAliasMap _).mp h), hp.aliasInfoMap.symm ▸ hallocated,
      hinit.symm ▸ hinitialised,
      hloads.mpr hknown⟩

theorem CountKnown.latchIncrement {initValue : ℤ} (h : CountKnown l initValue) :
    ∃ increment, Collector.latchIncrement none l.latch.instrs = some increment := by
  unfold CountKnown at h
  split at h
  · obtain ⟨increment, h, -⟩ := h
    exact ⟨_, h⟩
  · exact Option.isSome_iff_exists.mp h

/-- The comparison of a header whose iterator is found. -/
theorem headerIcmp_isSome_of_found {h : Header} {increment : Option ℤ} {value : ℤ}
    (hfound : Found p l (latchInfo l.header l.latch increment) h)
    (hinit : p.initValuesMap[l.iterator]? = some value)
    (hincrement : latchIncrement none l.latch.instrs = some increment) :
    (headerIcmp h l.predicate l.operand1).isSome ↔ CountKnown l value := by
  rw [headerIcmp_isSome, hfound.loopInfo, hinit]
  unfold LoopForm.operand1 CountKnown
  cases l.bound with
  | constant address final =>
    simp only [latchInfo, hincrement, Option.some.injEq]
    constructor
    · intro hcount
      obtain ⟨_, k, rfl, hk, hsome⟩ := hcount address final rfl
      exact ⟨k, hk, hsome⟩
    · rintro ⟨k, hk, hsome⟩ _ _ heq
      obtain ⟨rfl, rfl⟩ := Operand.constantInt.inj heq
      exact ⟨value, k, rfl, hk, hsome⟩
  | «variable» result pointer first =>
    simp [hincrement]

/-- **The header of a loop**, after any loops of the function: its iterator is returned and its
initial value recorded exactly when that is the constant first stored to a new iterator. -/
theorem headerRight_iff (hc : c.Reachable) : c.HeaderRight l ↔ c.HeaderKnown l := by
  have hp := afterPreheader l.preheader c
  have hinitial :
      (c.parseLoopPreheader l.preheader).initValuesMap[l.iterator]? = c.initialConstant l l.iterator :=
    hp.initValuesMap l.iterator
  constructor
  · rintro ⟨c', info, hparse, hinfo, hrecords⟩
    obtain ⟨increment, h, h', hincrement, hload, hcompare, hit, rfl⟩ :=
      parseLoopHeaderAndLatch_eq_some.mp hparse
    obtain ⟨hkeepsC, hkeepsIt, hkeepsValue, hkeepsConstant, -⟩ := headerIcmp_keeps hcompare
    obtain ⟨hknown, hfound⟩ := found_of_headerLoads hload (hkeepsIt ▸ hit)
    obtain ⟨hnew, hallocated, hinitialised, hvariable⟩ := iteratorKnown_iff.mp hknown
    obtain ⟨value, hvalue⟩ := Option.isSome_iff_exists.mp hinitialised
    have hfresh : l.iterator ∉ h'.c.loopInfoMap := by
      rw [hkeepsC, hfound.loopInfoMap, hp.loopInfoMap]
      exact fun h => hnew (hc.infosKnown _ h)
    have hsome : (headerIcmp h l.predicate l.operand1).isSome := Option.isSome_of_eq_some hcompare
    have hcount := (headerIcmp_isSome_of_found hfound (hinitial.trans hvalue) hincrement).mp hsome
    rw [getElem?_insertIfNew_or, ExtTreeMap.getElem?_eq_none hfresh, Option.none_or, if_pos rfl] at hinfo
    obtain rfl := Option.some.inj hinfo
    refine ⟨?_, hnew, hallocated, hvariable⟩
    unfold Records at hrecords
    simp only [hkeepsValue, hkeepsConstant, hfound.loopInfo, hinitial, hvalue] at hrecords
    split at hrecords
    · next address v hinit => exact ⟨address, v, hinit, hvalue.trans hrecords.2,
        Option.some.inj hrecords.2 ▸ hcount⟩
    · cases hrecords
  · intro hknown
    obtain ⟨address, value, hinit, hvalue, hcount⟩ := hknown.initValue
    obtain ⟨increment, hincrement⟩ := hcount.latchIncrement
    obtain ⟨h, hload, hit⟩ := headerLoads_of_known (iteratorKnown_iff.mpr
      ⟨hknown.new, hknown.allocated, Option.isSome_of_eq_some hvalue, hknown.variable⟩)
      (latchInfo l.header l.latch increment)
    obtain ⟨-, hfound⟩ := found_of_headerLoads hload hit
    obtain ⟨h', hcompare⟩ := Option.isSome_iff_exists.mp
      ((headerIcmp_isSome_of_found hfound (hinitial.trans hvalue) hincrement).mpr hcount)
    obtain ⟨hkeepsC, hkeepsIt, hkeepsValue, hkeepsConstant, -⟩ := headerIcmp_keeps hcompare
    have hfresh : l.iterator ∉ h'.c.loopInfoMap := by
      rw [hkeepsC, hfound.loopInfoMap, hp.loopInfoMap]
      exact fun h => hknown.new (hc.infosKnown _ h)
    refine ⟨_, { h'.loopInfo with loopBody := h'.loopInfo.loopBody ++ [l.body, l.latchPredecessor] },
      parseLoopHeaderAndLatch_eq_some.mpr ⟨increment, h, h', hincrement, hload, hcompare,
        hkeepsIt.trans hit, rfl⟩, ?_, ?_⟩
    · rw [getElem?_insertIfNew_or, ExtTreeMap.getElem?_eq_none hfresh, Option.none_or, if_pos rfl]
    · rw [hinit, Records]
      simp only [hkeepsValue, hkeepsConstant, hfound.loopInfo, hinitial, hvalue, and_self]

/-- The registers of the iterators `i` and `j` and of the variable `n`. -/
def threeVariables : List (Reg × AllocatedType) := [(4, .other), (8, .other), (12, .other)]

/-- The members after the loop `for (j = 0; j < 3; ++j)`, whose preheader initialises `i` too. -/
def afterLoop : Collector :=
  ((start threeVariables).collectLoopInfo
    [⟨100, [.store (.constantInt 1 0) 8, .store (.constantInt 1 0) 4],
      ⟨104, [.load 20 8, .icmp 24 (some .slt) (.value 20) (.constantInt 2 3), .branch 108]⟩,
      ⟨112, [.load 28 8, .binary 32 .add (.value 28) (.constantInt 3 1), .store (.value 32) 8]⟩, 108, []⟩]).get
    (by decide +kernel)

/-- The loop `for (i = 0; i < bound; ++i)`. -/
def countingLoop (preheader : List Instr) (bound : Bound)
    (initialised : lastStored 4 preheader = some (.constantInt 1 0))
    (bound_ne : ∀ result pointer first, bound = .variable result pointer first → pointer ≠ 4) : LoopForm :=
  { iterator := 4
    preheader
    initValue := .constantInt 1 0
    headerAddress := 204
    loaded := 40
    compared := 44
    predicate := some .slt
    bound
    body := 208
    latch := ⟨212, [.load 48 4, .binary 52 .add (.value 48) (.constantInt 3 1), .store (.value 52) 4]⟩
    latchPredecessor := 208
    initialised
    bound_ne }

/-- `for (i = 0; i < j; ++i)` after the loop of `j`. -/
theorem headerRight_iff_outerBound : afterLoop.HeaderRight
    (countingLoop [.store (.constantInt 1 0) 4] (.variable 56 8 false) rfl (by simp)) :=
  (headerRight_iff ⟨threeVariables, _, (Option.some_get _).symm⟩).mpr
    { initValue := ⟨1, 0, rfl, by decide +kernel, rfl⟩
      new := by decide +kernel
      allocated := by decide +kernel
      «variable» := .inl (by decide +kernel) }

/-- `n = 5; for (i = 0; i < n; ++i)`. -/
def boundedLoop : LoopForm :=
  countingLoop [.store (.constantInt 5 5) 12, .store (.constantInt 1 0) 4] (.variable 56 12 false) rfl (by simp)

/-- The variable `n` is taken for the iterator of this loop. -/
theorem bound_taken_for_iterator : ¬ (start threeVariables).HeaderRight boundedLoop := by
  rintro ⟨c', info, hparse, -⟩
  have hreturned : (((start threeVariables).parseLoopPreheader boundedLoop.preheader).parseLoopHeaderAndLatch
      boundedLoop.header boundedLoop.latch boundedLoop.latchPredecessor).map (·.2) =
        some 12 := by decide +kernel
  rw [hparse] at hreturned
  have heq : (4 : Reg) = 12 := Option.some.inj hreturned
  exact absurd heq (by decide)

end Collector

end Octantis
