import Octantis.Analysis.ArraySizes
import Octantis.Binding.Reachable
import Octantis.Scheduling.ASAP

/-!
# The binding phase

The constructor of the binder goes over the instruction table in its order and binds every
entry: a load row by row, an accumulation set by set, any other operation of `LimOperations`
element by element.

## The model

An iteration of the loop is a step `bindEntry` of the binder and of `addrListSrc1`, the
address list that an accumulation may find as the entry before it left it. `BinderInput` is
what the binder reads besides the table. `none` is an `llvm_unreachable` or an operation
that C++ leaves undefined; the one of `findInANM` is told from the others by the registers
that an entry looks up (`lookups`).

## What is proved

* `givesRows_bindStep`: a step changes the rows of its own register only, and leaves it some;
* `bindEntry_run`: an entry is a run of the steps of `bindStep`, and so is the loop
  (`reaches_of_run`), whose loads are at time 0 when the table is scheduled
  (`reaches_of_scheduled`);
* `bindsAll_iff`: the loop binds every key exactly when no entry it comes to is an `lshr`,
  has a constant for a source outside the accumulations, or has no row to bind.

## Honest scope

How the pointers of an entry select rows is the field `access` of the input. The detector
emits `lshr`, which `LimOperations` does not have (`lshr_not_bound`), and constants, which
`findInANM` does not find (`constant_not_found`).
-/

namespace Octantis

open Std Lib

/-- What the accesses of an entry, and the loops around it, make of the rows of its sources. -/
structure EntryAccess where
  /-- The address list of the first source, from the rows of its register. -/
  accessed1 : List Name → List Name
  /-- The address list of the second one. -/
  accessed2 : List Name → List Name
  /-- The accumulation sets, from the address list of the first source. -/
  sets : List Name → Option (List (List Name))

/-- What the binder reads besides the instruction table. -/
structure BinderInput where
  /-- The parallelism. -/
  par : ℤ
  /-- The optimisation target. -/
  optTarget : String
  /-- The information collected. -/
  infoCollection : CollectInfo
  /-- The accesses of the entry of each register. -/
  access : Reg → EntryAccess
  /-- What the shift path finds, for each element of the entry of each register. -/
  junk : Reg → ℕ → Indeterminate

/-- The binder between two entries. -/
structure BindingPhase where
  /-- The maps of the binder. -/
  binder : LiMBinder
  /-- `addrListSrc1`. -/
  addrListSrc1 : List Name

namespace InstructionData

/-- `find(specifications.begin(), specifications.end(), "accumulation")`. -/
def isAccumulation (d : InstructionData) : Bool := d.specifications.contains "accumulation"

/-- The registers that `findInANM` is asked for. -/
def lookups (d : InstructionData) : List Reg :=
  if d.operation = .load ∨ LimOperations d.operation = none then []
  else if d.isAccumulation then
    (match d.srcReg1Type with
      | .singleVariable | .fakeArray | .array => [d.sourceReg1]
      | .temporaryVariable | .constant | .undefined => []) ++
    if d.srcReg2Type = .fakeArray then [d.sourceReg2] else []
  else [d.sourceReg1, d.sourceReg2]

end InstructionData

namespace BinderInput

variable (I : BinderInput)

/-- The rows of a load: `getArraySize` of an array, one otherwise. -/
def numIter (destReg : Reg) : Option ℤ :=
  if I.infoCollection.isArray destReg then I.infoCollection.getArraySize destReg else some 1

/-- The first source of a fully parallel operation. -/
def source1 (destReg : Reg) (d : InstructionData) : Source :=
  ⟨d.sourceReg1, d.srcReg1Type, (I.access destReg).accessed1⟩

/-- The second source. -/
def source2 (destReg : Reg) (d : InstructionData) : Source :=
  ⟨d.sourceReg2, d.srcReg2Type, (I.access destReg).accessed2⟩

/-- The address list of the first source of an accumulation: that of the entry before, when its type
has no branch. -/
def addrListSrc1 (s : BindingPhase) (destReg : Reg) (d : InstructionData) : Option (List Name) :=
  match d.srcReg1Type with
  | .singleVariable | .fakeArray => s.binder.findInANM d.sourceReg1
  | .array => (s.binder.findInANM d.sourceReg1).map (I.access destReg).accessed1
  | .temporaryVariable | .constant | .undefined => some s.addrListSrc1

/-- The accumulation sets of an entry. -/
def accumulationSets (s : BindingPhase) (destReg : Reg) (d : InstructionData) :
    Option (List (List Name)) :=
  (I.addrListSrc1 s destReg d).bind (I.access destReg).sets

/-- `handleAccumulationBindingProcess`: the sets are bound one by one. -/
def handleAccumulationBindingProcess (s : BindingPhase) (destReg : Reg) (d : InstructionData) :
    Option BindingPhase := do
  let addrListSrc1 ← I.addrListSrc1 s destReg d
  let _ ← (if d.srcReg2Type = .fakeArray then s.binder.findInANM d.sourceReg2 else some [])
  let sets ← (I.access destReg).sets addrListSrc1
  let b ← run (fun b l => b.performAccBinding l d.operation d.specifications destReg) s.binder sets
  return ⟨b, addrListSrc1⟩

/-- `handleFPOperationBindingProcess`, with the address list it leaves. -/
def handleFPOperationBindingProcess (s : BindingPhase) (destReg : Reg) (d : InstructionData) :
    Option BindingPhase := do
  let rows1 ← s.binder.findInANM d.sourceReg1
  let b ← s.binder.handleFPOperationBindingProcess d.operation d.specifications destReg
    (I.source1 destReg d) (I.source2 destReg d) (I.junk destReg)
  return ⟨b, (I.source1 destReg d).addrList rows1⟩

/-- One entry of the loop. An operation that `LimOperations` does not have is skipped. -/
def bindEntry (s : BindingPhase) (destReg : Reg) (d : InstructionData) : Option BindingPhase :=
  if d.operation = .load then
    (I.numIter destReg).map fun numIter =>
      { s with binder := s.binder.handleLoadOperationBindingProcess destReg d.ti numIter.toNat }
  else if LimOperations d.operation = none then some s
  else if d.isAccumulation then I.handleAccumulationBindingProcess s destReg d
  else I.handleFPOperationBindingProcess s destReg d

/-- One iteration of the loop. -/
def step (T : InstructionTable) (s : BindingPhase) (e : Reg × Operation) : Option BindingPhase :=
  (T.find e.1).bind (I.bindEntry s e.1)

/-- The binder before the first entry. -/
def start : BindingPhase := ⟨.init I.par I.optTarget, []⟩

/-- **The constructor**: the entries in the order of the table, then `transform`. -/
def liMBinder (T : InstructionTable) : Option LiMBinder :=
  (run (I.step T) I.start T.instructionOrderVector).map fun s =>
    { s.binder with FSMLim := s.binder.FSMLim.transform }

/-! ### What the loop is to do -/

/-- Every entry that the loop comes to satisfies the property, in the state in which it comes
to it. -/
def EveryEntry (T : InstructionTable) (P : BindingPhase → Reg → InstructionData → Prop) : Prop :=
  ∀ i < T.instructionOrderVector.length, ∀ e ∈ T.instructionOrderVector[i]?,
    ∀ s ∈ run (I.step T) I.start (T.instructionOrderVector.take i), ∀ d ∈ T.find e.1, P s e.1 d

instance (T : InstructionTable) (P : BindingPhase → Reg → InstructionData → Prop)
    [∀ s k d, Decidable (P s k d)] : Decidable (I.EveryEntry T P) := by
  unfold EveryEntry
  infer_instance

/-- `findInANM` finds what the entry looks up. -/
def SourcesFound (s : BindingPhase) (_ : Reg) (d : InstructionData) : Prop :=
  ∀ reg ∈ d.lookups, (s.binder.findInANM reg).isSome

/-- **The loop binds every key**: it never comes to the `llvm_unreachable` of `findInANM`, and when
it ends every key has rows. -/
structure BindsAll (T : InstructionTable) : Prop where
  found : I.EveryEntry T SourcesFound
  bound : ∀ s, run (I.step T) I.start T.instructionOrderVector = some s → ∀ k ∈ T.instructionMap,
    ∃ rows, s.binder.findInANM k = some rows ∧ rows ≠ []

/-- The loop is stopped by nothing but `findInANM`. -/
def StopsInANM (T : InstructionTable) : Prop :=
  I.EveryEntry T fun s k d => SourcesFound s k d → (I.bindEntry s k d).isSome

/-- The entry has a row to bind: an array with elements, an element, an accumulation set. -/
def HasRow (s : BindingPhase) (destReg : Reg) (d : InstructionData) : Prop :=
  if d.operation = .load then ∀ numIter ∈ I.numIter destReg, 0 < numIter
  else if d.isAccumulation then ∀ sets ∈ I.accumulationSets s destReg d, sets ≠ []
  else ∀ n ∈ s.binder.numElements (I.source1 destReg d) (I.source2 destReg d), 0 < n

instance (s : BindingPhase) (destReg : Reg) (d : InstructionData) : Decidable (I.HasRow s destReg d) := by
  unfold HasRow
  infer_instance

/-- The binder can bind the entry: it is no `lshr`, no constant is looked up, and it has a row to
bind. -/
structure Bindable (s : BindingPhase) (destReg : Reg) (d : InstructionData) : Prop where
  operation : d.operation ≠ .lshr
  sources : d.operation ≠ .load → d.isAccumulation = false →
    d.srcReg1Type ≠ .constant ∧ d.srcReg2Type ≠ .constant
  rows : I.HasRow s destReg d

end BinderInput

/-- **The tables of the detector**: the order lists the keys, the operations are loads and those
that the detector emits, and a source is a constant, which is no key, or a key placed earlier. -/
structure InstructionTable.Placed (T : InstructionTable) : Prop where
  nodup : (T.instructionOrderVector.map (·.1)).Nodup
  listed : ∀ k ∈ T.instructionMap.keys, k ∈ T.instructionOrderVector.map (·.1)
  keys : ∀ k ∈ T.instructionOrderVector.map (·.1), k ∈ T.instructionMap
  operations : ∀ e ∈ T.instructionMap.toList, e.2.operation = .load ∨ e.2.operation.isEmitted = true
  sources : ∀ i < T.instructionOrderVector.length, ∀ e ∈ T.instructionOrderVector[i]?, ∀ d ∈ T.find e.1,
    d.operation ≠ .load →
    (d.srcReg1Type ≠ .constant → d.sourceReg1 ∈ (T.instructionOrderVector.take i).map (·.1)) ∧
    (d.srcReg2Type ≠ .constant → d.sourceReg2 ∈ (T.instructionOrderVector.take i).map (·.1))
  constants : ∀ e ∈ T.instructionMap.toList, e.2.operation ≠ .load →
    (e.2.srcReg1Type = .constant → e.2.sourceReg1 ∉ T.instructionMap) ∧
    (e.2.srcReg2Type = .constant → e.2.sourceReg2 ∉ T.instructionMap)

variable {s s' : BinderState} {a : BindingAction} {actions : List BindingAction}

/-! ### The rows of a register -/

/-- The register that the action binds. -/
def BindingAction.destReg? : BindingAction → Option Reg
  | load destReg _ | element _ _ destReg _ _ _ | accumulate _ _ destReg _ => some destReg
  | enter _ | leave => none

theorem LiMBinder.findInANM_addNewItem (b : LiMBinder) (destReg reg : Reg) (n : Name) :
    (b.addNewItem destReg n).findInANM reg =
      if reg = destReg then some (b.rowsOf destReg ++ [n]) else b.findInANM reg :=
  getElem?_addNewItem b destReg reg n

/-- A state in which only the register `destReg` may have got rows, and has some. -/
def LiMBinder.GivesRows (b b' : LiMBinder) (destReg : Reg) : Prop :=
  (∀ reg, reg ≠ destReg → b'.findInANM reg = b.findInANM reg) ∧
    ∃ rows, b'.findInANM destReg = some rows ∧ rows ≠ []

theorem LiMBinder.givesRows_addNewItem (b : LiMBinder) (destReg : Reg) (n : Name) :
    b.GivesRows (b.addNewItem destReg n) destReg := by
  refine ⟨fun reg hreg => ?_, b.rowsOf destReg ++ [n], ?_, by simp⟩
  · rw [findInANM_addNewItem, if_neg hreg]
  · rw [findInANM_addNewItem, if_pos rfl]

theorem LiMBinder.GivesRows.of_eq {b b' b'' : LiMBinder} {destReg : Reg} (h : b.GivesRows b' destReg)
    (heq : b''.arrayNamesMap = b'.arrayNamesMap) : b.GivesRows b'' destReg := by
  have hfind : ∀ reg, b''.findInANM reg = b'.findInANM reg := fun reg => by rw [findInANM, heq]; rfl
  exact ⟨fun reg hreg => (hfind reg).trans (h.1 reg hreg), by rw [hfind]; exact h.2⟩

/-- An element gives its register a row: the one reused, or the name of the element. -/
theorem givesRows_element {operation : Operation} {specifications : List String} {destReg : Reg}
    {src1 src2 : Name} {junk : Indeterminate} (hs : s.WellFormed)
    (h : bindStep s (.element operation specifications destReg src1 src2 junk) = some s') :
    s.binder.GivesRows s'.binder destReg := by
  obtain ⟨hop, dest, b', htmp, hn, hle, -, hb', rfl⟩ := bindStep_element hs h
  have hnew := s.binder.givesRows_addNewItem destReg dest
  rcases LiMBinder.performBinding_cases hb' with
    ⟨d, -, hf, rfl⟩ | ⟨d, op, -, -, -, rfl⟩ | ⟨-, -, hshift⟩ | ⟨-, -, hmap⟩
  · have hrows := hn.arrayNamesMap_reuse hf destReg
    refine ⟨fun reg hreg => ?_, s.binder.rowsOf destReg ++ [d], ?_, by simp⟩
    · have hreg' := hrows reg
      rw [if_neg hreg] at hreg'
      exact hreg'
    · have hreg' := hrows destReg
      rw [if_pos rfl] at hreg'
      exact hreg'
  · exact hnew.of_eq rfl
  · obtain ⟨-, hnames, -⟩ := (LiMBinder.mapShift_cases (b := s.binder.addNewItem destReg dest) hs.loads
      (hn.fresh (Nat.le_refl _)) (hn.fresh (show dest ≤ s.binder.zeroAddr by lia)) hshift).frame
    exact hnew.of_eq hnames
  · obtain ⟨w, row, other, base, t, -, -, hrest⟩ :=
      LiMBinder.mapOperation_realizes (b := s.binder.addNewItem destReg dest) (hn.fresh (Nat.le_refl _))
        (hn.fresh (show dest ≤ s.binder.zeroAddr by lia)) (show dest ≠ s.binder.zeroAddr by lia) hmap
    refine hnew.of_eq ?_
    show b'.arrayNamesMap = _
    rw [hrest]

/-- **A step changes the rows of its own register only**, and leaves it some. -/
theorem givesRows_bindStep (hs : s.WellFormed) (h : bindStep s a = some s') :
    match a.destReg? with
    | some destReg => s.binder.GivesRows s'.binder destReg
    | none => s'.binder.arrayNamesMap = s.binder.arrayNamesMap := by
  cases a with
  | load destReg ti =>
    obtain ⟨-, h⟩ := Option.ite_none_right_eq_some.mp h
    cases h
    exact (s.binder.givesRows_addNewItem destReg s.binder.zeroAddr).of_eq rfl
  | enter constants =>
    obtain ⟨-, h⟩ := Option.ite_none_right_eq_some.mp h
    cases h
    rfl
  | element operation specifications destReg src1 src2 junk => exact givesRows_element hs h
  | leave =>
    obtain ⟨-, h⟩ := Option.ite_none_right_eq_some.mp h
    cases h
    rfl
  | accumulate operation specifications destReg accumulationList =>
    obtain ⟨hop, hb, b', hb', rfl⟩ := bindStep_accumulate hs h
    obtain ⟨pairs, b₁, row, hrun, -, rfl⟩ := LiMBinder.performAccBinding_run hb hop hb'
    have hnames := (LiMBinder.frame_pairs hb hop hrun).1
    obtain ⟨hother, hrows⟩ := b₁.givesRows_addNewItem destReg row
    refine ⟨fun reg hreg => (hother reg hreg).trans ?_, hrows⟩
    rw [LiMBinder.findInANM, hnames]
    rfl

/-- The rows after a run: only the registers that it binds have got rows, and each of them has
some. -/
theorem findInANM_run (hs : s.WellFormed) (h : run bindStep s actions = some s') (reg : Reg) :
    if ∃ a ∈ actions, a.destReg? = some reg then ∃ rows, s'.binder.findInANM reg = some rows ∧ rows ≠ []
    else s'.binder.findInANM reg = s.binder.findInANM reg := by
  refine (run_induction (P := fun actions s' => s'.WellFormed ∧
    if ∃ a ∈ actions, a.destReg? = some reg then ∃ rows, s'.binder.findInANM reg = some rows ∧ rows ≠ []
    else s'.binder.findInANM reg = s.binder.findInANM reg) ⟨hs, by simp⟩ ?_ h).2
  rintro before s₁ a s₂ - ⟨hs₁, ih⟩ hstep
  refine ⟨(wellFormed_bindStep hs₁ hstep).1, ?_⟩
  have hgives := givesRows_bindStep hs₁ hstep
  by_cases ha : a.destReg? = some reg
  · rw [if_pos ⟨a, by simp, ha⟩]
    rw [ha] at hgives
    exact hgives.2
  · have hsame : s₂.binder.findInANM reg = s₁.binder.findInANM reg := by
      cases hdest : a.destReg? with
      | none =>
        rw [hdest] at hgives
        rw [LiMBinder.findInANM, hgives]
        rfl
      | some destReg =>
        rw [hdest] at hgives
        exact hgives.1 reg fun heq => ha (by rw [hdest, heq])
    have hiff : (∃ a' ∈ before ++ [a], a'.destReg? = some reg) ↔ ∃ a' ∈ before, a'.destReg? = some reg := by
      simp only [List.mem_append, List.mem_singleton, or_and_right, exists_or, exists_eq_left, ha, or_false]
    simpa only [hiff, hsame] using ih

/-! ### An entry, as a run of steps -/

/-- The action is one of those of an entry. -/
def BindingAction.OfEntry (destReg : Reg) (d : InstructionData) : BindingAction → Prop
  | load reg ti => d.operation = .load ∧ reg = destReg ∧ ti = d.ti
  | element operation specifications reg _ _ _ | accumulate operation specifications reg _ =>
    operation = d.operation ∧ specifications = d.specifications ∧ reg = destReg
  | enter _ | leave => True

theorem BindingAction.OfEntry.destReg? {destReg : Reg} {d : InstructionData} (h : a.OfEntry destReg d) :
    a.destReg? = some destReg ∨ a.destReg? = none := by
  cases a with
  | load => exact .inl (congrArg some h.2.1)
  | element | accumulate => exact .inl (congrArg some h.2.2)
  | enter | leave => exact .inr rfl

/-- Accumulation sets, as actions. -/
theorem run_accumulate {b b' : LiMBinder} {operation : Operation} (hop : operation.isBound = true)
    (specifications : List String) (destReg : Reg) {sets : List (List Name)}
    (h : run (fun b l => b.performAccBinding l operation specifications destReg) b sets = some b') :
    run bindStep ⟨b, none⟩ (sets.map (.accumulate operation specifications destReg)) = some ⟨b', none⟩ := by
  induction sets generalizing b with
  | nil =>
    cases h
    rfl
  | cons l sets ih =>
    obtain ⟨b₁, h₁, h⟩ := Option.bind_eq_some_iff.mp h
    have hstep : bindStep ⟨b, none⟩ (.accumulate operation specifications destReg l) = some ⟨b₁, none⟩ := by
      simp only [bindStep, Option.isNone_none, hop, Bool.and_self, if_true, h₁, Option.bind_eq_bind,
        Option.bind_some]
      rfl
    rw [List.map_cons, run_cons, hstep]
    exact ih h

namespace BinderInput

variable {I : BinderInput} {T : InstructionTable} {p p' : BindingPhase} {k : Reg} {d : InstructionData}

/-- **An entry is a run of steps**: those of its register, some of them when it has a row to
bind. -/
theorem bindEntry_run (h : I.bindEntry p k d = some p') :
    ∃ actions, run bindStep ⟨p.binder, none⟩ actions = some ⟨p'.binder, none⟩ ∧
      (∀ a ∈ actions, a.OfEntry k d) ∧
      ((∃ a ∈ actions, a.destReg? = some k) ↔ LimOperations d.operation ≠ none ∧ I.HasRow p k d) := by
  unfold bindEntry at h
  split at h
  · next hload =>
    obtain ⟨numIter, hiter, rfl⟩ := Option.map_eq_some_iff.mp h
    refine ⟨_, handleLoadOperationBindingProcess_run p.binder k d.ti numIter.toNat, fun a ha => ?_, ?_⟩
    · obtain rfl := List.eq_of_mem_replicate ha
      exact ⟨hload, rfl, rfl⟩
    · simp only [List.mem_replicate, HasRow, hload, if_true, hiter, Option.mem_def, Option.some.injEq]
      constructor
      · rintro ⟨a, ⟨hne, -⟩, -⟩
        refine ⟨by decide, fun n hn => ?_⟩
        omega
      · rintro ⟨-, hpos⟩
        have := hpos numIter rfl
        exact ⟨_, ⟨by omega, rfl⟩, rfl⟩
  next hload =>
  split at h
  · next hnone =>
    cases h
    exact ⟨[], rfl, by simp, by simp [hnone]⟩
  next hlim =>
  have hop : d.operation.isBound = true := by
    simp only [Operation.isBound, Bool.and_eq_true, decide_eq_true_eq]
    exact ⟨hload, Option.isSome_iff_ne_none.mpr hlim⟩
  split at h
  · next hacc =>
    obtain ⟨addrListSrc1, haddr, h⟩ := Option.bind_eq_some_iff.mp h
    obtain ⟨-, -, h⟩ := Option.bind_eq_some_iff.mp h
    obtain ⟨sets, hsets, h⟩ := Option.bind_eq_some_iff.mp h
    obtain ⟨b', hb', h⟩ := Option.bind_eq_some_iff.mp h
    cases h
    refine ⟨_, run_accumulate hop d.specifications k hb', fun a ha => ?_, ?_⟩
    · obtain ⟨l, -, rfl⟩ := List.mem_map.mp ha
      exact ⟨rfl, rfl, rfl⟩
    · have haccs : I.accumulationSets p k d = some sets := by rw [accumulationSets, haddr,
        Option.bind_some, hsets]
      simp only [HasRow, if_neg hload, if_pos hacc, haccs, Option.mem_def, Option.some.injEq, ne_eq, hlim,
        not_false_eq_true, true_and, forall_eq']
      constructor
      · rintro ⟨a, ha, -⟩ rfl
        simp at ha
      · intro hne
        obtain ⟨l, hl⟩ := List.exists_mem_of_ne_nil sets hne
        exact ⟨_, List.mem_map.mpr ⟨l, hl, rfl⟩, rfl⟩
  · next hacc =>
    obtain ⟨rows1, -, h⟩ := Option.bind_eq_some_iff.mp h
    obtain ⟨b', hb', h⟩ := Option.bind_eq_some_iff.mp h
    cases h
    obtain ⟨elements, hnum, hrun, hall⟩ := handleFPOperationBindingProcess_elements hop hb'
    refine ⟨_, hrun, fun a ha => ?_, ?_⟩
    · simp only [List.mem_cons, List.mem_append, List.not_mem_nil, or_false] at ha
      rcases ha with rfl | ha | rfl
      · trivial
      · obtain ⟨src1, src2, j, rfl⟩ := hall a ha
        exact ⟨rfl, rfl, rfl⟩
      · trivial
    · simp only [HasRow, if_neg hload, if_neg hacc, hnum, Option.mem_def, Option.some.injEq, ne_eq, hlim,
        not_false_eq_true, true_and, forall_eq']
      constructor
      · rintro ⟨a, ha, hdest⟩
        simp only [List.mem_cons, List.mem_append, List.not_mem_nil, or_false] at ha
        rcases ha with rfl | ha | rfl
        · cases hdest
        · exact List.length_pos_of_mem ha
        · cases hdest
      · intro hpos
        obtain ⟨a, ha⟩ := List.exists_mem_of_length_pos hpos
        obtain ⟨src1, src2, j, rfl⟩ := hall a ha
        exact ⟨_, List.mem_cons_of_mem _ (List.mem_append_left _ ha), rfl⟩

/-- **The loop is a run of steps** of the entries it has done. -/
theorem reaches_of_run {entries : List (Reg × Operation)} (h : run (I.step T) I.start entries = some p) :
    ∃ actions, Reaches I.par I.optTarget actions ⟨p.binder, none⟩ ∧
      ∀ a ∈ actions, ∃ e ∈ entries, ∃ d, T.find e.1 = some d ∧ a.OfEntry e.1 d := by
  refine run_induction (P := fun entries p => ∃ actions, Reaches I.par I.optTarget actions ⟨p.binder, none⟩ ∧
    ∀ a ∈ actions, ∃ e ∈ entries, ∃ d, T.find e.1 = some d ∧ a.OfEntry e.1 d) ?_ ?_ h
  · exact ⟨[], rfl, by simp⟩
  rintro entries p e p' - ⟨actions, hreach, hall⟩ hstep
  obtain ⟨d, hd, hentry⟩ := Option.bind_eq_some_iff.mp hstep
  obtain ⟨more, hrun, hmore, -⟩ := bindEntry_run hentry
  refine ⟨actions ++ more, by rw [Reaches, run_append, hreach, Option.bind_some, hrun], fun a ha => ?_⟩
  rcases List.mem_append.mp ha with ha | ha
  · obtain ⟨e', he', d', hd', hof⟩ := hall a ha
    exact ⟨e', List.mem_append_left _ he', d', hd', hof⟩
  · exact ⟨e, by simp, d, hd, hmore a ha⟩

/-- The loop over a scheduled table loads at time 0, and binds a shift only for an entry that is
one. -/
theorem reaches_of_scheduled {T₀ : InstructionTable} (hT : ASAP.scheduleFunction T₀ = some T)
    {entries : List (Reg × Operation)} (h : run (I.step T) I.start entries = some p) :
    ∃ actions, Reaches I.par I.optTarget actions ⟨p.binder, none⟩ ∧ (∀ a ∈ actions, a.scheduled) ∧
      ((∀ e ∈ T.instructionMap.toList, e.2.operation.isShift = false) → ∀ a ∈ actions, a.noShift) := by
  obtain ⟨actions, hreach, hall⟩ := reaches_of_run h
  refine ⟨actions, hreach, fun a ha => ?_, fun hshift a ha => ?_⟩
  · obtain ⟨e, -, d, hd, hof⟩ := hall a ha
    cases a with
    | load destReg ti =>
      obtain ⟨hload, -, rfl⟩ := hof
      exact ASAP.ti_of_load hT hd hload
    | enter | element | leave | accumulate => trivial
  · obtain ⟨e, -, d, hd, hof⟩ := hall a ha
    have hd := hshift (e.1, d) (ASAP.find_eq_some_iff_mem.mp hd)
    cases a with
    | element | accumulate =>
      obtain ⟨rfl, -⟩ := hof
      exact hd
    | load | enter | leave => trivial

theorem wellFormed_of_run {entries : List (Reg × Operation)} (h : run (I.step T) I.start entries = some p) :
    BinderState.WellFormed ⟨p.binder, none⟩ := by
  obtain ⟨actions, hreach, -⟩ := reaches_of_run h
  exact wellFormed_of_reaches hreach

/-! ### The rows of the keys -/

/-- An entry changes the rows of its key only, which gets some when it is bound and has a row. -/
theorem findInANM_step {entries : List (Reg × Operation)} {e : Reg × Operation}
    (hrun : run (I.step T) I.start entries = some p) (hd : T.find e.1 = some d)
    (h : I.step T p e = some p') (reg : Reg) :
    if reg = e.1 ∧ LimOperations d.operation ≠ none ∧ I.HasRow p e.1 d then
      ∃ rows, p'.binder.findInANM reg = some rows ∧ rows ≠ []
    else p'.binder.findInANM reg = p.binder.findInANM reg := by
  rw [step, hd, Option.bind_some] at h
  obtain ⟨actions, hactions, hof, hiff⟩ := bindEntry_run h
  have hrows := findInANM_run (wellFormed_of_run hrun) hactions reg
  have heq : (∃ a ∈ actions, a.destReg? = some reg) ↔
      reg = e.1 ∧ LimOperations d.operation ≠ none ∧ I.HasRow p e.1 d := by
    constructor
    · rintro ⟨a, ha, hdest⟩
      obtain rfl : reg = e.1 := by
        rcases (hof a ha).destReg? with hk | hnone
        · rw [hk, Option.some.injEq] at hdest
          exact hdest.symm
        · rw [hnone] at hdest
          cases hdest
      exact ⟨rfl, hiff.mp ⟨a, ha, hdest⟩⟩
    · rintro ⟨rfl, h⟩
      exact hiff.mpr h
  simpa only [heq] using hrows

/-- The registers that have rows are keys of the entries done. -/
theorem mem_of_findInANM {entries : List (Reg × Operation)} (h : run (I.step T) I.start entries = some p)
    {reg : Reg} (hreg : (p.binder.findInANM reg).isSome) : reg ∈ entries.map (·.1) := by
  refine run_induction (P := fun entries p => run (I.step T) I.start entries = some p ∧
    ((p.binder.findInANM reg).isSome → reg ∈ entries.map (·.1))) ⟨rfl, fun hreg => ?_⟩ ?_ h |>.2 hreg
  · simp [start, LiMBinder.init, LiMBinder.findInANM] at hreg
  · rintro entries p e p' hrun ⟨-, ih⟩ hstep
    refine ⟨by rw [run_snoc hrun, hstep], fun hreg => ?_⟩
    obtain ⟨d, hd, -⟩ := Option.bind_eq_some_iff.mp hstep
    have hrows := findInANM_step hrun hd hstep reg
    rw [List.map_append, List.mem_append]
    split at hrows
    · next hcond => exact .inr (by simp [hcond.1])
    · rw [hrows] at hreg
      exact .inl (ih hreg)

/-- Entries of other keys leave the rows of a register as they are. -/
theorem findInANM_of_not_mem {entries after : List (Reg × Operation)}
    (h : run (I.step T) I.start entries = some p) (hafter : run (I.step T) p after = some p') {reg : Reg}
    (hreg : reg ∉ after.map (·.1)) : p'.binder.findInANM reg = p.binder.findInANM reg := by
  refine (run_induction (P := fun after p' => run (I.step T) I.start (entries ++ after) = some p' ∧
    (reg ∉ after.map (·.1) → p'.binder.findInANM reg = p.binder.findInANM reg))
    ⟨by rw [List.append_nil, h], fun _ => rfl⟩ ?_ hafter).2 hreg
  rintro as p₁ e p₂ - ⟨hrun, ih⟩ hstep
  refine ⟨by rw [← List.append_assoc, run_snoc hrun, hstep], fun hreg => ?_⟩
  simp only [List.map_append, List.map_cons, List.map_nil, List.mem_append, List.mem_singleton,
    not_or] at hreg
  obtain ⟨d, hd, -⟩ := Option.bind_eq_some_iff.mp hstep
  have hrows := findInANM_step hrun hd hstep reg
  rw [if_neg fun hcond => hreg.2 hcond.1] at hrows
  rw [hrows, ih hreg.1]

/-! ### The loop -/

theorem EveryEntry.of_prefix {P : BindingPhase → Reg → InstructionData → Prop} (h : I.EveryEntry T P)
    {before : List (Reg × Operation)} {e : Reg × Operation}
    (hpre : before ++ [e] <+: T.instructionOrderVector) (hrun : run (I.step T) I.start before = some p)
    (hd : T.find e.1 = some d) : P p e.1 d := by
  obtain ⟨after, hafter⟩ := hpre
  refine h before.length ?_ e ?_ p ?_ d hd
  · rw [← hafter, List.length_append, List.length_append, List.length_singleton]
    omega
  · rw [← hafter, List.append_assoc, List.getElem?_append_right (Nat.le_refl _), Nat.sub_self]
    rfl
  · rw [← hafter, List.append_assoc, List.take_left, hrun]
    rfl

/-- Every key that a loop of bindable entries has done has rows. -/
theorem rows_of_bindable (hT : T.Placed) (h : I.EveryEntry T I.Bindable) {before : List (Reg × Operation)}
    (hpre : before <+: T.instructionOrderVector) (hrun : run (I.step T) I.start before = some p) :
    ∀ k ∈ before.map (·.1), ∃ rows, p.binder.findInANM k = some rows ∧ rows ≠ [] := by
  refine (run_induction (P := fun before p => before <+: T.instructionOrderVector →
    run (I.step T) I.start before = some p ∧
    ∀ k ∈ before.map (·.1), ∃ rows, p.binder.findInANM k = some rows ∧ rows ≠ []) ?_ ?_ hrun hpre).2
  · exact fun _ => ⟨rfl, by simp⟩
  · rintro before p e p' - ih hstep hpre
    obtain ⟨hrun, hrows⟩ := ih ((List.prefix_append _ _).trans hpre)
    refine ⟨by rw [run_snoc hrun, hstep], fun k hk => ?_⟩
    obtain ⟨d, hd, -⟩ := Option.bind_eq_some_iff.mp hstep
    have hbindable := h.of_prefix hpre hrun hd
    have hlim : LimOperations d.operation ≠ none := by
      rcases hT.operations (e.1, d) (ASAP.find_eq_some_iff_mem.mp hd) with hload | hemitted
      · have hload : d.operation = .load := hload
        rw [hload]
        decide
      · have hemitted : d.operation.isEmitted = true := hemitted
        have hne := hbindable.operation
        revert hemitted hne
        cases d.operation <;> decide
    have hnew := findInANM_step hrun hd hstep k
    split at hnew
    · exact hnew
    · next hcond =>
      rw [hnew]
      refine hrows k ?_
      simp only [List.map_append, List.map_cons, List.map_nil, List.mem_append, List.mem_singleton] at hk
      exact hk.resolve_right fun hk => hcond ⟨hk, hlim, hbindable.rows⟩

/-- A loop that comes to bindable entries only binds every key. -/
theorem bindsAll_of_bindable (hT : T.Placed) (h : I.EveryEntry T I.Bindable) : I.BindsAll T where
  found := by
    intro i hi e he p hp d hd reg hreg
    have hpre : T.instructionOrderVector.take i <+: T.instructionOrderVector := List.take_prefix _ _
    have hrows := rows_of_bindable hT h hpre hp
    have hbindable := h i hi e he p hp d hd
    have hfound : ∀ src, src ∈ (T.instructionOrderVector.take i).map (·.1) →
        (p.binder.findInANM src).isSome := by
      intro src hsrc
      obtain ⟨rows, hfind, -⟩ := hrows src hsrc
      exact Option.isSome_of_eq_some hfind
    unfold InstructionData.lookups at hreg
    split at hreg
    · simp at hreg
    next hop =>
    rw [not_or] at hop
    obtain ⟨h1, h2⟩ := hT.sources i hi e he d hd hop.1
    split at hreg
    · rcases List.mem_append.mp hreg with hreg | hreg
      · cases htype : d.srcReg1Type with
        | singleVariable | fakeArray | array =>
          rw [htype] at hreg
          obtain rfl := List.mem_singleton.mp hreg
          exact hfound _ (h1 (by rw [htype]; decide))
        | temporaryVariable | constant | undefined =>
          rw [htype] at hreg
          cases hreg
      · split at hreg
        · next htype =>
          obtain rfl := List.mem_singleton.mp hreg
          exact hfound _ (h2 (by rw [htype]; decide))
        · cases hreg
    · next hacc =>
      obtain ⟨hconst1, hconst2⟩ := hbindable.sources hop.1 (by simpa using hacc)
      rcases List.mem_cons.mp hreg with rfl | hreg
      · exact hfound _ (h1 hconst1)
      · obtain rfl := List.mem_singleton.mp hreg
        exact hfound _ (h2 hconst2)
  bound := by
    intro p hp k hk
    exact rows_of_bindable hT h (List.prefix_refl _) hp k (hT.listed k (ExtTreeMap.mem_keys.mpr hk))

/-- A loop that only `findInANM` could stop ends, when the sources are found. -/
theorem exists_run_of_found (hT : T.Placed) (hstop : I.StopsInANM T) (h : I.EveryEntry T SourcesFound) :
    ∀ i ≤ T.instructionOrderVector.length,
      ∃ p, run (I.step T) I.start (T.instructionOrderVector.take i) = some p := by
  intro i
  induction i with
  | zero => exact fun _ => ⟨I.start, by simp⟩
  | succ i ih =>
    intro hi
    obtain ⟨p, hp⟩ := ih (by omega)
    have hget := List.getElem?_eq_getElem (show i < T.instructionOrderVector.length by omega)
    have hmem : T.instructionOrderVector[i].1 ∈ T.instructionMap :=
      hT.keys _ (List.mem_map.mpr ⟨_, List.getElem_mem _, rfl⟩)
    obtain ⟨d, hd⟩ := Option.isSome_iff_exists.mp ((InstructionTable.isSome_find T _).mpr hmem)
    have hsome := hstop i (by omega) _ hget p hp d hd (h i (by omega) _ hget p hp d hd)
    obtain ⟨p', hp'⟩ := Option.isSome_iff_exists.mp hsome
    refine ⟨p', ?_⟩
    rw [List.take_add_one, hget, Option.toList_some, run_snoc hp, step, hd, Option.bind_some, hp']

/-- The entries of a loop that binds every key are bindable, when nothing else stops it. -/
theorem bindable_of_bindsAll (hT : T.Placed) (hstop : I.StopsInANM T) (h : I.BindsAll T) :
    I.EveryEntry T I.Bindable := by
  intro i hi e he p hp d hd
  obtain ⟨p', hp'⟩ := exists_run_of_found hT hstop h.found T.instructionOrderVector.length (Nat.le_refl _)
  rw [List.take_length] at hp'
  have hsplit : T.instructionOrderVector = T.instructionOrderVector.take i ++
      e :: T.instructionOrderVector.drop (i + 1) := by
    obtain ⟨hlt, rfl⟩ := List.getElem?_eq_some_iff.mp he
    rw [List.cons_getElem_drop_succ, List.take_append_drop]
  have hnodup := hT.nodup
  rw [hsplit, List.map_append, List.map_cons, List.nodup_append, List.nodup_cons] at hnodup
  obtain ⟨-, ⟨hafter, -⟩, hdisjoint⟩ := hnodup
  have hbefore : e.1 ∉ (T.instructionOrderVector.take i).map (·.1) :=
    fun hmem => hdisjoint e.1 hmem e.1 List.mem_cons_self rfl
  -- the rows of the key at the end are those that its entry gives it
  have hrun := hp'
  rw [hsplit, run_append, hp, Option.bind_some, run_cons] at hrun
  obtain ⟨p₁, hstep, hrest⟩ := Option.bind_eq_some_iff.mp hrun
  have hkey : e.1 ∈ T.instructionMap := (InstructionTable.isSome_find T _).mp (Option.isSome_of_eq_some hd)
  obtain ⟨rows, hrows, -⟩ := h.bound p' hp' e.1 hkey
  rw [findInANM_of_not_mem ((run_snoc hp).trans hstep) hrest hafter] at hrows
  have hnone : p.binder.findInANM e.1 = none := by
    rw [← Option.not_isSome_iff_eq_none]
    exact fun hsome => hbefore (mem_of_findInANM hp hsome)
  have hnew := findInANM_step hp hd hstep e.1
  have hbound : LimOperations d.operation ≠ none ∧ I.HasRow p e.1 d := by
    by_contra hnot
    rw [if_neg fun hcond => hnot hcond.2, hrows, hnone] at hnew
    cases hnew
  refine ⟨fun hlshr => hbound.1 (by rw [hlshr]; rfl), fun hload hacc => ?_, hbound.2⟩
  have hlookups : d.lookups = [d.sourceReg1, d.sourceReg2] := by
    rw [InstructionData.lookups, if_neg (not_or.mpr ⟨hload, hbound.1⟩), if_neg (by rw [hacc]; decide)]
  have hfound := h.found i hi e he p hp d hd
  rw [SourcesFound, hlookups] at hfound
  obtain ⟨h1, h2⟩ := hT.constants (e.1, d) (ASAP.find_eq_some_iff_mem.mp hd) hload
  have hkeys : ∀ src, (p.binder.findInANM src).isSome → src ∈ T.instructionMap := by
    intro src hsrc
    obtain ⟨e', he', hsrc⟩ := List.mem_map.mp (mem_of_findInANM hp hsrc)
    exact hT.keys src (List.mem_map.mpr ⟨e', List.mem_of_mem_take he', hsrc⟩)
  exact ⟨fun hconst => h1 hconst (hkeys _ (hfound _ (by simp))),
    fun hconst => h2 hconst (hkeys _ (hfound _ (by simp)))⟩

/-- **The loop binds every key** of a table of the detector when every entry it comes to is
bindable, and, where nothing but `findInANM` stops it, only then. -/
theorem bindsAll_iff (I : BinderInput) (hT : T.Placed) :
    (I.EveryEntry T I.Bindable → I.BindsAll T) ∧
      (I.StopsInANM T → (I.BindsAll T ↔ I.EveryEntry T I.Bindable)) :=
  ⟨bindsAll_of_bindable hT, fun hstop => ⟨bindable_of_bindsAll hT hstop, bindsAll_of_bindable hT⟩⟩

instance (p : BindingPhase) (k : Reg) (d : InstructionData) : Decidable (SourcesFound p k d) := by
  unfold SourcesFound
  infer_instance

instance (I : BinderInput) (p : BindingPhase) (k : Reg) (d : InstructionData) : Decidable (I.Bindable p k d) :=
  decidable_of_iff (d.operation ≠ .lshr ∧ (d.operation ≠ .load → d.isAccumulation = false →
    d.srcReg1Type ≠ .constant ∧ d.srcReg2Type ≠ .constant) ∧ I.HasRow p k d)
    ⟨fun ⟨h1, h2, h3⟩ => ⟨h1, h2, h3⟩, fun ⟨h1, h2, h3⟩ => ⟨h1, h2, h3⟩⟩

end BinderInput

/-- A binder that finds no arrays. -/
def scalarInput : BinderInput :=
  ⟨8, "", ⟨∅, ∅, [], ∅, [], ∅⟩, fun _ => ⟨id, id, fun _ => some []⟩, fun _ _ => ⟨1, 0, 0⟩⟩

/-- Two variables, and an operation on the first one and a second source. -/
def operationTable (operation : Operation) (src2 : Reg) (srcReg2Type : OperandType) : InstructionTable :=
  ((InstructionTable.empty.insertLoadInstruction 4 .singleVariable).insertLoadInstruction 8
      .singleVariable).insertInstruction
    ⟨0, 0, operation, [], 12, .singleVariable, nullptr, 4, .singleVariable, nullptr, src2, srcReg2Type, nullptr, false⟩

/-- The loop binds a sum of the two variables. -/
theorem bindsAll_iff_sum : scalarInput.BindsAll (operationTable .add 8 .singleVariable) :=
  (BinderInput.bindsAll_iff scalarInput ⟨by decide +kernel, by decide +kernel, by decide +kernel,
    by decide +kernel, by decide +kernel, by decide +kernel⟩).1 (by decide +kernel)

theorem lshrTable_isSome : (ASAP.scheduleFunction (operationTable .lshr 8 .singleVariable)).isSome := by
  decide +kernel

/-- The shift of one variable by the other is skipped: its register has no rows when the loop
ends. -/
theorem lshr_not_bound :
    ∃ T, ASAP.scheduleFunction (operationTable .lshr 8 .singleVariable) = some T ∧ T.Placed ∧
      ¬ scalarInput.BindsAll T := by
  refine ⟨_, (Option.some_get lshrTable_isSome).symm,
    ⟨by decide +kernel, by decide +kernel, by decide +kernel,
    by decide +kernel, by decide +kernel, by decide +kernel⟩, fun h => ?_⟩
  have hrun : (run (scalarInput.step ((ASAP.scheduleFunction (operationTable .lshr 8 .singleVariable)).get
      lshrTable_isSome)) scalarInput.start ((ASAP.scheduleFunction (operationTable .lshr 8 .singleVariable)).get
      lshrTable_isSome).instructionOrderVector).any fun p =>
        (p.binder.findInANM 12).isNone := by decide +kernel
  obtain ⟨p, hp, hnone⟩ := Option.any_eq_true _ _ |>.mp hrun
  obtain ⟨rows, hrows, -⟩ := h.bound p hp 12 (by decide +kernel)
  rw [hrows] at hnone
  cases hnone

/-- The loop does not find the constant that a variable is added to. -/
theorem constant_not_found : (operationTable .add 100 .constant).Placed ∧
    ¬ scalarInput.BindsAll (operationTable .add 100 .constant) := by
  refine ⟨⟨by decide +kernel, by decide +kernel, by decide +kernel, by decide +kernel, by decide +kernel,
    by decide +kernel⟩, fun h => ?_⟩
  have hfound : ¬ scalarInput.EveryEntry (operationTable .add 100 .constant) BinderInput.SourcesFound := by
    decide +kernel
  exact hfound h.found

end Octantis
