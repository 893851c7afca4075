import Octantis.Analysis.LoadSources
import Octantis.Analysis.TableCalls
import Octantis.Binding.ResultRows
import Octantis.Binding.StraightNests

/-!
# A nest that stores and a nest that loads

In a program the first nest of loops stores to an array that the second one loads. The detector, the
scheduler and the binder are run on it, up to an operator after the load, and the operand list of the
load is compared with the rows that the program leaves in the array.

## The model

The instructions are split at the store and at the load; `TwoNests` has the loops and the subscripts.
The row of a value stored is that of its element in the entry of its register: one for each iteration,
or for each set of an accumulation. A value without an operator (a copy, a constant) is in any row.

## What is proved

* `operandList_iff`: when the operands are those of the program, with what that comes to in the subscripts
  and the bounds (`Criteria`): for results in vectors, in matrices and in general, for sums, and for
  stores that record nothing, another result or the value of a copy;
* `boundElements_of_result`: the rows of a result are those that its entry was given, element by element.

## Honest scope

The operands are selected by the number of the element, and the rows are in the order of the
iterations. So a vector stored from its element 1 on is loaded with a displacement of one
(`shifted_operands`), and an element that is not stored gets no load row.
-/

namespace Octantis

open Std Lib AddressList

/-- The number of an element of an array, in the order of the memory. -/
def elementNumber : AllocatedType → List ℤ → Option ℤ
  | .array _ .other, [v] => some v
  | .array _ (.array numCols .other), [r, c] => some (r * numCols + c)
  | _, _ => none

/-- The row of an element of a result; the only row is that of all its elements. -/
def elementRow (rows : List Name) (n : ℕ) : Option Name := rows[if rows.length = 1 then 0 else n]?

/-- The row of the sum for the element that an iteration accumulates to: the sums are in the order of
their first iterations. -/
def sumRow (rows : List Name) (stored : List (List ℤ)) (n : ℕ) : Option Name :=
  stored[n]?.bind fun x => rows[stored.eraseDups.idxOf x]?

/-- The number of a row, as of a list, and that of an element have the same row. -/
def SameRow (rows : List Name) (m : ℤ) (n : ℕ) : Prop :=
  ∃ row, rowAt rows m = some row ∧ elementRow rows n = some row

/-- Of rows that are distinct, only the number of the element has its row. -/
theorem sameRow_iff_of_nodup {rows : List Name} (hnodup : rows.Nodup) {m : ℤ} {n : ℕ} (hn : n < rows.length) :
    SameRow rows m n ↔ m = n := by
  have helement : elementRow rows n = some rows[n] := by
    rw [elementRow, ← List.getElem?_eq_getElem hn]
    split_ifs with hone
    · have hzero : n = 0 := by omega
      rw [hzero]
    · rfl
  have hrowAt : rowAt rows n = some rows[n] := by
    rw [rowAt, if_pos (Int.natCast_nonneg n), Int.toNat_natCast, List.getElem?_eq_getElem hn]
  constructor
  · rintro ⟨row, hm, hrow⟩
    rw [helement] at hrow
    exact rowAt_inj hnodup hm (hrowAt.trans hrow)
  · rintro rfl
    exact ⟨rows[n], hrowAt, helement⟩

theorem mem_of_rowAt {rows : List Name} {m : ℤ} {row : Name} (h : rowAt rows m = some row) : row ∈ rows := by
  rw [rowAt, Option.ite_none_right_eq_some] at h
  exact List.mem_of_getElem? h.2

/-- A program in which a nest of loops stores to an array and a later one loads from it. -/
structure NestProgram where
  /-- The loops and the subscripts. -/
  nests : TwoNests
  /-- What the binder reads besides the table. -/
  input : BinderInput
  /-- The instructions before the store, with the blocks. -/
  before : List (Reg × Instruction)
  /-- The block of the store. -/
  storeBlock : Reg
  /-- The value stored. -/
  value : Operand
  /-- The pointer that it is stored through. -/
  pointer : Reg
  /-- The instructions between the store and the load. -/
  between : List (Reg × Instruction)
  /-- The result of the load. -/
  loadResult : Reg
  /-- The pointer that is loaded. -/
  loadPointer : Reg
  /-- The instructions after the load. -/
  after : List (Reg × Instruction)

namespace NestProgram

open DependencyDetector InstructionTable

variable (Q : NestProgram)

/-- The information collected. -/
abbrev info : CollectInfo := Q.input.infoCollection

/-- The array. -/
def array : Reg := Q.info.getAllocatedReg Q.pointer

/-- The instructions from the store on. -/
def fromStore : List (Reg × Instruction) :=
  (Q.storeBlock, .store Q.value Q.pointer) ::
    (Q.between ++ (Q.nests.loadBlock, .load Q.loadResult Q.loadPointer) :: Q.after)

/-- The instructions of the program. -/
def instructions : List (Reg × Instruction) := Q.before ++ Q.fromStore

/-- The results are distinct LLVM values, a value is computed before it is used, every load is of a
register that was allocated, and the array is stored to once before the load. -/
structure WellFormed : Prop where
  nests : Q.nests.WellFormed
  array : Q.info.isArray Q.array = true
  loadPointer : Q.info.getAllocatedReg Q.loadPointer = Q.array
  validStore : Q.info.isValidInst (.store Q.value Q.pointer) = true
  validLoad : Q.info.isValidInst (.load Q.loadResult Q.loadPointer) = true
  once : ∀ I ∈ Q.before ++ Q.between, ¬ I.2.StoresTo Q.info Q.array
  distinct : DistinctResults Q.info Q.instructions
  computed : Q.value.address ∉ resultsIn Q.fromStore
  notAllocated : Q.value.address ∉ allocatedIn Q.info Q.instructions
  allocated : nullptr ∉ allocatedIn Q.info Q.instructions

/-- The detector before the load, the table, and the binder before the entry of an operator after the
load. -/
structure BoundBefore (d : DependencyDetector) (T : InstructionTable) (prior : List (Reg × Operation))
    (p : BindingPhase) : Prop where
  detector : run (step Q.info) init (Q.before ++ (Q.storeBlock, .store Q.value Q.pointer) :: Q.between) = some d
  table : ∃ BBs s, DependencyDetector.instructions BBs = Q.instructions ∧ detectDependencies Q.info BBs = some s ∧
    ASAP.scheduleFunction s.IM = some T
  order : ∃ e later, T.instructionOrderVector = prior ++ e :: later ∧ e.1 ∈ operatorsIn Q.after
  binder : run (Q.input.step T) Q.input.start prior = some p

/-- The register that the store records. -/
def recorded : Option Reg := recordedBy (Q.info.scheduled Q.before) Q.value

/-- The register whose rows the load gets. -/
def source : Reg := Q.recorded.getD Q.array

variable (T : InstructionTable) (b : LiMBinder) (other : ℕ → Option Name)

/-- The load row of an element. -/
def loadRow (x : List ℤ) : Option Name := (elementNumber Q.nests.arrayType x).bind (rowAt (b.rowsOf Q.array))

/-- The row of the value stored in an iteration of the first nest. -/
def valueRow (n : ℕ) : Option Name :=
  if Q.value.address ∈ operatorsIn Q.before then
    if (T.find Q.value.address).any (·.isAccumulation) then sumRow (b.rowsOf Q.value.address) Q.nests.stored n
    else elementRow (b.rowsOf Q.value.address) n
  else other n

/-- **The rows that the program leaves** in the array: the first nest writes those of its values over
the load rows. -/
def rowsAfter : List ℤ → Option Name :=
  written (Q.loadRow b) (Q.nests.stored.zip ((List.range Q.nests.stored.length).map (Q.valueRow T b other)))

/-- The store records the value stored, the result of an operator that is no accumulation. -/
def StoresResult : Prop :=
  Q.recorded = some Q.value.address ∧ Q.value.address ∈ operatorsIn Q.before ∧
    (T.find Q.value.address).any (·.isAccumulation) = false

instance : Decidable (Q.StoresResult T) :=
  inferInstanceAs (Decidable (Q.recorded = some Q.value.address ∧ Q.value.address ∈ operatorsIn Q.before ∧
    (T.find Q.value.address).any (·.isAccumulation) = false))

/-- **When the operands are right.** For the result of an operator: every element loaded was stored,
and the number selected is that of the last store to it, or of one with the same row. For any other
value: what is recorded is the result of an operator that was not held back, the elements were stored
unless it is an accumulation, and the row selected is what the program leaves. -/
def Right : Prop :=
  if Q.StoresResult T then
    ∀ k x, Q.nests.loaded[k]? = some x → ∃ m n, Q.nests.selected k = some m ∧ LastWrite Q.nests.stored x n ∧
      SameRow (b.rowsOf Q.value.address) m n
  else
    (∀ reg, Q.recorded = some reg → reg ∈ insertedResults (Q.info.scheduled Q.before) ∧
      ((T.find reg).any (·.isAccumulation) = false → ∀ x ∈ Q.nests.loaded, x ∈ Q.nests.stored)) ∧
    ∀ k x, Q.nests.loaded[k]? = some x → ∃ m row, Q.nests.selected k = some m ∧
      rowAt (b.rowsOf Q.source) m = some row ∧ Q.rowsAfter T b other x = some row

variable {Q} {T b other} {d : DependencyDetector} {prior : List (Reg × Operation)} {p : BindingPhase}

/-! ### The source of the load -/

theorem storedReg_pointer (hQ : Q.WellFormed) : storedReg Q.info Q.pointer = Q.array := if_pos hQ.array

/-- **The load gets the rows of what the store records.** -/
theorem getRealSrcReg_eq (hQ : Q.WellFormed) (h : Q.BoundBefore d T prior p) :
    d.getRealSrcReg Q.array = Q.source := by
  have honce := hQ.once
  rw [← storedReg_pointer hQ, List.forall_mem_append] at honce
  rw [← storedReg_pointer hQ, getRealSrcReg_of_store honce.1 honce.2 hQ.validStore h.detector,
    storedReg_pointer hQ]
  rfl

/-- The operands, over the numbers selected. -/
theorem operandList_iff_rows (hQ : Q.WellFormed) (h : Q.BoundBefore d T prior p) (target : List ℤ → Option Name) :
    (∃ ops, Q.nests.operandList d p.binder Q.array = some ops ∧ ops.map some = Q.nests.loaded.map target) ↔
      Q.nests.Collectable ∧ ∀ k x, Q.nests.loaded[k]? = some x → ∃ m row, Q.nests.selected k = some m ∧
        rowAt (p.binder.rowsOf Q.source) m = some row ∧ target x = some row := by
  rw [← TwoNests.addressList_iff hQ.nests, TwoNests.operandList, getRealSrcReg_eq hQ h]
  cases hrows : p.binder.findInANM Q.source with
  | some rows =>
    have hrowsOf : p.binder.rowsOf Q.source = rows := congrArg (Option.getD · []) hrows
    rw [hrowsOf]
    rfl
  | none =>
    rw [LiMBinder.rowsOf_of_none hrows]
    constructor
    · rintro ⟨ops, hops, -⟩
      cases hops
    · -- without rows there is none for the first element
      intro hops
      obtain ⟨-, hall⟩ := (TwoNests.addressList_iff hQ.nests [] target).mp hops
      obtain ⟨m, row, -, hrow, -⟩ := hall 0 _ (List.getElem?_eq_getElem (TwoNests.length_loaded_pos hQ.nests))
      simp [rowAt] at hrow

/-! ### The table -/

section Table

variable (hQ : Q.WellFormed) (h : Q.BoundBefore d T prior p)
include hQ h

/-- The table that the binder gets, and the run of the detector. -/
theorem exists_log : ∃ s log, run (step Q.info) init Q.instructions = some s ∧ LogInv log T ∧
    (∀ reg, reg ∈ T.instructionMap ↔ reg ∈ s.IM.instructionMap) ∧
    T.instructionOrderVector = (allocatedIn Q.info (handled Q.info Q.instructions)).eraseDups.map (·, .load) ++
      log.filter (·.2 ≠ .load) := by
  obtain ⟨BBs, s, hBBs, hdetect, hT⟩ := h.table
  obtain ⟨log, hlog, hlog', -, hvector, -⟩ := ASAP.exists_log_of_schedule
    (hBBs ▸ hQ.distinct.sublist List.filter_sublist) hdetect hT
  obtain ⟨s₁, hrun, rfl⟩ := Option.map_eq_some_iff.mp hdetect
  rw [hBBs] at hrun hvector
  exact ⟨s₁, log, hrun, hlog', fun reg => (hlog'.mem_iff reg).symm.trans (hlog.mem_iff reg), hvector⟩

/-- The array is loaded. -/
theorem exists_load : ∃ dc, T.find Q.array = some dc ∧ dc.operation = .load := by
  obtain ⟨s, log, -, hlog, -, hvector⟩ := exists_log hQ h
  have hload : (Q.nests.loadBlock, .load Q.loadResult Q.loadPointer) ∈ handled Q.info Q.instructions :=
    List.mem_filter.mpr ⟨by simp [instructions, fromStore], by simp [isHandled, hQ.validLoad]⟩
  have hallocated : Q.array ∈ allocatedIn Q.info (handled Q.info Q.instructions) :=
    List.mem_filterMap.mpr ⟨_, hload, by simp [hQ.loadPointer]⟩
  refine hlog.listsEveryKey.operation Q.array .load ?_
  rw [hvector, List.mem_append, List.mem_map]
  exact .inl ⟨Q.array, List.mem_eraseDups.mpr hallocated, rfl⟩

/-- A register with rows is a key. -/
theorem mem_instructionMap {reg : Reg} (hrows : (p.binder.findInANM reg).isSome) : reg ∈ T.instructionMap := by
  obtain ⟨s, log, -, hlog, -, -⟩ := exists_log hQ h
  obtain ⟨e, later, horder, -⟩ := h.order
  rw [← hlog.listsEveryKey.keys, horder, List.map_append]
  exact List.mem_append_left _ (BinderInput.mem_of_findInANM h.binder hrows)

/-- The entry of an operator is no load. -/
theorem operation_ne_load {reg : Reg} (hreg : reg ∈ operatorsIn Q.instructions) {dv : InstructionData}
    (hdv : T.find reg = some dv) : dv.operation ≠ .load := by
  intro hload
  obtain ⟨s, log, -, hlog, -, hvector⟩ := exists_log hQ h
  have hmem : (reg, Operation.load) ∈ T.instructionOrderVector :=
    hlog.perm.mem_iff.mpr ((hlog.find reg .load).mpr ⟨dv, hdv, hload⟩)
  rw [hvector, List.mem_append] at hmem
  rcases hmem with hmem | hmem
  · obtain ⟨k, hk, heq⟩ := List.mem_map.mp hmem
    cases heq
    exact hQ.distinct.ne_allocated reg ((operatorsIn_sublist _).subset hreg)
      ((List.filter_sublist.filterMap _).subset (List.mem_eraseDups.mp hk))
  · exact absurd rfl (of_decide_eq_true (List.mem_filter.mp hmem).2)

/-- **The entry of an operator before the store is bound before** that of one after the load. -/
theorem mem_prior {reg : Reg} (hreg : reg ∈ operatorsIn Q.before) (hkey : reg ∈ T.instructionMap) :
    reg ∈ prior.map (·.1) := by
  obtain ⟨BBs, s, hBBs, hdetect, hT⟩ := h.table
  obtain ⟨e, later, horder, he⟩ := h.order
  refine ASAP.mem_prior_of_schedule hQ.distinct hBBs hdetect hT horder ?_ hreg hkey
  have hsuffix : Q.after.Sublist Q.fromStore :=
    (((List.sublist_cons_self _ _).trans (List.sublist_append_right _ _)).trans (List.sublist_cons_self _ _))
  exact (hsuffix.filterMap _).subset he

/-- The register recorded is that of an operator before the store, when it has rows. -/
theorem mem_insertedResults {reg : Reg} (hreg : Q.recorded = some reg) (hrows : (p.binder.findInANM reg).isSome) :
    reg ∈ insertedResults (Q.info.scheduled Q.before) := by
  obtain ⟨s, log, hrun, -, hkeys, -⟩ := exists_log hQ h
  have hkey := (hkeys reg).mp (mem_instructionMap hQ h hrows)
  have hinserted : reg ∉ resultsIn Q.fromStore → reg ∉ allocatedIn Q.info Q.instructions →
      reg ∈ insertedResults (Q.info.scheduled Q.before) := fun hlater hloaded =>
    mem_insertedResults_of_mem hrun hlater hloaded hkey
  rw [recorded, recordedBy] at hreg
  split_ifs at hreg with hlast hcopy
  · -- a copy
    obtain rfl := Option.some.inj hreg
    exact hinserted hQ.computed hQ.notAllocated
  · cases hop : lastInserted (Q.info.scheduled Q.before) with
    | some reg' =>
      rw [hop] at hreg
      exact Option.some.inj hreg ▸ DependencyDetector.mem_insertedResults hop
    | none =>
      -- no operator since the last store
      rw [hop] at hreg
      obtain rfl : nullptr = reg := Option.some.inj hreg
      refine hinserted (fun hmem => hQ.distinct.ne_nullptr nullptr ?_ rfl) hQ.allocated
      exact ((List.sublist_append_right _ _).filterMap _).subset hmem

/-- **No row of the array is a row of the result**. -/
theorem rowsOf_array_notMem {reg : Reg} (hreg : reg ∈ operatorsIn Q.instructions)
    (hacc : (T.find reg).any (·.isAccumulation) = false) {row : Name} (hrow : row ∈ p.binder.rowsOf Q.array) :
    row ∉ p.binder.rowsOf reg := by
  obtain ⟨dc, hdc, hload⟩ := exists_load hQ h
  cases hrows : p.binder.findInANM reg with
  | none =>
    rw [LiMBinder.rowsOf_of_none hrows]
    exact List.not_mem_nil
  | some rows =>
    obtain ⟨dv, hdv⟩ := Option.isSome_iff_exists.mp
      ((isSome_find T reg).mpr (mem_instructionMap hQ h (Option.isSome_of_eq_some hrows)))
    rw [hdv] at hacc
    exact BinderInput.notMem_rowsOf_of_load h.binder hdc hload hdv (operation_ne_load hQ h hreg hdv) hacc hrow

end Table

/-! ### The operands -/

/-- The row of the result of an operator that is no accumulation. -/
theorem valueRow_of_operator (hoperator : Q.value.address ∈ operatorsIn Q.before)
    (hacc : (T.find Q.value.address).any (·.isAccumulation) = false) (n : ℕ) :
    Q.valueRow T b other n = elementRow (b.rowsOf Q.value.address) n := by
  rw [valueRow, if_pos hoperator, if_neg (by rw [hacc]; decide)]

theorem operatorsIn_before_subset : operatorsIn Q.before ⊆ operatorsIn Q.instructions :=
  ((List.sublist_append_left _ _).filterMap _).subset

/-- What the first nest does not store to keeps its load row. -/
theorem rowsAfter_of_not_mem {x : List ℤ} (hx : x ∉ Q.nests.stored) : Q.rowsAfter T b other x = Q.loadRow b x :=
  written_of_not_mem hx

/-- What it stores to has the row of the last value. -/
theorem rowsAfter_of_lastWrite {x : List ℤ} {n : ℕ} (hx : LastWrite Q.nests.stored x n) :
    Q.rowsAfter T b other x = Q.valueRow T b other n := by
  have hvalues : ((List.range Q.nests.stored.length).map (Q.valueRow T b other))[n]? =
      some (Q.rowsAfter T b other x) := written_of_lastWrite (by simp) hx
  rw [List.getElem?_map, List.getElem?_range hx.lt] at hvalues
  exact (Option.some.inj hvalues).symm

section Operands

variable (hQ : Q.WellFormed) (h : Q.BoundBefore d T prior p)
include hQ h

/-- An element whose row after the first nest is a row of a result was stored. -/
theorem mem_stored_of_row {reg : Reg} (hreg : reg ∈ operatorsIn Q.instructions)
    (hacc : (T.find reg).any (·.isAccumulation) = false) {x : List ℤ} {m : ℤ} {row : Name}
    (hrow : rowAt (p.binder.rowsOf reg) m = some row) (hx : Q.rowsAfter T p.binder other x = some row) :
    x ∈ Q.nests.stored := by
  by_contra hnot
  rw [rowsAfter_of_not_mem hnot] at hx
  obtain ⟨m', -, hx⟩ := Option.bind_eq_some_iff.mp hx
  exact rowsOf_array_notMem hQ h hreg hacc (mem_of_rowAt hx) (mem_of_rowAt hrow)

/-- The rows selected are those of the program, for the result of an operator. -/
theorem rows_iff_of_result (hresult : Q.StoresResult T) :
    (∀ k x, Q.nests.loaded[k]? = some x → ∃ m row, Q.nests.selected k = some m ∧
        rowAt (p.binder.rowsOf Q.source) m = some row ∧ Q.rowsAfter T p.binder other x = some row) ↔
      ∀ k x, Q.nests.loaded[k]? = some x → ∃ m n, Q.nests.selected k = some m ∧ LastWrite Q.nests.stored x n ∧
        SameRow (p.binder.rowsOf Q.value.address) m n := by
  obtain ⟨hrecorded, hoperator, hacc⟩ := hresult
  have hsource : Q.source = Q.value.address := by rw [source, hrecorded, Option.getD_some]
  have hvalue : ∀ n, Q.valueRow T p.binder other n = elementRow (p.binder.rowsOf Q.value.address) n :=
    valueRow_of_operator hoperator hacc
  rw [hsource]
  refine forall_congr' fun k => forall_congr' fun x => imp_congr_right fun _ => ?_
  constructor
  · rintro ⟨m, row, hm, hrow, hx⟩
    have hmem := mem_stored_of_row hQ h (operatorsIn_before_subset hoperator) hacc hrow hx
    obtain ⟨n, hn⟩ := exists_lastWrite hmem
    rw [rowsAfter_of_lastWrite hn, hvalue] at hx
    exact ⟨m, n, hm, hn, row, hrow, hx⟩
  · rintro ⟨m, n, hm, hn, row, hrow, hx⟩
    refine ⟨m, row, hm, hrow, ?_⟩
    rw [rowsAfter_of_lastWrite hn, hvalue, hx]

/-- What is recorded, when the rows selected are those of the program. -/
theorem recorded_of_rows (hrows : ∀ k x, Q.nests.loaded[k]? = some x → ∃ m row, Q.nests.selected k = some m ∧
      rowAt (p.binder.rowsOf Q.source) m = some row ∧ Q.rowsAfter T p.binder other x = some row) {reg : Reg}
    (hrecorded : Q.recorded = some reg) : reg ∈ insertedResults (Q.info.scheduled Q.before) ∧
      ((T.find reg).any (·.isAccumulation) = false → ∀ x ∈ Q.nests.loaded, x ∈ Q.nests.stored) := by
  have hsource : Q.source = reg := by rw [source, hrecorded, Option.getD_some]
  rw [hsource] at hrows
  have hinserted : reg ∈ insertedResults (Q.info.scheduled Q.before) := by
    obtain ⟨m, row, -, hrow, -⟩ := hrows 0 _ (List.getElem?_eq_getElem (TwoNests.length_loaded_pos hQ.nests))
    refine mem_insertedResults hQ h hrecorded (Option.isSome_iff_ne_none.mpr fun hnone => ?_)
    rw [LiMBinder.rowsOf_of_none hnone] at hrow
    exact List.not_mem_nil (mem_of_rowAt hrow)
  refine ⟨hinserted, fun hacc x hx => ?_⟩
  obtain ⟨k, hk⟩ := List.mem_iff_getElem?.mp hx
  obtain ⟨m, row, -, hrow, hx⟩ := hrows k x hk
  obtain ⟨opcode, operand0, operand1, hop⟩ := binaryOperator_mem_of_insertedResults hinserted
  obtain ⟨BB, hI⟩ := mem_of_mem_scheduled hop
  have hoperator : reg ∈ operatorsIn Q.instructions :=
    List.mem_filterMap.mpr ⟨_, List.mem_append_left _ hI, rfl⟩
  exact mem_stored_of_row hQ h hoperator hacc hrow hx

/-- **The rows of the result of an operator** are those that its elements were given in the first
nest. -/
theorem boundElements_of_result (hresult : Q.StoresResult T) {dv : InstructionData}
    (hdv : T.find Q.value.address = some dv) (hbound : dv.operation.isBound = true) :
    Q.input.BoundElements T prior Q.value.address dv (p.binder.rowsOf Q.value.address) := by
  obtain ⟨-, hoperator, hacc⟩ := hresult
  obtain ⟨s, log, -, hlog, -, -⟩ := exists_log hQ h
  obtain ⟨e, later, horder, -⟩ := h.order
  have hkey : Q.value.address ∈ T.instructionMap := (isSome_find T _).mp (Option.isSome_of_eq_some hdv)
  have hnodup := hlog.listsEveryKey.once
  rw [horder, List.map_append] at hnodup
  rw [hdv] at hacc
  exact BinderInput.boundElements_of_run h.binder (List.nodup_append.mp hnodup).1
    (mem_prior hQ h hoperator hkey) hdv hbound hacc

end Operands

/-! ### When the operands are right -/

/-- **A copy is never right**: the register of the value loaded is recorded, which has no rows. -/
theorem not_right_of_copy (hcopy : isCopy (Q.info.scheduled Q.before) = true)
    (hvalue : Q.value.address ∉ operatorsIn Q.before) : ¬ Q.Right T b other := by
  intro hright
  rw [Right, if_neg fun hresult => hvalue hresult.2.1] at hright
  have hrecorded : Q.recorded = some Q.value.address := by
    rw [recorded, recordedBy, if_pos hcopy, if_neg]
    intro hnone
    simp [isCopy, hnone] at hcopy
  obtain ⟨opcode, operand0, operand1, hop⟩ := binaryOperator_mem_of_insertedResults (hright.1 _ hrecorded).1
  obtain ⟨BB, hI⟩ := mem_of_mem_scheduled hop
  exact hvalue (List.mem_filterMap.mpr ⟨_, hI, rfl⟩)

/-- The results of the iterations have distinct rows: the numbers selected are those of the last
stores. -/
theorem right_iff_of_nodup (hresult : Q.StoresResult T) (hnodup : (b.rowsOf Q.value.address).Nodup)
    (hlength : (b.rowsOf Q.value.address).length = Q.nests.stored.length) :
    Q.Right T b other ↔ Q.nests.NumbersOfLast := by
  rw [Right, if_pos hresult]
  refine forall_congr' fun k => forall_congr' fun x => imp_congr_right fun _ => ?_
  constructor
  · rintro ⟨m, n, hm, hn, hsame⟩
    obtain rfl := (sameRow_iff_of_nodup hnodup (hlength ▸ hn.lt)).mp hsame
    exact ⟨n, hm, hn⟩
  · rintro ⟨n, hm, hn⟩
    exact ⟨n, n, hm, hn, (sameRow_iff_of_nodup hnodup (hlength ▸ hn.lt)).mpr rfl⟩

/-- Nothing is recorded: the load gets the rows of the array. Where these are distinct, no element
loaded was stored, and the number selected is that of the element. -/
theorem right_iff_of_skipped (hQ : Q.WellFormed) (h : Q.BoundBefore d T prior p) (hnone : Q.recorded = none)
    (hoperator : Q.value.address ∈ operatorsIn Q.before)
    (hacc : (T.find Q.value.address).any (·.isAccumulation) = false) (hnodup : (p.binder.rowsOf Q.array).Nodup) :
    Q.Right T p.binder other ↔ ∀ k x, Q.nests.loaded[k]? = some x → x ∉ Q.nests.stored ∧
      ∃ m, Q.nests.selected k = some m ∧ elementNumber Q.nests.arrayType x = some m ∧
        (rowAt (p.binder.rowsOf Q.array) m).isSome := by
  have hsource : Q.source = Q.array := by rw [source, hnone, Option.getD_none]
  have hresult : ¬ Q.StoresResult T := fun hresult => nomatch hnone.symm.trans hresult.1
  rw [Right, if_neg hresult, hsource, and_iff_right fun reg hreg => nomatch hnone.symm.trans hreg]
  refine forall_congr' fun k => forall_congr' fun x => imp_congr_right fun _ => ?_
  constructor
  · rintro ⟨m, row, hm, hrow, hx⟩
    have hnot : x ∉ Q.nests.stored := by
      intro hmem
      obtain ⟨n, hn⟩ := exists_lastWrite hmem
      rw [rowsAfter_of_lastWrite hn, valueRow_of_operator hoperator hacc] at hx
      exact rowsOf_array_notMem hQ h (operatorsIn_before_subset hoperator) hacc (mem_of_rowAt hrow)
        (List.mem_of_getElem? hx)
    rw [rowsAfter_of_not_mem hnot] at hx
    obtain ⟨m', hm', hx⟩ := Option.bind_eq_some_iff.mp hx
    obtain rfl := rowAt_inj hnodup hrow hx
    exact ⟨hnot, m, hm, hm', Option.isSome_of_eq_some hrow⟩
  · rintro ⟨hnot, m, hm, hm', hsome⟩
    obtain ⟨row, hrow⟩ := Option.isSome_iff_exists.mp hsome
    refine ⟨m, row, hm, hrow, ?_⟩
    rw [rowsAfter_of_not_mem hnot, loadRow, hm', Option.bind_some, hrow]

/-- Another operator's result is recorded, with rows of its own. -/
theorem not_right_of_misrecorded (hQ : Q.WellFormed) {reg : Reg} (hrecorded : Q.recorded = some reg)
    (hne : reg ≠ Q.value.address) (hoperator : Q.value.address ∈ operatorsIn Q.before)
    (hacc : (T.find Q.value.address).any (·.isAccumulation) = false)
    (hacc' : (T.find reg).any (·.isAccumulation) = false)
    (hapart : ∀ row ∈ b.rowsOf reg, row ∉ b.rowsOf Q.value.address) : ¬ Q.Right T b other := by
  intro hright
  have hresult : ¬ Q.StoresResult T := fun hresult =>
    hne (Option.some.inj (hrecorded.symm.trans hresult.1))
  have hsource : Q.source = reg := by rw [source, hrecorded, Option.getD_some]
  rw [Right, if_neg hresult, hsource] at hright
  obtain ⟨hkept, hrows⟩ := hright
  have hfirst := List.getElem?_eq_getElem (TwoNests.length_loaded_pos hQ.nests)
  obtain ⟨m, row, -, hrow, hx⟩ := hrows 0 _ hfirst
  obtain ⟨n, hn⟩ := exists_lastWrite ((hkept reg hrecorded).2 hacc' _ (List.mem_of_getElem? hfirst))
  rw [rowsAfter_of_lastWrite hn, valueRow_of_operator hoperator hacc] at hx
  exact hapart row (mem_of_rowAt hrow) (List.mem_of_getElem? hx)

/-- **A sum is recorded**, and the rows of the sums are distinct and none of them is a load row: the
numbers selected are those of the sums, in the order of their first iterations. -/
theorem right_iff_of_sum (hQ : Q.WellFormed) (h : Q.BoundBefore d T prior p)
    (hrecorded : Q.recorded = some Q.value.address) (hoperator : Q.value.address ∈ operatorsIn Q.before)
    (hacc : (T.find Q.value.address).any (·.isAccumulation) = true)
    (hnodup : (p.binder.rowsOf Q.value.address).Nodup)
    (hlength : (p.binder.rowsOf Q.value.address).length = Q.nests.stored.eraseDups.length)
    (hapart : ∀ row ∈ p.binder.rowsOf Q.array, row ∉ p.binder.rowsOf Q.value.address) :
    Q.Right T p.binder other ↔ ∀ k x, Q.nests.loaded[k]? = some x → x ∈ Q.nests.stored ∧
      Q.nests.selected k = some (Q.nests.stored.eraseDups.idxOf x : ℤ) := by
  have hsource : Q.source = Q.value.address := by rw [source, hrecorded, Option.getD_some]
  have hresult : ¬ Q.StoresResult T := fun hresult => by
    rw [hresult.2.2] at hacc
    cases hacc
  -- the sum of an element that is stored
  have hsum : ∀ {x}, x ∈ Q.nests.stored → Q.rowsAfter T p.binder other x =
      rowAt (p.binder.rowsOf Q.value.address) (Q.nests.stored.eraseDups.idxOf x : ℤ) := by
    intro x hmem
    obtain ⟨n, hn⟩ := exists_lastWrite hmem
    rw [rowsAfter_of_lastWrite hn, valueRow, if_pos hoperator, if_pos hacc, sumRow, hn.written, Option.bind_some,
      rowAt, if_pos (Int.natCast_nonneg _), Int.toNat_natCast]
  have hlt : ∀ {x}, x ∈ Q.nests.stored →
      Q.nests.stored.eraseDups.idxOf x < (p.binder.rowsOf Q.value.address).length := fun hmem =>
    hlength ▸ List.idxOf_lt_length_of_mem (List.mem_eraseDups.mpr hmem)
  rw [Right, if_neg hresult, hsource]
  constructor
  · rintro ⟨-, hrows⟩ k x hk
    obtain ⟨m, row, hm, hrow, hx⟩ := hrows k x hk
    have hmem : x ∈ Q.nests.stored := by
      by_contra hnot
      rw [rowsAfter_of_not_mem hnot] at hx
      obtain ⟨m', -, hx⟩ := Option.bind_eq_some_iff.mp hx
      exact hapart row (mem_of_rowAt hx) (mem_of_rowAt hrow)
    rw [hsum hmem] at hx
    obtain rfl := rowAt_inj hnodup hrow hx
    exact ⟨hmem, hm⟩
  · intro hall
    refine ⟨fun reg hreg => ?_, fun k x hk => ?_⟩
    · obtain rfl := Option.some.inj (hrecorded.symm.trans hreg)
      refine ⟨mem_insertedResults hQ h hrecorded (Option.isSome_iff_ne_none.mpr fun hnone => ?_), fun _ x hx => ?_⟩
      · have hfirst := List.getElem?_eq_getElem (TwoNests.length_loaded_pos hQ.nests)
        have hpos := hlt (hall 0 _ hfirst).1
        rw [LiMBinder.rowsOf_of_none hnone] at hpos
        exact absurd hpos (Nat.not_lt_zero _)
      · obtain ⟨k, hk⟩ := List.mem_iff_getElem?.mp hx
        exact (hall k x hk).1
    · obtain ⟨hmem, hm⟩ := hall k x hk
      obtain ⟨row, hrow⟩ : ∃ row,
          rowAt (p.binder.rowsOf Q.value.address) (Q.nests.stored.eraseDups.idxOf x : ℤ) = some row := by
        rw [rowAt, if_pos (Int.natCast_nonneg _), Int.toNat_natCast]
        exact ⟨_, List.getElem?_eq_getElem (hlt hmem)⟩
      exact ⟨_, _, hm, hrow, (hsum hmem).trans hrow⟩

/-- Each iteration of the first nest has a row of its own for its result. -/
def DistinctRows (Q : NestProgram) (b : LiMBinder) : Prop :=
  (b.rowsOf Q.value.address).Nodup ∧ (b.rowsOf Q.value.address).length = Q.nests.stored.length

/-- **What being right comes to**, by what the store records, in the subscripts and the bounds. -/
structure Criteria (Q : NestProgram) (T : InstructionTable) (prior : List (Reg × Operation)) (p : BindingPhase)
    (other : ℕ → Option Name) : Prop where
  /-- The rows of a result are those that its elements were given in the first nest. -/
  rows : Q.StoresResult T → ∀ dv, T.find Q.value.address = some dv → dv.operation.isBound = true →
    Q.input.BoundElements T prior Q.value.address dv (p.binder.rowsOf Q.value.address)
  /-- A result: the numbers selected are those of the last stores. -/
  results : Q.StoresResult T → Q.DistinctRows p.binder → (Q.Right T p.binder other ↔ Q.nests.NumbersOfLast)
  /-- Of a vector all that is loaded was stored, from the element 0 on. -/
  vectors : Q.StoresResult T → Q.DistinctRows p.binder → ∀ v v', Q.nests.OverVectors v v' →
    (Q.Right T p.binder other ↔
      v.first = 0 ∧ 0 ≤ v'.first ∧ v'.first + v'.count ≤ v.count ∧ v'.first + v'.count ≤ 2 ^ 31)
  /-- Of a matrix the window loaded is in the one stored, with the same numbers. -/
  matrices : Q.StoresResult T → Q.DistinctRows p.binder → Q.nests.Collectable →
    ∀ w w' cols, Q.nests.OverMatrices w w' cols →
      (Q.Right T p.binder other ↔ w.window.SameNumbers w'.window cols)
  /-- A sum: all that is loaded was stored, and the numbers are those of the sums, in the order of their
  first iterations. -/
  sums : Q.recorded = some Q.value.address → Q.value.address ∈ operatorsIn Q.before →
    (T.find Q.value.address).any (·.isAccumulation) = true → (p.binder.rowsOf Q.value.address).Nodup →
    (p.binder.rowsOf Q.value.address).length = Q.nests.stored.eraseDups.length →
    (∀ row ∈ p.binder.rowsOf Q.array, row ∉ p.binder.rowsOf Q.value.address) →
    (Q.Right T p.binder other ↔ ∀ k x, Q.nests.loaded[k]? = some x → x ∈ Q.nests.stored ∧
      Q.nests.selected k = some (Q.nests.stored.eraseDups.idxOf x : ℤ))
  /-- Nothing recorded: nothing that is loaded was stored, and the numbers are those of the elements. -/
  skipped : Q.recorded = none → Q.value.address ∈ operatorsIn Q.before →
    (T.find Q.value.address).any (·.isAccumulation) = false → (p.binder.rowsOf Q.array).Nodup →
    (Q.Right T p.binder other ↔ ∀ k x, Q.nests.loaded[k]? = some x → x ∉ Q.nests.stored ∧
      ∃ m, Q.nests.selected k = some m ∧ elementNumber Q.nests.arrayType x = some m ∧
        (rowAt (p.binder.rowsOf Q.array) m).isSome)
  /-- Another result is recorded, with rows of its own. -/
  misrecorded : ∀ reg, Q.recorded = some reg → reg ≠ Q.value.address → Q.value.address ∈ operatorsIn Q.before →
    (T.find Q.value.address).any (·.isAccumulation) = false → (T.find reg).any (·.isAccumulation) = false →
    (∀ row ∈ p.binder.rowsOf reg, row ∉ p.binder.rowsOf Q.value.address) → ¬ Q.Right T p.binder other
  /-- A copy. -/
  copies : isCopy (Q.info.scheduled Q.before) = true → Q.value.address ∉ operatorsIn Q.before →
    ¬ Q.Right T p.binder other

/-- The criteria hold. -/
theorem criteria (hQ : Q.WellFormed) (h : Q.BoundBefore d T prior p) (other : ℕ → Option Name) :
    Q.Criteria T prior p other where
  rows hresult _ hdv hbound := boundElements_of_result hQ h hresult hdv hbound
  results hresult hrows := right_iff_of_nodup hresult hrows.1 hrows.2
  vectors hresult hrows _ _ hV :=
    (right_iff_of_nodup hresult hrows.1 hrows.2).trans (TwoNests.numbers_vectors_iff hQ.nests hV)
  matrices hresult hrows hc _ _ _ hM :=
    (right_iff_of_nodup hresult hrows.1 hrows.2).trans (TwoNests.numbers_matrices_iff hQ.nests hc hM)
  sums := right_iff_of_sum hQ h
  skipped := right_iff_of_skipped hQ h
  misrecorded _ hrecorded hne hoperator hacc hacc' hapart :=
    not_right_of_misrecorded hQ hrecorded hne hoperator hacc hacc' hapart
  copies := not_right_of_copy

/-- Four arrays of eight elements, with the pointers to them. -/
def vectorInfo : CollectInfo :=
  { aliasInfoMap := ExtTreeMap.ofList [(16, [116]), (24, [124, 125]), (32, [132, 133]), (40, [140])]
    arraysInfoMap := ExtTreeMap.ofList ([16, 24, 32, 40].map fun array => (array, [(1 : ℤ), 8]))
    loopBodyList := [60, 70], iteratorsAliasMap := ∅, combinedIterators := [], PIT := ∅ }

/-- `for (i = 0; i < 4; ++i) c[i + x] = a[i] & b[i]; for (j = 0; j < 2; ++j) d[j] = c[j + x] & b[j]`. -/
def vectorProgram (x : ℤ) : NestProgram :=
  { nests :=
      { storeLoops := [⟨4, 0, 4, .slt, 1, 60, 60⟩], storeCounts := [4]
        storeSubscripts := [.add (.iterator 4) (.constant x)]
        loadLoops := [⟨8, 0, 2, .slt, 1, 70, 70⟩], loadCounts := [2]
        loadSubscripts := [.add (.iterator 8) (.constant x)]
        loadBlock := 70, arrayType := .array 8 .other, previous := (.empty, .empty)
        outside := ⟨fun _ => some 0, fun _ => some 0, fun _ => some 0⟩ }
    input := ⟨8, "", vectorInfo, fun _ => ⟨List.take 4, List.take 4, fun _ => none⟩, fun _ _ => ⟨1, 0, 0⟩⟩
    before := [(60, .load 201 116), (60, .load 202 124), (60, .binaryOperator 203 .and (.value 201) (.value 202))]
    storeBlock := 60, value := .value 203, pointer := 132, between := [], loadResult := 204, loadPointer := 133
    after :=
      [(70, .load 205 125), (70, .binaryOperator 206 .and (.value 204) (.value 205)), (70, .store (.value 206) 140)] }

/-- Its blocks. -/
def vectorBlocks : List BasicBlock :=
  [⟨60, [.load 201 116, .load 202 124, .binaryOperator 203 .and (.value 201) (.value 202),
      .store (.value 203) 132]⟩,
    ⟨70, [.load 204 133, .load 205 125, .binaryOperator 206 .and (.value 204) (.value 205),
      .store (.value 206) 140]⟩]

theorem wellFormed_vectorProgram (x : ℤ) : (vectorProgram x).WellFormed where
  nests :=
    { store := ⟨.inl rfl, .cons ⟨by decide, by decide, by decide⟩ .nil, List.forall_mem_singleton.mpr (by decide)⟩
      load := ⟨.inl rfl, .cons ⟨by decide, by decide, by decide⟩ .nil, List.forall_mem_singleton.mpr (by decide)⟩
      increment := List.forall_mem_cons.mpr ⟨rfl, List.forall_mem_singleton.mpr rfl⟩
      loadBlock := ⟨[], _, rfl, List.mem_cons_self, List.forall_mem_singleton.mpr (by decide : 70 ∉ [60, 60])⟩ }
  array := (by decide +kernel : (vectorProgram 0).info.isArray (vectorProgram 0).array = true)
  loadPointer := (by decide +kernel : vectorInfo.getAllocatedReg 133 = vectorInfo.getAllocatedReg 132)
  validStore := (by decide +kernel : vectorInfo.isValidInst (.store (.value 203) 132) = true)
  validLoad := (by decide +kernel : vectorInfo.isValidInst (.load 204 133) = true)
  once := (by decide +kernel : ∀ I ∈ (vectorProgram 0).before ++ (vectorProgram 0).between,
    ¬ I.2.StoresTo (vectorProgram 0).info (vectorProgram 0).array)
  distinct := (by decide +kernel : DistinctResults (vectorProgram 0).info (vectorProgram 0).instructions)
  computed := (by decide +kernel : (vectorProgram 0).value.address ∉ resultsIn (vectorProgram 0).fromStore)
  notAllocated := (by decide +kernel :
    (vectorProgram 0).value.address ∉ allocatedIn (vectorProgram 0).info (vectorProgram 0).instructions)
  allocated := (by decide +kernel : nullptr ∉ allocatedIn (vectorProgram 0).info (vectorProgram 0).instructions)

/-- The entries before that of the second conjunction are the loads and the first one. -/
def vectorPrior : List (Reg × Operation) := [(16, .load), (24, .load), (32, .load), (203, .and)]

theorem vectorProgram_detected :
    ((run (step vectorInfo) init ((vectorProgram 0).before ++ [(60, .store (.value 203) 132)])).map fun d =>
      d.getRealSrcReg 32) = some 203 := by
  decide +kernel

theorem vectorProgram_bound : (((detectDependencies vectorInfo vectorBlocks).bind fun s =>
    ASAP.scheduleFunction s.IM).bind fun T =>
      (run ((vectorProgram 0).input.step T) (vectorProgram 0).input.start vectorPrior).map fun p =>
        (T.instructionOrderVector, (T.find 203).any (·.isAccumulation), p.binder.findInANM 203)) =
    some (vectorPrior ++ [(206, .and)], false, some [96, 100, 104, 108]) := by
  decide +kernel

/-- The four results have the rows 96, 100, 104 and 108. -/
theorem exists_boundBefore (x : ℤ) : ∃ d T p, (vectorProgram x).BoundBefore d T vectorPrior p ∧
    d.getRealSrcReg 32 = 203 ∧ (vectorProgram x).StoresResult T ∧
      p.binder.findInANM 203 = some [96, 100, 104, 108] := by
  obtain ⟨d, hd, hsource⟩ := Option.map_eq_some_iff.mp vectorProgram_detected
  obtain ⟨T, hT, h⟩ := Option.bind_eq_some_iff.mp vectorProgram_bound
  obtain ⟨s, hs, hT⟩ := Option.bind_eq_some_iff.mp hT
  obtain ⟨p, hp, h⟩ := Option.map_eq_some_iff.mp h
  obtain ⟨horder, hacc, hrows⟩ : T.instructionOrderVector = vectorPrior ++ [(206, .and)] ∧
      (T.find 203).any (·.isAccumulation) = false ∧ p.binder.findInANM 203 = some [96, 100, 104, 108] := by
    simpa using h
  refine ⟨d, T, p, ⟨hd, ⟨vectorBlocks, s, rfl, hs, hT⟩, ⟨(206, .and), [], horder, ?_⟩, hp⟩, hsource,
    ⟨?_, ?_, hacc⟩, hrows⟩
  · exact (by decide : 206 ∈ operatorsIn (vectorProgram 0).after)
  · exact (by decide +kernel : (vectorProgram 0).recorded = some 203)
  · exact (by decide : 203 ∈ operatorsIn (vectorProgram 0).before)

end NestProgram

end Octantis
