import Mathlib.Tactic.Ring
import Mathlib.Algebra.BigOperators.Group.List.Basic
import Octantis.Analysis.LoopHeader

/-!
# The bodies of the loops

What `parseLoopBody` enters for the pointers of a block, against the values that their
subscripts have when the block is executed.

## The model

An execution of the block in one iteration gives every address a value: the values
stored in the registers do not change in the block, and the results of the instructions
satisfy them. An address that the block does not use may have any value, such as that of
the iterator which it is an alias of. A pointer has the subscripts of the pointer that it
is made from, and its own.

## What is proved

* `parseLoopBody_right`: in every state of a run whose pointers have a subscript that is
  recognised, and whose pointers into a row come after that of their row, the index infos
  entered sum to the subscripts;
* `leftOver_entered`: a pointer into a vector whose subscript is not recognised gets the
  index info of the pointer before.
-/

namespace Octantis

open Std Lib

/-- An execution of a block in an iteration of the loops around it. -/
structure Execution where
  /-- What the registers hold. -/
  store : Reg → ℤ
  /-- The values of the results and of the constants. -/
  val : Reg → ℤ
  /-- The subscripts of the pointers, the first one first. -/
  subscripts : Reg → List ℤ

namespace Execution

variable (x : Execution)

/-- A constant has its value. -/
def Reads : Operand → Prop
  | .constantInt address value => x.val address = value
  | .value _ => True

/-- The result of an instruction. The others compute no subscript. -/
def Satisfies : Instr → Prop
  | .load result pointer => x.val result = x.store pointer
  | .binary result opcode operand0 operand1 => x.Reads operand0 ∧ x.Reads operand1 ∧
      (opcode = .add → x.val result = x.val operand0.address + x.val operand1.address) ∧
      (opcode = .sub → x.val result = x.val operand0.address - x.val operand1.address)
  | .ptr result pointerOperand operand2 => x.Reads operand2 ∧
      x.subscripts result = x.subscripts pointerOperand ++ [x.val operand2.address]
  | .sext result operand0 => x.Reads operand0 ∧ x.val result = x.val operand0.address
  | .store .. | .icmp .. | .branch .. | .other => True

/-- The value of an index: the sum of its iterators and its constant. -/
def indexValue (i : IndexInfo) : ℤ := (i.iterators.map x.store).sum + i.constant

/-- The index infos of a pointer sum to its subscripts. -/
def EntryRight (pointer : Reg) (e : IndexInfo × IndexInfo) : Prop :=
  match x.subscripts pointer with
  | [first] => x.indexValue e.1 = first
  | [first, second] => x.indexValue e.1 = first ∧ x.indexValue e.2 = second
  | _ => False

/-- The maps are right in the execution: the aliases have the values of their iterators, the
additions have theirs, and an array has no subscript. -/
structure Sound (c : Collector) : Prop where
  aliases : ∀ it a : Reg, c.iteratorsAliasMap[it]? = some a → x.val a = x.store it
  combined : ∀ (r : Reg) (i : IndexInfo), c.combinedIteratorsMap[r]? = some i → x.indexValue i = x.val r
  arrays : ∀ (A : Reg) (sizes : List ℤ), c.arraysInfoMap[A]? = some sizes → sizes ≠ [] → x.subscripts A = []

end Execution

namespace Collector

/-- The pointer that the first index info is of, after an instruction: the last one into an array,
when its subscript is recognised. -/
def indexed (c : Collector) (ready : Option Reg) : Instr → Option Reg
  | .ptr result pointerOperand operand2 =>
    match c.arraysInfoMap[pointerOperand]? with
    | some (_ :: _) => if (c.operandInfo operand2).isSome then some result else none
    | some [] | none => ready
  | _ => ready

/-- The subscript of a pointer into a vector is recognised. A pointer into a row whose subscript is
recognised is made from the last pointer into an array, and the `front()` that is read then does not
stand for a vector. -/
def PointerMeets (emptyFront : ℤ) (c : Collector) (ready : Option Reg) : Instr → Prop
  | .ptr _ pointerOperand operand2 =>
    match c.arraysInfoMap[pointerOperand]? with
    | some (size :: _) => size = 1 → (c.operandInfo operand2).isSome
    | some [] => emptyFront ≠ 1 ∧ ((c.operandInfo operand2).isSome → ready = some pointerOperand)
    | none => True
  | _ => True

/-- Every pointer of the block does so, in the state in which `parseLoopBody` comes to it. -/
def BlockMeets (emptyFront : ℤ) : Collector → Option Reg → List Instr → Prop
  | _, _, [] => True
  | c, ready, I :: rest => c.PointerMeets emptyFront ready I ∧
      BlockMeets emptyFront (c.bodyStep emptyFront I) (c.indexed ready I) rest

instance (emptyFront : ℤ) (c : Collector) (ready : Option Reg) (I : Instr) :
    Decidable (c.PointerMeets emptyFront ready I) := by
  unfold PointerMeets
  split
  · split <;> infer_instance
  · infer_instance

instance decidableBlockMeets (emptyFront : ℤ) : ∀ (c : Collector) (ready : Option Reg) (BB : List Instr),
    Decidable (c.BlockMeets emptyFront ready BB)
  | _, _, [] => .isTrue trivial
  | c, ready, I :: rest =>
    have := decidableBlockMeets emptyFront (c.bodyStep emptyFront I) (c.indexed ready I) rest
    inferInstanceAs (Decidable (_ ∧ _))

variable {x : Execution} {c c' : Collector} {emptyFront : ℤ} {ready : Option Reg} {I : Instr}

/-! ### What is recognised -/

/-- The iterator that an address is the alias of. -/
theorem aliased_eq_some {m : ExtTreeMap Reg Reg} {address it : Reg} (h : aliased m address = some it) :
    m[it]? = some address := by
  obtain ⟨entry, hentry, rfl⟩ := Option.map_eq_some_iff.mp h
  have hmem := ExtTreeMap.mem_toList_iff_getElem?_eq_some.mp (List.mem_reverse.mp (List.mem_of_find?_eq_some hentry))
  rw [hmem, of_decide_eq_true (List.find?_some hentry :)]

/-- The index info of an addition has its value. -/
theorem indexValue_sumInfo (hs : x.Sound c) {op1 op2 : Operand} {i : IndexInfo} (h2 : x.Reads op2)
    (h : sumInfo c.iteratorsAliasMap op1 op2 = some i) :
    x.indexValue i = x.val op1.address + x.val op2.address := by
  unfold sumInfo at h
  simp only at h
  split at h
  · next first second hfirst hsecond =>
    obtain rfl := Option.some.inj h
    split_ifs at hsecond
    rw [hs.aliases _ _ (aliased_eq_some hfirst), hs.aliases _ _ (aliased_eq_some hsecond)]
    simp [Execution.indexValue]
  · next first _ _ value hfirst _ =>
    obtain rfl := Option.some.inj h
    rw [hs.aliases _ _ (aliased_eq_some hfirst), Operand.address, show x.val _ = value from h2]
    simp [Execution.indexValue]
  · cases h

/-- The index info of an operand has its value. -/
theorem indexValue_operandInfo (hs : x.Sound c) {operand2 : Operand} {i : IndexInfo} (h2 : x.Reads operand2)
    (h : c.operandInfo operand2 = some i) : x.indexValue i = x.val operand2.address := by
  unfold operandInfo at h
  split at h
  · next _ hcombined =>
    obtain rfl := Option.some.inj h
    exact hs.combined _ _ hcombined
  · split at h
    · next value _ =>
      obtain rfl := Option.some.inj h
      rw [Operand.address, show x.val _ = value from h2]
      simp [Execution.indexValue]
    · obtain ⟨it, hit, rfl⟩ := Option.map_eq_some_iff.mp h
      rw [Operand.address, hs.aliases _ _ (aliased_eq_some hit)]
      simp [Execution.indexValue]

/-! ### The instructions -/

/-- A load keeps the maps right. -/
theorem sound_bodyLoad (hs : x.Sound c) {result pointer : Reg} (hx : x.val result = x.store pointer) :
    x.Sound (c.bodyLoad result pointer) := by
  unfold bodyLoad
  split
  · refine ⟨fun it a h => ?_, hs.combined, hs.arrays⟩
    rw [renewAlias, ExtTreeMap.getElem?_modify] at h
    split_ifs at h with heq
    · obtain rfl := Std.compare_eq_iff_eq.mp heq
      obtain ⟨_, -, rfl⟩ := Option.map_eq_some_iff.mp h
      exact hx
    · exact hs.aliases it a h
  · exact ⟨hs.aliases, hs.combined, hs.arrays⟩

/-- An addition keeps the maps right. -/
theorem sound_bodyBinary (hs : x.Sound c) {result : Reg} {opcode : Opcode} {op1 op2 : Operand}
    (hx : x.Satisfies (.binary result opcode op1 op2)) : x.Sound (c.bodyBinary result opcode op1 op2) := by
  obtain ⟨-, h2, hadd, -⟩ := hx
  unfold bodyBinary
  split_ifs with hopcode
  · split
    · next i hi =>
      refine ⟨hs.aliases, fun r i' h => ?_, hs.arrays⟩
      rw [getElem?_insertIfNew_or, Option.or_eq_some_iff] at h
      rcases h with h | ⟨-, h⟩
      · exact hs.combined r i' h
      · split_ifs at h with heq
        obtain rfl := Option.some.inj h
        rw [indexValue_sumInfo hs h2 hi, ← heq, hadd hopcode]
    · exact hs
  · exact hs

/-- A sign extension keeps the maps right. -/
theorem sound_bodySext (hs : x.Sound c) {result : Reg} {operand0 : Operand}
    (hx : x.val result = x.val operand0.address) : x.Sound (c.bodySext result operand0) := by
  unfold bodySext
  split
  · next i hi =>
    refine ⟨hs.aliases, fun r i' h => ?_, hs.arrays⟩
    rw [getElem?_insertIfNew_or, Option.or_eq_some_iff] at h
    rcases h with h | ⟨-, h⟩
    · rw [ExtTreeMap.getElem?_erase] at h
      split_ifs at h
      exact hs.combined r i' h
    · split_ifs at h with heq
      obtain rfl := Option.some.inj h
      rw [hs.combined _ _ hi, ← heq, hx]
  · refine ⟨fun it a h => ?_, hs.combined, hs.arrays⟩
    rw [ExtTreeMap.getElem?_map] at h
    obtain ⟨b, hb, rfl⟩ := Option.map_eq_some_iff.mp h
    split_ifs with heq
    · rw [hx, ← heq, hs.aliases it b hb]
    · exact hs.aliases it b hb

/-- What holds after some instructions of a block that `parseLoopBody` has begun in `c₀`. -/
structure Right (x : Execution) (c₀ : Collector) (ready : Option Reg) (c : Collector) : Prop where
  sound : x.Sound c
  ptrValid : c.ptrValid = false
  ready : ∀ g ∈ ready, x.subscripts g = [x.indexValue c.tmpPointerStruct.1]
  entries : ∀ (p : Reg) (e : IndexInfo × IndexInfo), p ∉ c₀.pointerInfoMap → c.pointerInfoMap[p]? = some e →
    x.EntryRight p e

variable {c₀ : Collector}

/-- The entries stay right when one that is right is entered. -/
theorem Right.insertIfNew (h : Right x c₀ ready c) {result : Reg} {e : IndexInfo × IndexInfo}
    (hright : x.EntryRight result e) (p : Reg) (e' : IndexInfo × IndexInfo) (hp : p ∉ c₀.pointerInfoMap)
    (hentry : (c.pointerInfoMap.insertIfNew result e)[p]? = some e') : x.EntryRight p e' := by
  rw [getElem?_insertIfNew_or, Option.or_eq_some_iff] at hentry
  rcases hentry with hentry | ⟨-, hentry⟩
  · exact h.entries p e' hp hentry
  · split_ifs at hentry with heq
    obtain rfl := Option.some.inj hentry
    exact heq ▸ hright

/-- An array that stands for a row keeps the maps right. -/
theorem sound_insertRow (hs : x.Sound c) (result A : Reg) (sizes : List ℤ)
    (h : (c.arraysInfoMap.insertIfNew result [])[A]? = some sizes) (hne : sizes ≠ []) :
    x.subscripts A = [] := by
  rw [getElem?_insertIfNew_or, Option.or_eq_some_iff] at h
  rcases h with h | ⟨-, h⟩
  · exact hs.arrays A sizes h hne
  · split_ifs at h
    exact absurd (Option.some.inj h).symm hne

/-- **A pointer** keeps what is entered right. -/
theorem Right.bodyPtr (h : Right x c₀ ready c) {result pointerOperand : Reg} {operand2 : Operand}
    (hx : x.Satisfies (.ptr result pointerOperand operand2))
    (hmeets : c.PointerMeets emptyFront ready (.ptr result pointerOperand operand2)) :
    Right x c₀ (c.indexed ready (.ptr result pointerOperand operand2)) (bodyPtr emptyFront c result pointerOperand operand2) := by
  obtain ⟨h2, hsub⟩ := hx
  unfold PointerMeets at hmeets
  unfold indexed Collector.bodyPtr
  simp only at hmeets ⊢
  cases hsizes : c.arraysInfoMap[pointerOperand]? with
  | none => exact h
  | some sizes =>
    rw [hsizes] at hmeets
    cases sizes with
    | nil =>
      obtain ⟨hfront, hready⟩ := hmeets
      simp only [List.headD_nil]
      cases hinfo : c.operandInfo operand2 with
      | some i =>
        rw [hinfo] at hready
        simp only [takeIndex, hinfo, if_true, if_neg hfront]
        refine ⟨⟨h.sound.aliases, h.sound.combined, h.sound.arrays⟩, rfl, h.ready, h.insertIfNew ?_⟩
        have hbase := h.ready pointerOperand (hready rfl)
        rw [Execution.EntryRight, hsub, hbase, ← indexValue_operandInfo h.sound h2 hinfo]
        exact ⟨rfl, rfl⟩
      | none =>
        simp only [takeIndex, hinfo, if_neg hfront, h.ptrValid, Bool.false_eq_true, if_false]
        exact ⟨⟨h.sound.aliases, h.sound.combined, sound_insertRow h.sound result⟩, rfl, h.ready, h.entries⟩
    | cons size rest =>
      have hempty := h.sound.arrays pointerOperand _ hsizes (List.cons_ne_nil _ _)
      rw [hempty, List.nil_append] at hsub
      simp only [List.headD_cons]
      cases hinfo : c.operandInfo operand2 with
      | some i =>
        have hvalue : x.subscripts result = [x.indexValue i] := by
          rw [hsub, indexValue_operandInfo h.sound h2 hinfo]
        have hready : ∀ g ∈ some result, x.subscripts g = [x.indexValue i] :=
          fun g hg => Option.some.inj hg ▸ hvalue
        simp only [takeIndex, hinfo, List.cons_ne_nil, if_false, Option.isSome_some, if_true]
        split_ifs with hsize
        · refine ⟨⟨h.sound.aliases, h.sound.combined, h.sound.arrays⟩, h.ptrValid, hready, h.insertIfNew ?_⟩
          rw [Execution.EntryRight, hvalue]
        · rename_i hvalid
          exact absurd hvalid (by rw [h.ptrValid]; exact Bool.false_ne_true)
        · exact ⟨⟨h.sound.aliases, h.sound.combined, sound_insertRow h.sound result⟩, h.ptrValid,
            hready, h.entries⟩
      | none =>
        rw [hinfo] at hmeets
        have hsize : size ≠ 1 := fun heq => absurd (hmeets heq) Bool.false_ne_true
        simp only [takeIndex, hinfo, if_neg hsize, h.ptrValid, Bool.false_eq_true, if_false,
          Option.isSome_none]
        exact ⟨⟨h.sound.aliases, h.sound.combined, sound_insertRow h.sound result⟩, rfl,
          fun g hg => (nomatch hg), h.entries⟩

/-- The instructions that are no pointers leave what concerns the pointers as it is. -/
structure PointersKept (c c' : Collector) : Prop where
  ptrValid : c'.ptrValid = c.ptrValid
  tmpPointerStruct : c'.tmpPointerStruct = c.tmpPointerStruct
  pointerInfoMap : c'.pointerInfoMap = c.pointerInfoMap

theorem pointersKept_bodyLoad (c : Collector) (result pointer : Reg) :
    PointersKept c (c.bodyLoad result pointer) := by
  unfold bodyLoad
  split <;> exact ⟨rfl, rfl, rfl⟩

theorem pointersKept_bodyBinary (c : Collector) (result : Reg) (opcode : Opcode) (op1 op2 : Operand) :
    PointersKept c (c.bodyBinary result opcode op1 op2) := by
  unfold bodyBinary
  split
  · split <;> exact ⟨rfl, rfl, rfl⟩
  · exact ⟨rfl, rfl, rfl⟩

theorem pointersKept_bodySext (c : Collector) (result : Reg) (operand0 : Operand) :
    PointersKept c (c.bodySext result operand0) := by
  unfold bodySext
  split <;> exact ⟨rfl, rfl, rfl⟩

theorem Right.of_kept (h : Right x c₀ ready c) (hs : x.Sound c') (hkept : PointersKept c c') :
    Right x c₀ ready c' where
  sound := hs
  ptrValid := hkept.ptrValid.trans h.ptrValid
  ready g hg := by rw [hkept.tmpPointerStruct]; exact h.ready g hg
  entries p e hp he := h.entries p e hp (hkept.pointerInfoMap ▸ he)

/-- **An instruction** that meets the condition keeps what is entered right. -/
theorem Right.bodyStep (h : Right x c₀ ready c) (hx : x.Satisfies I)
    (hmeets : c.PointerMeets emptyFront ready I) :
    Right x c₀ (c.indexed ready I) (c.bodyStep emptyFront I) := by
  cases I with
  | load result pointer =>
    exact h.of_kept (sound_bodyLoad h.sound hx) (pointersKept_bodyLoad c result pointer)
  | binary result opcode op1 op2 =>
    exact h.of_kept (sound_bodyBinary h.sound hx) (pointersKept_bodyBinary c result opcode op1 op2)
  | sext result operand0 =>
    exact h.of_kept (sound_bodySext h.sound hx.2) (pointersKept_bodySext c result operand0)
  | ptr result pointerOperand operand2 => exact h.bodyPtr hx hmeets
  | store operand0 pointer =>
    cases operand0 with
    | constantInt address value =>
      exact h.of_kept ⟨h.sound.aliases, h.sound.combined, h.sound.arrays⟩ ⟨rfl, rfl, rfl⟩
    | value address => exact h
  | icmp | branch | other => exact h

/-! ### The block -/

/-- **A block** whose pointers meet the condition: what is entered is right in every state
reached. -/
theorem Right.parseLoopBody {BB : List Instr} (h : Right x c₀ ready c) (hx : ∀ I ∈ BB, x.Satisfies I)
    (hmeets : c.BlockMeets emptyFront ready BB) (n : ℕ) :
    ∃ ready', Right x c₀ ready' (c.parseLoopBody emptyFront (BB.take n)) := by
  induction BB generalizing c ready n with
  | nil => exact ⟨ready, by rw [List.take_nil]; exact h⟩
  | cons I rest ih =>
    cases n with
    | zero => exact ⟨ready, h⟩
    | succ n =>
      exact ih (h.bodyStep (hx I List.mem_cons_self) hmeets.1) (fun J hJ =>
        hx J (List.mem_cons_of_mem _ hJ)) hmeets.2 n

/-- **The pointers entered by a block** have index infos that sum to their subscripts in every
iteration, in every state that the parsing of the block reaches. -/
theorem parseLoopBody_right {BB : List Instr} (hs : x.Sound c) (hvalid : c.ptrValid = false)
    (hx : ∀ I ∈ BB, x.Satisfies I) (hmeets : c.BlockMeets emptyFront none BB) (n : ℕ) (pointer : Reg)
    (e : IndexInfo × IndexInfo) (hnew : pointer ∉ c.pointerInfoMap)
    (hentry : (c.parseLoopBody emptyFront (BB.take n)).pointerInfoMap[pointer]? = some e) : x.EntryRight pointer e := by
  have hstart : Right x c none c :=
    ⟨hs, hvalid, fun g hg => (nomatch hg), fun p e hp he => absurd (ExtTreeMap.mem_iff_isSome_getElem?.mpr
      (Option.isSome_of_eq_some he)) hp⟩
  obtain ⟨ready, hright⟩ := hstart.parseLoopBody hx hmeets n
  exact hright.entries pointer e hnew hentry

/-- What a pointer into a vector gets when its subscript is not recognised: the first index info of
the pointer before. -/
theorem leftOver_entered {result pointerOperand : Reg} {operand2 : Operand} {cols : ℤ}
    (harray : c.arraysInfoMap[pointerOperand]? = some [1, cols]) (hinfo : c.operandInfo operand2 = none)
    (hnew : result ∉ c.pointerInfoMap) :
    (bodyPtr emptyFront c result pointerOperand operand2).pointerInfoMap[result]? =
      some (c.tmpPointerStruct.1, .empty) := by
  rw [Collector.bodyPtr, harray]
  simp only [List.headD_cons, if_true, takeIndex, hinfo, enterPointer, pushAlias]
  rw [getElem?_insertIfNew_or, ExtTreeMap.getElem?_eq_none hnew, Option.none_or, if_pos rfl]

/-- Before a block in the loop of the register 4: a vector, a matrix and the alias of the iterator
in the header. -/
def inLoop : Collector :=
  { start [(4, .other), (100, .array 8 .other), (104, .array 4 (.array 4 .other))] with
    iteratorsAliasMap := (∅ : ExtTreeMap Reg Reg).insert 4 16 }

/-- The iteration in which the iterator is 2, of the blocks below. -/
def iteration : Execution :=
  { store := fun r => if r = 4 then 2 else 0
    val := fun r => if r = 1 then 1 else if r = 40 ∨ r = 44 then 3 else 2
    subscripts := fun p => if p = 24 then [2] else if p = 32 then [2] else if p = 48 then [2, 3] else if p = 52 then [3] else [] }

theorem sound_iteration : iteration.Sound inLoop where
  aliases it a h := by
    rw [inLoop, ExtTreeMap.getElem?_insert] at h
    split_ifs at h with heq
    · obtain rfl := Std.compare_eq_iff_eq.mp heq
      exact Option.some.inj h ▸ rfl
    · cases ExtTreeMap.getElem?_empty.symm.trans h
  combined r i h := by cases ExtTreeMap.getElem?_empty.symm.trans h
  arrays A sizes h _ := by
    have hnone : ∀ p ∈ [24, 32, 48, 52], inLoop.arraysInfoMap[p]? = none := by decide +kernel
    have hne : A ∉ [24, 32, 48, 52] := fun hmem => by cases (hnone A hmem).symm.trans h
    simp only [List.mem_cons, List.not_mem_nil, or_false, not_or] at hne
    simp [iteration, hne]

/-- `x[i]` and `A[i][i + 1]`. -/
def pointers : List Instr :=
  [.load 20 4, .ptr 24 100 (.value 20), .load 28 4, .ptr 32 104 (.value 28), .load 36 4,
    .binary 40 .add (.value 36) (.constantInt 1 1), .sext 44 (.value 40), .ptr 48 32 (.value 44)]

/-- The index infos entered for `A[i][i + 1]`. -/
theorem parseLoopBody_right_matrix : iteration.EntryRight 48 (⟨[4], 0, false⟩, ⟨[4], 1, true⟩) :=
  parseLoopBody_right sound_iteration rfl (by simp [pointers, Execution.Satisfies, Execution.Reads,
    iteration, Operand.address])
    (by decide +kernel : inLoop.BlockMeets 0 none pointers) 8 48 _ (by decide +kernel) (by decide +kernel)

/-- `x[i]` and `x[1 + i]`. -/
def exchanged : List Instr :=
  [.load 20 4, .ptr 24 100 (.value 20), .load 28 4, .binary 40 .add (.constantInt 1 1) (.value 28), .sext 44 (.value 40),
    .ptr 52 100 (.value 44)]

/-- The pointer of `x[1 + i]` gets the index info of `x[i]`. -/
theorem exchanged_leftOver : iteration.Sound inLoop ∧ (∀ I ∈ exchanged, iteration.Satisfies I) ∧
    (inLoop.parseLoopBody 0 exchanged).pointerInfoMap[52]? = some (⟨[4], 0, false⟩, .empty) ∧
    ¬ iteration.EntryRight 52 (⟨[4], 0, false⟩, .empty) := by
  refine ⟨sound_iteration, ?_, by decide +kernel, ?_⟩
  · simp [exchanged, Execution.Satisfies, Execution.Reads, iteration, Operand.address]
  · simp [Execution.EntryRight, Execution.indexValue, iteration]

end Collector

end Octantis
