import Octantis.Lib.Run
import Octantis.Binding.Accumulation

/-!
# The binding processes

The functions that bind one instruction of the table
(`handleLoadOperationBindingProcess`, `handleFPOperationBindingProcess`), and the
binder as a machine that takes the iterations of their loops as its steps.

## The model

Between two steps the binder holds a state `BinderState`: its maps and, inside the
loop of a fully parallel operation, the row name reserved for the next element.
A `BindingAction` is one iteration of the loop of a load, the entry of a fully
parallel operation, one element of it, its end, or one accumulation set. A
reachable state is one that a run of `bindStep` from the empty binder reaches
(`Reaches`); every state in which the program calls `performBinding` or
`performAccBinding` is one (`handleFPOperationBindingProcess_elements`).

The steps allow more than the program does: the rows of an element are any two
names and its operation may change from element to element. What is proved of
every run of `bindStep` holds of the program's.

## Honest scope

How the accesses to an array select and order the rows of its register
(`shapeAddressList`, `expandAddressList`) is the field `accessed` of a source.
-/

namespace Octantis

open Lib

/-- The binder between two iterations of its loops. -/
structure BinderState where
  /-- The maps of the binder. -/
  binder : LiMBinder
  /-- The name reserved for the next element of a fully parallel operation. -/
  tmpDestAddr : Option Name

/-- An iteration of the loops of the binder. -/
inductive BindingAction where
  /-- One row of a load of `destReg`, scheduled at `ti`. -/
  | load (destReg : Reg) (ti : ℤ)
  /-- The start of a fully parallel operation with so many constant operands. -/
  | enter (constants : ℕ)
  /-- One element of a fully parallel operation. -/
  | element (operation : Operation) (specifications : List String) (destReg : Reg)
      (src1 src2 : Name) (junk : Indeterminate)
  /-- The end of a fully parallel operation. -/
  | leave
  /-- One accumulation set. -/
  | accumulate (operation : Operation) (specifications : List String) (destReg : Reg)
      (accumulationList : List Name)

namespace LiMBinder

/-- One row of a load. -/
def bindLoad (b : LiMBinder) (destReg : Reg) (ti : ℤ) : LiMBinder :=
  let (dest, b) := b.getNewName
  { b with
    MemArray := b.MemArray.addNewRow dest .load b.par
    FSMLim := b.FSMLim.addNewInstruction ti dest }.addNewItem destReg dest

/-- `handleLoadOperationBindingProcess`: a row for each element of the register. -/
def handleLoadOperationBindingProcess (b : LiMBinder) (destReg : Reg) (ti : ℤ) (numIter : ℕ) :
    LiMBinder :=
  (List.range numIter).foldl (fun b _ => b.bindLoad destReg ti) b

/-- `getNewName`, so many times. -/
def takeNames (b : LiMBinder) (n : ℕ) : LiMBinder := { b with zeroAddr := b.zeroAddr + 4 * n }

end LiMBinder

namespace BinderState

/-- One element of a fully parallel operation: it is bound to the name reserved, and the next name
is reserved. -/
def bindElement (s : BinderState) (operation : Operation) (specifications : List String)
    (destReg : Reg) (src1 src2 : Name) (junk : Indeterminate) : Option BinderState := do
  let dest ← s.tmpDestAddr
  let b ← (s.binder.addNewItem destReg dest).performBinding operation specifications destReg
    src1 src2 dest junk
  let (tmpDestAddr, b) := b.getNewName
  return ⟨b, some tmpDestAddr⟩

end BinderState

/-- **One iteration of the loops of the binder.** Only the operations of `LimOperations` other than
the load come to be elements and accumulations. -/
def bindStep (s : BinderState) : BindingAction → Option BinderState
  | .load destReg ti =>
    if s.tmpDestAddr.isNone then some { s with binder := s.binder.bindLoad destReg ti } else none
  | .enter constants =>
    if s.tmpDestAddr.isNone then
      let (tmpDestAddr, b) := s.binder.getNewName
      some ⟨b.takeNames constants, some tmpDestAddr⟩
    else none
  | .element operation specifications destReg src1 src2 junk =>
    if operation.isBound then s.bindElement operation specifications destReg src1 src2 junk else none
  | .leave => if s.tmpDestAddr.isSome then some { s with tmpDestAddr := none } else none
  | .accumulate operation specifications destReg accumulationList =>
    if s.tmpDestAddr.isNone && operation.isBound then do
      let b ← s.binder.performAccBinding accumulationList operation specifications destReg
      return ⟨b, none⟩
    else none

/-- The binder before the first instruction. -/
def BinderState.init (par : ℤ) (optTarget : String) : BinderState := ⟨.init par optTarget, none⟩

/-- The actions lead from the empty binder to the state. -/
def Reaches (par : ℤ) (optTarget : String) (actions : List BindingAction) (s : BinderState) : Prop :=
  run bindStep (.init par optTarget) actions = some s

/-- The steps taken by a run of the binder. -/
abbrev history (par : ℤ) (optTarget : String) (actions : List BindingAction) :
    List (Transition BinderState BindingAction) :=
  transitions bindStep (.init par optTarget) actions

namespace BindingAction

/-- The action binds no shift. -/
def noShift : BindingAction → Prop
  | element operation _ _ _ _ _ | accumulate operation _ _ _ => operation.isShift = false
  | _ => True

/-- The loads are at time 0, where the scheduler puts them. -/
def scheduled : BindingAction → Prop
  | load _ ti => ti = 0
  | _ => True

instance : DecidablePred noShift
  | element operation _ _ _ _ _ | accumulate operation _ _ _ =>
    inferInstanceAs (Decidable (operation.isShift = false))
  | load _ _ | enter _ | leave => .isTrue trivial

instance : DecidablePred scheduled
  | load _ ti => inferInstanceAs (Decidable (ti = 0))
  | element _ _ _ _ _ _ | accumulate _ _ _ _ | enter _ | leave => .isTrue trivial

end BindingAction

/-! ### A fully parallel operation -/

/-- A source of a fully parallel operation. -/
structure Source where
  /-- The register. -/
  reg : Reg
  /-- Its type. -/
  type : OperandType
  /-- The rows that the accesses to an array select from those of its register. -/
  accessed : List Name → List Name

namespace Source

/-- The address list of a source, from the rows of its register. -/
def addrList (s : Source) (rows : List Name) : List Name :=
  if s.type = .array then s.accessed rows else rows

/-- The size of a source; that of a type the binder has no branch for is not set. -/
def size (s : Source) (rows : List Name) : Option ℕ :=
  match s.type with
  | .singleVariable | .constant => some 1
  | .array | .fakeArray => some (s.addrList rows).length
  | .temporaryVariable | .undefined => none

/-- The names taken for a source: one for a constant. -/
def constants (s : Source) : ℕ := if s.type = .constant then 1 else 0

/-- `(size == 1) ? addrList(0) : addrList(i)`. -/
def row (s : Source) (rows : List Name) (size i : ℕ) : Option Name :=
  (s.addrList rows)[if size = 1 then 0 else i]?

end Source

/-- `handleFPOperationBindingProcess`: the elements of the two sources are bound pair by pair. -/
def LiMBinder.handleFPOperationBindingProcess (b : LiMBinder) (operation : Operation)
    (specifications : List String) (destReg : Reg) (s1 s2 : Source) (junk : ℕ → Indeterminate) :
    Option LiMBinder := do
  let (tmpDestAddr, b) := b.getNewName
  let rows1 ← b.findInANM s1.reg
  let rows2 ← b.findInANM s2.reg
  let size1 ← s1.size rows1
  let size2 ← s2.size rows2
  let b := b.takeNames (s1.constants + s2.constants)
  let s ← (List.range (if size1 ≥ size2 then size1 else size2)).foldlM (fun s i => do
      let src1 ← s1.row rows1 size1 i
      let src2 ← s2.row rows2 size2 i
      s.bindElement operation specifications destReg src1 src2 (junk i))
    (⟨b, some tmpDestAddr⟩ : BinderState)
  return s.binder

/-- A load is a run of its rows. -/
theorem handleLoadOperationBindingProcess_run (b : LiMBinder) (destReg : Reg) (ti : ℤ) (numIter : ℕ) :
    run bindStep ⟨b, none⟩ (List.replicate numIter (.load destReg ti)) =
      some ⟨b.handleLoadOperationBindingProcess destReg ti numIter, none⟩ := by
  induction numIter with
  | zero => rfl
  | succ n ih =>
    rw [List.replicate_succ', run_snoc ih]
    simp only [bindStep, Option.isNone_none, if_true, LiMBinder.handleLoadOperationBindingProcess,
      List.range_succ, List.foldl_append, List.foldl_cons, List.foldl_nil]

/-- The number of elements of a fully parallel operation. -/
def LiMBinder.numElements (b : LiMBinder) (s1 s2 : Source) : Option ℕ := do
  let rows1 ← b.findInANM s1.reg
  let rows2 ← b.findInANM s2.reg
  let size1 ← s1.size rows1
  let size2 ← s2.size rows2
  return if size1 ≥ size2 then size1 else size2

/-- The element that the loop binds in the iteration `i`. -/
def BindingAction.IsElement (operation : Operation) (specifications : List String) (destReg : Reg)
    (row1 row2 : ℕ → Option Name) (junk : ℕ → Indeterminate) (i : ℕ) (a : BindingAction) : Prop :=
  ∃ src1 src2, row1 i = some src1 ∧ row2 i = some src2 ∧
    a = .element operation specifications destReg src1 src2 (junk i)

/-- The elements of a fully parallel operation, as actions. -/
private theorem exists_run_elements (operation : Operation) (specifications : List String)
    (destReg : Reg) (hop : operation.isBound = true) (row1 row2 : ℕ → Option Name)
    (junk : ℕ → Indeterminate) :
    ∀ (is : List ℕ) (s s' : BinderState),
      is.foldlM (fun s i => do
        let src1 ← row1 i
        let src2 ← row2 i
        s.bindElement operation specifications destReg src1 src2 (junk i)) s = some s' →
      ∃ actions, List.Forall₂ (BindingAction.IsElement operation specifications destReg row1 row2 junk) is actions ∧
        run bindStep s actions = some s' := by
  intro is
  induction is with
  | nil =>
    intro s s' h
    exact ⟨[], .nil, h⟩
  | cons i is ih =>
    intro s s' h
    rw [List.foldlM_cons] at h
    obtain ⟨s₁, h₁, h₂⟩ := Option.bind_eq_some_iff.mp h
    obtain ⟨src1, hrow1, h₁⟩ := Option.bind_eq_some_iff.mp h₁
    obtain ⟨src2, hrow2, h₁⟩ := Option.bind_eq_some_iff.mp h₁
    obtain ⟨actions, hall, hrun⟩ := ih s₁ s' h₂
    refine ⟨.element operation specifications destReg src1 src2 (junk i) :: actions,
      .cons ⟨src1, src2, hrow1, hrow2, rfl⟩ hall, ?_⟩
    rw [run_cons, bindStep, if_pos hop, h₁]
    exact hrun

/-- A fully parallel operation is the run of its elements, in order, between its entry and its
end. -/
theorem handleFPOperationBindingProcess_run {b b' : LiMBinder} {operation : Operation}
    {specifications : List String} {destReg : Reg} {s1 s2 : Source} {junk : ℕ → Indeterminate}
    (hop : operation.isBound = true)
    (h : b.handleFPOperationBindingProcess operation specifications destReg s1 s2 junk = some b') :
    ∃ rows1 rows2 size1 size2 elements s, b.findInANM s1.reg = some rows1 ∧ b.findInANM s2.reg = some rows2 ∧
      s1.size rows1 = some size1 ∧ s2.size rows2 = some size2 ∧
      b.numElements s1 s2 = some elements.length ∧
      List.Forall₂ (BindingAction.IsElement operation specifications destReg (s1.row rows1 size1)
        (s2.row rows2 size2) junk) (List.range elements.length) elements ∧
      run bindStep ⟨b, none⟩ (.enter (s1.constants + s2.constants) :: elements) = some s ∧
      s.tmpDestAddr.isSome ∧ s.binder = b' := by
  obtain ⟨rows1, hrows1, h⟩ := Option.bind_eq_some_iff.mp h
  obtain ⟨rows2, hrows2, h⟩ := Option.bind_eq_some_iff.mp h
  obtain ⟨size1, hsize1, h⟩ := Option.bind_eq_some_iff.mp h
  obtain ⟨size2, hsize2, h⟩ := Option.bind_eq_some_iff.mp h
  obtain ⟨s, hs, h⟩ := Option.bind_eq_some_iff.mp h
  obtain ⟨elements, hall, hrun⟩ := exists_run_elements operation specifications destReg hop _ _ junk _ _ _ hs
  have hlength : elements.length = if size1 ≥ size2 then size1 else size2 := by
    rw [← hall.length_eq, List.length_range]
  have hrows1 : b.findInANM s1.reg = some rows1 := hrows1
  have hrows2 : b.findInANM s2.reg = some rows2 := hrows2
  refine ⟨rows1, rows2, size1, size2, elements, s, hrows1, hrows2, hsize1, hsize2, ?_, hlength ▸ hall, ?_, ?_,
    by simpa using h⟩
  · simp only [LiMBinder.numElements, hrows1, hrows2, hsize1, hsize2, Option.bind_eq_bind,
      Option.bind_some, hlength]
    rfl
  · rw [run_cons, bindStep]
    simp only [Option.isNone_none, if_true, Option.bind_some]
    exact hrun
  · refine run_invariant (P := fun s => s.tmpDestAddr.isSome) (Q := fun a => ∃ src1 src2 j,
      a = .element operation specifications destReg src1 src2 j) rfl ?_ ?_ hrun
    · rintro s _ s' ⟨src1, src2, j, rfl⟩ - hstep
      rw [bindStep, if_pos hop] at hstep
      obtain ⟨dest, -, hstep⟩ := Option.bind_eq_some_iff.mp hstep
      obtain ⟨b₁, -, hstep⟩ := Option.bind_eq_some_iff.mp hstep
      cases hstep
      rfl
    · intro a ha
      obtain ⟨i, -, src1, src2, -, -, rfl⟩ := exists_of_mem_forall₂ hall ha
      exact ⟨src1, src2, junk i, rfl⟩

/-- A fully parallel operation is a run of `numElements` elements, between its entry and its end. -/
theorem handleFPOperationBindingProcess_elements {b b' : LiMBinder} {operation : Operation}
    {specifications : List String} {destReg : Reg} {s1 s2 : Source} {junk : ℕ → Indeterminate}
    (hop : operation.isBound = true)
    (h : b.handleFPOperationBindingProcess operation specifications destReg s1 s2 junk = some b') :
    ∃ elements, b.numElements s1 s2 = some elements.length ∧
      run bindStep ⟨b, none⟩
        (.enter (s1.constants + s2.constants) :: (elements ++ [.leave])) = some ⟨b', none⟩ ∧
      ∀ a ∈ elements, ∃ src1 src2 j, a = .element operation specifications destReg src1 src2 j := by
  obtain ⟨rows1, rows2, size1, size2, elements, s, -, -, -, -, hnum, hall, hrun, ht, rfl⟩ :=
    handleFPOperationBindingProcess_run hop h
  refine ⟨elements, hnum, ?_, fun a ha => ?_⟩
  · rw [← List.cons_append, run_snoc hrun, bindStep, if_pos ht]
  · obtain ⟨i, -, src1, src2, -, -, rfl⟩ := exists_of_mem_forall₂ hall ha
    exact ⟨src1, src2, junk i, rfl⟩

end Octantis
