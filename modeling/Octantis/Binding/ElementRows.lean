import Octantis.Binding.BindingPhase

/-!
# The rows of a fully parallel operation

Before an element is bound its name is appended to the rows of the register. When the result
of an earlier operation is reused, that row takes the place of the name, which is handed back
and is the name of the next element.

## What is proved

* `rowsOf_element`: an element appends the row chosen for it, whatever was reused before;
* `rowsOf_handleFPOperationBindingProcess`: the rows of a new register are those chosen for the
  elements, in their order;
* `findInANM_of_nodup`: the register of an entry of the table is new.
-/

namespace Octantis

open Std Lib

variable {operation : Operation} {specifications : List String} {destReg : Reg} {src1 src2 : Name}
  {s s' : BinderState}

/-- The row that `performBinding` chooses for an element: the result that both operands went to, if
this operation computed it; the name of the element, fed by the operation, if they went to none. An
element of another operation on the same operands keeps its name, and no row is bound. -/
def Lib.Transition.Chooses (step : Transition BinderState BindingAction) (row : Name) : Prop :=
  match step.act with
  | .element operation _ _ src1 src2 _ =>
    match step.pre.binder.commonDest src1 src2 with
    | some d =>
      if step.pre.binder.feedingType d = some operation then row = d else step.pre.tmpDestAddr = some row
    | none => step.pre.tmpDestAddr = some row ∧ step.post.binder.feedingType row = some operation
  | .load _ _ | .enter _ | .leave | .accumulate _ _ _ _ => False

/-- **An element appends the row chosen for it.** -/
theorem rowsOf_element {junk : Indeterminate} (hs : s.WellFormed) (hshift : operation.isShift = false)
    (h : bindStep s (.element operation specifications destReg src1 src2 junk) = some s') :
    ∃ row, s'.binder.rowsOf destReg = s.binder.rowsOf destReg ++ [row] ∧
      Transition.Chooses ⟨s, .element operation specifications destReg src1 src2 junk, s'⟩ row := by
  obtain ⟨hop, dest, b', htmp, hn, hle, -, hb', rfl⟩ := bindStep_element hs h
  have happended : (s.binder.addNewItem destReg dest).rowsOf destReg = s.binder.rowsOf destReg ++ [dest] := by
    rw [LiMBinder.rowsOf_addNewItem, if_pos rfl]
  rcases LiMBinder.performBinding_cases hb' with
    ⟨d, hd, hf, rfl⟩ | ⟨d, op, hd, hf, hne, rfl⟩ | ⟨-, hisShift, -⟩ | ⟨hd, -, hmap⟩
  · -- the name of the element is new among the rows, so only the last entry is replaced
    have hd : s.binder.commonDest src1 src2 = some d := hd
    have hf : s.binder.feedingType d = some operation := hf
    have hrows := hn.arrayNamesMap_reuse hf destReg destReg
    rw [if_pos rfl] at hrows
    refine ⟨d, congrArg (Option.getD · []) hrows, ?_⟩
    rw [Transition.Chooses]
    simp [hd, hf]
  · have hd : s.binder.commonDest src1 src2 = some d := hd
    have hf : s.binder.feedingType d = some op := hf
    refine ⟨dest, happended, ?_⟩
    rw [Transition.Chooses]
    simp [hd, hf, hne, htmp]
  · rw [hshift] at hisShift
    cases hisShift
  · have hd : s.binder.commonDest src1 src2 = none := hd
    obtain ⟨w, row, other, base, t, -, hreal, hrest⟩ :=
      LiMBinder.mapOperation_realizes (b := s.binder.addNewItem destReg dest) (hn.fresh (Nat.le_refl _))
        (hn.fresh (show dest ≤ s.binder.zeroAddr by lia)) (show dest ≠ s.binder.zeroAddr by lia) hmap
    have hfeeding : b'.feedingType dest = some operation := hreal.feedingType rfl
    have hrows : b'.rowsOf destReg = (s.binder.addNewItem destReg dest).rowsOf destReg := by rw [hrest]; rfl
    refine ⟨dest, hrows.trans happended, ?_⟩
    rw [Transition.Chooses]
    simp only [hd]
    exact ⟨htmp, hfeeding⟩

/-- The elements append the rows chosen for them. -/
theorem rowsOf_elements {elements : List BindingAction} (hs : s.WellFormed)
    (hshift : operation.isShift = false)
    (hall : ∀ a ∈ elements, ∃ src1 src2 j, a = .element operation specifications destReg src1 src2 j)
    (h : run bindStep s elements = some s') :
    ∃ rows, s'.binder.rowsOf destReg = s.binder.rowsOf destReg ++ rows ∧
      List.Forall₂ (fun row step => step.Chooses row) rows (transitions bindStep s elements) := by
  refine (run_transitions (P := fun tr s' => s'.WellFormed ∧ ∃ rows,
      s'.binder.rowsOf destReg = s.binder.rowsOf destReg ++ rows ∧
        List.Forall₂ (fun row step => step.Chooses row) rows tr)
    (Q := fun a => ∃ src1 src2 j, a = .element operation specifications destReg src1 src2 j)
    ⟨hs, [], (List.append_nil _).symm, .nil⟩ ?_ hall h).2
  rintro tr s₁ _ s₂ ⟨src1, src2, j, rfl⟩ ⟨hs₁, rows, hrows, hchosen⟩ hstep
  obtain ⟨row, hrow, hchooses⟩ := rowsOf_element hs₁ hshift hstep
  refine ⟨(wellFormed_bindStep hs₁ hstep).1, rows ++ [row], ?_, ?_⟩
  · rw [hrow, hrows, List.append_assoc]
  · exact List.rel_append hchosen (.cons hchooses .nil)

/-- The binder when a fully parallel operation has reserved its first name. -/
def LiMBinder.entered (b : LiMBinder) (constants : ℕ) : BinderState :=
  ⟨b.getNewName.2.takeNames constants, some b.zeroAddr⟩

theorem bindStep_enter (b : LiMBinder) (constants : ℕ) :
    bindStep ⟨b, none⟩ (.enter constants) = some (b.entered constants) := rfl

/-- **The rows of a fully parallel operation.** In every state that the binder reaches, the
operation leaves a register without rows with one for each element: the row that was chosen
for it. -/
theorem rowsOf_handleFPOperationBindingProcess {par : ℤ} {optTarget : String} {actions : List BindingAction}
    {b b' : LiMBinder} {s1 s2 : Source} {junk : ℕ → Indeterminate}
    (hb : Reaches par optTarget actions ⟨b, none⟩) (hop : operation.isBound = true)
    (hshift : operation.isShift = false) (hnew : b.findInANM destReg = none)
    (h : b.handleFPOperationBindingProcess operation specifications destReg s1 s2 junk = some b') :
    ∃ rows1 rows2 size1 size2 elements s, b.findInANM s1.reg = some rows1 ∧ b.findInANM s2.reg = some rows2 ∧
      s1.size rows1 = some size1 ∧ s2.size rows2 = some size2 ∧
      b.numElements s1 s2 = some elements.length ∧
      List.Forall₂ (BindingAction.IsElement operation specifications destReg (s1.row rows1 size1)
        (s2.row rows2 size2) junk) (List.range elements.length) elements ∧
      run bindStep (b.entered (s1.constants + s2.constants)) elements = some s ∧ s.binder = b' ∧
      (b'.rowsOf destReg).length = elements.length ∧
      List.Forall₂ (fun row step => step.Chooses row) (b'.rowsOf destReg)
        (transitions bindStep (b.entered (s1.constants + s2.constants)) elements) := by
  obtain ⟨rows1, rows2, size1, size2, elements, s, hrows1, hrows2, hsize1, hsize2, hnum, hall, hrun,
    -, rfl⟩ :=
    handleFPOperationBindingProcess_run hop h
  rw [run_cons, bindStep_enter, Option.bind_some] at hrun
  have hentered := (wellFormed_bindStep (wellFormed_of_reaches hb)
    (bindStep_enter b (s1.constants + s2.constants))).1
  have hempty : (b.entered (s1.constants + s2.constants)).binder.rowsOf destReg = [] :=
    congrArg (Option.getD · []) hnew
  obtain ⟨rows, hrows, hchosen⟩ := rowsOf_elements hentered hshift (fun a ha => by
    obtain ⟨i, -, src1, src2, -, -, rfl⟩ := exists_of_mem_forall₂ hall ha
    exact ⟨src1, src2, junk i, rfl⟩) hrun
  rw [hempty, List.nil_append] at hrows
  subst hrows
  refine ⟨rows1, rows2, size1, size2, elements, s, hrows1, hrows2, hsize1, hsize2, hnum, hall, hrun,
    rfl, ?_, hchosen⟩
  rw [hchosen.length_eq, ← List.length_map (·.act), transitions_map_act hrun]

/-- Two arrays of two rows are loaded, and their first rows are added. -/
def firstRowsAdded : List BindingAction :=
  [.load 1 0, .load 1 0, .load 2 0, .load 2 0, .enter 0, .element .add [] 3 0 8 ⟨1, 0, 0⟩, .leave]

theorem firstRowsAdded_isSome : (run bindStep (.init 8 "") firstRowsAdded).isSome := by decide +kernel

/-- The binder after them. -/
def firstRowsBinder : LiMBinder := ((run bindStep (.init 8 "") firstRowsAdded).get firstRowsAdded_isSome).binder

theorem reaches_firstRowsBinder : Reaches 8 "" firstRowsAdded ⟨firstRowsBinder, none⟩ := by
  have htmp : ((run bindStep (.init 8 "") firstRowsAdded).get firstRowsAdded_isSome).tmpDestAddr = none := by
    decide +kernel
  rw [Reaches, firstRowsBinder, ← htmp]
  exact (Option.some_get firstRowsAdded_isSome).symm

theorem addedRows_isSome : (firstRowsBinder.handleFPOperationBindingProcess .add [] 4 ⟨1, .fakeArray, id⟩
    ⟨2, .fakeArray, id⟩ fun _ => ⟨1, 0, 0⟩).isSome := by decide +kernel

/-- The sum of the arrays reuses the result of the first rows and binds that of the second ones. -/
theorem rowsOf_handleFPOperationBindingProcess_addedRows :
    ∃ b', firstRowsBinder.handleFPOperationBindingProcess .add [] 4 ⟨1, .fakeArray, id⟩ ⟨2, .fakeArray, id⟩
      (fun _ => ⟨1, 0, 0⟩) = some b' ∧ ∃ elements : List BindingAction,
        firstRowsBinder.numElements ⟨1, .fakeArray, id⟩ ⟨2, .fakeArray, id⟩ = some elements.length ∧
          (b'.rowsOf 4).length = elements.length := by
  obtain ⟨b', hb'⟩ := Option.isSome_iff_exists.mp addedRows_isSome
  obtain ⟨-, -, -, -, elements, -, -, -, -, -, hnum, -, -, -, hlength, -⟩ :=
    rowsOf_handleFPOperationBindingProcess reaches_firstRowsBinder (by decide) (by decide) (by decide +kernel) hb'
  exact ⟨b', hb', elements, hnum, hlength⟩

/-! ### The register of an entry -/

/-- **The register of an entry is new** when the binder comes to it: the table lists each register
once. -/
theorem BinderInput.findInANM_of_nodup {I : BinderInput} {T : InstructionTable}
    {before after : List (Reg × Operation)}
    {e : Reg × Operation} {p : BindingPhase} (hnodup : (T.instructionOrderVector.map (·.1)).Nodup)
    (hsplit : T.instructionOrderVector = before ++ e :: after) (h : run (I.step T) I.start before = some p) :
    p.binder.findInANM e.1 = none := by
  obtain ⟨actions, hreach, hall⟩ := reaches_of_run h
  have hnot : ¬ ∃ a ∈ actions, a.destReg? = some e.1 := by
    rintro ⟨a, ha, hdest⟩
    obtain ⟨e', he', d, -, hof⟩ := hall a ha
    have heq : e'.1 = e.1 := by
      rcases hof.destReg? with hk | hnone
      · rw [hk, Option.some.injEq] at hdest
        exact hdest
      · rw [hnone] at hdest
        cases hdest
    rw [hsplit, List.map_append, List.map_cons, List.nodup_append] at hnodup
    exact hnodup.2.2 _ (List.mem_map_of_mem he') _ List.mem_cons_self heq
  have hrows := findInANM_run (BinderState.wellFormed_init I.par I.optTarget) hreach e.1
  rw [if_neg hnot] at hrows
  rw [hrows]
  simp [BinderState.init, LiMBinder.init, LiMBinder.findInANM]

end Octantis
