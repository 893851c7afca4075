import Octantis.Binding.AccumulationSum
import Octantis.Binding.ElementRows
import Octantis.Binding.Reuse
import Octantis.CodeGeneration.Execution

/-!
# The words of the elements

The binder is there so that the component computes what the elements say. Between the two
stand the reuse of results, the rows that are converted, copied or given a mux, and the
times of the rows.

## The model

`ResultOf` says of a row of the last array that it has the result of an operation on two
other ones. `BoundSoundly` is what the code does not check of an element: that a row that
both operands went to was computed by this operation from these operands, and that a mux
does not drop one of them.

## What is proved

* `resultOf_of_bindElement`: an element that is mapped has a result row of its operation;
* `operandsInTime_of_reaches`: its operands are read before it is written;
* `words_of_elements`: in a run whose elements are all bound soundly, and whose rows have at
  most two connections, the component printed leaves in the row of every element the result
  of its operation on the words in the rows of its operands.

## Honest scope

The templates of the muxes are no VHDL, so the rows have at most two connections. The memory
is as large as the rows need; the generic `entries` of the entity has a smaller value when a
name is reserved and not used.
-/

namespace Octantis

open Std Lib PrintVhdlFile

universe u

/-- `par`: the words of the component have 8 bits, whatever the parallelism of the binder is. -/
def PrintVhdlFile.par : ℤ := 8

variable {α : Type u} {A : LiMArray} {F : FiniteStateMachine} {L : RowLogic α} {words Mem : ℕ → α}
  {par : ℤ} {optTarget : String} {actions : List BindingAction} {s s' : BinderState}
  {b b' bEnd : LiMBinder} {operation : Operation} {specifications : List String} {destReg : Reg}
  {src1 src2 dest row other x y d : Name} {w : Way} {base : LiMRow} {t : ℤ}

/-! ### The operations of the rows -/

/-- Every operation gives the same on its operands in the other order. -/
def RowLogic.Commutes (L : RowLogic α) : Prop :=
  ∀ op : Operation, op.IsRowLogic → ∀ a b, L.op op a b = L.op op b a

theorem wordLogic_commutes (width : ℕ) : (wordLogic width).Commutes := by
  intro op hop a b
  cases op with
  | add => exact BitVec.add_comm a b
  | and => exact BitVec.and_comm a b
  | nand => exact congrArg (~~~ ·) (BitVec.and_comm a b)
  | or => exact BitVec.or_comm a b
  | nor => exact congrArg (~~~ ·) (BitVec.or_comm a b)
  | xor => exact BitVec.xor_comm a b
  | xnor => exact congrArg (~~~ ·) (BitVec.xor_comm a b)
  | _ => rfl

theorem Operation.IsRowLogic.ne_load (h : operation.IsRowLogic) : operation ≠ .load := by
  rintro rfl
  revert h
  decide

/-! ### Result rows -/

/-- Row `d` has the result of the operation on rows `x` and `y`: it is fed by one of them with the
other as logic input, or by a copy of the first one with the second as logic input. -/
def LiMArray.ResultOf (A : LiMArray) (operation : Operation) (x y d : Name) : Prop :=
  ∃ drow r rRow z, A.findRow d = some drow ∧ drow.inputConnectionsType.head? = some .OLiM ∧
    drow.inputConnections.head? = some r ∧ A.findRow r = some rRow ∧ rRow.rowType = operation ∧
    rRow.logicInputs = [z] ∧
    (r = x ∧ z = y ∨ r = y ∧ z = x ∨
      z = y ∧ rRow.inputConnectionsType.head? = some .OC ∧ rRow.inputConnections.head? = some x)

/-- **The word of a result row.** -/
theorem HoldsValues.resultOf (h : HoldsValues A F L words Mem) (hL : L.Commutes) (hop : operation.IsRowLogic)
    (hd : A.ResultOf operation x y d) :
    Mem (memIndex d) = L.op operation (Mem (memIndex x)) (Mem (memIndex y)) := by
  obtain ⟨drow, r, rRow, z, hdrow, htype, hr, hrRow, hlogic, hz, hoperands⟩ := hd
  have hword := h.computed d drow r rRow z hdrow htype hr hrRow hz
  rw [hlogic] at hword
  rcases hoperands with ⟨rfl, rfl⟩ | ⟨rfl, rfl⟩ | ⟨rfl, hcopy, hx⟩
  · exact hword
  · rw [hword]
    exact hL operation hop _ _
  · rw [hword, h.copied r rRow x hrRow hcopy hx]

/-- A row of the last array that has a logic input has no other one. -/
theorem LiMRow.Extends.logicInputs_eq {row row' : LiMRow} (h : row.Extends row')
    (hsize : row'.inputConnections.length ≤ 2) (hin : x ∈ row.logicInputs) : row'.logicInputs = [x] := by
  obtain ⟨more, hmore⟩ := h.connections
  cases hconn : row.inputConnections with
  | nil =>
    rw [LiMRow.logicInputs, hconn] at hin
    cases hin
  | cons m rest =>
    rw [LiMRow.logicInputs, hconn, List.tail_cons] at hin
    rw [← hmore, hconn, List.cons_append, List.length_cons] at hsize
    rw [LiMRow.logicInputs, ← hmore, hconn, List.cons_append, List.tail_cons]
    obtain ⟨z, hz⟩ := List.length_eq_one_iff.mp (show (rest ++ more).length = 1 by
      have := List.length_pos_of_mem hin
      rw [List.length_append] at hsize ⊢
      omega)
    have hmem : x ∈ rest ++ more := List.mem_append_left _ hin
    rw [hz, List.mem_singleton] at hmem
    rw [hz, hmem]

/-- A mapping that connects the other operand leaves a result row of the operation. -/
theorem Realizes.resultOf
    (h : Realizes b operation specifications src1 src2 dest w row other base t b'.MemArray F)
    (hin : other ∈ (base.connect other .OC).logicInputs) (hop : operation ≠ .load) (he : b'.Extends bEnd)
    (hsize : bEnd.MemArray.AtMostTwo) : bEnd.MemArray.ResultOf operation src1 src2 dest := by
  obtain ⟨drow, hdrow, hdext⟩ := he.rows dest _ h.findRow_dest
  obtain ⟨rRow, hrRow, hrext⟩ := he.rows row _ h.findRow_row
  have hlogic : (base.connect other .OC).rowType = operation := by
    rw [LiMRow.connect_rowType, h.site.rowType]
  refine ⟨drow, row, rRow, other, hdrow, hdext.head?_types rfl, hdext.head? rfl, hrRow, ?_,
    hrext.logicInputs_eq (hsize row rRow hrRow) hin, ?_⟩
  · rw [hrext.type (hlogic ▸ hop), hlogic]
  · cases h.site with
    | convert operands | mux operands =>
      rcases operands with ⟨rfl, rfl⟩ | ⟨rfl, rfl⟩
      · exact .inr (.inl ⟨rfl, rfl⟩)
      · exact .inl ⟨rfl, rfl⟩
    | copy => exact .inr (.inr ⟨rfl, hrext.head?_types rfl, hrext.head? rfl⟩)

/-- The other operand is connected, unless a mux drops it. -/
theorem Site.mem_logicInputs (h : Site b operation specifications src1 src2 w row other base)
    (hsite : b.site true operation src1 src2 = some (w, row, other)) (hl : b.LoadRows)
    (hreg : Regular b.MemArray b.FSMLim) (hop : operation ≠ .load)
    (hdrops : ¬ b.DropsOperand operation src1 src2) : other ∈ (base.connect other .OC).logicInputs := by
  cases h with
  | @convert _ _ old operands found convertible =>
    have hlen := (hl row old found (LiMRow.rowType_of_convertible convertible)).2
    obtain ⟨m, hm⟩ := List.length_eq_one_iff.mp hlen
    have hm : (old.withLogic operation specifications).inputConnections = [m] := hm
    rw [LiMRow.logicInputs, LiMRow.connect_of_length_one (by rw [hm]; rfl), hm]
    exact List.mem_singleton_self other
  | mux operands found type =>
    have hlen := hreg.arity row base found (type ▸ hop)
    obtain ⟨m, rest, hconn⟩ := List.exists_cons_of_length_pos (by omega : 0 < base.inputConnections.length)
    have hrest : rest ≠ [] := by
      rintro rfl
      rw [hconn, List.length_singleton] at hlen
      omega
    rw [LiMRow.logicInputs_connect .OC hconn hrest]
    rintro ⟨rfl, hx⟩
    apply hdrops
    refine ⟨row, m, base, hsite, found, by rw [hconn]; rfl, ?_⟩
    rw [LiMRow.logicInputs, hconn]
    exact hx
  | copy => exact List.mem_singleton_self src2

/-- The mapping of an element: the other operand is connected, unless a mux drops it. -/
theorem exists_realizes_of_bindElement {junk : Indeterminate} (ha : ∀ a ∈ actions, a.noShift)
    (hs : Reaches par optTarget actions s) (hdest : s.tmpDestAddr = some dest) (hop : operation.IsRowLogic)
    (h : s.bindElement operation specifications destReg src1 src2 junk = some s')
    (hnone : s.binder.commonDest src1 src2 = none) (hdrops : ¬ s.binder.DropsOperand operation src1 src2) :
    ∃ w row other base t, Realizes (s.binder.addNewItem destReg dest) operation specifications src1 src2 dest
      w row other base t s'.binder.MemArray s'.binder.FSMLim ∧
        other ∈ (base.connect other .OC).logicInputs := by
  have hwf := wellFormed_of_reaches hs
  obtain ⟨hn, hle, -⟩ := hwf.named_of_reserved hdest
  rw [BinderState.bindElement, hdest, Option.bind_eq_bind, Option.bind_some] at h
  obtain ⟨b', hb', h⟩ := Option.bind_eq_some_iff.mp h
  obtain rfl := Option.some.inj h
  rcases LiMBinder.performBinding_cases hb' with
    ⟨d, hd, -⟩ | ⟨d, op, hd, -⟩ | ⟨-, hshift, -⟩ | ⟨-, -, hmap⟩
  · cases hnone.symm.trans hd
  · cases hnone.symm.trans hd
  · rw [hop.isShift] at hshift
    cases hshift
  · obtain ⟨w, row, other, base, t, hsite, hreal, -⟩ :=
      LiMBinder.mapOperation_realizes (b := s.binder.addNewItem destReg dest) (hn.fresh (Nat.le_refl _))
        (hn.fresh (show dest ≤ s.binder.zeroAddr by lia)) (show dest ≠ s.binder.zeroAddr by lia) hmap
    exact ⟨w, row, other, base, t, hreal, hreal.site.mem_logicInputs hsite hwf.loads
      (regular_of_reaches ha hs) hop.ne_load hdrops⟩

/-- **The result row of an element** that is mapped. -/
theorem resultOf_of_bindElement {junk : Indeterminate} (ha : ∀ a ∈ actions, a.noShift)
    (hs : Reaches par optTarget actions s) (hdest : s.tmpDestAddr = some dest) (hop : operation.IsRowLogic)
    (h : s.bindElement operation specifications destReg src1 src2 junk = some s')
    (hnone : s.binder.commonDest src1 src2 = none) (hdrops : ¬ s.binder.DropsOperand operation src1 src2)
    (he : s'.binder.Extends bEnd) (hsize : bEnd.MemArray.AtMostTwo) :
    bEnd.MemArray.ResultOf operation src1 src2 dest := by
  obtain ⟨w, row, other, base, t, hreal, hin⟩ := exists_realizes_of_bindElement ha hs hdest hop h hnone hdrops
  exact hreal.resultOf hin hop.ne_load he hsize

/-! ### The times of the operands -/

/-- Every result row is written after the first logic input of the row that feeds it. -/
def LiMBinder.ReadsBefore (b : LiMBinder) : Prop :=
  ∀ n r x, b.FedBy n r x → ∀ tn tx, b.FSMLim.getTime n = some tn → b.FSMLim.getTime x = some tx → tx < tn

/-- The array and the times of a binder without shifts. -/
structure LiMBinder.InShape (b : LiMBinder) : Prop where
  regular : Regular b.MemArray b.FSMLim
  shaped : ∀ n row, b.MemArray.findRow n = some row → Shaped b.MemArray row

namespace LiMBinder

/-- What feeds a row is what fed it when it was added. -/
theorem FedBy.of_extends {n r : Name} (h : b'.FedBy n r x) (hb : b.InShape) (he : b.Extends b')
    (hn : (b.MemArray.findRow n).isSome) : b.FedBy n r x := by
  obtain ⟨old, hold⟩ := Option.isSome_iff_exists.mp hn
  obtain ⟨new, hnew, hext⟩ := he.rows n old hold
  have hshaped := hb.shaped n old hold
  obtain ⟨row, rRow, hrow, htype, hr, -⟩ := id h
  rw [hnew, Option.some.injEq] at hrow
  subst hrow
  obtain ⟨m, hm, -⟩ := hshaped.head
  have hmr := hext.head? hm
  rw [hr, Option.some.injEq] at hmr
  subst hmr
  obtain ⟨c, hc⟩ : ∃ c, old.inputConnectionsType.head? = some c := by
    refine ⟨_, List.head?_eq_some_head fun hnil => ?_⟩
    have hlen := hshaped.types
    rw [hnil] at hlen
    rw [List.eq_nil_of_length_eq_zero hlen.symm] at hm
    cases hm
  have hcr := hext.head?_types hc
  rw [htype, Option.some.injEq] at hcr
  subst hcr
  obtain ⟨m', rOld, hm', hrOld, hlogic⟩ := hshaped.output hc
  rw [hm, Option.some.injEq] at hm'
  subst hm'
  obtain ⟨z, hz⟩ : ∃ z, rOld.logicInputs.head? = some z := by
    refine ⟨_, List.head?_eq_some_head fun hnil => ?_⟩
    have harity := hb.regular.arity r rOld hrOld hlogic
    have hlen := congrArg List.length hnil
    rw [LiMRow.logicInputs, List.length_tail, List.length_nil] at hlen
    omega
  have hfed : b.FedBy n r z := ⟨old, rOld, hold, hc, hm, hrOld, hz⟩
  rw [(h.unique (hfed.mono he)).2]
  exact hfed

/-- The rows that were there still read in time. -/
theorem ReadsBefore.extend (h : b.ReadsBefore) (hb : b.InShape) (he : b.Extends b')
    (hnew : ∀ n r x, b.MemArray.findRow n = none → b'.FedBy n r x →
      ∀ tn tx, b'.FSMLim.getTime n = some tn → b'.FSMLim.getTime x = some tx → tx < tn) : b'.ReadsBefore := by
  intro n r x hfed tn tx htn htx
  cases hn : b.MemArray.findRow n with
  | none => exact hnew n r x hn hfed tn tx htn htx
  | some old =>
    have hold := hfed.of_extends hb he (Option.isSome_of_eq_some hn)
    obtain ⟨-, rRow, -, -, -, hrRow, hx⟩ := id hold
    obtain ⟨tn', htn'⟩ := hb.regular.time_of_row (Option.isSome_of_eq_some hn)
    obtain ⟨tx', htx'⟩ := hb.regular.time_of_row ((hb.shaped r rRow hrRow).rest x (List.mem_of_head? hx))
    have hlt := h n r x hold tn' tx' htn' htx'
    rw [he.times n tn' htn', Option.some.injEq] at htn
    rw [he.times x tx' htx', Option.some.injEq] at htx
    omega

/-- The result row of a mapping is written after the operand that is connected. -/
theorem readsBefore_of_realizes (h : b.ReadsBefore) (hb : b.InShape) (he : b.Extends b')
    (hreal : Realizes b operation specifications src1 src2 dest w row other base t b'.MemArray b'.FSMLim)
    (hfirst : (base.connect other .OC).logicInputs.head? = some other) : b'.ReadsBefore := by
  refine h.extend hb he ?_
  rintro n r x hnone ⟨nRow, rRow, hnRow, htype, hr, hrRow, hx⟩ tn tx htn htx
  rcases hreal.rows_of_findRow hnRow with hold | rfl | ⟨rfl, rfl⟩
  · rw [hnone] at hold
    cases hold
  · -- the result row
    rw [hreal.findRow_dest, Option.some.injEq] at hnRow
    subst hnRow
    obtain rfl : row = r := Option.some.inj hr
    rw [hreal.findRow_row, Option.some.injEq] at hrRow
    subst hrRow
    obtain rfl : other = x := Option.some.inj (hfirst.symm.trans hx)
    obtain ⟨tother, hother, hlt, -⟩ := hreal.getTime_other
    rw [hreal.getTime_of_some hother, Option.some.injEq] at htx
    rw [hreal.getTime_dest hb.regular, Option.some.injEq] at htn
    split at htn <;> omega
  · -- the copy row is no result row
    have hrow := hreal.findRow_row
    have hbase := hreal.site
    cases hbase with
    | copy =>
      rw [hrow, Option.some.injEq] at hnRow
      subst hnRow
      cases htype

/-- The first logic input of a row that is given its logic. -/
theorem head?_logicInputs_connect (hl : b.LoadRows) (hw : w ≠ .mux)
    (h : Site b operation specifications src1 src2 w row other base) :
    (base.connect other .OC).logicInputs.head? = some other := by
  cases h with
  | @convert _ _ old operands found convertible =>
    have hlen := (hl row old found (LiMRow.rowType_of_convertible convertible)).2
    obtain ⟨m, hm⟩ := List.length_eq_one_iff.mp hlen
    have hm : (old.withLogic operation specifications).inputConnections = [m] := hm
    rw [LiMRow.logicInputs, LiMRow.connect_of_length_one (by rw [hm]; rfl), hm]
    rfl
  | mux => exact absurd rfl hw
  | copy => rfl

/-- The pairs of an accumulation keep the shape of the array. -/
theorem inShape_pairs (pairs : List (Name × Name)) (hb : b.WellFormed) (h : b.InShape) (hop : operation ≠ .load)
    (hrun : run (pairStep operation specifications) b pairs = some b') : b'.InShape := by
  refine ⟨?_, shaped_invariant.pairs hb h.regular hop trivial h.shaped hrun⟩
  refine (run_invariant (P := fun b' => b'.WellFormed ∧ Regular b'.MemArray b'.FSMLim) (Q := fun _ => True)
    ⟨hb, h.regular⟩ ?_ (fun _ _ => trivial) hrun).2
  rintro b₁ pair b₂ - ⟨hb₁, h₁⟩ hstep
  obtain ⟨⟨b₂, tmpName⟩, hpair, rfl⟩ := Option.map_eq_some_iff.mp hstep
  exact ⟨(wellFormed_bindPair hb₁ hop hpair).1, regular_bindPair hb₁ h₁ hop hpair⟩

/-- The pairs of an accumulation read in time. -/
theorem readsBefore_pairs {pairs : List (Name × Name)} (hb : b.WellFormed) (hshape : b.InShape)
    (h : b.ReadsBefore) (hop : operation ≠ .load)
    (hrun : run (pairStep operation specifications) b pairs = some b') : b'.ReadsBefore := by
  refine (run_invariant (P := fun b' => b'.WellFormed ∧ b'.InShape ∧ b'.ReadsBefore) (Q := fun _ => True)
    ⟨hb, hshape, h⟩ ?_ (fun _ _ => trivial) hrun).2.2
  rintro b₁ pair b₂ - ⟨hb₁, hshape₁, h₁⟩ hstep
  have hshape₂ := inShape_pairs [pair] hb₁ hshape₁ hop (by rw [run_cons, hstep]; rfl)
  obtain ⟨⟨b₂, tmpName⟩, hpair, rfl⟩ := Option.map_eq_some_iff.mp hstep
  obtain ⟨hb₂, he, -⟩ := wellFormed_bindPair hb₁ hop hpair
  obtain ⟨w, row, other, base, t, hsite, -, hreal, -⟩ := bindPair_realizes hb₁.freshZero hb₁.freshNext hpair
  exact ⟨hb₂, hshape₂, readsBefore_of_realizes h₁ hshape₁ he hreal
    (head?_logicInputs_connect hb₁.loads (way_of_site_false hsite) hreal.site)⟩

end LiMBinder

/-! ### The elements of a run -/

theorem noShift_of_allowed {a : BindingAction} (h : a.allowed (· = 0) Operation.IsRowLogic) : a.noShift := by
  cases a with
  | load | enter | leave => trivial
  | element operation | accumulate operation => exact Operation.IsRowLogic.isShift h

theorem inShape_of_reaches (ha : ∀ a ∈ actions, a.noShift) (h : Reaches par optTarget actions s) :
    s.binder.InShape := ⟨regular_of_reaches ha h, fun _ _ => shaped_of_findRow ha h⟩

/-- **A step reads in time**, when no mux drops an operand. -/
theorem readsBefore_bindStep {a : BindingAction} {tr : List (Transition BinderState BindingAction)}
    (ha : ∀ a ∈ actions, a.noShift) (hallowed : a.allowed (· = 0) Operation.IsRowLogic)
    (hs : Reaches par optTarget actions s) (hsound : Transition.BoundSoundly tr ⟨s, a, s'⟩)
    (h : s.binder.ReadsBefore)
    (hstep : bindStep s a = some s') (hsize : s'.binder.MemArray.AtMostTwo) : s'.binder.ReadsBefore := by
  have hwf := wellFormed_of_reaches hs
  have hshape := inShape_of_reaches ha hs
  obtain ⟨-, he⟩ := wellFormed_bindStep hwf hstep
  cases a with
  | load destReg ti =>
    obtain ⟨hb, rfl⟩ := bindStep_load hwf hstep
    refine h.extend hshape he ?_
    rintro n r x hnone ⟨row, -, hrow, htype, -⟩
    have hrows := LiMBinder.findRow_bindLoad hb.named destReg ti n
    rw [hrow, hnone] at hrows
    split at hrows
    · obtain rfl := Option.some.inj hrows
      cases htype
    · cases hrows
  | enter constants =>
    obtain ⟨-, hstep⟩ := Option.ite_none_right_eq_some.mp hstep
    cases hstep
    exact h
  | leave =>
    obtain ⟨-, hstep⟩ := Option.ite_none_right_eq_some.mp hstep
    cases hstep
    exact h
  | accumulate operation specifications destReg accumulationList =>
    obtain ⟨hop, hb, b', hb', rfl⟩ := bindStep_accumulate hwf hstep
    obtain ⟨pairs, b₁, row, hrun, -, rfl⟩ := LiMBinder.performAccBinding_run hb hop hb'
    have hpairs := LiMBinder.readsBefore_pairs hb hshape h hop hrun
    exact hpairs
  | element operation specifications destReg src1 src2 junk =>
    obtain ⟨-, hdrops, -⟩ := hsound
    obtain ⟨-, hbound⟩ := Option.ite_none_right_eq_some.mp hstep
    obtain ⟨-, dest, b', hdest, hn, hle, -, hb', rfl⟩ := bindStep_element hwf hstep
    cases hcommon : s.binder.commonDest src1 src2 with
    | some d =>
      rcases LiMBinder.performBinding_cases hb' with
        ⟨_, -, -, rfl⟩ | ⟨_, _, -, -, -, rfl⟩ | ⟨hnone, -⟩ | ⟨hnone, -⟩
      · rw [LiMBinder.addNewItemInRefPos_eq]
        exact h
      · exact h
      · cases hcommon.symm.trans hnone
      · cases hcommon.symm.trans hnone
    | none =>
      obtain ⟨w, row, other, base, t, hreal, hin⟩ :=
        exists_realizes_of_bindElement ha hs hdest hallowed hbound hcommon (hdrops hcommon)
      have hfirst := (LiMRow.Extends.refl _).logicInputs_eq (hsize row _ hreal.findRow_row) hin
      refine LiMBinder.readsBefore_of_realizes (b := s.binder.addNewItem destReg dest) h
        ⟨hshape.regular, hshape.shaped⟩ ⟨he.rows, he.times, he.dests, he.sums⟩ hreal ?_
      rw [hfirst]
      rfl

/-- Every run whose elements are bound soundly reads in time. -/
theorem readsBefore_of_reaches {tr : List (Transition BinderState BindingAction)}
    (hallowed : ∀ a ∈ actions, a.allowed (· = 0) Operation.IsRowLogic) (h : Reaches par optTarget actions s)
    (hsound : ∀ step ∈ history par optTarget actions, step.BoundSoundly tr)
    (hsize : s.binder.MemArray.AtMostTwo) : s.binder.ReadsBefore := by
  refine run_induction (P := fun actions s => (∀ a ∈ actions, a.allowed (· = 0) Operation.IsRowLogic) →
    (∀ step ∈ history par optTarget actions, step.BoundSoundly tr) → s.binder.MemArray.AtMostTwo →
      s.binder.ReadsBefore) ?_ ?_ h hallowed hsound hsize
  · rintro - - - n r x ⟨row, -, hrow, -⟩
    have hnone : LiMArray.empty.findRow n = none := rfl
    cases hnone.symm.trans hrow
  · intro actions s a s' hs ih hstep hallowed hsound hsize
    have hbefore : ∀ a ∈ actions, a.allowed (· = 0) Operation.IsRowLogic :=
      fun b hb => hallowed b (List.mem_append_left _ hb)
    have hhistory : history par optTarget (actions ++ [a]) = history par optTarget actions ++ [⟨s, a, s'⟩] :=
      transitions_snoc hs hstep
    rw [hhistory] at hsound
    have he := (wellFormed_bindStep (wellFormed_of_reaches hs) hstep).2
    have hreads := ih hbefore (fun step hin => hsound step (List.mem_append_left _ hin)) (hsize.of_extends he)
    exact readsBefore_bindStep (fun b hb => noShift_of_allowed (hbefore b hb)) (hallowed a (by simp)) hs
      (hsound _ (by simp)) hreads hstep hsize

/-- **The operands are in time** in a run whose elements are bound soundly. -/
theorem operandsInTime_of_reaches {tr : List (Transition BinderState BindingAction)}
    (hallowed : ∀ a ∈ actions, a.allowed (· = 0) Operation.IsRowLogic) (h : Reaches par optTarget actions s)
    (hsound : ∀ step ∈ history par optTarget actions, step.BoundSoundly tr)
    (hsize : s.binder.MemArray.AtMostTwo) : OperandsInTime s.binder.MemArray s.binder.FSMLim := by
  have hreads := readsBefore_of_reaches hallowed h hsound hsize
  intro d drow r rRow hd htype hr hrRow x hx td tx htd htx
  refine hreads d r x ⟨drow, rRow, hd, htype, hr, hrRow, ?_⟩ td tx htd htx
  rw [(LiMRow.Extends.refl rRow).logicInputs_eq (hsize r rRow hrRow) hx]
  rfl

/-! ### The words of the elements -/

/-- An element that produces a row has operands that went to no common row. -/
theorem Produces.commonDest_eq_none {t : Transition BinderState BindingAction} (h : Produces t operation x y d)
    (hs : t.pre.WellFormed) (hshift : operation.isShift = false)
    (hstep : bindStep t.pre t.act = some t.post) : t.pre.binder.commonDest x y = none := by
  obtain ⟨⟨specifications, destReg, junk, hact⟩, hreserved, hfresh, hnew⟩ := h
  rw [hact] at hstep
  obtain ⟨-, dest, b', hdest, -, -, -, hb', hpost⟩ := bindStep_element hs hstep
  obtain rfl : d = dest := Option.some.inj (hreserved.symm.trans hdest)
  rw [hpost] at hnew
  have hnew : (b'.MemArray.findRow d).isSome := hnew
  rcases LiMBinder.performBinding_cases hb' with
    ⟨_, -, -, rfl⟩ | ⟨_, _, -, -, -, rfl⟩ | ⟨-, hisShift, -⟩ | ⟨hnone, -⟩
  · rw [LiMBinder.addNewItemInRefPos_eq] at hnew
    exact absurd hnew (Option.not_isSome_iff_eq_none.mpr hfresh)
  · exact absurd hnew (Option.not_isSome_iff_eq_none.mpr hfresh)
  · rw [hshift] at hisShift
    cases hisShift
  · exact hnone

section

variable (hallowed : ∀ a ∈ actions, a.allowed (· = 0) Operation.IsRowLogic) (h : Reaches par optTarget actions s)
  (hsound : ∀ step ∈ history par optTarget actions, step.BoundSoundly (history par optTarget actions))
  (hsize : s.binder.MemArray.AtMostTwo)
include hallowed h hsound hsize

/-- The result row of an element whose operands went to no common row. -/
theorem resultOf_of_mapped {junk : Indeterminate} {step : Transition BinderState BindingAction}
    (hstep : step ∈ history par optTarget actions)
    (hact : step.act = .element operation specifications destReg src1 src2 junk)
    (hreserved : step.pre.tmpDestAddr = some d) (hnone : step.pre.binder.commonDest src1 src2 = none) :
    s.binder.MemArray.ResultOf operation src1 src2 d := by
  have hboth := hsound step hstep
  rw [Transition.BoundSoundly, hact] at hboth
  obtain ⟨-, hdrops, -⟩ := hboth
  obtain ⟨before, hbefore, hreach, hone⟩ := exists_run_of_mem_transitions hstep
  have hop := hallowed _ (mem_of_mem_transitions hstep)
  rw [hact] at hop hone
  obtain ⟨-, hbound⟩ := Option.ite_none_right_eq_some.mp hone
  exact resultOf_of_bindElement (fun a ha => noShift_of_allowed (hallowed a (hbefore.subset ha))) hreach
    hreserved hop hbound hnone (hdrops hnone) ((destinations_of_reaches h).kept step hstep) hsize

/-- The row that an element produces is a result row of its operation. -/
theorem Produces.resultOf {step : Transition BinderState BindingAction}
    (hstep : step ∈ history par optTarget actions) (hp : Produces step operation x y d) :
    operation.IsRowLogic ∧ s.binder.MemArray.ResultOf operation x y d := by
  obtain ⟨before, -, hreach, hone⟩ := exists_run_of_mem_transitions hstep
  obtain ⟨specifications, destReg, junk, hact⟩ := hp.act
  have hop := hallowed _ (mem_of_mem_transitions hstep)
  rw [hact] at hop
  exact ⟨hop, resultOf_of_mapped hallowed h hsound hsize hstep hact hp.reserved
    (hp.commonDest_eq_none (wellFormed_of_reaches hreach) (Operation.IsRowLogic.isShift hop) hone)⟩

/-- The result row of every element, mapped or reused. -/
theorem resultOf_of_chooses {junk : Indeterminate} {step : Transition BinderState BindingAction}
    (hstep : step ∈ history par optTarget actions)
    (hact : step.act = .element operation specifications destReg src1 src2 junk)
    (hrow : step.Chooses row) :
    s.binder.MemArray.ResultOf operation src1 src2 row ∨ s.binder.MemArray.ResultOf operation src2 src1 row := by
  have hboth := hsound step hstep
  rw [Transition.BoundSoundly, hact] at hboth
  obtain ⟨hresolved, -, hreuse⟩ := hboth
  rw [Transition.Chooses, hact] at hrow
  simp only at hrow
  cases hcommon : step.pre.binder.commonDest src1 src2 with
  | none =>
    rw [hcommon] at hrow
    exact .inl (resultOf_of_mapped hallowed h hsound hsize hstep hact hrow.1 hcommon)
  | some d =>
    rw [LiMBinder.Resolved, hcommon] at hresolved
    rw [hcommon] at hrow
    simp only at hrow hresolved
    rw [if_pos hresolved] at hrow
    subst hrow
    -- the row reused was produced, hence mapped
    obtain ⟨t, ht, hp | ⟨-, hp⟩⟩ := hreuse row ⟨hcommon, hresolved⟩
    · exact .inl (hp.resultOf hallowed h hsound hsize ht).2
    · exact .inr (hp.resultOf hallowed h hsound hsize ht).2

end

/-- What the component leaves in its memory: the words of the rows loaded, and in the row of every
element of the run the result of its operation on the words in the rows of its operands. -/
structure ElementWords (tr : List (Transition BinderState BindingAction)) (A : LiMArray)
    (F : FiniteStateMachine) (L : RowLogic α) (words Mem : ℕ → α) : Prop where
  loaded : ∀ n row, A.findRow n = some row → F.getTime n = some 0 → Mem (memIndex n) = words (memIndex n)
  elements : ∀ step ∈ tr, ∀ operation specifications destReg src1 src2 junk row,
    step.act = .element operation specifications destReg src1 src2 junk → step.Chooses row →
      Mem (memIndex row) = L.op operation (Mem (memIndex src1)) (Mem (memIndex src2))

/-- **The words of the elements.** When every element is bound soundly and no row has more than
two connections, the component that is printed leaves in the row of every element the result
of its operation, in every memory that holds the rows and whatever the words loaded are. -/
theorem words_of_elements (hallowed : ∀ a ∈ actions, a.allowed (· = 0) Operation.IsRowLogic)
    (h : Reaches par optTarget actions s)
    (hsound : ∀ step ∈ history par optTarget actions, step.BoundSoundly (history par optTarget actions))
    (hsize : s.binder.MemArray.AtMostTwo) (hwritten : 2 ≤ s.binder.FSMLim.transform.getFSMSize)
    (hL : L.Commutes) :
    ∃ V, printArchitecture s.binder.MemArray PrintVhdlFile.par s.binder.FSMLim.transform = some V ∧
      ∀ m, (∀ n row, s.binder.MemArray.findRow n = some row → memIndex n < m) →
        ∀ words cycles, 2 * s.binder.FSMLim.transform.getFSMSize - 2 ≤ cycles →
          ∃ c, V.simulate L m words cycles = some c ∧
            ElementWords (history par optTarget actions) s.binder.MemArray s.binder.FSMLim L words c.Mem := by
  have hplain := plainArray_of_reaches hallowed h hsize
  have hin := operandsInTime_of_reaches hallowed h hsound hsize
  obtain ⟨V, hV⟩ := hplain.exists_printArchitecture PrintVhdlFile.par
  refine ⟨V, hV, fun m hm words cycles hcycles => ?_⟩
  obtain ⟨c, hsim, hvalues⟩ := hplain.exists_simulate hwritten hin hV hm L words hcycles
  refine ⟨c, hsim, hvalues.loaded, fun step hstep operation specifications destReg src1 src2 junk row hact hrow => ?_⟩
  have hop := hallowed _ (mem_of_mem_transitions hstep)
  rw [hact] at hop
  rcases resultOf_of_chooses hallowed h hsound hsize hstep hact hrow with hresult | hresult
  · exact hvalues.resultOf hL hop hresult
  · rw [hvalues.resultOf hL hop hresult]
    exact hL operation hop _ _

/-- The sum of two rows loaded, on words of 8 bits. -/
theorem words_of_elements_addedLoads :
    ∃ s V, Reaches 8 "" addedLoads s ∧
      printArchitecture s.binder.MemArray 8 s.binder.FSMLim.transform = some V ∧
      ∀ words : ℕ → BitVec 8, ∃ c, V.simulate (wordLogic 8) 3 words 2 = some c ∧
        ElementWords (history 8 "" addedLoads) s.binder.MemArray s.binder.FSMLim (wordLogic 8) words c.Mem := by
  have hrows : ∀ entry ∈ ((run bindStep (.init 8 "") addedLoads).get
      addedLoads_isSome).binder.MemArray.limArray.toList, entry.2.inputConnections.length ≤ 2 ∧
        memIndex entry.1 < 3 := by decide +kernel
  have hmaps : ∀ step ∈ history 8 "" addedLoads,
      step.act.MapsPlainly step.pre.binder := by decide +kernel
  have hrow : ∀ n row, ((run bindStep (.init 8 "") addedLoads).get addedLoads_isSome).binder.MemArray.findRow n =
      some row → (n, row) ∈ ((run bindStep (.init 8 "") addedLoads).get
        addedLoads_isSome).binder.MemArray.limArray.toList :=
    fun n row h => ExtTreeMap.mem_toList_iff_getElem?_eq_some.mpr h
  obtain ⟨V, hV, hsim⟩ := words_of_elements (by decide) (Option.some_get addedLoads_isSome).symm
    (fun step hstep => Transition.boundSoundly_of_mapsPlainly (hmaps step hstep) _) (fun n row h => (hrows _ (hrow n row h)).1)
    (by decide +kernel) (wordLogic_commutes 8)
  exact ⟨_, V, (Option.some_get addedLoads_isSome).symm, hV,
    fun words => hsim 3 (fun n row h => (hrows _ (hrow n row h)).2) words 2 (by decide +kernel)⟩

end Octantis
