import Octantis.Binding.WithoutShifts

/-!
# The binding of one element

What one element of a fully parallel operation leaves behind: the name recorded
for it, and the logic of the row that feeds it.

## What is proved

* `bindElement_recordsRow_iff`: the name recorded is a row with a time exactly when
  the row that both operands last went to, if there is one, was computed by the
  operation at hand. When it was computed by another operation nothing is mapped
  and the name dangles (`subtraction_after_addition_dangles`).
* `bindElement_computes_iff`: a new result row computes the operation on both
  operands exactly when no operand is taken for connected already because it is
  the memory input of the row with the mux (`operand_in_memory_input_dropped`).
-/

namespace Octantis

open Std Lib

variable {b b' : LiMBinder} {operation : Operation} {specifications : List String}
  {src1 src2 dest row other : Name} {w : Way} {base : LiMRow} {t : ℤ} {A : LiMArray}
  {F : FiniteStateMachine}

/-! ### The name recorded -/

/-- The binding of the element is defined, and the name it appends to the rows of its register is a
row with a time. -/
def RecordsRow (s : BinderState) (operation : Operation) (specifications : List String) (destReg : Reg)
    (src1 src2 : Name) (junk : Indeterminate) : Prop :=
  ∃ s' n, s.bindElement operation specifications destReg src1 src2 junk = some s' ∧
    s'.binder.rowsOf destReg = s.binder.rowsOf destReg ++ [n] ∧
    (s'.binder.MemArray.findRow n).isSome ∧ (s'.binder.FSMLim.getTime n).isSome

/-- The operands last went to one row and that row was computed by the operation, or they went to no
common row and have a time. -/
def LiMBinder.Resolved (b : LiMBinder) (operation : Operation) (src1 src2 : Name) : Prop :=
  match b.commonDest src1 src2 with
  | some d => b.feedingType d = some operation
  | none => (b.FSMLim.getTime src1).isSome ∧ (b.FSMLim.getTime src2).isSome

instance (b : LiMBinder) (operation : Operation) (src1 src2 : Name) :
    Decidable (b.Resolved operation src1 src2) := by
  unfold LiMBinder.Resolved
  split <;> infer_instance

namespace LiMBinder

theorem commonDest_eq_some {d : Name} (h : b.commonDest src1 src2 = some d) :
    b.lastDestMap[src1]? = some d ∧ b.lastDestMap[src2]? = some d := by
  unfold commonDest at h
  split at h
  · next d1 d2 h1 h2 =>
    split at h
    · next heq =>
      rw [Option.some.injEq] at h
      exact ⟨h ▸ h1, h ▸ heq ▸ h2⟩
    · cases h
  · cases h

theorem nextTime_isSome_iff :
    (b.nextTime src1 src2).isSome ↔ (b.FSMLim.getTime src1).isSome ∧ (b.FSMLim.getTime src2).isSome := by
  unfold nextTime
  cases b.FSMLim.getTime src1 <;> cases b.FSMLim.getTime src2 <;> simp

end LiMBinder

/-- An element that is reused, as the state after it. -/
theorem bindElement_reuse {s : BinderState} {destReg : Reg} {d : Name} (junk : Indeterminate)
    (hdest : s.tmpDestAddr = some dest) (hd : s.binder.commonDest src1 src2 = some d)
    (hf : s.binder.feedingType d = some operation) :
    ∃ s', s.bindElement operation specifications destReg src1 src2 junk = some s' ∧
      s'.binder.MemArray = s.binder.MemArray ∧ s'.binder.FSMLim = s.binder.FSMLim ∧
      s'.binder.arrayNamesMap =
        ((s.binder.addNewItem destReg dest).addNewItemInRefPos destReg dest d).arrayNamesMap := by
  have hd' : (s.binder.addNewItem destReg dest).commonDest src1 src2 = some d := hd
  have hf' : (s.binder.addNewItem destReg dest).feedingType d = some operation := hf
  simp only [BinderState.bindElement, hdest, Option.bind_eq_bind, Option.bind_some,
    LiMBinder.performBinding, hd', hf', if_true]
  refine ⟨_, rfl, ?_, ?_, rfl⟩
  all_goals
    rw [LiMBinder.addNewItemInRefPos_eq]
    rfl

/-- **The name recorded for an element** is a row with a time exactly when the operands are
resolved: an element of another operation on the same two rows maps nothing. -/
theorem bindElement_recordsRow_iff {par : ℤ} {optTarget : String} {actions : List BindingAction}
    {s : BinderState} (hs : Reaches par optTarget actions s) (hdest : s.tmpDestAddr.isSome)
    (h1 : (s.binder.MemArray.findRow src1).isSome) (h2 : (s.binder.MemArray.findRow src2).isSome)
    (hshift : operation.isShift = false) (destReg : Reg) (junk : Indeterminate) :
    RecordsRow s operation specifications destReg src1 src2 junk ↔
      s.binder.Resolved operation src1 src2 := by
  have hwf := wellFormed_of_reaches hs
  obtain ⟨dest, hdest⟩ := Option.isSome_iff_exists.mp hdest
  obtain ⟨hn, hle, -⟩ := hwf.named_of_reserved hdest
  have fresh : s.binder.MemArray.findRow dest = none := hn.fresh (Nat.le_refl _)
  have freshZero : s.binder.MemArray.findRow s.binder.zeroAddr = none := hn.fresh (by lia)
  unfold LiMBinder.Resolved
  constructor
  · rintro ⟨s', n, hs', hrows, hrow, htime⟩
    rw [BinderState.bindElement, hdest, Option.bind_eq_bind, Option.bind_some] at hs'
    obtain ⟨b', hb', hs'⟩ := Option.bind_eq_some_iff.mp hs'
    cases hs'
    rcases LiMBinder.performBinding_cases hb' with
      ⟨d, hd, hf, rfl⟩ | ⟨d, op, hd, hf, hne, rfl⟩ | ⟨-, hs, -⟩ | ⟨hd, -, hmap⟩
    · have hd : s.binder.commonDest src1 src2 = some d := hd
      rw [hd]
      exact hf
    · -- nothing is mapped, and the name recorded is the one reserved
      have hlast : s.binder.rowsOf destReg ++ [dest] = s.binder.rowsOf destReg ++ [n] := by
        rw [← hrows]
        show _ = (s.binder.addNewItem destReg dest).rowsOf destReg
        rw [LiMBinder.rowsOf_addNewItem, if_pos rfl]
      have hlast : dest = n := by simpa using hlast
      have hrow : (s.binder.MemArray.findRow n).isSome := hrow
      rw [← hlast, fresh] at hrow
      cases hrow
    · rw [hshift] at hs
      cases hs
    · have hd : s.binder.commonDest src1 src2 = none := hd
      rw [hd]
      obtain ⟨w, row, other, base, t, -, hreal, -⟩ :=
        LiMBinder.mapOperation_realizes (b := s.binder.addNewItem destReg dest) fresh freshZero
          (show dest ≠ s.binder.zeroAddr by lia) hmap
      exact LiMBinder.nextTime_isSome_iff.mp (Option.isSome_of_eq_some hreal.time)
  · cases hd : s.binder.commonDest src1 src2 with
    | some d =>
      intro hf
      obtain ⟨s', hs', hA, hF, hmap⟩ := bindElement_reuse junk hdest hd hf
      obtain ⟨hd1, -⟩ := LiMBinder.commonDest_eq_some hd
      obtain ⟨op, -, -, htime⟩ := hwf.dests src1 d hd1
      have hrow := LiMBinder.findRow_of_feedingType hf
      refine ⟨s', d, hs', ?_, hA ▸ hrow, hF ▸ htime⟩
      rw [LiMBinder.rowsOf, hmap, hn.arrayNamesMap_reuse hf, if_pos rfl]
      rfl
    | none =>
      intro ht
      obtain ⟨b', hb'⟩ := Option.isSome_iff_exists.mp
        (LiMBinder.mapOperation_isSome (b := s.binder.addNewItem destReg dest) operation specifications
          dest freshZero h1 h2 (LiMBinder.nextTime_isSome_iff.mpr ht))
      obtain ⟨w, row, other, base, t, -, hreal, hrest⟩ :=
        LiMBinder.mapOperation_realizes (b := s.binder.addNewItem destReg dest) fresh freshZero
          (show dest ≠ s.binder.zeroAddr by lia) hb'
      have hd' : (s.binder.addNewItem destReg dest).commonDest src1 src2 = none := hd
      refine ⟨⟨b'.getNewName.2, some b'.zeroAddr⟩, dest, ?_, ?_, ?_, ?_⟩
      · simp only [BinderState.bindElement, hdest, Option.bind_eq_bind, Option.bind_some,
          LiMBinder.performBinding, hd', hshift]
        rw [if_neg (by decide), hb']
        rfl
      · show b'.rowsOf destReg = _
        rw [hrest]
        show (s.binder.addNewItem destReg dest).rowsOf destReg = _
        rw [LiMBinder.rowsOf_addNewItem, if_pos rfl]
      · show (b'.MemArray.findRow dest).isSome
        rw [hreal.findRow_dest]
        rfl
      · show (b'.FSMLim.getTime dest).isSome
        rw [hreal.times]
        exact LiMBinder.getTime_scheduleDest_self _ _ _ _ _

/-- Two rows are loaded, and a fully parallel operation is entered. -/
def twoLoads : List BindingAction := [.load 1 0, .load 2 0, .enter 0]

theorem twoLoads_isSome : (run bindStep (.init 8 "") twoLoads).isSome := by decide +kernel

/-- The sum of two rows loaded is recorded. -/
theorem bindElement_recordsRow_iff_twoLoads :
    ∃ s, Reaches 8 "" twoLoads s ∧ RecordsRow s .add [] 3 0 4 ⟨1, 0, 0⟩ := by
  refine ⟨_, (Option.some_get twoLoads_isSome).symm, ?_⟩
  exact (bindElement_recordsRow_iff (Option.some_get twoLoads_isSome).symm (by decide +kernel)
    (by decide +kernel) (by decide +kernel) (by decide) 3 ⟨1, 0, 0⟩).mpr (by decide +kernel)

/-- Two rows are loaded and added, and their difference is entered. -/
def addedLoads : List BindingAction := twoLoads ++ [.element .add [] 3 0 4 ⟨1, 0, 0⟩, .leave, .enter 0]

theorem addedLoads_isSome : (run bindStep (.init 8 "") addedLoads).isSome := by decide +kernel

/-- The difference of two rows that were added is mapped nowhere: its name is no row. -/
theorem subtraction_after_addition_dangles :
    ∃ s, Reaches 8 "" addedLoads s ∧ s.tmpDestAddr.isSome ∧ (s.binder.MemArray.findRow 0).isSome ∧
      (s.binder.MemArray.findRow 4).isSome ∧ ¬ RecordsRow s .sub [] 5 0 4 ⟨1, 0, 0⟩ := by
  refine ⟨_, (Option.some_get addedLoads_isSome).symm, by decide +kernel, by decide +kernel,
    by decide +kernel, ?_⟩
  rintro ⟨s', n, hs', hrows, hrow, -⟩
  have hnames : (((run bindStep (.init 8 "") addedLoads).get addedLoads_isSome).bindElement .sub [] 5 0 4
      ⟨1, 0, 0⟩).map (fun s' => (s'.binder.rowsOf 5, (s'.binder.MemArray.findRow 16).isSome)) =
        some ([16], false) := by decide +kernel
  have hold : ((run bindStep (.init 8 "") addedLoads).get addedLoads_isSome).binder.rowsOf 5 = [] := by
    decide +kernel
  rw [hs', Option.map_some, Option.some.injEq, Prod.mk.injEq, hrows, hold, List.nil_append,
    List.singleton_inj] at hnames
  rw [hnames.1, hnames.2] at hrow
  cases hrow

/-! ### The operands of a new result row -/

/-- In the array of `b'`, the row that feeds `dest` computes the operation on both operands: it is
one of them with the other among its logic inputs, or a copy row, new with respect to `b`, of the
first with the second. -/
def Computes (b b' : LiMBinder) (operation : Operation) (src1 src2 dest : Name) : Prop :=
  ∃ destRow r rRow, b'.MemArray.findRow dest = some destRow ∧ destRow.inputConnections.head? = some r ∧
    b'.MemArray.findRow r = some rRow ∧ rRow.rowType = operation ∧
    (r = src1 ∧ src2 ∈ rRow.logicInputs ∨ r = src2 ∧ src1 ∈ rRow.logicInputs ∨
      b.MemArray.findRow r = none ∧ rRow.inputConnections.head? = some src1 ∧ src2 ∈ rRow.logicInputs)

/-- The operation gets a mux on a row whose memory input is the other operand, which is no logic
input of it: the connection is taken for made. -/
def LiMBinder.DropsOperand (b : LiMBinder) (operation : Operation) (src1 src2 : Name) : Prop :=
  ∃ r x row, b.site true operation src1 src2 = some (.mux, r, x) ∧ b.MemArray.findRow r = some row ∧
    row.inputConnections.head? = some x ∧ x ∉ row.logicInputs

/-- A result row computes the operation when the other operand is a logic input of its row. -/
theorem Realizes.computes_iff {b b' : LiMBinder}
    (h : Realizes b operation specifications src1 src2 dest w row other base t b'.MemArray F) :
    Computes b b' operation src1 src2 dest ↔ other ∈ (base.connect other .OC).logicInputs := by
  have hdest := h.findRow_dest
  have hrow := h.findRow_row
  constructor
  · rintro ⟨destRow, r, rRow, hd, hr, hrRow, -, hcase⟩
    rw [hdest, Option.some.injEq] at hd
    subst hd
    cases hr
    rw [hrow, Option.some.injEq] at hrRow
    subst hrRow
    cases h.site with
    | convert operands found | mux operands found =>
      rcases operands with ⟨rfl, rfl⟩ | ⟨rfl, rfl⟩
      · rcases hcase with ⟨rfl, hin⟩ | ⟨-, hin⟩ | ⟨hnew, -⟩
        · exact hin
        · exact hin
        · rw [found] at hnew
          cases hnew
      · rcases hcase with ⟨-, hin⟩ | ⟨rfl, hin⟩ | ⟨hnew, -⟩
        · exact hin
        · exact hin
        · rw [found] at hnew
          cases hnew
    | copy => simp [LiMRow.connect, LiMRow.logicInputs]
  · intro hin
    refine ⟨_, row, _, hdest, rfl, hrow, by rw [LiMRow.connect_rowType, h.site.rowType], ?_⟩
    cases h.site with
    | convert operands | mux operands =>
      rcases operands with ⟨rfl, rfl⟩ | ⟨rfl, rfl⟩
      · exact .inr (.inl ⟨rfl, hin⟩)
      · exact .inl ⟨rfl, hin⟩
    | copy => exact .inr (.inr ⟨h.freshZero, rfl, hin⟩)

theorem LiMRow.logicInputs_connect {row : LiMRow} {src m : Name} {rest : List Name} (c : ConnectionType)
    (hrow : row.inputConnections = m :: rest) (hrest : rest ≠ []) :
    src ∈ (row.connect src c).logicInputs ↔ ¬ (m = src ∧ src ∉ rest) := by
  have hlen : row.inputConnections.length ≠ 1 := by
    rw [hrow, List.length_cons]
    have := List.length_pos_iff.mpr hrest
    omega
  unfold connect logicInputs
  by_cases hin : src ∈ row.inputConnections
  · rw [if_neg (by simp [hlen, hin])]
    rw [hrow] at hin ⊢
    simp only [List.tail_cons]
    rcases List.mem_cons.mp hin with rfl | hin
    · simp
    · simp [hin]
  · rw [if_pos (.inr hin)]
    rw [hrow] at hin ⊢
    simp only [List.cons_append, List.tail_cons, List.mem_append, List.mem_singleton, or_true, true_iff]
    rintro ⟨rfl, -⟩
    simp at hin

/-- **A new result row computes a commutative operation on both its operands** exactly when
the row with the mux, if the operation gets one, does not have the other operand as its memory
input only. -/
theorem bindElement_computes_iff {par : ℤ} {optTarget : String} {actions : List BindingAction}
    {s s' : BinderState} {destReg : Reg} {junk : Indeterminate} (ha : ∀ a ∈ actions, a.noShift)
    (hs : Reaches par optTarget actions s) (hdest : s.tmpDestAddr = some dest)
    (hop : operation.isCommutative = true)
    (h : s.bindElement operation specifications destReg src1 src2 junk = some s')
    (hnew : (s'.binder.MemArray.findRow dest).isSome) :
    Computes s.binder s'.binder operation src1 src2 dest ↔
      ¬ s.binder.DropsOperand operation src1 src2 := by
  have hwf := wellFormed_of_reaches hs
  have hreg := regular_of_reaches ha hs
  obtain ⟨hn, hle, -⟩ := hwf.named_of_reserved hdest
  have fresh : s.binder.MemArray.findRow dest = none := hn.fresh (Nat.le_refl _)
  have hload : operation ≠ .load := by
    rintro rfl
    cases hop
  have hshift : operation.isShift = false := by
    revert hop
    cases operation <;> decide
  rw [BinderState.bindElement, hdest, Option.bind_eq_bind, Option.bind_some] at h
  obtain ⟨b', hb', h⟩ := Option.bind_eq_some_iff.mp h
  cases h
  rcases LiMBinder.performBinding_cases hb' with
    ⟨d, -, -, rfl⟩ | ⟨d, op, -, -, -, rfl⟩ | ⟨-, hs, -⟩ | ⟨-, -, hmap⟩
  · rw [LiMBinder.addNewItemInRefPos_eq] at hnew
    have hnew : (s.binder.MemArray.findRow dest).isSome := hnew
    rw [fresh] at hnew
    cases hnew
  · have hnew : (s.binder.MemArray.findRow dest).isSome := hnew
    rw [fresh] at hnew
    cases hnew
  · rw [hshift] at hs
    cases hs
  obtain ⟨w, row, other, base, t, hsite, hreal, -⟩ :=
    LiMBinder.mapOperation_realizes (b := s.binder.addNewItem destReg dest) fresh
      (hn.fresh (show dest ≤ s.binder.zeroAddr by lia)) (show dest ≠ s.binder.zeroAddr by lia) hmap
  have hsite : s.binder.site true operation src1 src2 = some (w, row, other) := hsite
  have hiff : Computes s.binder b' operation src1 src2 dest ↔
      other ∈ (base.connect other .OC).logicInputs := hreal.computes_iff
  refine Iff.trans hiff ?_
  cases hreal.site with
  | @convert _ _ old operands found convertible =>
    refine iff_of_true ?_ ?_
    · have hlen := (hwf.loads row old found (LiMRow.rowType_of_convertible convertible)).2
      obtain ⟨m, hm⟩ := List.length_eq_one_iff.mp hlen
      have hm : (old.withLogic operation specifications).inputConnections = [m] := hm
      rw [LiMRow.logicInputs, LiMRow.connect_of_length_one (by rw [hm]; rfl), hm]
      simp
    · rintro ⟨r, x, row', hsite', -⟩
      rw [hsite] at hsite'
      cases hsite'
  | mux operands found type size =>
    have hlen := hreg.arity row base found (by rw [type]; exact hload)
    obtain ⟨m, rest, hconn⟩ : ∃ m rest, base.inputConnections = m :: rest :=
      List.exists_cons_of_length_pos (by omega)
    have hrest : rest ≠ [] := by
      rintro rfl
      rw [hconn] at hlen
      simp at hlen
    rw [LiMRow.logicInputs_connect .OC hconn hrest, not_iff_not]
    constructor
    · rintro ⟨rfl, hx⟩
      exact ⟨row, m, base, hsite, found, by rw [hconn]; rfl, by rw [LiMRow.logicInputs, hconn]; exact hx⟩
    · rintro ⟨r, x, row', hsite', hrow', hhead, hx⟩
      rw [hsite] at hsite'
      cases hsite'
      have found : s.binder.MemArray.findRow row = some base := found
      rw [found, Option.some.injEq] at hrow'
      subst hrow'
      rw [hconn] at hhead
      rw [LiMRow.logicInputs, hconn] at hx
      exact ⟨Option.some.inj hhead, hx⟩
  | copy =>
    refine iff_of_true (by simp [LiMRow.connect, LiMRow.logicInputs]) ?_
    rintro ⟨r, x, row', hsite', -⟩
    rw [hsite] at hsite'
    cases hsite'

/-- The sum of two rows loaded computes the sum. -/
theorem bindElement_computes_iff_twoLoads :
    ∃ s s', Reaches 8 "" twoLoads s ∧ s.bindElement .add [] 3 0 4 ⟨1, 0, 0⟩ = some s' ∧
      Computes s.binder s'.binder .add 0 4 8 := by
  have hs' : (((run bindStep (.init 8 "") twoLoads).get twoLoads_isSome).bindElement .add [] 3 0 4
      ⟨1, 0, 0⟩).map (fun s' => (s'.binder.MemArray.findRow 8).isSome) = some true := by decide +kernel
  obtain ⟨s', hs', hnew⟩ := Option.map_eq_some_iff.mp hs'
  refine ⟨_, s', (Option.some_get twoLoads_isSome).symm, hs', ?_⟩
  refine (bindElement_computes_iff (by decide) (Option.some_get twoLoads_isSome).symm (by decide +kernel)
    (by decide) hs' hnew).mpr ?_
  rintro ⟨r, x, row, hsite, -⟩
  have hsite' : ((run bindStep (.init 8 "") twoLoads).get twoLoads_isSome).binder.site true .add 0 4 =
      some (.convert, 4, 0) := by decide +kernel
  rw [hsite'] at hsite
  cases hsite

/-- `d = a + b` is fed by the row of `b`; `e = c + d` gives `d` its logic; `b + d` is entered. -/
def fedByOperand : List BindingAction :=
  [.load 1 0, .load 2 0, .load 3 0, .enter 0, .element .add [] 4 0 4 ⟨1, 0, 0⟩, .leave, .enter 0,
    .element .add [] 5 8 12 ⟨1, 0, 0⟩, .leave, .enter 0]

theorem fedByOperand_isSome : (run bindStep (.init 8 "") fedByOperand).isSome := by decide +kernel

/-- The sum of `b` and `d = a + b`, once `d` has the logic of another sum: `b` is the memory input
of `d`, and is dropped. -/
theorem operand_in_memory_input_dropped :
    ∃ s s', (∀ a ∈ fedByOperand, a.noShift) ∧ Reaches 8 "" fedByOperand s ∧ s.tmpDestAddr = some 28 ∧
      (s.binder.MemArray.findRow 4).isSome ∧ (s.binder.MemArray.findRow 12).isSome ∧
      s.bindElement .add [] 6 4 12 ⟨1, 0, 0⟩ = some s' ∧ (s'.binder.MemArray.findRow 28).isSome ∧
      ¬ Computes s.binder s'.binder .add 4 12 28 := by
  have hrows : (((run bindStep (.init 8 "") fedByOperand).get fedByOperand_isSome).bindElement .add [] 6
      4 12 ⟨1, 0, 0⟩).map (fun s' => (s'.binder.MemArray.findRow 28, s'.binder.MemArray.findRow 12)) =
        some (some (resultRow 8 12), some ⟨.add, 8, [4, 8], [.OLiM, .OC], []⟩) := by decide +kernel
  obtain ⟨s', hs', hrows⟩ := Option.map_eq_some_iff.mp hrows
  rw [Prod.mk.injEq] at hrows
  refine ⟨_, s', by decide, (Option.some_get fedByOperand_isSome).symm, by decide +kernel,
    by decide +kernel, by decide +kernel, hs', by rw [hrows.1]; rfl, ?_⟩
  rintro ⟨destRow, r, rRow, hd, hr, hrRow, -, hcase⟩
  rw [hrows.1, Option.some.injEq] at hd
  subst hd
  cases hr
  rw [hrows.2, Option.some.injEq] at hrRow
  subst hrRow
  revert hcase
  decide +kernel

end Octantis
