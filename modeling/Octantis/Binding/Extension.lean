import Octantis.Binding.Mapping

/-!
# What the binder never undoes

A row, once in the array, keeps its memory input and its connections, and its type
once it has logic; a time, an entry of `lastDestMap` or of `addMap` is never
changed (`LiMBinder.Extends`). Names are issued in order, so that a new row never
meets an old one (`BinderState.Named`).

## What is proved

* `mapShift_cases`: the two ways in which a shift is mapped, whatever the variables
  that its path reads without setting hold.
* `Realizes.rows_extend`, `ShiftEffect.extends_of`: both kinds of mapping extend the state.
* `Named.of_rows`, `Extends.feedingType`: what an extension keeps.
-/

namespace Octantis

open Std Lib

/-- How a row changes: connections are added at the end, and a load row may get a type. -/
structure LiMRow.Extends (row row' : LiMRow) : Prop where
  type : row.rowType ≠ .load → row'.rowType = row.rowType
  load : row'.rowType = .load → row' = row
  connections : row.inputConnections <+: row'.inputConnections
  types : row.inputConnectionsType <+: row'.inputConnectionsType

/-- What every step of the binder keeps. -/
structure LiMBinder.Extends (b b' : LiMBinder) : Prop where
  rows : ∀ n row, b.MemArray.findRow n = some row →
    ∃ row', b'.MemArray.findRow n = some row' ∧ row.Extends row'
  times : ∀ n t, b.FSMLim.getTime n = some t → b'.FSMLim.getTime n = some t
  dests : ∀ n d : Name, b.lastDestMap[n]? = some d → b'.lastDestMap[n]? = some d
  sums : ∀ (n : Name) (ns : List Name), b.addMap[n]? = some ns → b'.addMap[n]? = some ns

namespace LiMRow.Extends

theorem refl (row : LiMRow) : row.Extends row :=
    ⟨fun _ => rfl, fun _ => rfl, List.prefix_rfl, List.prefix_rfl⟩

theorem trans {r₁ r₂ r₃ : LiMRow} (h₁ : r₁.Extends r₂) (h₂ : r₂.Extends r₃) : r₁.Extends r₃ where
  type h := by
    have h₂' := h₁.type h
    rw [h₂.type (h₂' ▸ h), h₂']
  load h := by
    have h₃ := h₂.load h
    rw [h₃] at h
    rw [h₃, h₁.load h]
  connections := h₁.connections.trans h₂.connections
  types := h₁.types.trans h₂.types

/-- The connections of a row are kept, in their places. -/
theorem getElem? {row row' : LiMRow} (h : row.Extends row') {i : ℕ} {m : Name}
    (hm : row.inputConnections[i]? = some m) : row'.inputConnections[i]? = some m := by
  obtain ⟨more, hmore⟩ := h.connections
  rw [← hmore, List.getElem?_append_left (List.getElem?_eq_some_iff.mp hm).1, hm]

/-- The memory input of a row that has one is kept. -/
theorem head? {row row' : LiMRow} (h : row.Extends row') {m : Name}
    (hm : row.inputConnections.head? = some m) : row'.inputConnections.head? = some m := by
  rw [List.head?_eq_getElem?] at hm ⊢
  exact h.getElem? hm

/-- The type of the memory input of a row that has one is kept. -/
theorem head?_types {row row' : LiMRow} (h : row.Extends row') {c : ConnectionType}
    (hc : row.inputConnectionsType.head? = some c) : row'.inputConnectionsType.head? = some c := by
  obtain ⟨more, hmore⟩ := h.types
  rw [← hmore, List.head?_append, hc]
  rfl

theorem connect (row : LiMRow) (src : Name) (c : ConnectionType) (h : row.rowType ≠ .load) :
    row.Extends (row.connect src c) where
  type _ := row.connect_rowType src c
  load h' := absurd (row.connect_rowType src c ▸ h') h
  connections := row.connect_prefix src c
  types := row.connect_types_prefix src c

theorem withLogic {row : LiMRow} (hrow : row.rowType = .load) {operation : Operation}
    (hop : operation ≠ .load) (specifications : List String) :
    row.Extends (row.withLogic operation specifications) where
  type h := absurd hrow h
  load h := absurd h hop
  connections := List.prefix_rfl
  types := List.prefix_rfl

end LiMRow.Extends

namespace LiMBinder.Extends

theorem refl (b : LiMBinder) : b.Extends b :=
  ⟨fun _ row h => ⟨row, h, .refl row⟩, fun _ _ h => h, fun _ _ h => h, fun _ _ h => h⟩

theorem trans {b₁ b₂ b₃ : LiMBinder} (h₁ : b₁.Extends b₂) (h₂ : b₂.Extends b₃) : b₁.Extends b₃ where
  rows n row h := by
    obtain ⟨row₂, hr₂, he₂⟩ := h₁.rows n row h
    obtain ⟨row₃, hr₃, he₃⟩ := h₂.rows n row₂ hr₂
    exact ⟨row₃, hr₃, he₂.trans he₃⟩
  times n t h := h₂.times n t (h₁.times n t h)
  dests n d h := h₂.dests n d (h₁.dests n d h)
  sums n ns h := h₂.sums n ns (h₁.sums n ns h)

end LiMBinder.Extends

theorem LiMRow.rowType_of_convertible {row : LiMRow} (h : row.convertible = true) :
    row.rowType = .load := by
  simp only [convertible, LiMArray.checkIfRowIsLiM, Bool.not_eq_true', Bool.or_eq_false_iff,
    decide_eq_false_iff_not, not_not] at h
  exact h.1

/-! ### The maps -/

theorem getElem?_insertIfNew_of_some {α : Type} {m : ExtTreeMap ℕ α} {k n : ℕ} {v w : α}
    (h : m[n]? = some w) : (m.insertIfNew k v)[n]? = some w := by
  rw [ExtTreeMap.getElem?_insertIfNew]
  split
  · next hk =>
    rw [Nat.compare_eq_eq] at hk
    obtain ⟨rfl, hk⟩ := hk
    rw [← getElem?_eq_none_iff] at hk
    rw [hk] at h
    cases h
  · exact h

namespace FiniteStateMachine

theorem getTime_addNewInstruction_of_some {F : FiniteStateMachine} {n m : Name} {t t' : ℤ}
    (h : F.getTime n = some t) : (F.addNewInstruction t' m).getTime n = some t := by
  rw [getTime_addNewInstruction]
  split
  · next hm =>
    rw [hm.1] at hm
    rw [hm.2] at h
    cases h
  · exact h

theorem getTime_addNewInstruction_self (F : FiniteStateMachine) (n : Name) (t : ℤ) :
    ((F.addNewInstruction t n).getTime n).isSome := by
  rw [getTime_addNewInstruction]
  cases h : F.getTime n <;> simp

end FiniteStateMachine

/-- A mapping schedules its result row. -/
theorem LiMBinder.getTime_scheduleDest_self (F : FiniteStateMachine) (w : Way) (row dest : Name) (t : ℤ) :
    ((scheduleDest F w row dest t).getTime dest).isSome := by
  cases w <;> exact FiniteStateMachine.getTime_addNewInstruction_self _ _ _

theorem LiMBinder.getTime_scheduleDest_of_some {F : FiniteStateMachine} {n : Name} {t' : ℤ}
    (h : F.getTime n = some t') (w : Way) (row dest : Name) (t : ℤ) :
    (scheduleDest F w row dest t).getTime n = some t' := by
  cases w with
  | convert | mux => exact FiniteStateMachine.getTime_addNewInstruction_of_some h
  | copy =>
    exact FiniteStateMachine.getTime_addNewInstruction_of_some
      (FiniteStateMachine.getTime_addNewInstruction_of_some h)

/-! ### Mappings extend the state -/

variable {b b' : LiMBinder} {operation : Operation} {specifications : List String}
  {src1 src2 dest row other : Name} {w : Way} {base : LiMRow} {t : ℤ}

/-- The row with the logic extends the row that was there. -/
theorem Site.extends_of (h : Site b operation specifications src1 src2 w row other base)
    (hop : operation ≠ .load) {old : LiMRow} (hold : b.MemArray.findRow row = some old)
    (fresh : b.MemArray.findRow b.zeroAddr = none) : old.Extends (base.connect other .OC) := by
  refine LiMRow.Extends.trans ?_ (.connect base other .OC (h.rowType ▸ hop))
  cases h with
  | convert _ found convertible =>
    rw [found, Option.some.injEq] at hold
    exact hold ▸ .withLogic (LiMRow.rowType_of_convertible convertible) hop specifications
  | mux _ found =>
    rw [found, Option.some.injEq] at hold
    exact hold ▸ .refl _
  | copy =>
    rw [fresh] at hold
    cases hold

namespace Realizes

variable {A : LiMArray} {F : FiniteStateMachine}
  (h : Realizes b operation specifications src1 src2 dest w row other base t A F)
include h

theorem findRow_dest : A.findRow dest = some (resultRow b.par row) := by rw [h.rows, if_pos rfl]

theorem findRow_row : A.findRow row = some (base.connect other .OC) := by
  rw [h.rows, if_neg h.ne_row.symm, if_pos rfl]

/-- Every row is kept or extended. -/
theorem rows_extend (hop : operation ≠ .load) (n : Name) (old : LiMRow)
    (hold : b.MemArray.findRow n = some old) :
    ∃ new, A.findRow n = some new ∧ old.Extends new := by
  rw [h.rows]
  split
  · next hn =>
    rw [hn, h.fresh] at hold
    cases hold
  split
  · next hn => exact ⟨_, rfl, h.site.extends_of hop (hn ▸ hold) h.freshZero⟩
  · exact ⟨old, hold, .refl old⟩

end Realizes

/-- Load rows carry no additional logic and one connection only, the memory input. -/
def LiMBinder.LoadRows (b : LiMBinder) : Prop :=
  ∀ n row, b.MemArray.findRow n = some row → row.rowType = .load →
    row.additionalLogic = [] ∧ row.inputConnections.length = 1

/-- What a shift does: a load row gets the shift as its logic and feeds the result row, or a copy
row is added and no result row at all. -/
inductive ShiftEffect (b : LiMBinder) (operation : Operation) (specifications : List String)
    (src1 src2 dest : Name) (b' : LiMBinder) : Prop where
  | convert {old : LiMRow} (logic : List String) (found : b.MemArray.findRow src1 = some old)
      (load : old.rowType = .load)
      (rows : ∀ n, b'.MemArray.findRow n =
        if n = dest then some ⟨.load, b.par, [src1], [.OC], []⟩
        else if n = src1 then some { old with rowType := operation, additionalLogic := logic }
        else b.MemArray.findRow n)
      (size : b'.MemArray.getDimensions = b.MemArray.getDimensions + 1)
      (times : ∀ n t, b.FSMLim.getTime n = some t → b'.FSMLim.getTime n = some t)
      (rest : b' = { b with MemArray := b'.MemArray, FSMLim := b'.FSMLim })
  | copy (logic : b.MemArray.isLiMRowOfThisType src1 .load = some false)
      (rows : ∀ n, b'.MemArray.findRow n =
        if n = b.zeroAddr then some ⟨operation, b.par, [src1, src2], [.OC, .OC], specifications⟩
        else b.MemArray.findRow n)
      (size : b'.MemArray.getDimensions = b.MemArray.getDimensions + 1)
      (times : ∀ n t, b.FSMLim.getTime n = some t → b'.FSMLim.getTime n = some t)
      (rest : b' = { b with
        zeroAddr := b.zeroAddr + 4
        MemArray := b'.MemArray
        FSMLim := b'.FSMLim })

namespace ShiftEffect

variable (h : ShiftEffect b operation specifications src1 src2 dest b')
include h

theorem times (n : Name) (t : ℤ) (ht : b.FSMLim.getTime n = some t) : b'.FSMLim.getTime n = some t := by
  cases h with
  | convert _ _ _ _ _ times | copy _ _ _ times => exact times n t ht

theorem rows_extend (hop : operation ≠ .load) (fresh : b.MemArray.findRow dest = none)
    (freshZero : b.MemArray.findRow b.zeroAddr = none) (n : Name) (old : LiMRow)
    (hold : b.MemArray.findRow n = some old) :
    ∃ new, b'.MemArray.findRow n = some new ∧ old.Extends new := by
  cases h with
  | convert logic found load rows =>
    rw [rows]
    split
    · next hn =>
      rw [hn, fresh] at hold
      cases hold
    split
    · next hn =>
      rw [hn, found, Option.some.injEq] at hold
      subst hold
      exact ⟨_, rfl, fun h => absurd load h, fun h => absurd h hop, List.prefix_rfl, List.prefix_rfl⟩
    · exact ⟨old, hold, .refl old⟩
  | copy _ rows =>
    rw [rows]
    split
    · next hn =>
      rw [hn, freshZero] at hold
      cases hold
    · exact ⟨old, hold, .refl old⟩

theorem extends_of (hop : operation ≠ .load) (fresh : b.MemArray.findRow dest = none)
    (freshZero : b.MemArray.findRow b.zeroAddr = none) : b.Extends b' := by
  refine ⟨h.rows_extend hop fresh freshZero, h.times, ?_, ?_⟩
  all_goals
    intro n v hv
    cases h with
    | convert _ _ _ _ _ _ rest | copy _ _ _ _ rest =>
      rw [rest]
      exact hv

/-- Every row of the array was there, or is the result row or the copy row. -/
theorem rows_of_findRow {n : Name} {new : LiMRow} (hn : b'.MemArray.findRow n = some new) :
    (b.MemArray.findRow n).isSome ∨ n = dest ∨ (b'.zeroAddr = b.zeroAddr + 4 ∧ n = b.zeroAddr) := by
  cases h with
  | convert _ found _ rows =>
    rw [rows] at hn
    split at hn
    · next hd => exact .inr (.inl hd)
    split at hn
    · next hr => exact .inl (hr ▸ Option.isSome_of_eq_some found)
    · exact .inl (Option.isSome_of_eq_some hn)
  | copy _ rows _ _ rest =>
    rw [rows] at hn
    split at hn
    · next hz => exact .inr (.inr ⟨by rw [rest], hz⟩)
    · exact .inl (Option.isSome_of_eq_some hn)

/-- The load rows of the array: the result row, and those that were there. -/
theorem loadRows (hop : operation ≠ .load) (hl : b.LoadRows) : b'.LoadRows := by
  intro n new hn hload
  cases h with
  | convert _ _ _ rows =>
    rw [rows] at hn
    split at hn
    · cases hn
      exact ⟨rfl, rfl⟩
    split at hn
    · cases hn
      exact absurd hload hop
    · exact hl n new hn hload
  | copy _ rows =>
    rw [rows] at hn
    split at hn
    · cases hn
      exact absurd hload hop
    · exact hl n new hn hload

/-- A shift takes one name or none, and keeps the names and the destinations recorded. -/
theorem frame : (b'.zeroAddr = b.zeroAddr ∨ b'.zeroAddr = b.zeroAddr + 4) ∧
    b'.arrayNamesMap = b.arrayNamesMap ∧ b'.lastDestMap = b.lastDestMap := by
  cases h with
  | convert _ _ _ _ _ _ rest => rw [rest]; exact ⟨.inl rfl, rfl, rfl⟩
  | copy _ _ _ _ rest => rw [rest]; exact ⟨.inr rfl, rfl, rfl⟩

end ShiftEffect

namespace LiMBinder

theorem getTime_insertShift_of_some {F : FiniteStateMachine} {n : Name} {t : ℤ}
    (h : F.getTime n = some t) (tSrc1 realConstant : ℤ) (m₁ m₂ : Name) :
    (insertShift F tSrc1 realConstant m₁ m₂).getTime n = some t := by
  refine FiniteStateMachine.getTime_addNewInstruction_of_some ?_
  induction realConstant.toNat with
  | zero => exact h
  | succ k ih =>
    rw [List.range_succ, List.foldl_append]
    exact FiniteStateMachine.getTime_addNewInstruction_of_some ih

theorem LoadRows.convertible (hl : b.LoadRows) {n : Name} {row : LiMRow}
    (h : b.MemArray.findRow n = some row) (hload : row.rowType = .load) : row.convertible = true := by
  simp [LiMRow.convertible, LiMArray.checkIfRowIsLiM, hload, (hl n row h hload).1]

theorem mapShift_cases {junk : Indeterminate} (hl : b.LoadRows)
    (fresh : b.MemArray.findRow dest = none) (freshZero : b.MemArray.findRow b.zeroAddr = none)
    (h : b.mapShift operation specifications src1 src2 dest junk = some b') :
    ShiftEffect b operation specifications src1 src2 dest b' := by
  rw [mapShift] at h
  obtain ⟨isLoad, hload, h⟩ := Option.bind_eq_some_iff.mp h
  have htype := hload
  obtain ⟨old, hold, hload⟩ := Option.bind_eq_some_iff.mp hload
  cases hload
  split at h
  · next hload =>
    have hload : old.rowType = .load := by simpa using hload
    rw [LiMArray.changeLiMRowType_of_findRow hold, if_pos (hl.convertible hold hload)] at h
    simp only [Option.bind_eq_bind, Option.bind_some] at h
    obtain ⟨realConstant, -, h⟩ := Option.bind_eq_some_iff.mp h
    obtain ⟨tSrc1, -, h⟩ := Option.bind_eq_some_iff.mp h
    cases h
    have hdest : dest ≠ src1 := by
      rintro rfl
      rw [fresh] at hold
      cases hold
    have hfresh : (b.MemArray.setRow src1 (old.withLogic operation [toString junk.constant])).findRow
        dest = none := by rw [LiMArray.findRow_setRow, if_neg hdest.symm, fresh]
    refine .convert [toString junk.constant] hold hload ?_ ?_ ?_ rfl
    · intro n
      simp only [LiMArray.addNewResultRow]
      rw [LiMArray.findRow_insertRow_of_none hfresh, LiMArray.findRow_setRow]
      simp only [eq_comm (a := src1)]
      rfl
    · simp only [LiMArray.addNewResultRow]
      rw [LiMArray.getDimensions_insertRow hfresh, LiMArray.getDimensions_setRow hold]
    · intro n t ht
      exact getTime_insertShift_of_some ht _ _ _ _
  · next hload =>
    have hrow : (b.MemArray.addNewLiMRow b.zeroAddr operation specifications b.par src1 .OC).findRow
        b.zeroAddr = some ⟨operation, b.par, [src1], [.OC], specifications⟩ := by
      rw [LiMArray.addNewLiMRow, LiMArray.findRow_insertRow_of_none freshZero, if_pos rfl]
    obtain ⟨A', hA, hrows, hsize⟩ := LiMArray.findRow_addNewInputConnection hrow src2 .OC
    simp only [getNewName, hA, Option.bind_eq_bind, Option.bind_some] at h
    obtain ⟨realConstant, -, h⟩ := Option.bind_eq_some_iff.mp h
    cases h
    refine .copy (by rw [htype, Bool.eq_false_iff.mpr hload]) ?_ ?_ ?_ rfl
    · intro n
      rw [hrows, LiMArray.addNewLiMRow, LiMArray.findRow_insertRow_of_none freshZero]
      split <;> rfl
    · rw [hsize, LiMArray.addNewLiMRow, LiMArray.getDimensions_insertRow freshZero]
    · intro n t ht
      exact getTime_insertShift_of_some ht _ _ _ _

end LiMBinder

/-! ### The names -/

/-- Every row, and every name recorded for a register, is below the bound. -/
structure LiMBinder.Named (b : LiMBinder) (bound : Name) : Prop where
  rows : ∀ n row, b.MemArray.findRow n = some row → n < bound ∧ 4 ∣ n
  names : ∀ (reg : Reg) (ns : List Name), b.arrayNamesMap[reg]? = some ns → ∀ n ∈ ns, n < bound
  aligned : 4 ∣ bound

/-- The first row recorded for the operands of an operation is a row with a time, fed by a row with
logic. -/
def LiMBinder.LastDests (b : LiMBinder) : Prop :=
  ∀ n d : Name, b.lastDestMap[n]? = some d →
    ∃ op, op ≠ .load ∧ b.feedingType d = some op ∧ (b.FSMLim.getTime d).isSome

/-- The names still to be issued, and the one reserved, are above every name in use. -/
def BinderState.Named (s : BinderState) : Prop :=
  match s.tmpDestAddr with
  | none => s.binder.Named s.binder.zeroAddr
  | some t => s.binder.Named t ∧ t + 4 ≤ s.binder.zeroAddr ∧ 4 ∣ s.binder.zeroAddr

/-- What holds between any two steps of the binder, shifts included. -/
structure BinderState.WellFormed (s : BinderState) : Prop where
  named : s.Named
  loads : s.binder.LoadRows
  dests : s.binder.LastDests

/-- The names of the rows are multiples of 4. -/
theorem BinderState.WellFormed.aligned {s : BinderState} (h : s.WellFormed) {n : Name} {row : LiMRow}
    (hrow : s.binder.MemArray.findRow n = some row) : 4 ∣ n := by
  have hnamed := h.named
  rw [BinderState.Named] at hnamed
  split at hnamed
  · exact (hnamed.rows n row hrow).2
  · exact (hnamed.1.rows n row hrow).2

/-- The name reserved is above every name in use and below the names still to be issued. -/
theorem BinderState.WellFormed.named_of_reserved {s : BinderState} (h : s.WellFormed) {dest : Name}
    (hdest : s.tmpDestAddr = some dest) :
    s.binder.Named dest ∧ dest + 4 ≤ s.binder.zeroAddr ∧ 4 ∣ s.binder.zeroAddr := by
  have hnamed := h.named
  rwa [BinderState.Named, hdest] at hnamed

namespace LiMBinder

theorem Named.fresh {bound n : Name} (h : b.Named bound) (hn : bound ≤ n) :
    b.MemArray.findRow n = none := by
  cases hr : b.MemArray.findRow n with
  | none => rfl
  | some row => exact absurd (h.rows n row hr).1 (Nat.not_lt.mpr hn)

theorem Named.mono {bound bound' : Name} (h : b.Named bound) (hle : bound ≤ bound')
    (ha : 4 ∣ bound') : b.Named bound' where
  rows n row hr := ⟨Nat.lt_of_lt_of_le (h.rows n row hr).1 hle, (h.rows n row hr).2⟩
  names reg ns hns n hn := Nat.lt_of_lt_of_le (h.names reg ns hns n hn) hle
  aligned := ha

/-- The names of a state whose new rows are below the bound. -/
theorem Named.of_rows {bound : Name} (h : b.Named bound)
    (hrows : ∀ n row, b'.MemArray.findRow n = some row →
      (b.MemArray.findRow n).isSome ∨ n < bound ∧ 4 ∣ n)
    (hnames : b'.arrayNamesMap = b.arrayNamesMap) : b'.Named bound where
  rows n row hr := by
    rcases hrows n row hr with hold | hnew
    · obtain ⟨row', hr'⟩ := Option.isSome_iff_exists.mp hold
      exact h.rows n row' hr'
    · exact hnew
  names reg ns hns := h.names reg ns (hnames ▸ hns)
  aligned := h.aligned

theorem getElem?_addNewItem (b : LiMBinder) (origSrc reg : Reg) (n : Name) :
    (b.addNewItem origSrc n).arrayNamesMap[reg]? =
      if reg = origSrc then some (b.arrayNamesMap[origSrc]?.getD [] ++ [n])
      else b.arrayNamesMap[reg]? := by
  unfold addNewItem
  cases h : b.arrayNamesMap[origSrc]? with
  | some ns =>
    simp only [ExtTreeMap.getElem?_insert, Nat.compare_eq_eq, eq_comm (a := origSrc)]
    rfl
  | none =>
    have h' : origSrc ∉ b.arrayNamesMap := (getElem?_eq_none_iff _ _).mp h
    simp only [ExtTreeMap.getElem?_insertIfNew, Nat.compare_eq_eq, eq_comm (a := origSrc)]
    by_cases hr : reg = origSrc
    · simp [hr, h']
    · simp [hr]

theorem Named.addNewItem {bound n : Name} (h : b.Named bound) (hn : n < bound) (reg : Reg) :
    (b.addNewItem reg n).Named bound where
  rows := h.rows
  names reg' ns hns m hm := by
    rw [getElem?_addNewItem] at hns
    split at hns
    · next hreg =>
      rw [Option.some.injEq] at hns
      rw [← hns, List.mem_append, List.mem_singleton] at hm
      rcases hm with hm | rfl
      · cases hold : b.arrayNamesMap[reg]? with
        | none => simp [hold] at hm
        | some old => exact h.names reg old hold m (by simpa [hold] using hm)
      · exact hn
    · exact h.names reg' ns hns m hm
  aligned := h.aligned

/-- The type of the row that feeds a row is kept, once it has logic. -/
theorem Extends.feedingType (h : b.Extends b') {d : Name} {op : Operation}
    (hop : op ≠ .load) (hd : b.feedingType d = some op) : b'.feedingType d = some op := by
  obtain ⟨drow, hdrow, hd⟩ := Option.bind_eq_some_iff.mp hd
  obtain ⟨r, hr, hd⟩ := Option.bind_eq_some_iff.mp hd
  obtain ⟨rrow, hrrow, hd⟩ := Option.bind_eq_some_iff.mp hd
  cases hd
  obtain ⟨drow', hdrow', hext⟩ := h.rows d drow hdrow
  obtain ⟨rrow', hrrow', hrext⟩ := h.rows r rrow hrrow
  simp only [LiMBinder.feedingType, Option.bind_eq_bind, hdrow', Option.bind_some, hext.head? hr, hrrow',
    hrext.type hop]
  rfl

end LiMBinder

/-! ### The number of connections -/

/-- No row has more than two connections. -/
def LiMArray.AtMostTwo (A : LiMArray) : Prop :=
  ∀ n row, A.findRow n = some row → row.inputConnections.length ≤ 2

theorem LiMArray.AtMostTwo.of_extends (h : b'.MemArray.AtMostTwo) (he : b.Extends b') :
    b.MemArray.AtMostTwo := by
  intro n row hrow
  obtain ⟨row', hrow', hext⟩ := he.rows n row hrow
  exact hext.connections.length_le.trans (h n row' hrow')

end Octantis
