import Octantis.CodeGeneration.Edges
import Octantis.CodeGeneration.Memory
import Octantis.Lib.Staged

/-!
# The component computes the binding

The rows are cells computed in stages: state `2t - 1` writes the rows of time `t` from the
registers, and state `2t` loads their registers. What the component leaves in its memory is
what the stages leave.

## The model

`staged` gives each row its time, its word and what it is written with. `AtStep` relates a
state of the component to the stages.

## What is proved

* `AtStep.edge`, `AtStep.cycle`: an edge and a clock cycle keep the relation.
* `simulate_cases`: an execution goes through the stages, or is an error because of a row
  outside the memory.
* `exists_simulate`: in a memory that holds the rows, the execution leaves the values of the binding.
* `execution_computes_iff`: for rows of at most two connections, with the operations `add`,
  `and`, `nand`, `or`, `nor`, `xor` and `xnor`, the component computes the values of the
  binding, whatever the operations are, exactly when something is written after the loads,
  the rows are inside the memory, and every result is written after the logic input it
  reads.

## Honest scope

A result row may be written before the logic input of the row that feeds it: a row that has
its operand as memory input is given no logic input, and its result reads the one it has
(`lateOperand_lost`). With some operator the word may be the same by chance, so that the
converse is about all operations.
-/

namespace Octantis

open Std Lib Lib.Line PrintVhdlFile

universe u

variable {α : Type u} {A : LiMArray} {par : ℤ} {F : FiniteStateMachine} {V : Architecture} {L : RowLogic α}
  {words : ℕ → α} {n r m x : Name} {row : LiMRow} {c j : ℕ} {rising : Bool} {s s' : Component α}

/-! ### The arrays executed -/

/-- An operation with a template of its own, for rows without a mux. -/
def Operation.IsRowLogic (op : Operation) : Prop := op = .add ∨ LimOperations op = some .bitwise ∧ op ≠ .switch

instance (op : Operation) : Decidable op.IsRowLogic := inferInstanceAs (Decidable (_ ∨ _))

/-- What the binder leaves of a program with these operations, when no row has more than two
connections. -/
structure PlainArray (A : LiMArray) (F : FiniteStateMachine) : Prop where
  regular : Regular A F
  wired : Wired A F
  shaped : ∀ n row, A.findRow n = some row → Shaped A row
  bounded : ∀ n t, F.getTime n = some t → 0 ≤ t ∧ t < F.transform.getFSMSize
  logic : ∀ n row, A.findRow n = some row → row.rowType = .load ∨ row.rowType.IsRowLogic
  size : ∀ n row, A.findRow n = some row → row.inputConnections.length ≤ 2
  aligned : ∀ n, (A.findRow n).isSome → 4 ∣ n

theorem Operation.IsRowLogic.hasTemplate (h : row.rowType.IsRowLogic)
    (hsize : row.inputConnections.length ≤ 2) :
    HasTemplate row :=
  .inr (.inr ⟨h.imp_right And.left, hsize⟩)

theorem Operation.IsRowLogic.isShift {op : Operation} (h : op.IsRowLogic) : op.isShift = false := by
  cases op <;> revert h <;> decide

theorem Operation.IsRowLogic.ne_sdiv {op : Operation} (h : op.IsRowLogic) : op ≠ .sdiv := by
  rintro rfl
  revert h
  decide

namespace PlainArray

variable (h : PlainArray A F)
include h

theorem writable (ht : (F.getTime n).isSome) : PlainlyWritable A n := by
  obtain ⟨row, hrow⟩ := Option.isSome_iff_exists.mp ((h.regular.timed n).mpr ht)
  have hshaped := h.shaped n row hrow
  obtain ⟨m, hm, -⟩ := hshaped.head
  have hne : row.inputConnectionsType ≠ [] := by
    intro hnil
    have hlen := hshaped.types
    rw [hnil] at hlen
    rw [List.eq_nil_of_length_eq_zero hlen.symm] at hm
    cases hm
  refine ⟨⟨row, m, _, hrow, hm, List.head?_eq_some_head hne⟩, fun row' hrow' => ?_⟩
  rw [hrow, Option.some.injEq] at hrow'
  subst hrow'
  rcases h.logic n row hrow with hload | hlogic
  · rw [hload]
    decide
  · exact hlogic.ne_sdiv

theorem staging (hsize : 2 ≤ F.transform.getFSMSize) : Staging A F :=
  ⟨h.regular.pending, hsize, h.bounded, fun _ _ ht => h.writable (Option.isSome_of_eq_some ht)⟩

/-- The logic input of a row with logic. -/
theorem exists_logicInput (hrow : A.findRow n = some row) (hlogic : row.rowType ≠ .load) :
    ∃ x, row.logicInputs = [x] := by
  have hlen : row.logicInputs.length = 1 := by
    have hsize := h.size n row hrow
    have hshape := (h.shaped n row hrow).logic hlogic
    rw [LiMRow.logicInputs, List.length_tail]
    omega
  exact List.length_eq_one_iff.mp hlen

end PlainArray

/-! ### The values -/

/-- The template of a row gives the output of its logic. -/
theorem PrintVhdlFile.Template.output_eq {text : RowText} (h : Template n row text)
    (hop : row.rowType.IsRowLogic)
    (hsize : row.inputConnections.length ≤ 2) (hcells : ∀ c ∈ row.inputConnectionsType.tail, c = .OC)
    (hx : row.logicInputs = [x]) (R : Name → α) :
    ∀ c ∈ text.statements, .out n ∈ c.drives → c.output L R = some (L.op row.rowType (R n) (R x)) := by
  have hoperand : ∀ src type, row.inputConnections[1]? = some src → row.inputConnectionsType[1]? = some type →
      operand type src = .memRd x := by
    intro src type hsrc htype
    rw [← List.getElem?_tail] at hsrc htype
    rw [LiMRow.logicInputs] at hx
    rw [hx, List.getElem?_cons_zero, Option.some.injEq] at hsrc
    rw [hcells type (List.mem_of_getElem? htype), ← hsrc]
    rfl
  intro c hc hdrives
  cases h with
  | memory => cases hc
  | bitwiseMux _ mux => omega
  | addMux _ mux => omega
  | mixed type => exact absurd (type ▸ hop) (by decide)
  | bitwise _ _ _ src con =>
    simp only [printBitwise] at hc
    split at hc
    · cases hc
    · rw [List.mem_singleton.mp hc, hoperand _ _ src con, Concurrent.output]
  | add type _ src con =>
    rw [List.mem_singleton.mp hc, hoperand _ _ src con, Concurrent.output, type]
  | shiftRight type => exact absurd type hop.ne_sdiv
  | nothing type neAdd =>
    rcases hop with hadd | ⟨hbit, -⟩
    · exact absurd hadd neAdd
    · rw [hbit] at type
      cases type

/-- The output of a row with logic. -/
theorem PlainArray.rowOut_eq (h : PlainArray A F) (hV : printArchitecture A par F.transform = some V)
    (hrow : A.findRow r = some row) (hlogic : row.rowType ≠ .load) (hx : row.logicInputs = [x])
    (R : Name → α) :
    V.rowOut L R r = some (L.op row.rowType (R r) (R x)) := by
  have hop := (h.logic r row hrow).resolve_left hlogic
  have hsize := h.size r row hrow
  have hcells := h.wired.cells r row hrow
  obtain ⟨text, ht, hcount⟩ := exists_template hV hrow
  have hone := ht.count_drives (hop.hasTemplate hsize) hlogic hcells
  have hpos : 0 < V.driversOf (.out r) := by
    rw [(hcount (.out r) rfl).2, hone]
    exact Nat.one_pos
  have hsome : (V.statements.find? fun c => .out r ∈ c.drives).isSome := by
    rw [List.find?_isSome]
    exact List.countP_pos_iff.mp hpos
  obtain ⟨c, hc⟩ := Option.isSome_iff_exists.mp hsome
  have hdrives : .out r ∈ c.drives := of_decide_eq_true (List.find?_some hc :)
  obtain ⟨r', row', text', hrow', ht', hmem⟩ :=
    exists_template_of_mem_statements hV (List.mem_of_find?_eq_some hc)
  obtain rfl : r = r' := ht'.owner_drives c hmem _ hdrives
  rw [hrow, Option.some.injEq] at hrow'
  subst hrow'
  rw [Architecture.rowOut, hc, Option.bind_some, ht'.output_eq hop hsize hcells hx R c hmem hdrives]

theorem rowValue_eq {c : ConnectionType} (h : PlainlyWritable A n) (hrow : A.findRow n = some row)
    (hm : row.inputConnections.head? = some m) (hc : row.inputConnectionsType.head? = some c) :
    rowValue A n = if c = .OLiM ∨ c = .none then .out m else .memRd m := by
  obtain ⟨row', hrow', ⟨hdiv, -⟩ | ⟨hdiv, -⟩ | ⟨-, -, c', m', hc', hm', hvalue⟩⟩ :=
    writeValue_cases (writeValue_eq 0 h [])
  · rw [hrow, Option.some.injEq] at hrow'
    exact absurd (hrow' ▸ hdiv) (h.2 row hrow)
  · rw [hrow, Option.some.injEq] at hrow'
    exact absurd (hrow' ▸ hdiv) (h.2 row hrow)
  · rw [hrow, Option.some.injEq] at hrow'
    subst hrow'
    rw [hm, Option.some.injEq] at hm'
    rw [hc, Option.some.injEq] at hc'
    rw [hvalue, hm', hc']

namespace PlainArray

variable (h : PlainArray A F)
include h

/-- A copy row is written with the word of its memory input. -/
theorem value_copied (hrow : A.findRow n = some row) (htype : row.inputConnectionsType.head? = some .OC)
    (hm : row.inputConnections.head? = some m) (R : Name → α) :
    (rowValue A n).value V L R = some (R m) := by
  have ht := (h.regular.timed n).mp (Option.isSome_of_eq_some hrow)
  rw [rowValue_eq (h.writable ht) hrow hm htype, if_neg (by decide)]
  rfl

/-- A result row is written with the output of the row that feeds it. -/
theorem value_computed (hV : printArchitecture A par F.transform = some V) (hrow : A.findRow n = some row)
    (htype : row.inputConnectionsType.head? = some .OLiM) (hr : row.inputConnections.head? = some r)
    {rRow : LiMRow}
    (hrRow : A.findRow r = some rRow) (hx : rRow.logicInputs = [x]) (R : Name → α) :
    (rowValue A n).value V L R = some (L.op rRow.rowType (R r) (R x)) := by
  have ht := (h.regular.timed n).mp (Option.isSome_of_eq_some hrow)
  have hlogic : rRow.rowType ≠ .load := by
    obtain ⟨r', rRow', hr', hrRow', hlogic⟩ := (h.shaped n row hrow).output htype
    rw [hr, Option.some.injEq] at hr'
    subst hr'
    rw [hrRow, Option.some.injEq] at hrRow'
    exact hrRow' ▸ hlogic
  rw [rowValue_eq (h.writable ht) hrow hr htype, if_pos (.inl rfl)]
  exact h.rowOut_eq hV hrRow hlogic hx R

/-- A row of a later time than 0 is a copy row or a result row. -/
theorem head_of_pos {t : ℤ} (hrow : A.findRow n = some row) (ht : F.getTime n = some t) (hpos : t ≠ 0) :
    ∃ m, row.inputConnections.head? = some m ∧ (row.inputConnectionsType.head? = some .OC ∨
      row.inputConnectionsType.head? = some .OLiM ∧ ∃ mRow x, A.findRow m = some mRow ∧
        mRow.logicInputs = [x]) := by
  have hshaped := h.shaped n row hrow
  obtain ⟨m, hm, -⟩ := hshaped.head
  refine ⟨m, hm, ?_⟩
  obtain ⟨⟨row', m', c, hrow', -, hc⟩, -⟩ := h.writable (Option.isSome_of_eq_some ht)
  rw [hrow, Option.some.injEq] at hrow'
  subst hrow'
  cases c with
  | none =>
    have hzero := h.wired.loaded n row hrow hc
    rw [ht, Option.some.injEq] at hzero
    exact absurd hzero hpos
  | OC => exact .inl hc
  | OLiM =>
    obtain ⟨m', mRow, hm', hmRow, hlogic⟩ := hshaped.output hc
    rw [hm, Option.some.injEq] at hm'
    subst hm'
    obtain ⟨x, hx⟩ := h.exists_logicInput hmRow hlogic
    exact .inr ⟨hc, mRow, x, hmRow, hx⟩

/-- A row of a later time than 0 is written with some value. -/
theorem value_isSome (hV : printArchitecture A par F.transform = some V) {t : ℤ}
    (hrow : A.findRow n = some row)
    (ht : F.getTime n = some t) (hpos : t ≠ 0) (R : Name → α) : ((rowValue A n).value V L R).isSome := by
  obtain ⟨m, hm, hcopy | ⟨hresult, mRow, x, hmRow, hx⟩⟩ := h.head_of_pos hrow ht hpos
  · rw [h.value_copied hrow hcopy hm]
    rfl
  · rw [h.value_computed hV hrow hresult hm hmRow hx]
    rfl

end PlainArray

/-! ### The stages -/

/-- The rows as cells computed in stages. A name that is no row stands for a cell of zeroes. -/
def staged (A : LiMArray) (F : FiniteStateMachine) (V : Architecture) (L : RowLogic α) (words : ℕ → α) :
    Staged Name α where
  time n := ((F.getTime n).getD 0).toNat
  word n := if (A.findRow n).isSome then words (memIndex n) else L.zero
  unread := L.zero
  compute n R := ((rowValue A n).value V L R).getD L.zero

theorem time_staged {t : ℤ} (ht : F.getTime n = some t) : (staged A F V L words).time n = t.toNat := by
  simp [staged, ht]

theorem word_staged (F : FiniteStateMachine) (V : Architecture) (words : ℕ → α)
    (hrow : A.findRow n = some row) : (staged A F V L words).word n = words (memIndex n) := by
  simp [staged, hrow]

theorem compute_staged {R : Name → α} {v : α} (h : (rowValue A n).value V L R = some v) :
    (staged A F V L words).compute n R = v := by
  simp [staged, h]

/-- A name that is no row has no time, and its cell stays zero. -/
theorem PlainArray.registers_of_findRow (h : PlainArray A F) (hn : A.findRow n = none) (j : ℕ) :
    (staged A F V L words).registers j n = L.zero := by
  have ht : F.getTime n = none := by
    rw [← Option.not_isSome_iff_eq_none, ← h.regular.timed, hn]
    exact Bool.false_ne_true
  have htime : (staged A F V L words).time n = 0 := by simp [staged, ht]
  rw [Staged.registers_eq, Staged.value_eq_word htime]
  split
  · simp [staged, hn]
  · rfl

/-- The rows written or read in a state. -/
theorem PlainArray.mem_rowsOf (h : PlainArray A F) {k : ℕ} : n ∈ rowsOf F.transform k ↔
    (A.findRow n).isSome ∧ k = 2 * (staged A F V L words).time n := by
  rw [PrintVhdlFile.mem_rowsOf h.regular.pending]
  constructor
  · rintro ⟨t, ht, hk⟩
    have hb := h.bounded n t ht
    refine ⟨(h.regular.timed n).mpr (Option.isSome_of_eq_some ht), ?_⟩
    rw [time_staged ht]
    omega
  · rintro ⟨hrow, hk⟩
    obtain ⟨t, ht⟩ := Option.isSome_iff_exists.mp ((h.regular.timed n).mp hrow)
    have hb := h.bounded n t ht
    rw [time_staged ht] at hk
    exact ⟨t, ht, by omega⟩

/-- The component has the cells and the registers of stage `c`, and is in state `j`. -/
structure AtStep (A : LiMArray) (F : FiniteStateMachine) (V : Architecture) (L : RowLogic α) (words : ℕ → α)
    (c j : ℕ) (s : Component α) : Prop where
  cells : ∀ n, (A.findRow n).isSome → s.Mem (memIndex n) = (staged A F V L words).cells c n
  registers : s.memRd = (staged A F V L words).registers c
  timers : s.T = timersAt F.transform.getFSMSize j

/-- The rows of a state are inside a memory of `m` words. -/
def Inside (F : FiniteStateMachine) (m j : ℕ) : Prop :=
  ∀ n ∈ rowsOf F.transform (j + 1) ++ rowsOf F.transform j, memIndex n < m

theorem PlainArray.inside (h : PlainArray A F) {m : ℕ} (hA : ∀ n row, A.findRow n = some row → memIndex n < m)
    (j : ℕ) : Inside F m j := by
  intro n hn
  have ht : (F.getTime n).isSome := by
    rcases List.mem_append.mp hn with hn | hn
    · obtain ⟨t, ht, -⟩ := (PrintVhdlFile.mem_rowsOf h.regular.pending).mp hn
      exact Option.isSome_of_eq_some ht
    · obtain ⟨t, ht, -⟩ := (PrintVhdlFile.mem_rowsOf h.regular.pending).mp hn
      exact Option.isSome_of_eq_some ht
  obtain ⟨row, hrow⟩ := Option.isSome_iff_exists.mp ((h.regular.timed n).mpr ht)
  exact hA n row hrow

/-- Names that are multiples of 4 have words of their own. -/
theorem memIndex_inj (hn : 4 ∣ n) (hm : 4 ∣ m) (h : memIndex n = memIndex m) : n = m := by
  unfold memIndex at h
  lia

/-- The component after a reset is before the first stage. -/
theorem atStep_start (words : ℕ → α) : AtStep A F V L words 0 0 (Architecture.start L words) := by
  refine ⟨fun n hrow => ?_, rfl, ?_⟩
  · obtain ⟨row, hrow⟩ := Option.isSome_iff_exists.mp hrow
    exact (word_staged F V words hrow).symm
  · funext i
    rw [timersAt, eq_comm, Architecture.start, decide_eq_false_iff_not]
    omega

section refinement

variable (h : PlainArray A F) (hsize : 2 ≤ F.transform.getFSMSize)
  (hV : printArchitecture A par F.transform = some V)
include h hsize hV

/-- **An edge** goes on to the next stage, if it is not there yet, and is an error when a row is
outside the memory. -/
theorem AtStep.edge (rising : Bool) (hs : AtStep A F V L words c j s) (hc : c = j ∨ c = j + 1) (k : ℕ) :
    (Inside F k j → ∃ s', V.edge L k (Architecture.running L (j = 0)) rising s = some s' ∧
      AtStep A F V L words (j + 1) (if rising then j + 1 else j) s') ∧
    (¬ Inside F k j → V.edge L k (Architecture.running L (j = 0)) rising s = none) := by
  obtain ⟨texts, hP, -⟩ := printArchitecture_eq_some hV
  have hmem : ∀ {i : ℕ} {n : Name}, n ∈ rowsOf F.transform i ↔
      (A.findRow n).isSome ∧ i = 2 * (staged A F V L words).time n := h.mem_rowsOf
  have hv : ∀ n ∈ rowsOf F.transform (j + 1), (rowValue A n).value V L s.memRd =
      some ((staged A F V L words).compute n s.memRd) := by
    intro n hn
    obtain ⟨t, ht, hj⟩ := (PrintVhdlFile.mem_rowsOf h.regular.pending).mp hn
    obtain ⟨row, hrow⟩ := Option.isSome_iff_exists.mp (hmem.mp hn).1
    obtain ⟨v, hv⟩ := Option.isSome_iff_exists.mp (h.value_isSome (L := L) hV hrow ht (by omega) s.memRd)
    rw [hv, compute_staged hv]
  obtain ⟨done, hedge⟩ := (h.staging hsize).edge_eq (m := k) rising hP hs.timers hv
  rw [hedge]
  refine ⟨fun hin => ⟨_, if_pos hin, ?_, ?_, rfl⟩, fun hin => if_neg hin⟩
  · intro n hrow
    have hinj : ∀ r ∈ rowsOf F.transform (j + 1), memIndex n = memIndex r → n = r :=
      fun r hr heq => memIndex_inj (h.aligned n hrow) (h.aligned r (hmem.mp hr).1) heq
    have hwrite := foldl_update (fun n => (staged A F V L words).compute n s.memRd) hinj s.Mem
    rw [hs.cells n hrow, hs.registers] at hwrite
    simp only [hmem, hrow, true_and] at hwrite
    rw [hs.registers, Staged.cells_again hc, ← hwrite]
  · funext n
    have hinj : ∀ r ∈ rowsOf F.transform j, id n = id r → n = r := fun r _ heq => heq
    have hread := foldl_update (fun n => s.Mem (memIndex n)) hinj s.memRd
    rw [hs.registers] at hread
    simp only [hmem, id_eq] at hread
    rw [hs.registers, Staged.registers_again hc]
    refine hread.trans ?_
    cases hfound : A.findRow n with
    | some row =>
      have hrow : (A.findRow n).isSome := Option.isSome_of_eq_some hfound
      rw [hs.cells n hrow]
      simp only [Option.isSome_some, true_and]
    | none =>
      rw [if_neg (by simp), ← Staged.registers_again hc, h.registers_of_findRow hfound,
        h.registers_of_findRow hfound]

/-- **A clock cycle** goes on to the next state. -/
theorem AtStep.cycle (hs : AtStep A F V L words j j s) (k : ℕ) :
    (Inside F k j → ∃ s', V.cycle L k (j = 0) s = some s' ∧ AtStep A F V L words (j + 1) (j + 1) s') ∧
    (¬ Inside F k j → V.cycle L k (j = 0) s = none) := by
  obtain ⟨hin, hout⟩ := AtStep.edge h hsize hV false hs (.inl rfl) k
  constructor
  · intro hk
    obtain ⟨s₁, hedge₁, hs₁⟩ := hin hk
    obtain ⟨s₂, hedge₂, hs₂⟩ := (AtStep.edge h hsize hV true hs₁ (.inr rfl) k).1 hk
    exact ⟨s₂, by rw [Architecture.cycle, hedge₁]; exact hedge₂, hs₂⟩
  · intro hk
    rw [Architecture.cycle, hout hk]
    rfl

/-- So many cycles after the first go on to the stage after them, or are an error. -/
theorem AtStep.cycles (hs : AtStep A F V L words 1 1 s) (k cycles : ℕ) :
    (∀ j, 1 ≤ j → j ≤ cycles → Inside F k j) ∧
        (∃ s', (List.range cycles).foldlM (fun s _ => V.cycle L k false s) s = some s' ∧
          AtStep A F V L words (cycles + 1) (cycles + 1) s') ∨
      (¬ ∀ j, 1 ≤ j → j ≤ cycles → Inside F k j) ∧
        (List.range cycles).foldlM (fun s _ => V.cycle L k false s) s = none := by
  induction cycles with
  | zero => exact .inl ⟨fun j h1 h0 => absurd h1 (by omega), s, rfl, hs⟩
  | succ cycles ih =>
    rw [List.range_succ, List.foldlM_append]
    rcases ih with ⟨hin, s₁, hrun, hs₁⟩ | ⟨hout, hrun⟩
    · have hcycle := hs₁.cycle h hsize hV k
      rw [decide_eq_false (Nat.succ_ne_zero cycles)] at hcycle
      rw [hrun, Option.bind_eq_bind, Option.bind_some]
      by_cases hlast : Inside F k (cycles + 1)
      · obtain ⟨s₂, hnext, hs₂⟩ := hcycle.1 hlast
        refine .inl ⟨fun j h1 hj => ?_, s₂, ?_, hs₂⟩
        · rcases Nat.le_or_eq_of_le_succ hj with hj | rfl
          · exact hin j h1 hj
          · exact hlast
        · rw [List.foldlM_cons, hnext]
          rfl
      · refine .inr ⟨fun hall => hlast (hall _ (Nat.succ_pos _) le_rfl), ?_⟩
        rw [List.foldlM_cons, hcycle.2 hlast]
        rfl
    · rw [hrun]
      exact .inr ⟨fun hall => hout fun j h1 hj => hall j h1 (Nat.le_succ_of_le hj), rfl⟩

/-- **The execution** goes through the stages, or is an error. -/
theorem simulate_cases (hnested : ∀ lines ∈ V.processes.all, WellNested lines) (words : ℕ → α)
    (k cycles : ℕ) :
    (∀ j ≤ cycles, Inside F k j) ∧ (∃ s, V.simulate L k words cycles = some s ∧
        AtStep A F V L words (cycles + 1) (cycles + 1) s) ∨
      (¬ ∀ j ≤ cycles, Inside F k j) ∧ V.simulate L k words cycles = none := by
  have hcycle := (atStep_start (L := L) words).cycle h hsize hV k
  rw [decide_eq_true rfl] at hcycle
  rw [Architecture.simulate, if_pos hnested]
  by_cases hfirst : Inside F k 0
  · obtain ⟨s₁, hfirst', hs₁⟩ := hcycle.1 hfirst
    rw [hfirst', Option.bind_eq_bind, Option.bind_some]
    have hall : (∀ j ≤ cycles, Inside F k j) ↔ ∀ j, 1 ≤ j → j ≤ cycles → Inside F k j := by
      refine ⟨fun hall j _ hj => hall j hj, fun hall j hj => ?_⟩
      rcases Nat.eq_zero_or_pos j with rfl | hpos
      · exact hfirst
      · exact hall j hpos hj
    rw [hall]
    exact hs₁.cycles h hsize hV k cycles
  · refine .inr ⟨fun hall => hfirst (hall 0 (Nat.zero_le _)), ?_⟩
    rw [hcycle.2 hfirst]
    rfl

end refinement

/-! ### The values of the stages -/

/-- A row loaded keeps its word. -/
theorem value_of_loaded (hrow : A.findRow n = some row) (ht : F.getTime n = some 0) :
    (staged A F V L words).value n = words (memIndex n) := by
  rw [Staged.value_eq_word (by rw [time_staged ht]; rfl), word_staged F V words hrow]

namespace PlainArray

variable (h : PlainArray A F)
include h

theorem exists_time (V : Architecture) (L : RowLogic α) (words : ℕ → α) (hrow : (A.findRow n).isSome) :
    ∃ t, F.getTime n = some t ∧ (0 ≤ t ∧ t < F.transform.getFSMSize) ∧
      ((staged A F V L words).time n : ℤ) = t := by
  obtain ⟨t, ht⟩ := Option.isSome_iff_exists.mp ((h.regular.timed n).mp hrow)
  have hb := h.bounded n t ht
  refine ⟨t, ht, hb, ?_⟩
  rw [time_staged ht]
  omega

/-- A copy row has the value of its memory input. -/
theorem value_of_copied (hrow : A.findRow n = some row) (htype : row.inputConnectionsType.head? = some .OC)
    (hm : row.inputConnections.head? = some m) :
    (staged A F V L words).value n = (staged A F V L words).value m := by
  obtain ⟨tm, t, htm, ht, hlt⟩ := h.wired.heads n row m hrow (by rw [htype]; decide) hm
  have hbm := h.bounded m tm htm
  have htime : (staged A F V L words).time m < (staged A F V L words).time n := by
    rw [time_staged htm, time_staged ht]
    omega
  rw [Staged.value_eq (Nat.zero_lt_of_lt htime), compute_staged (h.value_copied hrow htype hm _),
    if_pos htime]

/-- A result row has the result of the row that feeds it, on what was read of its logic input. -/
theorem value_of_computed (hV : printArchitecture A par F.transform = some V) (hrow : A.findRow n = some row)
    (htype : row.inputConnectionsType.head? = some .OLiM) (hr : row.inputConnections.head? = some r)
    {rRow : LiMRow}
    (hrRow : A.findRow r = some rRow) (hx : rRow.logicInputs = [x]) :
    (staged A F V L words).value n = L.op rRow.rowType ((staged A F V L words).value r)
      (if (staged A F V L words).time x < (staged A F V L words).time n then (staged A F V L words).value x
        else L.zero) := by
  obtain ⟨tr, t, htr, ht, hlt⟩ := h.wired.heads n row r hrow (by rw [htype]; decide) hr
  have hbr := h.bounded r tr htr
  have htime : (staged A F V L words).time r < (staged A F V L words).time n := by
    rw [time_staged htr, time_staged ht]
    omega
  rw [Staged.value_eq (Nat.zero_lt_of_lt htime),
    compute_staged (h.value_computed hV hrow htype hr hrRow hx _), if_pos htime]
  rfl

/-- After the last stage the memory holds the values. -/
theorem mem_eq_value {k : ℕ} (hs : AtStep A F V L words k k s) (hk : 2 * F.transform.getFSMSize - 1 ≤ k)
    (hrow : (A.findRow n).isSome) : s.Mem (memIndex n) = (staged A F V L words).value n := by
  obtain ⟨t, ht, hb, htime⟩ := h.exists_time V L words hrow
  rw [hs.cells n hrow, Staged.cells_eq_value (by omega)]

/-! ### The printing -/

theorem printRow_isSome (hrow : A.findRow n = some row) : (printRow n row).isSome := by
  have hshaped := h.shaped n row hrow
  have hmux : isMux row = false := decide_eq_false (Nat.not_lt.mpr (h.size n row hrow))
  rcases h.logic n row hrow with hload | hop
  · simp only [printRow, hload, LimOperations, Option.bind_eq_bind, Option.bind_some]
    rfl
  · have hne : row.rowType ≠ .load := by
      intro hload
      rw [hload] at hop
      exact absurd hop (by decide)
    have hlen : 1 < row.inputConnections.length := by
      have hshape := hshaped.logic hne
      omega
    have hsrc := List.getElem?_eq_getElem hlen
    have hcon := List.getElem?_eq_getElem (hshaped.types.symm ▸ hlen)
    rcases hop with hadd | ⟨hbit, hswitch⟩
    · simp only [printRow, hadd, LimOperations, hsrc, hcon, hmux, Option.bind_eq_bind, Option.bind_some,
        if_true, Bool.false_eq_true, if_false]
      rfl
    · simp only [printRow, hbit, hsrc, hcon, hmux, hswitch, Option.bind_eq_bind, Option.bind_some,
        Bool.false_eq_true, if_false]
      rfl

/-- The architecture is printed. -/
theorem exists_printArchitecture (par : ℤ) : ∃ V, printArchitecture A par F.transform = some V := by
  have hprocesses : (printProcesses A par F.transform).isSome := by
    refine printProcesses_isSome fun entry he n hn => ?_
    rw [ExtTreeMap.mem_toList_iff_getElem?_eq_some] at he
    have ht := (FiniteStateMachine.mem_transform h.regular.pending).mp ⟨entry.2, he, hn⟩
    exact (h.writable (Option.isSome_of_eq_some ht)).1
  have hrows : ∀ entries : List (Name × LiMRow), (∀ entry ∈ entries, A.findRow entry.1 = some entry.2) →
      (printRows entries).isSome := by
    intro entries hentries
    induction entries with
    | nil => rfl
    | cons entry entries ih =>
      obtain ⟨text, htext⟩ := Option.isSome_iff_exists.mp (h.printRow_isSome (hentries _ List.mem_cons_self))
      obtain ⟨texts, htexts⟩ := Option.isSome_iff_exists.mp (ih fun e he =>
        hentries e (List.mem_cons_of_mem _ he))
      simp only [printRows, htext, htexts, Option.bind_eq_bind, Option.bind_some]
      rfl
  obtain ⟨P, hP⟩ := Option.isSome_iff_exists.mp hprocesses
  obtain ⟨texts, htexts⟩ := Option.isSome_iff_exists.mp (hrows A.limArray.toList fun entry he =>
    ExtTreeMap.mem_toList_iff_getElem?_eq_some.mp he)
  exact ⟨_, by simp only [printArchitecture, hP, htexts, Option.bind_eq_bind, Option.bind_some]; rfl⟩

/-- The processes are well nested exactly when something is written after the loads. -/
theorem nested_iff (hV : printArchitecture A par F.transform = some V) :
    (∀ lines ∈ V.processes.all, WellNested lines) ↔ 2 ≤ F.transform.getFSMSize := by
  obtain ⟨texts, hP, -⟩ := printArchitecture_eq_some hV
  constructor
  · intro hnested
    by_contra hsize
    obtain ⟨wrt, hwrt, hprocesses⟩ := printProcesses_eq_some hP
    have hzero : ∀ entry ∈ F.transform.FSM.toList, entry.1 = 0 := by
      intro entry he
      obtain ⟨-, n, hn⟩ := FiniteStateMachine.mem_toList_transform h.regular.pending he
      have hb := h.bounded n _ hn
      omega
    have hempty : ∀ times : List (ℤ × List Name), (∀ entry ∈ times, entry.1 = 0) →
        writeTimes A par [] times = some [] := by
      intro times htimes
      induction times with
      | nil => rfl
      | cons entry times ih =>
        rw [writeTimes, if_pos (htimes _ List.mem_cons_self)]
        exact ih fun e he => htimes e (List.mem_cons_of_mem _ he)
    have hlines := hnested wrt (by simp [hprocesses, Processes.all])
    simp only [wrtProc, hempty _ hzero, Option.bind_eq_bind, Option.bind_some, Option.pure_def,
      Option.some.injEq] at hwrt
    rw [← hwrt] at hlines
    revert hlines
    decide
  · intro hsize
    have hwell := (wellFormed_printProcesses_iff hP fun entry he =>
      (FiniteStateMachine.mem_toList_transform h.regular.pending he).1).mpr ⟨hsize,
        (FiniteStateMachine.forall_mem_toList_transform h.regular.pending).mpr h.bounded⟩
    exact hwell.nested

end PlainArray

/-! ### The component computes the binding -/

/-- Every result row is written after the logic input of the row that feeds it. -/
def OperandsInTime (A : LiMArray) (F : FiniteStateMachine) : Prop :=
  ∀ d drow r rRow, A.findRow d = some drow → drow.inputConnectionsType.head? = some .OLiM →
    drow.inputConnections.head? = some r → A.findRow r = some rRow →
    ∀ x ∈ rRow.logicInputs, ∀ td tx, F.getTime d = some td → F.getTime x = some tx → tx < td

namespace PlainArray

variable (h : PlainArray A F)
include h

/-- **The execution in a memory that holds the rows** leaves the values of the binding in it, when the
operands are in time. -/
theorem exists_simulate (hsize : 2 ≤ F.transform.getFSMSize) (hin : OperandsInTime A F)
    (hV : printArchitecture A par F.transform = some V) {m : ℕ}
    (hA : ∀ n row, A.findRow n = some row → memIndex n < m) (L : RowLogic α) (words : ℕ → α) {cycles : ℕ}
    (hcycles : 2 * F.transform.getFSMSize - 2 ≤ cycles) :
    ∃ s, V.simulate L m words cycles = some s ∧ HoldsValues A F L words s.Mem := by
  obtain ⟨-, s, hsim, hs⟩ := (simulate_cases (L := L) h hsize hV ((h.nested_iff hV).mpr hsize) words m
    cycles).resolve_right fun hout => hout.1 fun j _ => h.inside hA j
  have hmem : ∀ n, (A.findRow n).isSome → s.Mem (memIndex n) = (staged A F V L words).value n :=
    fun n hrow => h.mem_eq_value hs (by omega) hrow
  refine ⟨s, hsim, fun n row hrow ht => ?_, fun n row m hrow htype hm => ?_,
    fun n row r rRow x hrow htype hr hrRow hx => ?_⟩
  · rw [hmem n (Option.isSome_of_eq_some hrow), value_of_loaded hrow ht]
  · obtain ⟨tm, t, htm, -⟩ := h.wired.heads n row m hrow (by rw [htype]; decide) hm
    rw [hmem n (Option.isSome_of_eq_some hrow),
      hmem m ((h.regular.timed m).mpr (Option.isSome_of_eq_some htm)), h.value_of_copied hrow htype hm]
  · have hxin : x ∈ rRow.logicInputs := by
      rw [hx]
      exact List.mem_singleton_self x
    have hxrow := (h.shaped r rRow hrRow).rest x hxin
    obtain ⟨t, ht, -, htime⟩ := h.exists_time V L words (Option.isSome_of_eq_some hrow)
    obtain ⟨tx, htx, -, hxtime⟩ := h.exists_time V L words hxrow
    have hlt := hin n row r rRow hrow htype hr hrRow x hxin t tx ht htx
    rw [hmem n (Option.isSome_of_eq_some hrow), hmem r (Option.isSome_of_eq_some hrRow), hmem x hxrow,
      h.value_of_computed hV hrow htype hr hrRow hx, if_pos (by omega)]

/-- The component computes the values of the binding when its operands are in time. -/
theorem computes (hsize : 2 ≤ F.transform.getFSMSize) (hA : InMemory A) (hin : OperandsInTime A F) (par : ℤ)
    (L : RowLogic α) : ComputesBinding A par F L := by
  obtain ⟨V, hV⟩ := h.exists_printArchitecture par
  exact ⟨V, hV, fun words cycles => h.exists_simulate hsize hin hV hA L words⟩

end PlainArray

/-- Words that tell whether the second operand was read: 1 if not, 2 if it was. -/
def markLogic : RowLogic ℕ := ⟨0, fun _ _ b => if b = 0 then 1 else 2, id⟩

theorem markLogic_op_zero (op : Operation) (a : ℕ) : markLogic.op op a markLogic.zero = 1 := rfl

theorem markLogic_op_of_ne {b : ℕ} (hb : b ≠ 0) (op : Operation) (a : ℕ) :
    markLogic.op op a b = 2 := if_neg hb

theorem markLogic_op_ne_zero (op : Operation) (a b : ℕ) : markLogic.op op a b ≠ 0 := by
  unfold markLogic
  simp only
  split <;> decide

/-- No row has the word of an operand that was not read. -/
theorem PlainArray.value_markLogic_ne_zero (h : PlainArray A F)
    (hV : printArchitecture A par F.transform = some V)
    (hrow : (A.findRow n).isSome) : (staged A F V markLogic fun _ => 2).value n ≠ 0 := by
  induction htime : (staged A F V markLogic fun _ => 2).time n
    using Nat.strong_induction_on generalizing n with
  | _ k ih =>
    obtain ⟨row, hrow⟩ := Option.isSome_iff_exists.mp hrow
    obtain ⟨t, ht⟩ := Option.isSome_iff_exists.mp ((h.regular.timed n).mp (Option.isSome_of_eq_some hrow))
    by_cases hzero : t = 0
    · rw [value_of_loaded hrow (hzero ▸ ht)]
      decide
    obtain ⟨m, hm, hcopy | ⟨hresult, mRow, x, hmRow, hx⟩⟩ := h.head_of_pos hrow ht hzero
    · obtain ⟨tm, t', htm, ht', hlt⟩ := h.wired.heads n row m hrow (by rw [hcopy]; decide) hm
      have hb := h.bounded m tm htm
      rw [h.value_of_copied hrow hcopy hm]
      refine ih _ ?_ ((h.regular.timed m).mpr (Option.isSome_of_eq_some htm)) rfl
      rw [← htime, time_staged htm, time_staged ht']
      omega
    · rw [h.value_of_computed hV hrow hresult hm hmRow hx]
      exact markLogic_op_ne_zero _ _ _

/-- A component that computes the values of the binding whatever its operations are. -/
theorem PlainArray.of_computes (h : PlainArray A F) (hc : ComputesBinding A par F markLogic) :
    2 ≤ F.transform.getFSMSize ∧ InMemory A ∧ OperandsInTime A F := by
  obtain ⟨V, hV, hsim⟩ := hc
  obtain ⟨s, hsim, hvalues⟩ := hsim (fun _ => 2) (2 * F.transform.getFSMSize - 2) le_rfl
  have hnested : ∀ lines ∈ V.processes.all, WellNested lines := by
    by_contra hnot
    rw [Architecture.simulate, if_neg hnot] at hsim
    cases hsim
  have hsize := (h.nested_iff hV).mp hnested
  obtain ⟨hinside, s', hsim', hs⟩ :=
    (simulate_cases (L := markLogic) h hsize hV hnested (fun _ => 2) (entries A)
    (2 * F.transform.getFSMSize - 2)).resolve_right fun hout => by
      rw [hout.2] at hsim
      cases hsim
  obtain rfl : s = s' := Option.some.inj (hsim.symm.trans hsim')
  refine ⟨hsize, fun n row hrow => ?_, fun d drow r rRow hd htype hr hrRow x hxin td tx htd htx => ?_⟩
  · obtain ⟨t, ht, hb, htime⟩ := h.exists_time V markLogic (fun _ => 2)
      (Option.isSome_of_eq_some hrow)
    refine hinside (2 * t.toNat) (by omega) n (List.mem_append_right _ ?_)
    rw [PrintVhdlFile.mem_rowsOf h.regular.pending]
    exact ⟨t, ht, by omega⟩
  · have hmem :
        ∀ n, (A.findRow n).isSome → s.Mem (memIndex n) = (staged A F V markLogic fun _ => 2).value n :=
      fun n hrow => h.mem_eq_value hs (by omega) hrow
    have hxrow := (h.shaped r rRow hrRow).rest x hxin
    obtain ⟨r', rRow', hr', hrRow', hlogic⟩ := (h.shaped d drow hd).output htype
    rw [hr, Option.some.injEq] at hr'
    subst hr'
    rw [hrRow, Option.some.injEq] at hrRow'
    subst hrRow'
    obtain ⟨x', hx⟩ := h.exists_logicInput hrRow hlogic
    obtain rfl : x = x' := List.mem_singleton.mp (hx ▸ hxin)
    have hbd := h.bounded d td htd
    have hbx := h.bounded x tx htx
    by_contra hlate
    have hresult := hvalues.computed d drow r rRow x hd htype hr hrRow hx
    rw [hmem d (Option.isSome_of_eq_some hd), hmem r (Option.isSome_of_eq_some hrRow), hmem x hxrow,
      h.value_of_computed hV hd htype hr hrRow hx,
      if_neg (by rw [time_staged htx, time_staged htd]; omega), markLogic_op_zero,
      markLogic_op_of_ne (h.value_markLogic_ne_zero hV hxrow)] at hresult
    cases hresult

/-- The array and the times of a program with these operations. -/
theorem plainArray_of_reaches {optTarget : String} {actions : List BindingAction} {s : BinderState}
    (hallowed : ∀ a ∈ actions, a.allowed (· = 0) Operation.IsRowLogic) (h : Reaches par optTarget actions s)
    (hsize : ∀ n row, s.binder.MemArray.findRow n = some row → row.inputConnections.length ≤ 2) :
    PlainArray s.binder.MemArray s.binder.FSMLim := by
  have hshift : ∀ a ∈ actions, a.noShift := by
    intro a ha
    have hop := hallowed a ha
    cases a with
    | load | enter | leave => trivial
    | element operation | accumulate operation => exact hop.isShift
  have hload : ∀ a ∈ actions, a.scheduled := by
    intro a ha
    have hop := hallowed a ha
    cases a with
    | load destReg ti => exact hop
    | enter | leave | element | accumulate => trivial
  have hany : ∀ a ∈ actions, a.allowed (· = 0) fun _ => True := by
    intro a ha
    have hop := hallowed a ha
    cases a with
    | load destReg ti => exact hop
    | enter | leave | element | accumulate => trivial
  have hgap := (timely_of_reaches hshift hload h).gapFree
  have hr := regular_of_reaches hshift h
  refine ⟨hr, wired_invariant.of_reaches hshift hany h, fun n row => shaped_of_findRow hshift h,
    fun n t ht => ?_,
    (rowTypes_invariant _).of_reaches hshift (fun a ha => ?_) h, hsize, fun n hn => ?_⟩
  · obtain ⟨h0, hall⟩ := hgap n t ht
    have hk := FiniteStateMachine.le_getFSMSize_transform hr.pending (k := t.toNat + 1) fun i hi =>
      hall i (by omega) (by omega)
    exact ⟨h0, by omega⟩
  · have hop := hallowed a ha
    cases a with
    | load | enter | leave => trivial
    | element operation | accumulate operation => exact hop
  · obtain ⟨row, hrow⟩ := Option.isSome_iff_exists.mp hn
    exact (wellFormed_of_reaches h).aligned hrow

/-- **The component computes the values of the binding**, whatever its operations are, exactly
when something is written after the loads, the rows are inside the memory, and the operands
are in time. -/
theorem execution_computes_iff {optTarget : String} {actions : List BindingAction} {s : BinderState}
    (hallowed : ∀ a ∈ actions, a.allowed (· = 0) Operation.IsRowLogic) (h : Reaches par optTarget actions s)
    (hsize : ∀ n row, s.binder.MemArray.findRow n = some row → row.inputConnections.length ≤ 2) :
    (∀ (β : Type) (L : RowLogic β), ComputesBinding s.binder.MemArray par s.binder.FSMLim L) ↔
      2 ≤ s.binder.FSMLim.transform.getFSMSize ∧ InMemory s.binder.MemArray ∧
        OperandsInTime s.binder.MemArray s.binder.FSMLim := by
  have hplain := plainArray_of_reaches hallowed h hsize
  constructor
  · exact fun hall => hplain.of_computes (hall ℕ markLogic)
  · rintro ⟨hwritten, hA, hin⟩ β L
    exact hplain.computes hwritten hA hin par L

/-- Three loads, the conjunction, the disjunction and the difference of two of them each, and the
sum of two, with a copy row. -/
def plainBindings : List BindingAction :=
  [.load 1 0, .load 2 0, .load 3 0,
    .accumulate .and ["accumulation"] 4 [0, 4],
    .accumulate .or ["accumulation"] 5 [0, 8],
    .accumulate .xor ["accumulation"] 6 [4, 8],
    .accumulate .add ["accumulation"] 7 [0, 4]]

theorem plainBindings_isSome : (run bindStep (.init 8 "") plainBindings).isSome := by decide +kernel

/-- The component computes them, whatever the operations are. -/
theorem execution_computes_iff_plainBindings :
    ∃ s, Reaches 8 "" plainBindings s ∧
      ∀ (β : Type) (L : RowLogic β), ComputesBinding s.binder.MemArray 8 s.binder.FSMLim L := by
  have hrows : ∀ entry ∈ ((run bindStep (.init 8 "") plainBindings).get
      plainBindings_isSome).binder.MemArray.limArray.toList, entry.2.inputConnections.length ≤ 2 ∧
        memIndex entry.1 < entries ((run bindStep (.init 8 "") plainBindings).get
          plainBindings_isSome).binder.MemArray := by decide +kernel
  have htimes : ∀ d ∈ ((run bindStep (.init 8 "") plainBindings).get
      plainBindings_isSome).binder.MemArray.limArray.toList, d.2.inputConnectionsType.head? = some .OLiM →
        ∀ r ∈ ((run bindStep (.init 8 "") plainBindings).get
          plainBindings_isSome).binder.MemArray.limArray.toList, d.2.inputConnections.head? = some r.1 →
            ∀ x ∈ r.2.logicInputs, ∀ td ∈ ((run bindStep (.init 8 "") plainBindings).get
              plainBindings_isSome).binder.FSMLim.getTime d.1,
                ∀ tx ∈ ((run bindStep (.init 8 "") plainBindings).get
                plainBindings_isSome).binder.FSMLim.getTime x, tx < td := by decide +kernel
  have hrow : ∀ n row, ((run bindStep (.init 8 "") plainBindings).get plainBindings_isSome).binder.MemArray.findRow n =
      some row → (n, row) ∈ ((run bindStep (.init 8 "") plainBindings).get
        plainBindings_isSome).binder.MemArray.limArray.toList :=
    fun n row h => ExtTreeMap.mem_toList_iff_getElem?_eq_some.mpr h
  refine ⟨_, (Option.some_get plainBindings_isSome).symm,
    (execution_computes_iff (by decide) (Option.some_get plainBindings_isSome).symm fun n row h =>
      (hrows _ (hrow n row h)).1).mpr
      ⟨by decide +kernel, fun n row h => (hrows _ (hrow n row h)).2, ?_⟩⟩
  intro d drow r rRow hd htype hr hrRow x hx td tx htd htx
  exact htimes _ (hrow d drow hd) htype _ (hrow r rRow hrRow) hr x hx td htd tx htx

/-- Eight loads and their conjunctions. Row `52`, whose memory input is `48`, is bound with
`44` and then with `48`: for the second it is given no logic input, and its result is written
when `44` is. -/
def lateOperand : List BindingAction :=
  [.load 1 0, .load 2 0, .load 3 0, .load 4 0, .load 5 0, .load 6 0, .load 7 0, .load 8 0,
    .accumulate .and ["accumulation"] 20 [0, 4],
    .accumulate .and ["accumulation"] 21 [32, 8],
    .accumulate .and ["accumulation"] 22 [36, 12],
    .accumulate .and ["accumulation"] 23 [40, 16],
    .accumulate .and ["accumulation"] 23 [20, 24],
    .accumulate .and ["accumulation"] 24 [48, 28],
    .enter 0, .element .and [] 25 44 52 ⟨1, 0, 0⟩, .element .and [] 25 48 52 ⟨1, 0, 0⟩, .leave]

theorem lateOperand_isSome : (run bindStep (.init 8 "") lateOperand).isSome := by decide +kernel

/-- Row `60` is fed by row `52`, whose logic input `44` is written at the same time: on words of 8
bits it gets 0, and not the conjunction of the words of `52` and `44`. -/
theorem lateOperand_lost :
    ∃ s, Reaches 8 "" lateOperand s ∧ (∀ a ∈ lateOperand, a.allowed (· = 0) Operation.IsRowLogic) ∧
      (∀ n row, s.binder.MemArray.findRow n = some row → row.inputConnections.length ≤ 2) ∧
      2 ≤ s.binder.FSMLim.transform.getFSMSize ∧ InMemory s.binder.MemArray ∧
      ¬ ComputesBinding s.binder.MemArray 8 s.binder.FSMLim (wordLogic 8) := by
  have hrows : ∀ entry ∈ ((run bindStep (.init 8 "") lateOperand).get
      lateOperand_isSome).binder.MemArray.limArray.toList, entry.2.inputConnections.length ≤ 2 ∧
        memIndex entry.1 < entries ((run bindStep (.init 8 "") lateOperand).get
          lateOperand_isSome).binder.MemArray := by decide +kernel
  have hrow : ∀ n row, ((run bindStep (.init 8 "") lateOperand).get lateOperand_isSome).binder.MemArray.findRow n =
      some row → (n, row) ∈ ((run bindStep (.init 8 "") lateOperand).get
        lateOperand_isSome).binder.MemArray.limArray.toList :=
    fun n row h => ExtTreeMap.mem_toList_iff_getElem?_eq_some.mpr h
  have hresult : ((run bindStep (.init 8 "") lateOperand).get lateOperand_isSome).binder.MemArray.findRow 60 =
      some ⟨.load, 8, [52], [.OLiM], []⟩ := by decide +kernel
  have hlogic : ((run bindStep (.init 8 "") lateOperand).get lateOperand_isSome).binder.MemArray.findRow 52 =
      some ⟨.and, 8, [48, 44], [.OLiM, .OC], []⟩ := by decide +kernel
  have hsim : (printArchitecture ((run bindStep (.init 8 "") lateOperand).get lateOperand_isSome).binder.MemArray 8
      ((run bindStep (.init 8 "") lateOperand).get lateOperand_isSome).binder.FSMLim.transform).bind (fun V =>
        (V.simulate (wordLogic 8) (entries ((run bindStep (.init 8 "") lateOperand).get
          lateOperand_isSome).binder.MemArray) (fun i => BitVec.ofNat 8 (0xf0 + i)) 10).map fun s =>
            (s.Mem 15, s.Mem 13, s.Mem 11)) = some (0, 244, 240) := by decide +kernel
  refine ⟨_, (Option.some_get lateOperand_isSome).symm, by decide, fun n row h => (hrows _ (hrow n row h)).1,
    by decide +kernel, fun n row h => (hrows _ (hrow n row h)).2, ?_⟩
  rintro ⟨V, hV, hcomputes⟩
  obtain ⟨s', hs', hvalues⟩ := hcomputes (fun i => BitVec.ofNat 8 (0xf0 + i)) 10 (by decide +kernel)
  rw [hV, Option.bind_some, hs', Option.map_some, Option.some.injEq, Prod.mk.injEq, Prod.mk.injEq] at hsim
  obtain ⟨h15, h13, h11⟩ := hsim
  have hword := hvalues.computed 60 _ 52 _ 44 hresult rfl rfl hlogic rfl
  rw [show memIndex 60 = 15 from rfl, show memIndex 52 = 13 from rfl,
    show memIndex 44 = 11 from rfl, h15, h13, h11] at hword
  revert hword
  decide

end Octantis
