import Octantis.Binding.Wiring
import Octantis.CodeGeneration.PrintRows
import Octantis.CodeGeneration.Processes

/-!
# The signals of the rows

The declarations, the drivers and the uses of the signals of a row are printed by different
functions: the template of the row, the templates of the rows that read it, and the
processes.

## The model

`Architecture.Closed` says what they should be: every signal used is declared once, and
every output read has one driver. `Template` lists the templates of the row loop, each with
the rows it is printed for.

## What is proved

* `architecture_closed_iff`: the architecture printed for a state reached is closed exactly
  when its rows and its selects are `Supported`.

## Honest scope

A row with a mux is never supported: the bitwise one drives `ROW_n` for its output, and the
declaration of the memory of the adder is misprinted. The types `sub`, `mul` and the shifts
have no template at all (`muxOfAnd_open`).
-/

namespace Octantis

open Std Lib Lib.Line PrintVhdlFile

namespace PrintVhdlFile

/-! ### Uses and drivers -/

/-- The row a signal belongs to. -/
def RowSignal.owner : RowSignal → Name
  | .memRd n | .out n | .sel n | .muxOut n | .cout n | .op n _ | .bare n => n

/-- The signals that stand between rows and processes. -/
def RowSignal.isShared : RowSignal → Bool
  | .memRd _ | .out _ | .sel _ | .muxOut _ => true
  | .cout _ | .op _ _ | .bare _ => false

/-- The signal that a row is written with. -/
def RowValue.signal : RowValue → RowSignal
  | .out n => .out n
  | .memRd n | .shifted n _ => .memRd n

/-- The signals read by a statement of a process. -/
def Statement.reads : Statement → List RowSignal
  | .write _ value => [value.signal]
  | .dataOut | .memReset | .dataIn | .memRdReset _ | .read _ _ | .tReset _ | .tShift _ _ | .doneReset
  | .doneShift _ | .select _ _ => []

/-- The signals assigned by a statement of a process. -/
def Statement.assigns : Statement → List RowSignal
  | .memRdReset n | .read n _ => [.memRd n]
  | .select n _ => [.sel n]
  | .dataOut | .memReset | .dataIn | .write _ _ | .tReset _ | .tShift _ _ | .doneReset | .doneShift _ => []

/-- The signals read by a concurrent statement. -/
def Concurrent.reads : Concurrent → List RowSignal
  | .logic _ _ a b | .mixedLogic _ _ a b | .adder a b _ _ => [a, b]
  | .mux a b sel _ => [a, b, sel]
  | .mixedMux inputs sel _ => inputs ++ [sel]
  | .assign _ source => [source]

/-- The signals driven by a concurrent statement. -/
def Concurrent.drives : Concurrent → List RowSignal
  | .logic target _ _ _ | .mixedLogic target _ _ _ | .assign target _ => [target]
  | .mux _ _ _ y | .mixedMux _ _ y => [y]
  | .adder _ _ cout s => [cout, s]

/-- The statements of the processes. -/
def Processes.statements (P : Processes) : List Statement := P.all.flatMap (·.filterMap statement?)

namespace Architecture

/-- The signals read somewhere. -/
def read (V : Architecture) : List RowSignal :=
  V.processes.statements.flatMap (·.reads) ++ V.statements.flatMap (·.reads)

/-- The signals that stand somewhere. -/
def used (V : Architecture) : List RowSignal :=
  V.read ++ V.processes.statements.flatMap (·.assigns) ++ V.statements.flatMap (·.drives)

/-- The number of well-formed declarations of a signal. -/
def declarationsOf (V : Architecture) (signal : RowSignal) : ℕ := V.declarations.countP (· = declare signal)

/-- The number of statements that drive a signal. -/
def driversOf (V : Architecture) (signal : RowSignal) : ℕ := V.statements.countP (signal ∈ ·.drives)

/-- **Closed**: what is used is declared once, and the outputs read have one driver. -/
structure Closed (V : Architecture) : Prop where
  declared : ∀ signal ∈ V.used, signal.isShared → V.declarationsOf signal = 1
  driven : ∀ n, .out n ∈ V.read → V.driversOf (.out n) = 1

end Architecture

/-! ### The templates -/

/-- The templates, and the rows they are printed for. -/
inductive Template (n : Name) (row : LiMRow) : RowText → Prop where
  | memory (type : row.rowType = .load) : Template n row (printMemory n)
  | bitwiseMux {src2 src3 : Name} {type2 type3 : ConnectionType}
      (type : LimOperations row.rowType = some .bitwise) (mux : 2 < row.inputConnections.length) :
      Template n row (printBitwiseMux2to1 row.rowType n type2 type3 src2 src3)
  | mixed {src2 : Name} {type2 : ConnectionType} {text : RowText} (type : row.rowType = .switch)
      (size : row.inputConnections.length ≤ 2) (src : row.inputConnections[1]? = some src2)
      (con : row.inputConnectionsType[1]? = some type2)
      (printed : printMixed n src2 type2 row.additionalLogic = some text) : Template n row text
  | bitwise {src2 : Name} {type2 : ConnectionType} (type : LimOperations row.rowType = some .bitwise)
      (size : row.inputConnections.length ≤ 2) (ne : row.rowType ≠ .switch)
      (src : row.inputConnections[1]? = some src2) (con : row.inputConnectionsType[1]? = some type2) :
      Template n row (printBitwise n src2 type2 row.rowType)
  | addMux {src2 src3 : Name} {type2 type3 : ConnectionType} (type : row.rowType = .add)
      (mux : 2 < row.inputConnections.length) : Template n row (printAddMux2to1 n type2 type3 src2 src3)
  | add {src2 : Name} {type2 : ConnectionType} (type : row.rowType = .add)
      (size : row.inputConnections.length ≤ 2) (src : row.inputConnections[1]? = some src2)
      (con : row.inputConnectionsType[1]? = some type2) : Template n row (printAdd n src2 type2)
  | shiftRight (type : row.rowType = .sdiv) : Template n row (printShiftRight n)
  | nothing (type : LimOperations row.rowType = some .arith) (neAdd : row.rowType ≠ .add)
      (neDiv : row.rowType ≠ .sdiv) : Template n row ⟨[], []⟩

variable {n : Name} {row : LiMRow} {text : RowText}

theorem template_of_printRow (h : printRow n row = some text) : Template n row text := by
  obtain ⟨type, htype, h⟩ := Option.bind_eq_some_iff.mp h
  cases type with
  | null =>
    cases h
    refine .memory ?_
    cases hop : row.rowType <;> rw [hop] at htype <;> simp [LimOperations] at htype
  | bitwise =>
    obtain ⟨src2, hsrc, h⟩ := Option.bind_eq_some_iff.mp h
    obtain ⟨type2, hcon, h⟩ := Option.bind_eq_some_iff.mp h
    split at h
    · next hmux =>
      obtain ⟨src3, -, h⟩ := Option.bind_eq_some_iff.mp h
      obtain ⟨type3, -, h⟩ := Option.bind_eq_some_iff.mp h
      cases h
      exact .bitwiseMux htype (of_decide_eq_true hmux)
    next hmux =>
    have hsize : row.inputConnections.length ≤ 2 := by simpa [isMux] using hmux
    split at h
    · next hswitch => exact .mixed hswitch hsize hsrc hcon h
    · next hswitch =>
      cases h
      exact .bitwise htype hsize hswitch hsrc hcon
  | arith =>
    simp only at h
    split at h
    · next hadd =>
      obtain ⟨src2, hsrc, h⟩ := Option.bind_eq_some_iff.mp h
      obtain ⟨type2, hcon, h⟩ := Option.bind_eq_some_iff.mp h
      split at h
      · next hmux =>
        obtain ⟨src3, -, h⟩ := Option.bind_eq_some_iff.mp h
        obtain ⟨type3, -, h⟩ := Option.bind_eq_some_iff.mp h
        cases h
        exact .addMux hadd (of_decide_eq_true hmux)
      · next hmux =>
        cases h
        exact .add hadd (by simpa [isMux] using hmux) hsrc hcon
    next hadd =>
    split at h
    · next hdiv =>
      obtain ⟨m, -, h⟩ := Option.bind_eq_some_iff.mp h
      obtain ⟨amt, -, h⟩ := Option.bind_eq_some_iff.mp h
      cases h
      exact .shiftRight hdiv
    · next hdiv =>
      cases h
      exact .nothing htype hadd hdiv

theorem printMixed_eq_some {src2 : Name} {type2 : ConnectionType} {operators : List String}
    (h : printMixed n src2 type2 operators = some text) : text =
      ⟨[declare (.memRd n), declare (.out n), declare (.sel n)] ++
          (List.range operators.length).map fun i => declare (.op n i),
        .mixedMux ((List.range operators.length).map (.op n)) (.sel n) (.out n) ::
          operators.zipIdx.map fun o => .mixedLogic (.op n o.2) o.1 (.memRd n) (operand type2 src2)⟩ := by
  obtain ⟨-, h⟩ := Option.ite_none_left_eq_some.mp h
  exact (Option.some.inj h).symm

/-- A row whose template declares its signals and drives its output. -/
def HasTemplate (row : LiMRow) : Prop :=
  row.rowType = .load ∨ row.rowType = .sdiv ∨
    (row.rowType = .add ∨ LimOperations row.rowType = some .bitwise) ∧ row.inputConnections.length ≤ 2

instance (row : LiMRow) : Decidable (HasTemplate row) := by
  unfold HasTemplate
  infer_instance

theorem not_hasTemplate_of_mux (type : row.rowType = .add ∨ LimOperations row.rowType = some .bitwise)
    (mux : 2 < row.inputConnections.length) : ¬ HasTemplate row := by
  rintro (hload | hdiv | ⟨-, hsize⟩)
  · simp [hload, LimOperations] at type
  · simp [hdiv, LimOperations] at type
  · omega

theorem not_hasTemplate_of_arith (type : LimOperations row.rowType = some .arith) (neAdd : row.rowType ≠ .add)
    (neDiv : row.rowType ≠ .sdiv) : ¬ HasTemplate row := by
  rintro (hload | hdiv | ⟨hadd | hbit, -⟩)
  · simp [hload, LimOperations] at type
  · exact neDiv hdiv
  · exact neAdd hadd
  · simp [hbit] at type

namespace Template

variable (h : Template n row text)
include h

/-- A template declares signals of its row only. -/
theorem owner_declarations : ∀ d ∈ text.declarations, d.signal.owner = n := by
  cases h with
  | mixed _ _ _ _ printed =>
    rw [printMixed_eq_some printed]
    intro d hd
    rcases List.mem_append.mp hd with hd | hd
    · simp only [List.mem_cons, List.not_mem_nil, or_false] at hd
      rcases hd with rfl | rfl | rfl <;> rfl
    · obtain ⟨i, -, rfl⟩ := List.mem_map.mp hd
      rfl
  | memory | bitwiseMux | bitwise | addMux | add | shiftRight | nothing =>
    simp [printMemory, printBitwiseMux2to1, printBitwise, printAddMux2to1, printAdd, printShiftRight, declare,
      RowSignal.owner]

/-- A template drives signals of its row only. -/
theorem owner_drives : ∀ c ∈ text.statements, ∀ signal ∈ c.drives, signal.owner = n := by
  cases h with
  | mixed _ _ _ _ printed =>
    rw [printMixed_eq_some printed]
    intro c hc
    rcases List.mem_cons.mp hc with rfl | hc
    · simp [Concurrent.drives, RowSignal.owner]
    · obtain ⟨o, -, rfl⟩ := List.mem_map.mp hc
      simp [Concurrent.drives, RowSignal.owner]
  | bitwise =>
    intro c hc
    simp only [printBitwise] at hc
    split at hc
    · cases hc
    · rw [List.mem_singleton] at hc
      rw [hc]
      simp [Concurrent.drives, RowSignal.owner]
  | memory | bitwiseMux | addMux | add | shiftRight | nothing =>
    simp [printMemory, printBitwiseMux2to1, printAddMux2to1, printAdd, printShiftRight, Concurrent.drives,
      RowSignal.owner]

/-- The memory signal is declared once. -/
theorem count_memRd (hrow : HasTemplate row) : text.declarations.countP (· = declare (.memRd n)) = 1 := by
  cases h with
  | mixed _ _ _ _ printed =>
    rw [printMixed_eq_some printed]
    simp [List.countP_map, declare, Function.comp_def]
  | bitwiseMux type mux => exact absurd hrow (not_hasTemplate_of_mux (.inr type) mux)
  | addMux type mux => exact absurd hrow (not_hasTemplate_of_mux (.inl type) mux)
  | nothing type neAdd neDiv => exact absurd hrow (not_hasTemplate_of_arith type neAdd neDiv)
  | memory | bitwise | add | shiftRight =>
    simp [printMemory, printBitwise, printAdd, printShiftRight, declare]

/-- The output of a row with logic is declared once. -/
theorem count_out (hrow : HasTemplate row) (hlogic : row.rowType ≠ .load) :
    text.declarations.countP (· = declare (.out n)) = 1 := by
  cases h with
  | memory type => exact absurd type hlogic
  | mixed _ _ _ _ printed =>
    rw [printMixed_eq_some printed]
    simp [List.countP_map, declare, Function.comp_def]
  | bitwiseMux type mux => exact absurd hrow (not_hasTemplate_of_mux (.inr type) mux)
  | addMux type mux => exact absurd hrow (not_hasTemplate_of_mux (.inl type) mux)
  | nothing type neAdd neDiv => exact absurd hrow (not_hasTemplate_of_arith type neAdd neDiv)
  | bitwise | add | shiftRight => simp [printBitwise, printAdd, printShiftRight, declare]

/-- The select of a switch is declared once. -/
theorem count_sel (hrow : HasTemplate row) (hswitch : row.rowType = .switch) :
    text.declarations.countP (· = declare (.sel n)) = 1 := by
  cases h with
  | mixed _ _ _ _ printed =>
    rw [printMixed_eq_some printed]
    simp [List.countP_map, declare, Function.comp_def]
  | bitwiseMux type mux => exact absurd hrow (not_hasTemplate_of_mux (.inr type) mux)
  | bitwise _ _ ne => exact absurd hswitch ne
  | memory type | addMux type | add type | shiftRight type =>
    rw [hswitch] at type
    cases type
  | nothing type =>
    rw [hswitch] at type
    cases type

/-- The output of a row with logic has one driver. -/
theorem count_drives (hrow : HasTemplate row) (hlogic : row.rowType ≠ .load)
    (hcells : ∀ c ∈ row.inputConnectionsType.tail, c = .OC) :
    text.statements.countP (.out n ∈ ·.drives) = 1 := by
  cases h with
  | memory type => exact absurd type hlogic
  | mixed _ _ _ _ printed =>
    rw [printMixed_eq_some printed]
    simp [List.countP_map, Concurrent.drives, Function.comp_def]
  | bitwiseMux type mux => exact absurd hrow (not_hasTemplate_of_mux (.inr type) mux)
  | addMux type mux => exact absurd hrow (not_hasTemplate_of_mux (.inl type) mux)
  | nothing type neAdd neDiv => exact absurd hrow (not_hasTemplate_of_arith type neAdd neDiv)
  | bitwise _ _ _ _ con =>
    rw [← List.getElem?_tail] at con
    rw [hcells _ (List.mem_of_getElem? con)]
    simp [printBitwise, Concurrent.drives]
  | add | shiftRight => simp [printAdd, printShiftRight, Concurrent.drives]

/-- What the logic of a row reads. -/
theorem reads_cells (hrow : HasTemplate row) (hcells : ∀ c ∈ row.inputConnectionsType.tail, c = .OC) :
    ∀ c ∈ text.statements, ∀ signal ∈ c.reads, signal.isShared →
      signal = .memRd n ∨ (signal = .sel n ∧ row.rowType = .switch) ∨
        ∃ m ∈ row.logicInputs, signal = .memRd m := by
  have hoperand : ∀ src type, row.inputConnections[1]? = some src → row.inputConnectionsType[1]? = some type →
      ∃ m ∈ row.logicInputs, operand type src = .memRd m := by
    intro src type hsrc htype
    rw [← List.getElem?_tail] at hsrc htype
    rw [hcells type (List.mem_of_getElem? htype)]
    exact ⟨src, List.mem_of_getElem? hsrc, rfl⟩
  cases h with
  | memory type => simp [printMemory]
  | mixed type _ src con printed =>
    obtain ⟨m, hm, hop⟩ := hoperand _ _ src con
    rw [printMixed_eq_some printed, hop]
    intro c hc signal hs hshared
    rcases List.mem_cons.mp hc with rfl | hc
    · rcases List.mem_append.mp hs with hs | hs
      · obtain ⟨i, -, rfl⟩ := List.mem_map.mp hs
        cases hshared
      · exact .inr (.inl ⟨List.mem_singleton.mp hs, type⟩)
    · obtain ⟨o, -, rfl⟩ := List.mem_map.mp hc
      rcases List.mem_cons.mp hs with hs | hs
      · exact .inl hs
      · exact .inr (.inr ⟨m, hm, List.mem_singleton.mp hs⟩)
  | bitwiseMux type mux => exact absurd hrow (not_hasTemplate_of_mux (.inr type) mux)
  | addMux type mux => exact absurd hrow (not_hasTemplate_of_mux (.inl type) mux)
  | nothing type neAdd neDiv => exact absurd hrow (not_hasTemplate_of_arith type neAdd neDiv)
  | bitwise _ _ _ src con =>
    obtain ⟨m, hm, hop⟩ := hoperand _ _ src con
    intro c hc signal hs hshared
    simp only [printBitwise] at hc
    split at hc
    · cases hc
    · rw [List.mem_singleton.mp hc, hop] at hs
      rcases List.mem_cons.mp hs with hs | hs
      · exact .inl hs
      · exact .inr (.inr ⟨m, hm, List.mem_singleton.mp hs⟩)
  | add _ _ src con =>
    obtain ⟨m, hm, hop⟩ := hoperand _ _ src con
    intro c hc signal hs hshared
    rw [List.mem_singleton.mp hc, hop] at hs
    rcases List.mem_cons.mp hs with hs | hs
    · exact .inl hs
    · exact .inr (.inr ⟨m, hm, List.mem_singleton.mp hs⟩)
  | shiftRight =>
    intro c hc signal hs hshared
    rw [List.mem_singleton.mp hc] at hs
    exact .inl (List.mem_singleton.mp hs)

/-- What the logic of a row drives. -/
theorem drives_out (hrow : HasTemplate row) :
    ∀ c ∈ text.statements, ∀ signal ∈ c.drives, signal.isShared → signal = .out n ∧ row.rowType ≠ .load := by
  cases h with
  | memory => simp [printMemory]
  | mixed type _ _ _ printed =>
    rw [printMixed_eq_some printed]
    intro c hc signal hs hshared
    rcases List.mem_cons.mp hc with rfl | hc
    · exact ⟨List.mem_singleton.mp hs, by rw [type]; decide⟩
    · obtain ⟨o, -, rfl⟩ := List.mem_map.mp hc
      rw [List.mem_singleton.mp hs] at hshared
      cases hshared
  | bitwiseMux type mux => exact absurd hrow (not_hasTemplate_of_mux (.inr type) mux)
  | addMux type mux => exact absurd hrow (not_hasTemplate_of_mux (.inl type) mux)
  | nothing type neAdd neDiv => exact absurd hrow (not_hasTemplate_of_arith type neAdd neDiv)
  | bitwise type =>
    intro c hc signal hs _
    simp only [printBitwise] at hc
    split at hc
    · cases hc
    · rw [List.mem_singleton.mp hc] at hs
      refine ⟨List.mem_singleton.mp hs, fun hload => ?_⟩
      simp [hload, LimOperations] at type
  | add type =>
    intro c hc signal hs hshared
    rw [List.mem_singleton.mp hc] at hs
    rcases List.mem_cons.mp hs with rfl | hs
    · cases hshared
    · exact ⟨List.mem_singleton.mp hs, by rw [type]; decide⟩
  | shiftRight type =>
    intro c hc signal hs _
    rw [List.mem_singleton.mp hc] at hs
    exact ⟨List.mem_singleton.mp hs, by rw [type]; decide⟩

/-- A row of another kind has no well-formed declaration of its memory signal, or no driver of its
output. -/
theorem not_hasTemplate (hrow : ¬ HasTemplate row) :
    text.declarations.countP (· = declare (.memRd n)) = 0 ∨
      row.rowType ≠ .load ∧ text.statements.countP (.out n ∈ ·.drives) = 0 := by
  cases h with
  | memory type => exact absurd (.inl type) hrow
  | mixed type size => exact absurd (.inr (.inr ⟨.inr (by rw [type]; rfl), size⟩)) hrow
  | bitwise type size => exact absurd (.inr (.inr ⟨.inr type, size⟩)) hrow
  | add type size => exact absurd (.inr (.inr ⟨.inl type, size⟩)) hrow
  | shiftRight type => exact absurd (.inr (.inl type)) hrow
  | bitwiseMux type =>
    refine .inr ⟨fun hload => ?_, by simp [printBitwiseMux2to1, Concurrent.drives]⟩
    simp [hload, LimOperations] at type
  | addMux => exact .inl (by simp [printAddMux2to1, declare, signalKeyword])
  | nothing => exact .inl rfl

/-- A shift has no template. -/
theorem declarations_of_isShift (hshift : row.rowType.isShift = true) : text.declarations = [] := by
  cases h with
  | nothing => rfl
  | bitwiseMux type | bitwise type =>
    cases hop : row.rowType <;> rw [hop] at type hshift <;> simp [LimOperations,
      Operation.isShift] at type hshift
  | memory type | mixed type | addMux type | add type | shiftRight type =>
    rw [type] at hshift
    cases hshift

theorem logic_of_declared (hd : declare (.out n) ∈ text.declarations) : row.rowType ≠ .load := by
  intro hload
  cases h with
  | memory => simp [printMemory, declare] at hd
  | bitwiseMux type | bitwise type | nothing type => simp [hload, LimOperations] at type
  | mixed type | addMux type | add type | shiftRight type => simp [hload] at type

theorem switch_of_declared (hrow : HasTemplate row) (hd : declare (.sel n) ∈ text.declarations) :
    row.rowType = .switch := by
  cases h with
  | mixed type => exact type
  | bitwiseMux type mux => exact absurd hrow (not_hasTemplate_of_mux (.inr type) mux)
  | addMux type mux => exact absurd hrow (not_hasTemplate_of_mux (.inl type) mux)
  | nothing => cases hd
  | memory | bitwise | add | shiftRight =>
    simp [printMemory, printBitwise, printAdd, printShiftRight, declare] at hd

end Template

/-! ### All the rows -/

variable {A : LiMArray} {par : ℤ} {F : FiniteStateMachine} {V : Architecture}

theorem printRows_fst {entries : List (Name × LiMRow)} {texts : List (Name × RowText)}
    (h : printRows entries = some texts) : texts.map (·.1) = entries.map (·.1) := by
  induction entries generalizing texts with
  | nil =>
    cases h
    rfl
  | cons entry entries ih =>
    obtain ⟨text, -, h⟩ := Option.bind_eq_some_iff.mp h
    obtain ⟨rest, hrest, h⟩ := Option.bind_eq_some_iff.mp h
    cases h
    rw [List.map_cons, List.map_cons, ih hrest]

/-- Every text is the one of a row. -/
theorem exists_row_of_mem_texts {entries : List (Name × LiMRow)} {texts : List (Name × RowText)}
    (h : printRows entries = some texts) (hmem : (n, text) ∈ texts) :
    ∃ row, (n, row) ∈ entries ∧ printRow n row = some text := by
  induction entries generalizing texts with
  | nil =>
    cases h
    cases hmem
  | cons entry entries ih =>
    obtain ⟨text₀, htext, h⟩ := Option.bind_eq_some_iff.mp h
    obtain ⟨rest, hrest, h⟩ := Option.bind_eq_some_iff.mp h
    cases h
    rcases List.mem_cons.mp hmem with heq | hmem
    · cases heq
      exact ⟨entry.2, List.mem_cons_self, htext⟩
    · obtain ⟨row, hrow, hprint⟩ := ih hrest hmem
      exact ⟨row, List.mem_cons_of_mem _ hrow, hprint⟩

/-- What only row `n` can contribute is counted in its text. -/
theorem countP_flatMap_of_mem {α : Type} {p : α → Bool} {f : Name × RowText → List α}
    {texts : List (Name × RowText)} (hnodup : (texts.map (·.1)).Nodup) (hmem : (n, text) ∈ texts)
    (hother : ∀ entry ∈ texts, entry.1 ≠ n → (f entry).countP p = 0) :
    (texts.flatMap f).countP p = (f (n, text)).countP p := by
  induction texts with
  | nil => cases hmem
  | cons entry texts ih =>
    rw [List.map_cons, List.nodup_cons] at hnodup
    rw [List.flatMap_cons, List.countP_append]
    rcases List.mem_cons.mp hmem with heq | hmem
    · cases heq
      have hzero : (texts.flatMap f).countP p = 0 := by
        rw [List.countP_eq_zero]
        intro a ha
        obtain ⟨entry, hentry, ha⟩ := List.mem_flatMap.mp ha
        have hne : entry.1 ≠ n := fun heq => hnodup.1 (List.mem_map.mpr ⟨entry, hentry, heq⟩)
        exact List.countP_eq_zero.mp (hother entry (List.mem_cons_of_mem _ hentry) hne) a ha
      rw [hzero, Nat.add_zero]
    · have hne : entry.1 ≠ n := fun heq => hnodup.1 (List.mem_map.mpr ⟨(n, text), hmem, heq.symm⟩)
      rw [hother entry List.mem_cons_self hne, Nat.zero_add]
      exact ih hnodup.2 hmem fun entry hentry => hother entry (List.mem_cons_of_mem _ hentry)

theorem printArchitecture_eq_some (hV : printArchitecture A par F = some V) :
    ∃ texts, printProcesses A par F = some V.processes ∧ printRows A.limArray.toList = some texts ∧
      V.declarations = texts.flatMap (·.2.declarations) ∧ V.statements = texts.flatMap (·.2.statements) := by
  obtain ⟨P, hP, hV⟩ := Option.bind_eq_some_iff.mp hV
  obtain ⟨texts, htexts, hV⟩ := Option.bind_eq_some_iff.mp hV
  cases hV
  exact ⟨texts, hP, htexts, rfl, rfl⟩

theorem template_of_mem_texts {texts : List (Name × RowText)} (h : printRows A.limArray.toList = some texts)
    (hmem : (n, text) ∈ texts) : ∃ row, A.findRow n = some row ∧ Template n row text := by
  obtain ⟨row, hrow, hprint⟩ := exists_row_of_mem_texts h hmem
  exact ⟨row, ExtTreeMap.mem_toList_iff_getElem?_eq_some.mp hrow, template_of_printRow hprint⟩

/-- Every concurrent statement is of the template of a row. -/
theorem exists_template_of_mem_statements (hV : printArchitecture A par F = some V) {c : Concurrent}
    (hc : c ∈ V.statements) :
    ∃ n row text, A.findRow n = some row ∧ Template n row text ∧ c ∈ text.statements := by
  obtain ⟨texts, -, htexts, -, hstatements⟩ := printArchitecture_eq_some hV
  rw [hstatements] at hc
  obtain ⟨⟨n, text⟩, hmem, hc⟩ := List.mem_flatMap.mp hc
  obtain ⟨row, hrow, ht⟩ := template_of_mem_texts htexts hmem
  exact ⟨n, row, text, hrow, ht, hc⟩

/-- A well-formed declaration is of the template of the row of its signal. -/
theorem exists_template_of_declared (hV : printArchitecture A par F = some V) {signal : RowSignal}
    (h : V.declarationsOf signal = 1) : ∃ row text, A.findRow signal.owner = some row ∧
      Template signal.owner row text ∧ declare signal ∈ text.declarations := by
  obtain ⟨texts, -, htexts, hdeclarations, -⟩ := printArchitecture_eq_some hV
  have hpos : 0 < V.declarations.countP (· = declare signal) := by
    rw [show V.declarations.countP (· = declare signal) = 1 from h]
    exact Nat.one_pos
  obtain ⟨d, hd, heq⟩ := List.countP_pos_iff.mp hpos
  obtain rfl : d = declare signal := of_decide_eq_true heq
  rw [hdeclarations] at hd
  obtain ⟨⟨n, text⟩, hmem, hd⟩ := List.mem_flatMap.mp hd
  obtain ⟨row, hrow, ht⟩ := template_of_mem_texts htexts hmem
  obtain rfl : signal.owner = n := ht.owner_declarations _ hd
  exact ⟨row, text, hrow, ht, hd⟩

/-- **The text of a row** in the architecture: its template, which alone declares and drives the
signals of the row. -/
theorem exists_template (hV : printArchitecture A par F = some V) (hrow : A.findRow n = some row) :
    ∃ text, Template n row text ∧ ∀ signal : RowSignal, signal.owner = n →
      V.declarationsOf signal = text.declarations.countP (· = declare signal) ∧
      V.driversOf signal = text.statements.countP (signal ∈ ·.drives) := by
  obtain ⟨texts, -, htexts, hdeclarations, hstatements⟩ := printArchitecture_eq_some hV
  have hfst := printRows_fst htexts
  rw [ExtTreeMap.map_fst_toList_eq_keys] at hfst
  have hnodup : (texts.map (·.1)).Nodup := hfst ▸ ExtTreeMap.nodup_keys
  have hn : n ∈ texts.map (·.1) := by
    rw [hfst, ExtTreeMap.mem_keys, ExtTreeMap.mem_iff_isSome_getElem?]
    exact Option.isSome_of_eq_some hrow
  obtain ⟨⟨n, text⟩, hmem, rfl⟩ := List.mem_map.mp hn
  obtain ⟨row', hrow', ht⟩ := template_of_mem_texts htexts hmem
  rw [hrow, Option.some.injEq] at hrow'
  subst hrow'
  refine ⟨text, ht, fun signal howner => ⟨?_, ?_⟩⟩
  · rw [Architecture.declarationsOf, hdeclarations]
    refine countP_flatMap_of_mem hnodup hmem fun entry hentry hne => ?_
    obtain ⟨row', -, ht'⟩ := template_of_mem_texts htexts (show (entry.1, entry.2) ∈ texts from hentry)
    rw [List.countP_eq_zero]
    intro d hd heq
    have hd' := ht'.owner_declarations d hd
    rw [of_decide_eq_true heq] at hd'
    exact hne (hd'.symm.trans howner)
  · rw [Architecture.driversOf, hstatements]
    refine countP_flatMap_of_mem hnodup hmem fun entry hentry hne => ?_
    obtain ⟨row', -, ht'⟩ := template_of_mem_texts htexts (show (entry.1, entry.2) ∈ texts from hentry)
    rw [List.countP_eq_zero]
    intro c hc hdrives
    exact hne ((ht'.owner_drives c hc signal (of_decide_eq_true hdrives)).symm.trans howner)

/-! ### The processes -/

variable {P : Processes}

theorem mem_statements {s : Statement} : s ∈ P.statements ↔ ∃ lines ∈ P.all, .statement s ∈ lines := by
  simp only [Processes.statements, List.mem_flatMap, mem_filterMap_statement?]

/-- The statements of the processes that use signals of rows. -/
theorem statement_cases (h : printProcesses A par F = some P) {s : Statement} (hmem : s ∈ P.statements) :
    (∃ entry ∈ F.FSM.toList, entry.1 ≠ 0 ∧ ∃ n ∈ entry.2, ∃ seen₁ value seen₂,
      writeValue A par seen₁ n = some (value, seen₂) ∧ s = .write (memIndex n) value) ∨
    (∃ n, (A.findRow n).isSome ∧ s = .memRdReset n) ∨
    (∃ entry ∈ F.FSM.toList, ∃ n ∈ entry.2, s = .read n (memIndex n)) ∨
    (∃ signal ∈ F.selectionSignalsList, ∃ sel, s = .select signal.destRow sel) ∨
    s.reads = [] ∧ s.assigns = [] := by
  obtain ⟨wrt, hwrt, rfl⟩ := printProcesses_eq_some h
  obtain ⟨lines, hlines, hs⟩ := mem_statements.mp hmem
  simp only [Processes.all, List.mem_cons, List.not_mem_nil, or_false] at hlines
  rcases hlines with rfl | rfl | rfl | rfl | rfl
  · simp only [rdProc, List.mem_cons, reduceCtorEq, statement.injEq, false_or, or_false,
      List.not_mem_nil] at hs
    rw [hs]
    exact .inr (.inr (.inr (.inr ⟨rfl, rfl⟩)))
  · obtain ⟨body, hbody, hwrt⟩ := Option.bind_eq_some_iff.mp hwrt
    cases hwrt
    simp only [List.mem_append, List.mem_cons, reduceCtorEq, statement.injEq, false_or, or_false,
      List.not_mem_nil] at hs
    rcases hs with (rfl | rfl) | hs
    · exact .inr (.inr (.inr (.inr ⟨rfl, rfl⟩)))
    · exact .inr (.inr (.inr (.inr ⟨rfl, rfl⟩)))
    · exact .inl (exists_of_mem_writeTimes hbody hs)
  · simp only [goRdProc, List.cons_append, List.mem_cons, List.mem_append, reduceCtorEq, false_or,
      List.mem_map, List.mem_flatMap, List.not_mem_nil, or_false] at hs
    rcases hs with ⟨⟨n, row⟩, hrow, hs⟩ | ⟨⟨t, rows⟩, hentry, hs⟩
    · cases hs
      rw [ExtTreeMap.mem_toList_iff_getElem?_eq_some] at hrow
      exact .inr (.inl ⟨n, Option.isSome_of_eq_some hrow, rfl⟩)
    · rw [readTime, List.mem_append] at hs
      rcases hs with hs | hs
      · split at hs <;> simp at hs
      · obtain ⟨n, hn, hs⟩ := List.mem_map.mp hs
        cases hs
        exact .inr (.inr (.inl ⟨(t, rows), hentry, n, hn, rfl⟩))
  · simp only [tProc, List.cons_append, List.nil_append, List.append_assoc, List.mem_cons, List.mem_append,
      reduceCtorEq, statement.injEq, false_or, List.mem_map, List.not_mem_nil, or_false] at hs
    refine .inr (.inr (.inr (.inr ?_)))
    rcases hs with ⟨i, -, rfl⟩ | rfl | ⟨i, -, rfl⟩
    · exact ⟨rfl, rfl⟩
    · exact ⟨rfl, rfl⟩
    · rw [shiftTimer]
      split_ifs <;> exact ⟨rfl, rfl⟩
  · simp only [muxProc, List.cons_append, List.mem_cons, List.mem_append, reduceCtorEq, false_or,
      List.mem_map, List.mem_flatMap, List.not_mem_nil, or_false, selectTime] at hs
    rcases hs with ⟨signal, hsignal, hs⟩ | ⟨i, -, hs⟩
    · cases hs
      exact .inr (.inr (.inr (.inl ⟨signal, hsignal, .X, rfl⟩)))
    · obtain ⟨signal, hsignal, hs⟩ := List.mem_filterMap.mp hs
      obtain ⟨sel, -, hs⟩ := Option.map_eq_some_iff.mp hs
      cases hs
      exact .inr (.inr (.inr (.inl ⟨signal, hsignal, sel, rfl⟩)))

/-- The memory signal of every row is reset. -/
theorem memRdReset_mem (h : printProcesses A par F = some P) (hrow : (A.findRow n).isSome) :
    .memRdReset n ∈ P.statements := by
  obtain ⟨wrt, hwrt, rfl⟩ := printProcesses_eq_some h
  obtain ⟨row, hrow⟩ := Option.isSome_iff_exists.mp hrow
  refine mem_statements.mpr ⟨goRdProc A F, by simp [Processes.all], ?_⟩
  have hentry : (n, row) ∈ A.limArray.toList := ExtTreeMap.mem_toList_iff_getElem?_eq_some.mpr hrow
  simp only [goRdProc, List.cons_append, List.mem_cons, List.mem_append, List.mem_map]
  exact .inr (.inl (.inl ⟨(n, row), hentry, rfl⟩))

/-- The select of every selection signal is reset. -/
theorem select_mem (h : printProcesses A par F = some P) {signal : SelectionSignal}
    (hsignal : signal ∈ F.selectionSignalsList) : .select signal.destRow .X ∈ P.statements := by
  obtain ⟨wrt, hwrt, rfl⟩ := printProcesses_eq_some h
  refine mem_statements.mpr ⟨muxProc F, by simp [Processes.all], ?_⟩
  simp only [muxProc, List.cons_append, List.mem_cons, List.mem_append, List.mem_map]
  exact .inr (.inl (.inl ⟨signal, hsignal, rfl⟩))

/-- A row of some time but 0 is written with the output of its memory input, when it is a result or
a division. -/
theorem write_mem (h : printProcesses A par F = some P) {entry : ℤ × List Name}
    (hentry : entry ∈ F.FSM.toList) (ht : entry.1 ≠ 0) {d m : Name} (hin : d ∈ entry.2) {drow : LiMRow}
    (hd : A.findRow d = some drow) (hm : drow.inputConnections.head? = some m)
    (htype : drow.rowType = .sdiv ∨ drow.inputConnectionsType.head? = some .OLiM) :
    .write (memIndex d) (.out m) ∈ P.statements := by
  obtain ⟨wrt, hwrt, rfl⟩ := printProcesses_eq_some h
  refine mem_statements.mpr ⟨wrt, by simp [Processes.all], ?_⟩
  obtain ⟨body, hbody, hwrt⟩ := Option.bind_eq_some_iff.mp hwrt
  cases hwrt
  obtain ⟨seen₁, value, seen₂, hseen, hvalue, hwrite⟩ :=
    exists_write_of_writeTimes hbody (List.not_mem_nil (a := d)) hentry ht hin
  have heq : value = .out m := by
    obtain ⟨row, hrow, ⟨-, hin, -⟩ | ⟨-, -, -, m', hm', rfl⟩ | ⟨hdiv, -, c, m', hc, hm', rfl⟩⟩ :=
      writeValue_cases hvalue
    · exact absurd hin hseen
    · rw [hd, Option.some.injEq] at hrow
      rw [← hrow, hm, Option.some.injEq] at hm'
      rw [hm']
    · rw [hd, Option.some.injEq] at hrow
      subst hrow
      rw [hm, Option.some.injEq] at hm'
      rw [htype.resolve_left hdiv, Option.some.injEq] at hc
      rw [if_pos (.inl hc.symm), hm']
  rw [← heq]
  simp [hwrite]

end PrintVhdlFile

/-- **What the printer supports**: rows with a template, divisions that are not written with the
output of a memory row, and selects of switches only. -/
structure Supported (A : LiMArray) (F : FiniteStateMachine) : Prop where
  rows : ∀ n row, A.findRow n = some row → HasTemplate row
  divisions : ∀ n row t, A.findRow n = some row → row.rowType = .sdiv → F.getTime n = some t → t ≠ 0 →
    ∃ m r, row.inputConnections.head? = some m ∧ A.findRow m = some r ∧ r.rowType ≠ .load
  selects : ∀ signal ∈ F.selectionSignalsList, ∃ row, A.findRow signal.destRow = some row ∧
    row.rowType = .switch

/-- The signals that the template of a row declares. -/
inductive Provided (A : LiMArray) : RowSignal → Prop where
  | memRd {n : Name} (row : (A.findRow n).isSome) : Provided A (.memRd n)
  | out {n : Name} {row : LiMRow} (found : A.findRow n = some row) (logic : row.rowType ≠ .load) :
      Provided A (.out n)
  | sel {n : Name} {row : LiMRow} (found : A.findRow n = some row) (type : row.rowType = .switch) :
      Provided A (.sel n)

section closed

variable {A : LiMArray} {par : ℤ} {F : FiniteStateMachine} {V : Architecture}

theorem Supported.not_hasShift (h : Supported A F) : ¬ A.HasShift := by
  rintro ⟨n, row, hrow, hshift⟩
  rcases h.rows n row hrow with hload | hdiv | ⟨hadd | hbit, -⟩
  · rw [hload] at hshift
    cases hshift
  · rw [hdiv] at hshift
    cases hshift
  · rw [hadd] at hshift
    cases hshift
  · cases hop : row.rowType <;> rw [hop] at hbit hshift <;> simp [LimOperations,
      Operation.isShift] at hbit hshift

/-- What is provided is declared once. -/
theorem Provided.declared (hV : printArchitecture A par F.transform = some V) (hs : Supported A F)
    {signal : RowSignal} (h : Provided A signal) : V.declarationsOf signal = 1 := by
  cases h with
  | memRd hrow =>
    obtain ⟨row, hrow⟩ := Option.isSome_iff_exists.mp hrow
    obtain ⟨text, ht, hcount⟩ := exists_template hV hrow
    rw [(hcount _ rfl).1, ht.count_memRd (hs.rows _ row hrow)]
  | out hrow hlogic =>
    obtain ⟨text, ht, hcount⟩ := exists_template hV hrow
    rw [(hcount _ rfl).1, ht.count_out (hs.rows _ _ hrow) hlogic]
  | sel hrow htype =>
    obtain ⟨text, ht, hcount⟩ := exists_template hV hrow
    rw [(hcount _ rfl).1, ht.count_sel (hs.rows _ _ hrow) htype]

/-- The row of a time of the algorithm. -/
theorem Regular.isSome_of_mem (hr : Regular A F) {entry : ℤ × List Name}
    (hentry : entry ∈ F.transform.FSM.toList) {n : Name} (hn : n ∈ entry.2) :
    F.getTime n = some entry.1 ∧ (A.findRow n).isSome := by
  rw [ExtTreeMap.mem_toList_iff_getElem?_eq_some] at hentry
  have ht := (FiniteStateMachine.mem_transform hr.pending).mp ⟨entry.2, hentry, hn⟩
  exact ⟨ht, (hr.timed n).mpr (Option.isSome_of_eq_some ht)⟩

/-- The value that a row is written with is provided. -/
theorem provided_of_writeValue (hw : Wired A F)
    (hshaped : ∀ n row, A.findRow n = some row → Shaped A row) (hs : Supported A F) {n : Name} {t : ℤ}
    (ht : F.getTime n = some t) (hne : t ≠ 0) {seen seen' : List Name} {value : RowValue}
    (h : writeValue A par seen n = some (value, seen')) : Provided A value.signal := by
  obtain ⟨row, hrow, ⟨-, -, -, rfl⟩ | ⟨hdiv, -, -, m, hm, rfl⟩ | ⟨-, -, c, m, hc, hm, rfl⟩⟩ :=
    writeValue_cases h
  · exact .memRd (Option.isSome_of_eq_some hrow)
  · obtain ⟨m', r, hm', hfound, hlogic⟩ := hs.divisions n row t hrow hdiv ht hne
    rw [hm, Option.some.injEq] at hm'
    exact .out (hm' ▸ hfound) hlogic
  · have hshape := hshaped n row hrow
    cases c with
    | none =>
      have hzero := hw.loaded n row hrow hc
      rw [ht, Option.some.injEq] at hzero
      exact absurd hzero hne
    | OLiM =>
      obtain ⟨m', r, hm', hfound, hlogic⟩ := hshape.output hc
      rw [hm, Option.some.injEq] at hm'
      rw [if_pos (.inl rfl)]
      exact .out (hm' ▸ hfound) hlogic
    | OC =>
      obtain ⟨m', hm', ⟨-, hnone⟩ | hfound⟩ := hshape.head
      · rw [hc] at hnone
        cases hnone
      · rw [hm, Option.some.injEq] at hm'
        rw [if_neg (by decide)]
        exact .memRd (hm' ▸ hfound)

/-- Every signal used is provided. -/
theorem provided_of_used (hV : printArchitecture A par F.transform = some V) (hr : Regular A F)
    (hw : Wired A F) (hshaped : ∀ n row, A.findRow n = some row → Shaped A row) (hs : Supported A F)
    {signal : RowSignal} (hused : signal ∈ V.used) (hshared : signal.isShared) : Provided A signal := by
  obtain ⟨texts, hP, -⟩ := printArchitecture_eq_some hV
  have hstatement : ∀ s ∈ V.processes.statements, ∀ signal ∈ s.reads ++ s.assigns, Provided A signal := by
    intro s hmem signal hsig
    rcases statement_cases hP hmem with ⟨entry, hentry, hne, n, hn, s₁, value, s₂, hvalue, rfl⟩ |
      ⟨n, hn, rfl⟩ | ⟨entry, hentry, n, hn, rfl⟩ | ⟨selection, hselection, sel, rfl⟩ | ⟨hreads, hassigns⟩
    · obtain rfl := List.mem_singleton.mp hsig
      exact provided_of_writeValue hw hshaped hs (hr.isSome_of_mem hentry hn).1 hne hvalue
    · obtain rfl := List.mem_singleton.mp hsig
      exact .memRd hn
    · obtain rfl := List.mem_singleton.mp hsig
      exact .memRd (hr.isSome_of_mem hentry hn).2
    · obtain rfl := List.mem_singleton.mp hsig
      obtain ⟨row, hrow, htype⟩ := hs.selects selection hselection
      exact .sel hrow htype
    · rw [hreads, hassigns] at hsig
      cases hsig
  have hconcurrent :
      ∀ c ∈ V.statements, ∀ signal ∈ c.reads ++ c.drives, signal.isShared → Provided A signal := by
    intro c hc signal hsig hshared
    obtain ⟨n, row, text, hrow, ht, hc⟩ := exists_template_of_mem_statements hV hc
    have htemplate := hs.rows n row hrow
    rcases List.mem_append.mp hsig with hsig | hsig
    · rcases ht.reads_cells htemplate (hw.cells n row hrow) c hc signal hsig hshared with
        rfl | ⟨rfl, htype⟩ | ⟨m, hm, rfl⟩
      · exact .memRd (Option.isSome_of_eq_some hrow)
      · exact .sel hrow htype
      · exact .memRd ((hshaped n row hrow).rest m hm)
    · obtain ⟨rfl, hlogic⟩ := ht.drives_out htemplate c hc signal hsig hshared
      exact .out hrow hlogic
  simp only [Architecture.used, Architecture.read, List.mem_append, List.mem_flatMap] at hused
  rcases hused with ((⟨s, hmem, hsig⟩ | ⟨c, hc, hsig⟩) | ⟨s, hmem, hsig⟩) | ⟨c, hc, hsig⟩
  · exact hstatement s hmem signal (List.mem_append_left _ hsig)
  · exact hconcurrent c hc signal (List.mem_append_left _ hsig) hshared
  · exact hstatement s hmem signal (List.mem_append_right _ hsig)
  · exact hconcurrent c hc signal (List.mem_append_right _ hsig) hshared

/-- The rows of a closed architecture have templates. -/
theorem hasTemplate_of_closed (hV : printArchitecture A par F.transform = some V) (hr : Regular A F)
    (hw : Wired A F) (hclosed : V.Closed) {n : Name} {row : LiMRow} (hrow : A.findRow n = some row) :
    HasTemplate row := by
  by_contra hnot
  obtain ⟨texts, hP, -⟩ := printArchitecture_eq_some hV
  obtain ⟨text, ht, hcount⟩ := exists_template hV hrow
  rcases ht.not_hasTemplate hnot with hzero | ⟨hlogic, hzero⟩
  · have hused : .memRd n ∈ V.used := by
      simp only [Architecture.used, List.mem_append, List.mem_flatMap]
      exact .inl (.inr ⟨_, memRdReset_mem hP (Option.isSome_of_eq_some hrow), List.mem_singleton_self _⟩)
    have hone := hclosed.declared _ hused rfl
    rw [(hcount (.memRd n) rfl).1, hzero] at hone
    cases hone
  · obtain ⟨d, drow, t, hd, hhead, htype, htime, hpos⟩ := hw.feeds n row hrow hlogic
    obtain ⟨rows, hrows, hin⟩ := (FiniteStateMachine.mem_transform hr.pending).mpr htime
    have hentry : (t, rows) ∈ F.transform.FSM.toList := ExtTreeMap.mem_toList_iff_getElem?_eq_some.mpr hrows
    have hwrite := write_mem hP hentry (by simp only; omega) hin hd hhead (.inr htype)
    have hread : .out n ∈ V.read := by
      simp only [Architecture.read, List.mem_append, List.mem_flatMap]
      exact .inl ⟨_, hwrite, List.mem_singleton_self _⟩
    have hone := hclosed.driven n hread
    rw [(hcount (.out n) rfl).2, hzero] at hone
    cases hone

theorem not_hasShift_of_closed (hV : printArchitecture A par F.transform = some V) (hclosed : V.Closed) :
    ¬ A.HasShift := by
  rintro ⟨n, row, hrow, hshift⟩
  obtain ⟨texts, hP, -⟩ := printArchitecture_eq_some hV
  obtain ⟨text, ht, hcount⟩ := exists_template hV hrow
  have hused : .memRd n ∈ V.used := by
    simp only [Architecture.used, List.mem_append, List.mem_flatMap]
    exact .inl (.inr ⟨_, memRdReset_mem hP (Option.isSome_of_eq_some hrow), List.mem_singleton_self _⟩)
  have hone := hclosed.declared _ hused rfl
  rw [(hcount (.memRd n) rfl).1, ht.declarations_of_isShift hshift] at hone
  cases hone

/-- What a closed architecture says of the rows and the selects. -/
theorem supported_of_closed (hV : printArchitecture A par F.transform = some V) (hr : Regular A F)
    (hw : Wired A F) (hshaped : ∀ n row, A.findRow n = some row → Shaped A row) (hclosed : V.Closed) :
    Supported A F := by
  obtain ⟨texts, hP, -⟩ := printArchitecture_eq_some hV
  refine ⟨fun n row hrow => hasTemplate_of_closed hV hr hw hclosed hrow, ?_, ?_⟩
  · intro n row t hrow hdiv ht hne
    obtain ⟨m, hm, -⟩ := (hshaped n row hrow).head
    obtain ⟨rows, hrows, hin⟩ := (FiniteStateMachine.mem_transform hr.pending).mpr ht
    have hentry : (t, rows) ∈ F.transform.FSM.toList := ExtTreeMap.mem_toList_iff_getElem?_eq_some.mpr hrows
    have hwrite := write_mem hP hentry hne hin hrow hm (.inl hdiv)
    have hused : .out m ∈ V.used := by
      simp only [Architecture.used, Architecture.read, List.mem_append, List.mem_flatMap]
      exact .inl (.inl (.inl ⟨_, hwrite, List.mem_singleton_self _⟩))
    obtain ⟨r, text, hfound, htext, hd⟩ := exists_template_of_declared hV (hclosed.declared _ hused rfl)
    exact ⟨m, r, hm, hfound, htext.logic_of_declared hd⟩
  · intro selection hselection
    have hmem := select_mem hP hselection
    have hused : .sel selection.destRow ∈ V.used := by
      simp only [Architecture.used, List.mem_append, List.mem_flatMap]
      exact .inl (.inr ⟨_, hmem, List.mem_singleton_self _⟩)
    obtain ⟨row, text, hfound, htext, hd⟩ := exists_template_of_declared hV (hclosed.declared _ hused rfl)
    exact ⟨row, hfound, htext.switch_of_declared (hasTemplate_of_closed hV hr hw hclosed hfound) hd⟩

/-- An architecture of supported rows and selects is closed. -/
theorem closed_of_supported (hV : printArchitecture A par F.transform = some V) (hr : Regular A F)
    (hw : Wired A F) (hshaped : ∀ n row, A.findRow n = some row → Shaped A row) (hs : Supported A F) :
    V.Closed := by
  refine ⟨fun signal hused hshared => (provided_of_used hV hr hw hshaped hs hused hshared).declared hV hs, ?_⟩
  intro n hread
  have hused : .out n ∈ V.used := by
    rw [Architecture.used, List.append_assoc]
    exact List.mem_append_left _ hread
  cases provided_of_used hV hr hw hshaped hs hused rfl with
  | out hrow hlogic =>
    obtain ⟨text, ht, hcount⟩ := exists_template hV hrow
    rw [(hcount _ rfl).2, ht.count_drives (hs.rows n _ hrow) hlogic (hw.cells n _ hrow)]

end closed

/-- **The architecture is closed** exactly when its rows and its selects are supported. -/
theorem architecture_closed_iff {par : ℤ} {optTarget : String} {actions : List BindingAction}
    {s : BinderState} {V : Architecture} (hload : ∀ a ∈ actions, a.scheduled)
    (h : Reaches par optTarget actions s)
    (hV : printArchitecture s.binder.MemArray par s.binder.FSMLim.transform = some V) :
    V.Closed ↔ Supported s.binder.MemArray s.binder.FSMLim := by
  have hwired := wired_invariant.hasShift_or_of_reaches (fun a ha => by
    cases a with
    | load destReg ti => exact hload _ ha
    | enter | element | leave | accumulate => trivial) h
  have hshaped := shaped_invariant.hasShift_or_of_reaches (fun a _ => by cases a <;> trivial) h
  constructor
  · intro hclosed
    have hno := not_hasShift_of_closed hV hclosed
    obtain ⟨hr, hw⟩ := hwired.resolve_left hno
    exact supported_of_closed hV hr hw (hshaped.resolve_left hno).2 hclosed
  · intro hs
    obtain ⟨hr, hw⟩ := hwired.resolve_left hs.not_hasShift
    exact closed_of_supported hV hr hw (hshaped.resolve_left hs.not_hasShift).2 hs

/-- A conjunction, a sum and a copy row. -/
def plainRows : List BindingAction :=
  [.load 1 0, .load 2 0, .load 3 0,
    .enter 0, .element .and [] 4 0 4 ⟨1, 0, 0⟩, .leave,
    .enter 0, .element .add [] 5 0 8 ⟨1, 0, 0⟩, .leave,
    .enter 0, .element .xor [] 6 4 8 ⟨1, 0, 0⟩, .leave]

theorem plainRows_isSome : (run bindStep (.init 8 "") plainRows).isSome := by decide +kernel

/-- They are closed. -/
theorem architecture_closed_iff_plainRows :
    ∃ s V, Reaches 8 "" plainRows s ∧
      printArchitecture s.binder.MemArray 8 s.binder.FSMLim.transform = some V ∧ V.Closed := by
  have hprint : (printArchitecture ((run bindStep (.init 8 "") plainRows).get plainRows_isSome).binder.MemArray 8
      ((run bindStep (.init 8 "") plainRows).get plainRows_isSome).binder.FSMLim.transform).isSome := by
    decide +kernel
  have hrows : ∀ entry ∈ ((run bindStep (.init 8 "") plainRows).get
      plainRows_isSome).binder.MemArray.limArray.toList, HasTemplate entry.2 ∧ entry.2.rowType ≠ .sdiv := by
    decide +kernel
  have hselects : ((run bindStep (.init 8 "") plainRows).get
      plainRows_isSome).binder.FSMLim.selectionSignalsList = [] := by decide +kernel
  have hrow : ∀ n row, ((run bindStep (.init 8 "") plainRows).get plainRows_isSome).binder.MemArray.findRow n =
      some row → HasTemplate row ∧ row.rowType ≠ .sdiv :=
    fun n row h => hrows (n, row) (ExtTreeMap.mem_toList_iff_getElem?_eq_some.mpr h)
  obtain ⟨V, hV⟩ := Option.isSome_iff_exists.mp hprint
  refine ⟨_, V, (Option.some_get plainRows_isSome).symm, hV,
    (architecture_closed_iff (by decide) (Option.some_get plainRows_isSome).symm hV).mpr
      ⟨fun n row h => (hrow n row h).1, fun n row t h hdiv => absurd hdiv (hrow n row h).2, ?_⟩⟩
  rw [hselects]
  exact fun selection hselection => absurd hselection List.not_mem_nil

/-- The conjunction and the disjunction of two rows, and a second conjunction behind a mux. -/
def muxOfAnd : List BindingAction :=
  [.load 1 0, .load 2 0, .load 3 0,
    .enter 0, .element .and [] 4 0 4 ⟨1, 0, 0⟩, .leave,
    .enter 0, .element .or [] 5 0 8 ⟨1, 0, 0⟩, .leave,
    .enter 0, .element .and [] 6 4 8 ⟨1, 0, 0⟩, .leave]

theorem muxOfAnd_isSome : (run bindStep (.init 8 "") muxOfAnd).isSome := by decide +kernel

/-- The output of row 4, which has the mux, is read by the results of both conjunctions and driven
by nothing. -/
theorem muxOfAnd_open :
    ∃ s V, Reaches 8 "" muxOfAnd s ∧ (∀ a ∈ muxOfAnd, a.scheduled) ∧
      printArchitecture s.binder.MemArray 8 s.binder.FSMLim.transform = some V ∧
      .out 4 ∈ V.read ∧ V.driversOf (.out 4) = 0 ∧ ¬ V.Closed := by
  have hprint : (printArchitecture ((run bindStep (.init 8 "") muxOfAnd).get muxOfAnd_isSome).binder.MemArray 8
      ((run bindStep (.init 8 "") muxOfAnd).get muxOfAnd_isSome).binder.FSMLim.transform).map
        (fun V => (decide (.out 4 ∈ V.read), V.driversOf (.out 4))) = some (true, 0) := by decide +kernel
  obtain ⟨V, hV, hfacts⟩ := Option.map_eq_some_iff.mp hprint
  simp only [Prod.mk.injEq, decide_eq_true_eq] at hfacts
  refine ⟨_, V, (Option.some_get muxOfAnd_isSome).symm, by decide, hV, hfacts.1, hfacts.2, fun hclosed => ?_⟩
  have hone := hclosed.driven 4 hfacts.1
  rw [hfacts.2] at hone
  cases hone

end Octantis
