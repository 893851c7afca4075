import Mathlib.Logic.Function.Basic
import Octantis.CodeGeneration.RowSignals

/-!
# Executing the component

What the VHDL printed does when it is executed: the processes run at every edge of the
clock, and the rows with logic are combinational.

## The model

The words are of any type, with a function for the operation of each row type (`RowLogic`).
At an edge every process executes the statements that its conditionals reach (`executed`),
with the signals as they were before the edge, and the assignments take effect together; a
later one to the same signal wins. A clock cycle is a falling edge and a rising one. All
processes are sensitive to `CLK`.

`none` is an error of the simulation: a process that is not well nested is no VHDL, an
access outside `Mem` ends the simulation, and an output that no statement drives has no
value. The selects of the muxes are left out, the rows executed here have no mux; so is the
port `DATA_OUT`.
-/

namespace Octantis

open Std Lib Lib.Line PrintVhdlFile

universe u

/-- What the rows compute. -/
structure RowLogic (α : Type u) where
  /-- `(others => '0')` -/
  zero : α
  /-- The logic of a row, on its own word and that of its logic input. -/
  op : Operation → α → α → α
  /-- `'0' & x(par - 1 downto 1)` -/
  shift : α → α

/-- The operators of VHDL on words of `w` bits; the types without a template for a row without a mux
have no operator. -/
def wordLogic (w : ℕ) : RowLogic (BitVec w) where
  zero := 0
  op
    | .add, a, b => a + b
    | .and, a, b => a &&& b
    | .nand, a, b => ~~~(a &&& b)
    | .or, a, b => a ||| b
    | .nor, a, b => ~~~(a ||| b)
    | .xor, a, b => a ^^^ b
    | .xnor, a, b => ~~~(a ^^^ b)
    | .null, _, _ | .load, _, _ | .sub, _, _ | .shl, _, _ | .shr, _, _ | .lshr, _, _ | .ashr, _, _
    | .sdiv, _, _ | .mul, _, _ | .switch, _, _ => 0
  shift a := a >>> 1

/-- The inputs of the component. -/
structure Inputs (α : Type u) where
  RST : Bool
  EN : Bool
  READNOTWRITE : Bool
  GO : Bool
  ADDRESS : ℕ
  DATA_IN : α

/-- The state of the component. -/
structure Component (α : Type u) where
  /-- The memory cells. -/
  Mem : ℕ → α
  /-- The signals `ROW_n_MEM_RD`. -/
  memRd : Name → α
  /-- The signals `Ti`. -/
  T : ℤ → Bool
  DONE : Bool

variable {α : Type u}

namespace PrintVhdlFile

/-- The value of a control signal. -/
def Control.value (inputs : Inputs α) (s : Component α) : Control → Bool
  | .GO => inputs.GO
  | .T i => s.T i

/-- Whether a condition holds, at a rising edge or at a falling one. -/
def Condition.holds (inputs : Inputs α) (rising : Bool) (s : Component α) : Condition → Bool
  | .RST => inputs.RST
  | .EN => inputs.EN
  | .readEdge => inputs.READNOTWRITE && rising
  | .writeEdge => !inputs.READNOTWRITE && rising
  | .edge => rising
  | .control signal => signal.value inputs s

/-- The value that a concurrent statement gives to the output of its row. -/
def Concurrent.output (L : RowLogic α) (memRd : Name → α) : Concurrent → Option α
  | .logic _ operator (.memRd a) (.memRd b) => some (L.op operator (memRd a) (memRd b))
  | .adder (.memRd a) (.memRd b) _ _ => some (L.op .add (memRd a) (memRd b))
  | .assign _ (.memRd a) => some (memRd a)
  | _ => none

/-- `ROW_n_OUT` -/
def Architecture.rowOut (V : Architecture) (L : RowLogic α) (memRd : Name → α) (n : Name) : Option α :=
  (V.statements.find? fun c => .out n ∈ c.drives).bind (·.output L memRd)

/-- The value that a row is written with. -/
def RowValue.value (V : Architecture) (L : RowLogic α) (memRd : Name → α) : RowValue → Option α
  | .out n => V.rowOut L memRd n
  | .memRd n => some (memRd n)
  | .shifted n _ => some (L.shift (memRd n))

namespace Architecture

variable (V : Architecture) (L : RowLogic α) (entries : ℕ)

/-- Perform a statement that reads the signals of `old`. -/
def perform (inputs : Inputs α) (old s : Component α) : Statement → Option (Component α)
  | .dataOut => if inputs.ADDRESS < entries then some s else none
  | .memReset => some { s with Mem := fun _ => L.zero }
  | .dataIn =>
    if inputs.ADDRESS < entries then
      some { s with Mem := Function.update s.Mem inputs.ADDRESS inputs.DATA_IN }
    else none
  | .write word value =>
    if word < entries then
      (value.value V L old.memRd).map fun v => { s with Mem := Function.update s.Mem word v }
    else none
  | .memRdReset n => some { s with memRd := Function.update s.memRd n L.zero }
  | .read n word =>
    if word < entries then some { s with memRd := Function.update s.memRd n (old.Mem word) } else none
  | .tReset i => some { s with T := Function.update s.T i false }
  | .tShift i signal => some { s with T := Function.update s.T i (signal.value inputs old) }
  | .doneReset => some { s with DONE := false }
  | .doneShift i => some { s with DONE := old.T i }
  | .select _ _ => some s

/-- An edge of the clock. -/
def edge (inputs : Inputs α) (rising : Bool) (s : Component α) : Option (Component α) :=
  (V.processes.all.flatMap (executed (·.holds inputs rising s) [])).foldlM (V.perform L entries inputs s) s

/-- The inputs while the algorithm runs. -/
def running (L : RowLogic α) (go : Bool) : Inputs α := ⟨false, false, false, go, 0, L.zero⟩

/-- A clock cycle. -/
def cycle (go : Bool) (s : Component α) : Option (Component α) := do
  let s ← V.edge L entries (running L go) false s
  V.edge L entries (running L go) true s

/-- The component after a reset, with the words in its memory. -/
def start (L : RowLogic α) (words : ℕ → α) : Component α := ⟨words, fun _ => L.zero, fun _ => false, false⟩

/-- **The execution**: one cycle with `GO`, and so many without. -/
def simulate (words : ℕ → α) (cycles : ℕ) : Option (Component α) :=
  if ∀ lines ∈ V.processes.all, WellNested lines then do
    let s ← V.cycle L entries true (start L words)
    (List.range cycles).foldlM (fun s _ => V.cycle L entries false s) s
  else none

end Architecture

end PrintVhdlFile

/-- **The values of the binding**: a row loaded keeps its word, a copy row has the word of its
memory input, and a result row the result of the logic of the row that feeds it. -/
structure HoldsValues (A : LiMArray) (F : FiniteStateMachine) (L : RowLogic α) (words Mem : ℕ → α) : Prop where
  loaded : ∀ n row, A.findRow n = some row → F.getTime n = some 0 → Mem (memIndex n) = words (memIndex n)
  copied : ∀ n row m, A.findRow n = some row → row.inputConnectionsType.head? = some .OC →
    row.inputConnections.head? = some m → Mem (memIndex n) = Mem (memIndex m)
  computed : ∀ n row r rRow x, A.findRow n = some row → row.inputConnectionsType.head? = some .OLiM →
    row.inputConnections.head? = some r → A.findRow r = some rRow → rRow.logicInputs = [x] →
    Mem (memIndex n) = L.op rRow.rowType (Mem (memIndex r)) (Mem (memIndex x))

/-- The component printed executes, and from the end of the algorithm on its memory holds the values
of the binding. -/
def ComputesBinding (A : LiMArray) (par : ℤ) (F : FiniteStateMachine) (L : RowLogic α) : Prop :=
  ∃ V, printArchitecture A par F.transform = some V ∧
    ∀ (words : ℕ → α) (cycles : ℕ), 2 * F.transform.getFSMSize - 2 ≤ cycles →
      ∃ s, V.simulate L (entries A) words cycles = some s ∧ HoldsValues A F L words s.Mem

end Octantis
