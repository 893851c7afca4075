import Octantis.CodeGeneration.PrintVhdlFile
import Octantis.Lib.IfChain

/-!
# The processes of the VHDL component

What `printProcesses` prints: the memory (`rd_proc`, `wrt_proc`), the reads of the algorithm
(`go_rd_proc`), the chain of states from `GO` to `DONE` (`t_proc`) and the selects of the muxes
(`mux_proc`).

## The model

A process is the list of its lines. The pulse passes `T1`, `T2`, …: the rows of time `t` are
written in the state `T(2t-1)` and read in `T(2t)`, those of time 0 are read on `GO`. The lines are
printed one by one, as the source does it: nothing in the printer makes an `end if` match an
`if`.

`none` is an `llvm_unreachable` or an operation that C++ leaves undefined. The sensitivity
lists and the headers of the processes are left out, they are the same in every file.
-/

namespace Octantis

open Std Lib

namespace PrintVhdlFile

/-- A signal of the control. -/
inductive Control where
  /-- `GO` -/
  | GO
  /-- `T1`, `T2`, … -/
  | T (i : ℤ)
  deriving DecidableEq, Repr

/-- The condition of an `if` of a process. -/
inductive Condition where
  /-- `RST = '1'` -/
  | RST
  /-- `EN = '1'` -/
  | EN
  /-- `READNOTWRITE = '1' and (CLK'event and CLK = '1')` -/
  | readEdge
  /-- `READNOTWRITE = '0' and (CLK'event and CLK = '1')` -/
  | writeEdge
  /-- `CLK'event and CLK = '1'` -/
  | edge
  /-- `GO = '1'` or `Ti = '1'` -/
  | control (signal : Control)
  deriving DecidableEq, Repr

/-- What the algorithm writes to a word. -/
inductive RowValue where
  /-- `ROW_n_OUT` -/
  | out (n : Name)
  /-- `ROW_n_MEM_RD` -/
  | memRd (n : Name)
  /-- `'0' & ROW_n_MEM_RD(par - 1 downto 1)` -/
  | shifted (n : Name) (par : ℤ)
  deriving DecidableEq, Repr

/-- A statement of a process. -/
inductive Statement where
  /-- `data_out <= Mem(to_integer(unsigned(address)))` -/
  | dataOut
  /-- `Mem <= (others =>(others =>'0'))` -/
  | memReset
  /-- `Mem(to_integer(unsigned(address))) <= data_in` -/
  | dataIn
  /-- `Mem(word) <= value` -/
  | write (word : ℕ) (value : RowValue)
  /-- `ROW_n_MEM_RD <= (others => '0')` -/
  | memRdReset (n : Name)
  /-- `ROW_n_MEM_RD <= Mem(word)` -/
  | read (n : Name) (word : ℕ)
  /-- `Ti <= '0'` -/
  | tReset (i : ℤ)
  /-- `Ti <= signal` -/
  | tShift (i : ℤ) (signal : Control)
  /-- `DONE <= '0'` -/
  | doneReset
  /-- `DONE <= Ti` -/
  | doneShift (i : ℤ)
  /-- `ROW_n_SEL <= sel` -/
  | select (n : Name) (sel : Select)
  deriving DecidableEq, Repr

/-- A line of a process. -/
abbrev ProcessLine := Lib.Line Condition Statement

/-- The lines of the processes, and the indices of the signals `Ti` declared. -/
structure Processes where
  rdProc : List ProcessLine
  wrtProc : List ProcessLine
  goRdProc : List ProcessLine
  tProc : List ProcessLine
  muxProc : List ProcessLine
  timers : List ℤ
  deriving DecidableEq, Repr

/-! ### The writes -/

/-- The value written to a row: the memory input of the row, or its own word shifted once it was
written. `firstEnteredShift` are the shifting rows written so far. -/
def writeValue (A : LiMArray) (par : ℤ) (firstEnteredShift : List Name) (n : Name) :
    Option (RowValue × List Name) := do
  let row ← A.findRow n
  if ← A.isLiMRowOfThisType n .sdiv then
    if n ∈ firstEnteredShift then
      return (.shifted n par, firstEnteredShift)
    else
      let src ← row.inputConnections.head?
      return (.out src, firstEnteredShift ++ [n])
  else
    let type ← row.inputConnectionsType.head?
    let src ← row.inputConnections.head?
    return (if type = .OLiM ∨ type = .none then .out src else .memRd src, firstEnteredShift)

/-- The statements that write the rows of one time. -/
def writeRows (A : LiMArray) (par : ℤ) : List Name → List Name → Option (List Statement × List Name)
  | firstEnteredShift, [] => some ([], firstEnteredShift)
  | firstEnteredShift, n :: rows => do
    let (value, firstEnteredShift) ← writeValue A par firstEnteredShift n
    let (statements, firstEnteredShift) ← writeRows A par firstEnteredShift rows
    return (.write (memIndex n) value :: statements, firstEnteredShift)

/-- The `if` or `elsif` before the first row of a time. -/
def writeHeader (t : ℤ) (rows : List Name) : List ProcessLine :=
  if rows.isEmpty then []
  else if t = 1 then [.ifThen (.control (.T (t * 2 - 1)))]
  else [.elsif (.control (.T (t * 2 - 1)))]

/-- The writes of every time but 0, whose rows the testbench writes. -/
def writeTimes (A : LiMArray) (par : ℤ) : List Name → List (ℤ × List Name) → Option (List ProcessLine)
  | _, [] => some []
  | firstEnteredShift, (t, rows) :: times =>
    if t = 0 then writeTimes A par firstEnteredShift times
    else do
      let (statements, firstEnteredShift) ← writeRows A par firstEnteredShift rows
      let lines ← writeTimes A par firstEnteredShift times
      return writeHeader t rows ++ statements.map .statement ++ lines

/-- `wrt_proc`, the writes of the protocol and of the algorithm. -/
def wrtProc (A : LiMArray) (par : ℤ) (F : FiniteStateMachine) : Option (List ProcessLine) := do
  let lines ← writeTimes A par [] F.FSM.toList
  return [.ifThen .RST, .statement .memReset,
    .elsif .EN, .ifThen .writeEdge, .statement .dataIn, .endIf,
    .otherwise] ++ lines ++ [.endIf, .endIf]

/-! ### The other processes -/

/-- `rd_proc`, the reads of the protocol. -/
def rdProc : List ProcessLine :=
  [.ifThen .EN, .ifThen .readEdge, .statement .dataOut, .endIf, .endIf]

/-- The reads of one time. -/
def readTime (t : ℤ) (rows : List Name) : List ProcessLine :=
  (if rows.isEmpty then []
    else [.elsif (.control (if t = 0 then .GO else .T (t * 2)))]) ++
  rows.map fun n => .statement (.read n (memIndex n))

/-- `go_rd_proc`, the reads of the algorithm. -/
def goRdProc (A : LiMArray) (F : FiniteStateMachine) : List ProcessLine :=
  .ifThen .RST :: A.limArray.toList.map (fun entry => .statement (.memRdReset entry.1)) ++
    F.FSM.toList.flatMap (fun entry => readTime entry.1 entry.2) ++ [.endIf]

/-- The indices of the states of `n` times: `GO` and `DONE` are not among them. -/
def timers (n : ℕ) : List ℤ := (List.range' 1 (2 * n - 2)).map (↑)

/-- The assignment of state `i` of `n` times, `DONE` being the last. -/
def shiftTimer (n i : ℕ) : Statement :=
  if i = 1 then .tShift i .GO
  else if i = n * 2 - 1 then .doneShift (i - 1)
  else .tShift i (.T (i - 1))

/-- `t_proc`, the chain of the states. -/
def tProc (n : ℕ) : List ProcessLine :=
  .ifThen .RST :: (timers n).map (fun i => .statement (.tReset i)) ++
    [.statement .doneReset, .otherwise, .ifThen .edge] ++
    (List.range' 1 (2 * n - 1)).map (fun i => .statement (shiftTimer n i)) ++ [.endIf, .endIf]

/-- The selects driven in state `i`. -/
def selectTime (signals : List SelectionSignal) (i : ℕ) : List ProcessLine :=
  .elsif (.control (if i = 0 then .GO else .T (i * 2))) ::
    signals.filterMap fun signal => (muxEvent signal i).map fun sel => .statement (.select signal.destRow sel)

/-- `mux_proc`, the selects of the muxes. -/
def muxProc (F : FiniteStateMachine) : List ProcessLine :=
  .ifThen .RST :: F.selectionSignalsList.map (fun signal => .statement (.select signal.destRow .X)) ++
    (List.range F.getFSMSize).flatMap (selectTime F.selectionSignalsList) ++ [.endIf]

/-- **The processes.** -/
def printProcesses (A : LiMArray) (par : ℤ) (F : FiniteStateMachine) : Option Processes := do
  let wrtProc ← wrtProc A par F
  return ⟨rdProc, wrtProc, goRdProc A F, tProc F.getFSMSize, muxProc F, timers F.getFSMSize⟩

end PrintVhdlFile

end Octantis
