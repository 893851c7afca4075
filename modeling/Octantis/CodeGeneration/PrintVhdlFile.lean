import Mathlib.Algebra.Group.Int.Defs
import Octantis.Binding.Reachable

/-!
# The VHDL component

What `PrintVhdlFile` prints that depends on the names and on the times: the number
of words of the memory (`entries`), the indices of the memory in the processes and
in the testbench, and the select signals of the muxes as `mux_proc` drives them.

## The model

A row name is printed in hexadecimal, read back by `stoi` and divided by 4. The
signals `T1`, `T2`, … follow one pulse of `GO`, so the `elsif` branches of a process
are taken one after the other: the select of a mux is a fold over the states
passed (`muxSelect`). Rows of time `t` are written at `T(2t-1)`, after the state
`T(2(t-1))` and before `T(2t)` (`selectWhenWritten`).
-/

namespace Octantis

open Std

namespace PrintVhdlFile

/-- `entries`, the number of words of the memory: `getDimensions()`. -/
def entries (A : LiMArray) : ℕ := A.getDimensions

/-- `std::stoi(rowAddr.str(), 0, 16) / 4`: the word of a row. -/
def memIndex (n : Name) : ℕ := n / 4

/-- `resultRowList`: the load rows that are no connection of a row. -/
def resultRowList (A : LiMArray) : List Name :=
  (A.limArray.toList.filter fun entry => entry.2.rowType == .load &&
    A.limArray.toList.all fun other => !other.2.inputConnections.contains entry.1).map (·.1)

/-- `result_address_vector` of the testbench. -/
def resultAddressVector (A : LiMArray) : List ℕ := (resultRowList A).map memIndex

/-- The rows written by the algorithm: those of every time but 0. -/
def writtenRows (F : FiniteStateMachine) : List Name :=
  F.FSM.toList.flatMap fun entry => if entry.1 = 0 then [] else entry.2

/-- The rows read by the algorithm: those of every time. -/
def readRows (F : FiniteStateMachine) : List Name := F.FSM.toList.flatMap (·.2)

/-- The indices `Mem(…)` of the processes. -/
def memIndices (F : FiniteStateMachine) : List ℕ := (writtenRows F ++ readRows F).map memIndex

/-! ### The selection signals -/

/-- The value of a select signal. -/
inductive Select where
  /-- `'X'`, after a reset. -/
  | X
  /-- `'0'`, the first logic input. -/
  | zero
  /-- `'1'`, the second logic input. -/
  | one
  deriving DecidableEq, Repr

/-- The assignment that an entry of the list makes in state `i`. -/
def muxEvent (signal : SelectionSignal) (i : ℤ) : Option Select :=
  if signal.activeTimeList.head? = some i then some .zero
  else if signal.activeTimeList.getLast? = some i then some .one
  else none

/-- The assignments to the select of a row in state `i`; the last of the list wins. -/
def selectInState (signals : List SelectionSignal) (row : Name) (i : ℤ) : Option Select :=
  signals.foldl (fun sel signal => if signal.destRow = row then (muxEvent signal i).or sel else sel) none

/-- The select of a row after the first `k` states of `mux_proc`. -/
def muxSelect (signals : List SelectionSignal) (row : Name) (k : ℕ) : Select :=
  (List.range k).foldl (fun sel (i : ℕ) => (selectInState signals row i).getD sel) .X

/-- The select of a row when the rows of time `t` are written; `mux_proc` has a branch for as many
states as there are times. -/
def selectWhenWritten (F : FiniteStateMachine) (row : Name) (t : ℤ) : Select :=
  muxSelect F.selectionSignalsList row (min t.toNat F.getFSMSize)

end PrintVhdlFile

end Octantis
