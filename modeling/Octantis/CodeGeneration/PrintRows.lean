import Octantis.CodeGeneration.PrintProcesses

/-!
# The rows of the VHDL component

What the row loop of `printArchitecture` prints: for each row of the array the declarations of its
signals and the concurrent statements of its logic, by the type of the row and the number of its
connections.

## The model

A declaration keeps the text before the name of its signal, since one of them is misprinted.
A concurrent statement keeps the signals in the positions of the text; `bare` is a name
printed without a suffix. The row given in `srcRow1` is computed but printed nowhere, so
only its `front()` is kept.

`none` is an `llvm_unreachable`, an exception, or an operation that C++ leaves undefined:
`front()` of an empty list, the step past its end, the conversion of `log2(0)`. The
component declarations and the comments are left out.
-/

namespace Octantis

open Std

namespace PrintVhdlFile

/-- A signal of a row. -/
inductive RowSignal where
  /-- `ROW_n_MEM_RD` -/
  | memRd (n : Name)
  /-- `ROW_n_OUT` -/
  | out (n : Name)
  /-- `ROW_n_SEL` -/
  | sel (n : Name)
  /-- `ROW_n_MUX_OUT` -/
  | muxOut (n : Name)
  /-- `ROW_n_COUT` -/
  | cout (n : Name)
  /-- `ROW_n_OPi_OUT` -/
  | op (n : Name) (i : ℕ)
  /-- `ROW_n` -/
  | bare (n : Name)
  deriving DecidableEq, Repr

/-- The declaration of a signal: what stands before its name. -/
structure Declaration where
  keyword : String
  signal : RowSignal
  deriving DecidableEq, Repr

/-- The text before the name of a signal declared. -/
def signalKeyword : String := "\tsignal "

/-- A concurrent statement. -/
inductive Concurrent where
  /-- `target <= a operator b` -/
  | logic (target : RowSignal) (operator : Operation) (a b : RowSignal)
  /-- `target <= a operator b`, with an operator of the additional logic -/
  | mixedLogic (target : RowSignal) (operator : String) (a b : RowSignal)
  /-- `MUX21 port map(A => a, B => b, SEL => sel, Y => y)` -/
  | mux (a b sel y : RowSignal)
  /-- `MUX21 port map(IN_0 => …, SEL => sel, Y => y)` -/
  | mixedMux (inputs : List RowSignal) (sel y : RowSignal)
  /-- `RCA port map(A => a, B => b, Cin => '0', Cout => cout, S => s)` -/
  | adder (a b cout s : RowSignal)
  /-- `target <= source` -/
  | assign (target source : RowSignal)
  deriving DecidableEq, Repr

/-- The text of a row. -/
structure RowText where
  declarations : List Declaration
  statements : List Concurrent
  deriving DecidableEq, Repr

/-- A well-formed declaration. -/
def declare (signal : RowSignal) : Declaration := ⟨signalKeyword, signal⟩

/-- The signal of an operand, by the type of its connection. -/
def operand (type : ConnectionType) (src : Name) : RowSignal :=
  match type with
  | .OLiM => .out src
  | .OC => .memRd src
  | .none => .bare src

/-! ### The templates -/

/-- A row that is only memory. -/
def printMemory (n : Name) : RowText := ⟨[declare (.memRd n)], []⟩

/-- `printBitwise`; the statement is printed for a connection with a type only. -/
def printBitwise (n srcRow2 : Name) (type : ConnectionType) (operation : Operation) : RowText :=
  ⟨[declare (.memRd n), declare (.out n)],
    if type = .none then [] else [.logic (.out n) operation (.memRd n) (operand type srcRow2)]⟩

/-- `printBitwiseMux2to1`; the target of the logic has no suffix. -/
def printBitwiseMux2to1 (operation : Operation) (n : Name) (type1 type2 : ConnectionType)
    (srcRow2 srcRow3 : Name) : RowText :=
  ⟨[declare (.memRd n), declare (.out n), declare (.sel n), declare (.muxOut n)],
    [.mux (operand type1 srcRow2) (operand type2 srcRow3) (.sel n) (.muxOut n),
      .logic (.bare n) operation (.memRd n) (.muxOut n)]⟩

/-- `printAdd` -/
def printAdd (n srcRow2 : Name) (type : ConnectionType) : RowText :=
  ⟨[declare (.memRd n), declare (.out n), declare (.cout n)],
    [.adder (.memRd n) (operand type srcRow2) (.cout n) (.out n)]⟩

/-- `printAddMux2to1`; the first declaration is misprinted. -/
def printAddMux2to1 (n : Name) (type1 type2 : ConnectionType) (srcRow2 srcRow3 : Name) : RowText :=
  ⟨[⟨"s\tignal ", .memRd n⟩, declare (.sel n), declare (.out n), declare (.cout n), declare (.muxOut n)],
    [.mux (operand type1 srcRow2) (operand type2 srcRow3) (.sel n) (.muxOut n),
      .adder (.memRd n) (.muxOut n) (.cout n) (.out n)]⟩

/-- `printMixed`; the number of operators is a power of two. -/
def printMixed (n srcRow2 : Name) (type : ConnectionType) (operators : List String) : Option RowText :=
  if operators.length = 0 ∨ operators.length &&& (operators.length - 1) ≠ 0 then none
  else some
    ⟨[declare (.memRd n), declare (.out n), declare (.sel n)] ++
        (List.range operators.length).map fun i => declare (.op n i),
      .mixedMux ((List.range operators.length).map (.op n)) (.sel n) (.out n) ::
        operators.zipIdx.map fun o => .mixedLogic (.op n o.2) o.1 (.memRd n) (operand type srcRow2)⟩

/-- `printShiftRight` -/
def printShiftRight (n : Name) : RowText :=
  ⟨[declare (.memRd n), declare (.out n)], [.assign (.out n) (.memRd n)]⟩

/-- `std::stoi`: the digits after the blanks and a sign; no digit and a value that is no `int` are
exceptions. -/
def stoi (s : String) : Option ℤ :=
  let chars := s.toList.dropWhile Char.isWhitespace
  let negative := chars.head? = some '-'
  let digits := (if negative ∨ chars.head? = some '+' then chars.tail else chars).takeWhile Char.isDigit
  let value : ℤ := digits.foldl (fun v c => v * 10 + (c.toNat - '0'.toNat : ℕ)) 0
  let value := if negative then -value else value
  if digits.isEmpty ∨ value < -2 ^ 31 ∨ 2 ^ 31 ≤ value then none else some value

/-! ### The row loop -/

/-- A row has a mux when it has more than two connections. -/
def isMux (row : LiMRow) : Bool := decide (2 < row.inputConnections.length)

/-- The text of a row. -/
def printRow (n : Name) (row : LiMRow) : Option RowText := do
  match ← LimOperations row.rowType with
  | .null => return printMemory n
  | .bitwise =>
    let srcRow2 ← row.inputConnections[1]?
    let type2 ← row.inputConnectionsType[1]?
    if isMux row then
      let srcRow3 ← row.inputConnections.getLast?
      let type3 ← row.inputConnectionsType.getLast?
      return printBitwiseMux2to1 row.rowType n type2 type3 srcRow2 srcRow3
    else if row.rowType = .switch then
      printMixed n srcRow2 type2 row.additionalLogic
    else
      return printBitwise n srcRow2 type2 row.rowType
  | .arith =>
    if row.rowType = .add then
      let srcRow2 ← row.inputConnections[1]?
      let type2 ← row.inputConnectionsType[1]?
      if isMux row then
        let srcRow3 ← row.inputConnections.getLast?
        let type3 ← row.inputConnectionsType.getLast?
        return printAddMux2to1 n type2 type3 srcRow2 srcRow3
      else
        return printAdd n srcRow2 type2
    else if row.rowType = .sdiv then
      let _srcRow1 ← row.inputConnections.head?
      let _shiftAmt ← row.additionalLogic.head?.bind stoi
      return printShiftRight n
    else
      -- the other arithmetic types have no template
      return ⟨[], []⟩

/-- The texts of the rows, in the order of their names. -/
def printRows : List (Name × LiMRow) → Option (List (Name × RowText))
  | [] => some []
  | (n, row) :: entries => do
    let text ← printRow n row
    let texts ← printRows entries
    return (n, text) :: texts

/-- The architecture: the processes and the rows. -/
structure Architecture where
  processes : Processes
  declarations : List Declaration
  statements : List Concurrent
  deriving DecidableEq, Repr

/-- **The architecture** that `printArchitecture` writes. -/
def printArchitecture (A : LiMArray) (par : ℤ) (F : FiniteStateMachine) : Option Architecture := do
  let processes ← printProcesses A par F
  let texts ← printRows A.limArray.toList
  return ⟨processes, texts.flatMap (·.2.declarations), texts.flatMap (·.2.statements)⟩

end PrintVhdlFile

end Octantis
