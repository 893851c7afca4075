import Mathlib.Data.Nat.Notation

/-!
# The operations

The operation names the passes exchange (strings in the source), and
`LimOperations`, the table of the operations that Octantis maps onto rows with
logic, with the type the code generators dispatch on.
-/

namespace Octantis

/-- The operation of a scheduled instruction, and the type of a row. `null` is the detector's
reset value. -/
inductive Operation where
  | null | load | add | sub | shl | shr | lshr | ashr | sdiv | mul
  | and | nand | or | nor | xnor | xor | switch
  deriving DecidableEq, Repr

/-- The type of an implemented operation. -/
inductive OperationType where
  /-- Load operations. -/
  | null
  /-- Arithmetic operations. -/
  | arith
  /-- Bitwise operations. -/
  | bitwise
  deriving DecidableEq, Repr

/-- `LimOperations`: the operations recognised, with their type. -/
def LimOperations : Operation → Option OperationType
  | .load => some .null
  | .add | .sub | .shl | .shr | .ashr | .sdiv | .mul => some .arith
  | .and | .nand | .or | .nor | .xnor | .xor | .switch => some .bitwise
  | .null | .lshr => none

namespace Operation

/-- `operation == "shl" || operation == "shr" || operation == "ashr"`. -/
def isShift : Operation → Bool
  | .shl | .shr | .ashr => true
  | _ => false

/-- An operation that the binder maps onto a row with logic: in `LimOperations`, and not a load. -/
def isBound (op : Operation) : Bool := op ≠ .load && (LimOperations op).isSome

/-- An operation that the detector inserts for an operator. -/
def isEmitted : Operation → Bool
  | .add | .sub | .mul | .sdiv | .shl | .lshr | .ashr | .and | .nand | .or | .nor | .xor | .xnor => true
  | _ => false

/-- An operation whose value does not depend on the order of its operands. -/
def isCommutative : Operation → Bool
  | .add | .mul | .and | .nand | .or | .nor | .xor | .xnor => true
  | _ => false

theorem ne_load_of_isBound {op : Operation} (h : op.isBound = true) : op ≠ .load := by
  rintro rfl
  simp [isBound] at h

end Operation

end Octantis
