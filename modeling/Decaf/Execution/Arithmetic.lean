import Decaf.Execution.Fault

/-!
# Arithmetic

Integers wrap at 32 bits and division truncates toward zero. There is no quotient by
zero, and none of the least integer by -1 either, where it would not fit; both count as
division by zero. A shift goes by the magnitude of its right operand, modulo 32. Truth
values can only be compared for equality, pointers not at all.
-/

namespace Decaf.Execution

/-- The pairs of integers that have a quotient and a remainder in 32 bits. -/
def Divides (a b : Int32) : Prop :=
  b ≠ 0 ∧ ¬ (a = Int32.minValue ∧ b = -1)

instance (a b : Int32) : Decidable (Divides a b) :=
  inferInstanceAs (Decidable (_ ∧ _))

/-- The number of places by which a shift moves. -/
def shiftAmount (b : Int32) : Nat :=
  b.toInt.natAbs % 32

def shiftLeft (a b : Int32) : Int32 :=
  (a.toUInt32 <<< UInt32.ofNat (shiftAmount b)).toInt32

/-- Zeros come in from the left. -/
def shiftRight (a b : Int32) : Int32 :=
  (a.toUInt32 >>> UInt32.ofNat (shiftAmount b)).toInt32

def intBinary (op : IR.BinOp) (a b : Int32) : Except Fault Value :=
  match op with
  | .add => .ok (.int (a + b))
  | .sub => .ok (.int (a - b))
  | .mul => .ok (.int (a * b))
  | .sdiv => if Divides a b then .ok (.int (a / b)) else .error .divisionByZero
  | .srem => if Divides a b then .ok (.int (a % b)) else .error .divisionByZero
  | .shl => .ok (.int (shiftLeft a b))
  | .lshr => .ok (.int (shiftRight a b))
  | .eq => .ok (.bool (a == b))
  | .ne => .ok (.bool (a != b))
  | .sge => .ok (.bool (b ≤ a))
  | .sle => .ok (.bool (a ≤ b))
  | .sgt => .ok (.bool (b < a))
  | .slt => .ok (.bool (a < b))

def boolBinary (op : IR.BinOp) (a b : Bool) : Except Fault Value :=
  match op with
  | .eq => .ok (.bool (a == b))
  | .ne => .ok (.bool (a != b))
  | _ => .error (.type (.boolOperands op))

def binary (op : IR.BinOp) (lhs rhs : Value) : Except Fault Value :=
  match lhs, rhs with
  | .int a, .int b => intBinary op a b
  | .bool a, .bool b => boolBinary op a b
  | _, _ => .error (.type (.operands op lhs rhs))

def unary (op : IR.UnOp) (operand : Value) : Except Fault Value :=
  match op, operand with
  | .not, .bool b => .ok (.bool (!b))
  | .not, .int n => .ok (.int (~~~n))
  | .neg, .int n => .ok (.int (-n))
  | _, _ => .error (.type (.unary op operand))

end Decaf.Execution
