/-!
# Types, operations and constants of the intermediate representation

Four types of values, the instructions on one or two operands, and the constants.
Pointers do not say what they point to: loads, stores and element addresses name
the accessed type themselves.
-/

namespace Decaf.IR

inductive Ty where
  | i1 | i32 | ptr | void
  deriving DecidableEq, Repr

/-- The operations on two operands. Comparisons are signed and yield `i1`. -/
inductive BinOp where
  | add | sub | mul | sdiv | srem | shl | lshr
  | eq | ne | sge | sle | sgt | slt
  deriving DecidableEq, Repr

/-- The operations on one operand: complement and two's complement negation. -/
inductive UnOp where
  | not | neg
  deriving DecidableEq, Repr

inductive Const where
  | i32 (value : Int32)
  | bool (value : Bool)
  | null
  deriving DecidableEq, Repr

def Ty.name : Ty → String
  | i1 => "i1"
  | i32 => "i32"
  | ptr => "ptr"
  | void => "void"

namespace BinOp

def isComparison : BinOp → Bool
  | eq | ne | sge | sle | sgt | slt => true
  | _ => false

def mnemonic : BinOp → String
  | add => "add"
  | sub => "sub"
  | mul => "mul"
  | sdiv => "sdiv"
  | srem => "srem"
  | shl => "shl"
  | lshr => "lshr"
  | eq => "icmp eq"
  | ne => "icmp ne"
  | sge => "icmp sge"
  | sle => "icmp sle"
  | sgt => "icmp sgt"
  | slt => "icmp slt"

/-- The type of the result on operands of which the left one has type `operand`. -/
def resultTy (op : BinOp) (operand : Ty) : Ty :=
  if op.isComparison then .i1 else operand

end BinOp

def UnOp.mnemonic : UnOp → String
  | not => "not"
  | neg => "neg"

namespace Const

def ty : Const → Ty
  | i32 _ => .i32
  | bool _ => .i1
  | null => .ptr

/-- The constant with all bits zero; `void` has no constants. -/
def zero? : Ty → Option Const
  | .i1 => some (bool false)
  | .i32 => some (i32 0)
  | .ptr => some null
  | .void => none

def text : Const → String
  | i32 value => toString value.toInt
  | bool value => if value then "true" else "false"
  | null => "null"

theorem ty_of_zero? {ty : Ty} {c : Const} (h : zero? ty = some c) : c.ty = ty := by
  cases ty <;> cases h <;> rfl

end Const

end Decaf.IR
