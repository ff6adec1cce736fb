import Decaf.IR.Type

/-!
# Values of the machine

What an operand evaluates to while a module runs: a 32-bit integer, a truth value or a
pointer. A pointer names a region of memory, or none, and an offset counted in cells.
-/

namespace Decaf.Execution

/-- A pointer without a region is null, whatever its offset. -/
structure Pointer where
  region : Option Nat
  offset : Int
  deriving DecidableEq, Repr

inductive Value where
  | int (n : Int32)
  | bool (b : Bool)
  | pointer (p : Pointer)
  deriving DecidableEq, Repr

namespace Pointer

def null : Pointer := ⟨none, 0⟩

def isNull (p : Pointer) : Bool := p.region.isNone

/-- The first cell of a region. -/
def start (region : Nat) : Pointer := ⟨some region, 0⟩

def advance (p : Pointer) (cells : Int) : Pointer :=
  { p with offset := p.offset + cells }

/-- The number by which a region is shown; that of null is above all others. -/
def regionNumber (p : Pointer) : Nat :=
  p.region.getD 0xFFFFFFFF

def text (p : Pointer) : String :=
  "Pointer \x7b region: " ++ toString p.regionNumber ++ ", offset: " ++ toString p.offset
    ++ " \x7d"

end Pointer

namespace Value

/-- The value with all bits zero. Nothing has type `void`; its cells hold an integer. -/
def zero : IR.Ty → Value
  | .i1 => bool false
  | .i32 => int 0
  | .ptr => pointer .null
  | .void => int 0

def ofConst : IR.Const → Value
  | .i32 n => int n
  | .bool b => bool b
  | .null => pointer .null

/-- The type of which the value is. -/
def ty : Value → IR.Ty
  | int _ => .i32
  | bool _ => .i1
  | pointer _ => .ptr

def int? : Value → Option Int32
  | int n => some n
  | _ => none

def bool? : Value → Option Bool
  | bool b => some b
  | _ => none

def pointer? : Value → Option Pointer
  | pointer p => some p
  | _ => none

/-- The value as messages show it. -/
def text : Value → String
  | int n => "I32(" ++ toString n.toInt ++ ")"
  | bool b => "Bool(" ++ (if b then "true" else "false") ++ ")"
  | pointer p => "Ptr(" ++ p.text ++ ")"

theorem ty_ofConst (c : IR.Const) : (ofConst c).ty = c.ty := by
  cases c <;> rfl

theorem ty_zero {ty : IR.Ty} (h : ty ≠ .void) : (zero ty).ty = ty := by
  cases ty <;> first | rfl | exact absurd rfl h

end Value

end Decaf.Execution
