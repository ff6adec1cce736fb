import Decaf.Execution.Value

/-!
# Faults

The reasons for which a run stops without a result. A fault of kind `type` means that an
instruction was given a value that it does not apply to.
-/

namespace Decaf.Execution

inductive TypeFault where
  | load (expected : IR.Ty) (found : Value)
  | operand (expected : IR.Ty) (found : Value)
  | unary (op : IR.UnOp) (found : Value)
  | boolOperands (op : IR.BinOp)
  | operands (op : IR.BinOp) (lhs rhs : Value)
  | noResult (callee : String)
  deriving DecidableEq, Repr

inductive Fault where
  | unknownFunction (name : String)
  | unboundExtern (name : String)
  | arityMismatch (name : String) (expected found : Nat)
  | stepLimitExceeded (limit : Nat)
  | callDepthExceeded (limit : Nat)
  | stackSlotsExceeded (limit : Nat)
  | unterminated (block : String)
  | unreachable
  | undefinedValue
  | missingPhiIncoming
  | nullDereference
  | outOfBounds (offset : Int) (length : Nat)
  | divisionByZero
  | type (fault : TypeFault)
  deriving DecidableEq, Repr

def TypeFault.message : TypeFault → String
  | load expected found => s!"load of {expected.name} found {found.text}"
  | operand expected found => s!"expected {expected.name}, found {found.text}"
  | unary op found => s!"{op.mnemonic} of {found.text}"
  | boolOperands op => s!"`{op.mnemonic}` on i1 operands"
  | operands op lhs rhs => s!"`{op.mnemonic}` on {lhs.text} and {rhs.text}"
  | noResult callee => s!"`{callee}` returned no value"

def Fault.message : Fault → String
  | unknownFunction name => s!"no function named `{name}`"
  | unboundExtern name => s!"external function `{name}` has no host binding"
  | arityMismatch name expected found => s!"`{name}` expects {expected} arguments, got {found}"
  | stepLimitExceeded limit => s!"step limit of {limit} exceeded"
  | callDepthExceeded limit => s!"call depth limit of {limit} exceeded"
  | stackSlotsExceeded limit => s!"stack slot limit of {limit} exceeded"
  | unterminated block => s!"block `{block}` has no terminator"
  | unreachable => "reached an unreachable block"
  | undefinedValue => "value used before it was defined"
  | missingPhiIncoming => "phi has no incoming value for the predecessor block"
  | nullDereference => "null pointer dereference"
  | outOfBounds offset length =>
    s!"memory access at offset {offset} outside a region of {length} elements"
  | divisionByZero => "division by zero"
  | type fault => s!"type mismatch: {fault.message}"

end Decaf.Execution
