import Decaf.IR.Module

/-!
# Building commands

A command asks whoever builds a module for one change: declare a function, open a
block, emit an instruction. Its index says what comes back. Code generation speaks
to a builder by commands only, so a list of commands is a complete record of what it
asked for.
-/

namespace Decaf.IR

/-- What a command hands back. -/
inductive Reply where
  | nothing | value | optionalValue | function | block
  deriving DecidableEq, Repr

@[reducible] def Reply.Carrier : Reply → Type
  | nothing => Unit
  | value => ValueId
  | optionalValue => Option ValueId
  | function => FunctionId
  | block => BlockId

/-- Names are hints: the builder makes them unique where they have to be. -/
inductive Command : Reply → Type where
  | setModuleName (name : String) : Command .nothing
  | declareFunction (name : String) (ret : Ty) (params : List (Option String × Ty)) :
      Command .function
  | appendBlock (function : FunctionId) (hint : String) : Command .block
  | positionAtEnd (block : BlockId) : Command .nothing
  | terminate (terminator : Terminator) : Command .nothing
  | alloca (ty : Ty) (hint : String) : Command .value
  | load (ty : Ty) (address : ValueId) (hint : String) : Command .value
  | store (value address : ValueId) : Command .nothing
  | elementPtr (ty : Ty) (base index : ValueId) : Command .value
  | binary (op : BinOp) (lhs rhs : ValueId) (hint : String) : Command .value
  | unary (op : UnOp) (operand : ValueId) (hint : String) : Command .value
  | zext (value : ValueId) (ty : Ty) : Command .value
  | phi (ty : Ty) (incoming : List (ValueId × BlockId)) (hint : String) : Command .value
  | call (callee : FunctionId) (args : List ValueId) : Command .optionalValue
  | globalScalar (hint : String) (ty : Ty) (init : Const) : Command .value
  | globalArray (hint : String) (ty : Ty) (length : Nat) : Command .value
  | globalString (contents : String) : Command .value
  | const (c : Const) : Command .value
  deriving DecidableEq, Repr

/-- A command together with what it hands back. -/
abbrev AnyCommand := Sigma Command

end Decaf.IR
