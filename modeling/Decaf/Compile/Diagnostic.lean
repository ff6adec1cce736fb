import Decaf.Language.Program
import Decaf.IR.Check

/-!
# Diagnostics

What compiling a program can report: an error, of which there is at most one, and
warnings. Two of the errors become warnings under the lenient policies: a method that may
end without the value it owes, and a jump with no loop around it.
-/

namespace Decaf

/-- What happens when control reaches the end of a method that owes a value. -/
inductive MissingReturn where
  | synthesize
  | error
  deriving DecidableEq, Repr

/-- What happens to a `break` or `continue` with no loop around it. -/
inductive StrayJump where
  | error
  | ignore
  deriving DecidableEq, Repr

structure Options where
  missingReturn : MissingReturn := .synthesize
  strayJump : StrayJump := .error
  /-- Check each method after its code has been generated. -/
  check : Bool := true
  deriving DecidableEq, Repr

/-- What is wrong with the code generated for a method. -/
inductive Malformation where
  | check (e : IR.CheckError)
  | noInsertionPoint
  deriving DecidableEq, Repr

inductive CompileError where
  | missingPackage
  | unresolvedIdentifier (name : String) (line : Nat)
  | notCallable (name : String) (line : Nat)
  | notAVariable (name : String) (line : Nat)
  | notAnArray (name : String) (line : Nat)
  | notAScalar (name : String) (line : Nat)
  | arityMismatch (name : String) (expected found : Nat) (line : Nat)
  | duplicateDefinition (name : String) (line previousLine : Nat)
  | jumpOutsideLoop (kind : Jump) (line : Nat)
  | missingReturn (method : String)
  | valueReturnFromVoid (method : String) (line : Nat)
  | invalidArraySize (name : String) (line : Nat)
  | invalidInitializer (name : String) (line : Nat)
  | voidValue (line : Nat)
  | malformed (method : String) (cause : Malformation)
  deriving DecidableEq, Repr

inductive Warning where
  | synthesizedReturn (method : String) (line : Nat)
  | ignoredJump (kind : Jump) (line : Nat)
  deriving DecidableEq, Repr

def Malformation.message : Malformation → String
  | check e => e.message
  | noInsertionPoint => "no insertion point"

namespace CompileError

/-- The line an error is about; some errors are about a whole program or method. -/
def line? : CompileError → Option Nat
  | missingPackage => none
  | unresolvedIdentifier _ line => some line
  | notCallable _ line => some line
  | notAVariable _ line => some line
  | notAnArray _ line => some line
  | notAScalar _ line => some line
  | arityMismatch _ _ _ line => some line
  | duplicateDefinition _ line _ => some line
  | jumpOutsideLoop _ line => some line
  | missingReturn _ => none
  | valueReturnFromVoid _ line => some line
  | invalidArraySize _ line => some line
  | invalidInitializer _ line => some line
  | voidValue line => some line
  | malformed _ _ => none

def message : CompileError → String
  | missingPackage => "program has no package"
  | unresolvedIdentifier name line => s!"line {line}: `{name}` is not defined"
  | notCallable name line => s!"line {line}: `{name}` is not a method"
  | notAVariable name line => s!"line {line}: method `{name}` used as a variable"
  | notAnArray name line => s!"line {line}: `{name}` is not an array"
  | notAScalar name line => s!"line {line}: array `{name}` used without an index"
  | arityMismatch name expected found line =>
    s!"line {line}: `{name}` expects {expected} arguments, got {found}"
  | duplicateDefinition name line previousLine =>
    s!"line {line}: `{name}` is already defined on line {previousLine}"
  | jumpOutsideLoop kind line => s!"line {line}: `{kind.keyword}` outside of a loop"
  | missingReturn method =>
    s!"method `{method}` can reach its end without returning a value"
  | valueReturnFromVoid method line => s!"line {line}: void method `{method}` returns a value"
  | invalidArraySize name line => s!"line {line}: array `{name}` must have a positive length"
  | invalidInitializer name line =>
    s!"line {line}: field `{name}` has an initializer of the wrong kind"
  | voidValue line => s!"line {line}: void method call used as a value"
  | malformed method cause => s!"generated code for `{method}` is malformed: {cause.message}"

end CompileError

namespace Warning

def line : Warning → Nat
  | synthesizedReturn _ line => line
  | ignoredJump _ line => line

/-- The method or the keyword that a warning is about. -/
def subject : Warning → String
  | synthesizedReturn method _ => method
  | ignoredJump kind _ => kind.keyword

def message : Warning → String
  | synthesizedReturn method line =>
    s!"line {line}: method `{method}` may end without a return; a default value is returned"
  | ignoredJump kind line => s!"line {line}: `{kind.keyword}` outside of a loop is ignored"

end Warning

end Decaf
