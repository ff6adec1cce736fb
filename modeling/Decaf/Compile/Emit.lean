import Decaf.IR.Target
import Decaf.Compile.Scope

/-!
# Generating code

A generating computation works on a target, the open scopes, the loops around the current
statement and the warnings so far. It may stop with an error, and then still leaves the
state in which it stopped: a target keeps what was built, and every scope and loop that the
computation opened has been closed again.
-/

namespace Decaf

open IR

/-- The representation of the values of a type. Strings are represented by address. -/
def Ty.repr : Ty → IR.Ty
  | int => .i32
  | bool => .i1
  | string => .ptr
  | void => .void

structure GenState (τ : Type) where
  target : τ
  scopes : ScopeStack
  loops : LoopStack
  warnings : List Warning

/-- The state in which code generation begins. -/
def GenState.start {τ : Type} (target : τ) : GenState τ :=
  ⟨target, .empty, .empty, []⟩

abbrev Gen (τ : Type) := ExceptT CompileError (StateM (GenState τ))

/-- The method for which code is generated. -/
structure MethodContext where
  function : FunctionId
  name : String
  ret : Decaf.Ty
  options : Options

namespace Gen

variable {τ α : Type}

/-- The computation runs inside a scope of its own. -/
def inScope (body : Gen τ α) : Gen τ α := ExceptT.mk do
  modify fun s => { s with scopes := s.scopes.push }
  let result ← body.run
  modify fun s => { s with scopes := s.scopes.pop }
  return result

/-- The computation runs inside a loop. -/
def inLoop (targets : LoopTargets) (body : Gen τ α) : Gen τ α := ExceptT.mk do
  modify fun s => { s with loops := s.loops.push targets }
  let result ← body.run
  modify fun s => { s with loops := s.loops.pop }
  return result

def warn (w : Warning) : Gen τ Unit :=
  modify fun s => { s with warnings := s.warnings ++ [w] }

/-- Asks the scopes, which may refuse. -/
def fromScopes (query : ScopeStack → Except CompileError α) : Gen τ α := do
  liftM (query (← get).scopes)

/-- Binds a name in the innermost scope. -/
def bindName (name : String) (d : Descriptor) : Gen τ Unit := do
  let scopes ← fromScopes fun s => s.bind name d
  modify fun s => { s with scopes }

def innermostLoop? : Gen τ (Option LoopTargets) := do
  return (← get).loops.innermost?

variable [Target τ]

/-- Has the target carry out a command. -/
def emit {r : Reply} (c : Command r) : Gen τ r.Carrier :=
  modifyGet fun ⟨target, scopes, loops, warnings⟩ =>
    let (reply, target) := Target.perform target c
    (reply, ⟨target, scopes, loops, warnings⟩)

def isTerminated : Gen τ Bool := do
  return Target.isTerminated (← get).target

def typeOf (v : ValueId) : Gen τ IR.Ty := do
  return Target.typeOf (← get).target v

def parameter? (f : FunctionId) (index : Nat) : Gen τ (Option ValueId) := do
  return Target.parameter? (← get).target f index

/-- The block at the insertion point, which the target may not tell. -/
def insertionBlock (m : MethodContext) : Gen τ BlockId := do
  match Target.insertion? (← get).target with
  | some block => return block
  | none => throw (.malformed m.name .noInsertionPoint)

def appendBlock (m : MethodContext) (hint : String) : Gen τ BlockId :=
  emit (.appendBlock m.function hint)

def branch (target : BlockId) : Gen τ Unit :=
  emit (.terminate (.br target))

/-- Goes on to a block unless control has already left. Tells whether it did. -/
def branchIfOpen (target : BlockId) : Gen τ Bool := do
  if ← isTerminated then
    return false
  else
    branch target
    return true

/-- A truth value becomes an integer where an integer is wanted. -/
def coerce (v : ValueId) (wanted : Decaf.Ty) : Gen τ ValueId := do
  if wanted = .int ∧ (← typeOf v) = .i1 then
    emit (.zext v .i32)
  else
    return v

/-- The value with which variables of a type start. -/
def zeroValue (ty : Decaf.Ty) (line : Nat) : Gen τ ValueId :=
  match Const.zero? ty.repr with
  | some c => emit (.const c)
  | none => throw (.voidValue line)

/-- The value that a method returns when it ends without having named one. -/
def defaultValue (ty : Decaf.Ty) (line : Nat) : Gen τ ValueId :=
  if ty = .bool then emit (.const (.bool true)) else zeroValue ty line

end Gen

end Decaf
