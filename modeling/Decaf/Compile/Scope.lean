import Decaf.IR.Module
import Decaf.Compile.Diagnostic

/-!
# Scopes

A scope binds names to descriptors of what they stand for. The outermost scope is that of
the package, and is always there; method bodies and blocks open further ones inside it. A
name may be bound again in an inner scope, not in the same one, and is looked up from the
innermost scope outwards.
-/

namespace Decaf

/-- Where the entity that a name stands for is to be found in the module. -/
inductive Handle where
  | slot (address : IR.ValueId)
  | array (base : IR.ValueId) (length : Nat)
  | function (id : IR.FunctionId) (params : List (Option String × Ty))
  deriving DecidableEq, Repr

inductive EntityKind where
  | globalVariable | localVariable | parameter | function
  deriving DecidableEq, Repr

def EntityKind.isVariable : EntityKind → Bool
  | function => false
  | _ => true

/-- What is known about a name. The type of a function is that of its result, the type
of an array that of its elements. -/
structure Descriptor where
  kind : EntityKind
  ty : Ty
  line : Nat
  handle : Handle
  deriving DecidableEq, Repr

namespace Descriptor

def scalar (kind : EntityKind) (ty : Ty) (address : IR.ValueId) (line : Nat) : Descriptor :=
  ⟨kind, ty, line, .slot address⟩

def array (ty : Ty) (base : IR.ValueId) (length line : Nat) : Descriptor :=
  ⟨.globalVariable, ty, line, .array base length⟩

def function (ret : Ty) (id : IR.FunctionId) (params : List VarDecl) (line : Nat) :
    Descriptor :=
  ⟨.function, ret, line, .function id (params.map fun p => (p.name, p.ty))⟩

end Descriptor

/-- The bindings of one scope, the latest first. -/
abbrev Bindings := List (String × Descriptor)

structure ScopeStack where
  package : Bindings
  /-- The scopes opened inside that of the package, the innermost first. -/
  inner : List Bindings
  deriving DecidableEq, Repr

namespace ScopeStack

def empty : ScopeStack := ⟨[], []⟩

def depth (s : ScopeStack) : Nat :=
  s.inner.length + 1

/-- All scopes, the innermost first. -/
def scopes (s : ScopeStack) : List Bindings :=
  s.inner ++ [s.package]

def push (s : ScopeStack) : ScopeStack :=
  { s with inner := [] :: s.inner }

/-- Closes the innermost scope. The scope of the package stays. -/
def pop? (s : ScopeStack) : Option ScopeStack :=
  match s.inner with
  | [] => none
  | _ :: outer => some { s with inner := outer }

/-- Closes the innermost scope if it is not that of the package. -/
def pop (s : ScopeStack) : ScopeStack :=
  s.pop?.getD s

def innermost (s : ScopeStack) : Bindings :=
  s.inner.headD s.package

/-- Adds a binding to the innermost scope, whether or not the name is free there. -/
def add (s : ScopeStack) (name : String) (d : Descriptor) : ScopeStack :=
  match s.inner with
  | [] => { s with package := (name, d) :: s.package }
  | bindings :: outer => { s with inner := ((name, d) :: bindings) :: outer }

def bind (s : ScopeStack) (name : String) (d : Descriptor) :
    Except CompileError ScopeStack :=
  match s.innermost.lookup name with
  | some previous => .error (.duplicateDefinition name d.line previous.line)
  | none => .ok (s.add name d)

def lookup (s : ScopeStack) (name : String) : Option Descriptor :=
  s.scopes.findSome? (·.lookup name)

def resolve (s : ScopeStack) (name : String) (line : Nat) : Except CompileError Descriptor :=
  match s.lookup name with
  | some d => .ok d
  | none => .error (.unresolvedIdentifier name line)

/-- The descriptor of a name that has to stand for a function. -/
def resolveFunction (s : ScopeStack) (name : String) (line : Nat) :
    Except CompileError Descriptor := do
  let d ← s.resolve name line
  if d.kind.isVariable then .error (.notCallable name line) else .ok d

/-- The descriptor of a name that has to stand for a variable, scalar or array. -/
def resolveStorage (s : ScopeStack) (name : String) (line : Nat) :
    Except CompileError Descriptor := do
  let d ← s.resolve name line
  if d.kind.isVariable then .ok d else .error (.notAVariable name line)

/-- The type and the address of a name that has to stand for a scalar variable. -/
def resolveScalar (s : ScopeStack) (name : String) (line : Nat) :
    Except CompileError (Ty × IR.ValueId) := do
  let d ← s.resolveStorage name line
  match d.handle with
  | .slot address => .ok (d.ty, address)
  | _ => .error (.notAScalar name line)

/-- The element type and the address of a name that has to stand for an array. -/
def resolveArray (s : ScopeStack) (name : String) (line : Nat) :
    Except CompileError (Ty × IR.ValueId) := do
  let d ← s.resolveStorage name line
  match d.handle with
  | .array base _ => .ok (d.ty, base)
  | _ => .error (.notAnArray name line)

/-- The function for which a name stands, and the types of its parameters. The number of
arguments has to be that of the parameters. -/
def resolveCall (s : ScopeStack) (name : String) (args line : Nat) :
    Except CompileError (IR.FunctionId × List Ty) := do
  let d ← s.resolveFunction name line
  match d.handle with
  | .function id params =>
    if params.length = args then .ok (id, params.map (·.2))
    else .error (.arityMismatch name params.length args line)
  | _ => .error (.notCallable name line)

theorem depth_push (s : ScopeStack) : s.push.depth = s.depth + 1 := rfl

theorem pop_push (s : ScopeStack) : s.push.pop = s := rfl

/-- Only the scope of the package cannot be closed. -/
theorem pop?_eq_none_iff {s : ScopeStack} : s.pop? = none ↔ s.depth = 1 := by
  obtain ⟨package, inner⟩ := s
  cases inner <;> simp [pop?, depth]

theorem lookup_push (s : ScopeStack) (name : String) : s.push.lookup name = s.lookup name :=
  rfl

theorem depth_add (s : ScopeStack) (name : String) (d : Descriptor) :
    (s.add name d).depth = s.depth := by
  obtain ⟨package, inner⟩ := s
  cases inner <;> simp [add, depth]

/-- The scopes around the one to which a binding is added stay as they are. -/
theorem pop_add {s : ScopeStack} (inside : s.inner ≠ []) (name : String) (d : Descriptor) :
    (s.add name d).pop = s.pop ∧ (s.add name d).inner ≠ [] := by
  obtain ⟨package, _ | ⟨bindings, outer⟩⟩ := s
  · exact absurd rfl inside
  · exact ⟨rfl, by simp [add]⟩

theorem scopes_eq (s : ScopeStack) : s.scopes = s.innermost :: s.scopes.tail := by
  obtain ⟨package, inner⟩ := s
  cases inner <;> rfl

theorem pop_of_package {s : ScopeStack} (package : s.inner = []) : s.pop = s := by
  rw [pop, pop?, package]
  rfl

theorem scopes_pop {s : ScopeStack} (inside : s.inner ≠ []) : s.pop.scopes = s.scopes.tail := by
  obtain ⟨package, _ | ⟨bindings, outer⟩⟩ := s
  · exact absurd rfl inside
  · rfl

theorem scopes_add (s : ScopeStack) (name : String) (d : Descriptor) :
    (s.add name d).scopes = ((name, d) :: s.innermost) :: s.scopes.tail := by
  obtain ⟨package, inner⟩ := s
  cases inner <;> rfl

theorem bind_eq_ok_iff {s s' : ScopeStack} {name : String} {d : Descriptor} :
    s.bind name d = .ok s' ↔ s.innermost.lookup name = none ∧ s.add name d = s' := by
  unfold bind
  cases s.innermost.lookup name <;> simp

/-- A binding is refused where the name has one, and the refusal tells both lines. -/
theorem bind_eq_error_iff {s : ScopeStack} {name : String} {d : Descriptor} {e : CompileError} :
    s.bind name d = .error e ↔ ∃ previous, s.innermost.lookup name = some previous ∧
      e = .duplicateDefinition name d.line previous.line := by
  unfold bind
  cases s.innermost.lookup name <;> simp [eq_comm]

theorem innermost_lookup_add (s : ScopeStack) (name : String) (d : Descriptor) :
    (s.add name d).innermost.lookup name = some d := by
  obtain ⟨package, inner⟩ := s
  cases inner <;> simp [add, innermost]

/-- A binding hides what the name stood for before and touches no other name. -/
theorem lookup_add (s : ScopeStack) (name other : String) (d : Descriptor) :
    (s.add name d).lookup other = if other = name then some d else s.lookup other := by
  obtain ⟨package, inner⟩ := s
  by_cases h : other = name
  · cases inner <;> simp [add, lookup, scopes, h]
  · have differ : (other == name) = false := beq_false_of_ne h
    cases inner <;>
      simp [add, lookup, scopes, List.lookup_cons, List.findSome?_cons, h, differ]

end ScopeStack

/-- The blocks to which the jumps of a loop go. -/
structure LoopTargets where
  onContinue : IR.BlockId
  onBreak : IR.BlockId
  deriving DecidableEq, Repr

def LoopTargets.target (t : LoopTargets) : Jump → IR.BlockId
  | .break => t.onBreak
  | .continue => t.onContinue

/-- The loops around a statement, the innermost first. -/
structure LoopStack where
  loops : List LoopTargets
  deriving DecidableEq, Repr

namespace LoopStack

def empty : LoopStack := ⟨[]⟩

def depth (s : LoopStack) : Nat := s.loops.length

def push (s : LoopStack) (t : LoopTargets) : LoopStack := ⟨t :: s.loops⟩

def pop (s : LoopStack) : LoopStack := ⟨s.loops.tail⟩

def innermost? (s : LoopStack) : Option LoopTargets := s.loops.head?

end LoopStack

end Decaf
