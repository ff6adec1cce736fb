import Decaf.Execution.Step
import Decaf.Language.Program

/-!
# Direct evaluation

What a program means without any code: its syntax is evaluated with variables that hold
data. Integers wrap at 32 bits, but division does not: the least integer divided by -1, and
the remainder of that division, fail as division by zero does. Operands are evaluated from
left to right and conditions only as far as they are needed, and a truth value counts as an
integer where an integer is wanted. The externs are answered from outside, by a reply for
each request in turn. Evaluation is given a number of rounds, which bounds the passes through
each loop and the calls inside each other; if these do not suffice it is unfinished.
-/

namespace Decaf.Meaning

open Execution (Divides Pointer shiftLeft shiftRight)

/-- A string is a text of the program, or one of which only the address is known. -/
inductive Str where
  | text (s : String)
  | address (p : Pointer)
  deriving DecidableEq, Repr

inductive Datum where
  | int (n : Int32)
  | bool (b : Bool)
  | string (s : Str)
  deriving DecidableEq, Repr

namespace Datum

def ty : Datum → Ty
  | int _ => .int
  | bool _ => .bool
  | string _ => .string

/-- What a variable of the type holds before it is assigned to. -/
def zero : Ty → Datum
  | .int | .void => int 0
  | .bool => bool false
  | .string => string (.address .null)

/-- The result of a method that ends without having named one. -/
def default (ty : Ty) : Datum :=
  if ty = .bool then bool true else zero ty

def ofLiteral : Literal → Datum
  | .int n => int n
  | .bool b => bool b
  | .string s => string (.text s)

/-- What comes from outside, as an argument or a reply. -/
def ofValue : Execution.Value → Datum
  | .int n => int n
  | .bool b => bool b
  | .pointer p => string (.address p)

/-- A truth value as an integer. -/
def widen : Datum → Datum
  | bool b => int (if b then 1 else 0)
  | d => d

/-- The datum as a variable or a parameter of the type takes it. -/
def convert? (wanted : Ty) (d : Datum) : Option Datum :=
  let d := if wanted = .int then d.widen else d
  if d.ty = wanted then some d else none

end Datum

inductive Failure where
  | divisionByZero
  | outOfBounds (index : Int) (length : Nat)
  | unboundExtern (name : String)
  deriving DecidableEq, Repr

/-- Why there is no result. An operation is mistyped if it has no meaning for data of the
types given, and a phrase is meaningless if its names do not stand for what it needs. -/
inductive Stop where
  | failure (f : Failure)
  | mistyped
  | meaningless
  | unfinished
  deriving DecidableEq, Repr

/-- A call of an extern. -/
structure Request where
  callee : String
  args : List Datum
  deriving DecidableEq, Repr

/-- The elements of all fields, of a scalar one the first, and the requests made so far. -/
structure Situation where
  fields : String → Nat → Datum
  requests : List Request

abbrev Eval := ExceptT Stop (StateM Situation)

/-- The declarations of a program. -/
structure Source where
  externs : List ExternDecl
  package : Package

inductive Member where
  | foreign (e : ExternDecl)
  | field (f : FieldDecl)
  | method (d : Method)

def Member.name : Member → String
  | foreign e => e.name
  | field f => f.name
  | method d => d.name

def Source.members (S : Source) : List Member :=
  S.externs.map .foreign ++ S.package.fields.map .field ++ S.package.methods.map .method

theorem Source.names_members (S : Source) : S.members.map Member.name =
    S.externs.map (·.name) ++ S.package.fields.map (·.name) ++
      S.package.methods.map (·.name) := by
  rw [members, List.map_append, List.map_append, List.map_map, List.map_map, List.map_map]
  rfl

/-- What is declared under a name. -/
def Source.member? (S : Source) (name : String) : Option Member :=
  S.members.find? (·.name == name)

structure Variable where
  ty : Ty
  value : Datum
  deriving DecidableEq, Repr

/-- The variables of all open blocks, the innermost and latest first. -/
abbrev Locals := List (String × Variable)

def Locals.assign : Locals → String → Datum → Locals
  | [], _, _ => []
  | (other, x) :: rest, name, d =>
    if other = name then (other, { x with value := d }) :: rest
    else (other, x) :: assign rest name d

/-- Variables of a block, which begin with zero. Those without a name are of no use. -/
def Locals.declare (locals : Locals) : List VarDecl → Locals
  | [] => locals
  | var :: vars =>
    match var.name with
    | none => locals.declare vars
    | some name => Locals.declare ((name, ⟨var.ty, .zero var.ty⟩) :: locals) vars

/-- The parameters of a method with their arguments. -/
def Locals.bind (locals : Locals) : List VarDecl → List Datum → Locals
  | param :: params, d :: args =>
    match param.name with
    | none => locals.bind params args
    | some name => Locals.bind ((name, ⟨param.ty, d⟩) :: locals) params args
  | _, _ => locals

section Operators

/-- Which integers can be divided (`Divides`), and how far a shift goes, is as for the machine:
the least integer has no quotient and no remainder by -1, although the other operators wrap. -/
def onIntegers (op : BinaryOp) (a b : Int32) : Except Stop Datum :=
  match op with
  | .add => .ok (.int (a + b))
  | .sub => .ok (.int (a - b))
  | .mul => .ok (.int (a * b))
  | .div => if Divides a b then .ok (.int (a / b)) else .error (.failure .divisionByZero)
  | .mod => if Divides a b then .ok (.int (a % b)) else .error (.failure .divisionByZero)
  | .shl => .ok (.int (shiftLeft a b))
  | .shr => .ok (.int (shiftRight a b))
  | .eq => .ok (.bool (a == b))
  | .ne => .ok (.bool (a != b))
  | .ge => .ok (.bool (b ≤ a))
  | .le => .ok (.bool (a ≤ b))
  | .gt => .ok (.bool (b < a))
  | .lt => .ok (.bool (a < b))
  | .and | .or => .error .mistyped

/-- Two truth values can only be compared for equality. If one operand is an integer, the
other is taken as one. -/
def onData (op : BinaryOp) (l r : Datum) : Except Stop Datum :=
  match l, r with
  | .int a, .int b => onIntegers op a b
  | .bool a, .bool b =>
    match op with
    | .eq => .ok (.bool (a == b))
    | .ne => .ok (.bool (a != b))
    | _ => .error .mistyped
  | .int a, .bool b => onIntegers op a (if b then 1 else 0)
  | .bool a, .int b => onIntegers op (if a then 1 else 0) b
  | _, _ => .error .mistyped

def onDatum (op : UnaryOp) (d : Datum) : Except Stop Datum :=
  match op, d with
  | .not, .bool b => .ok (.bool (!b))
  | .not, .int n => .ok (.int (~~~n))
  | .neg, .int n => .ok (.int (-n))
  | _, _ => .error .mistyped

end Operators

namespace Eval

def expect (ty : Ty) (d : Datum) : Eval Datum :=
  if d.ty = ty then return d else throw .mistyped

def convert (wanted : Ty) (d : Datum) : Eval Datum :=
  match d.convert? wanted with
  | some d => return d
  | none => throw .mistyped

def integer : Datum → Eval Int32
  | .int n => return n
  | _ => throw .mistyped

def truth : Datum → Eval Bool
  | .bool b => return b
  | _ => throw .mistyped

def asValue (e : Eval (Option Datum)) : Eval Datum := do
  match ← e with
  | some d => return d
  | none => throw .meaningless

/-- The index, if an array of that length has it. -/
def within (index : Int32) (length : Nat) : Eval Nat :=
  if 0 ≤ index.toInt ∧ index.toInt < length then return index.toInt.toNat
  else throw (.failure (.outOfBounds index.toInt length))

def readField (f : FieldDecl) (i : Nat) : Eval Datum := do
  expect f.ty ((← get).fields f.name i)

def writeField (f : FieldDecl) (i : Nat) (d : Datum) : Eval Unit :=
  modify fun s => { s with
    fields := fun name j => if name = f.name ∧ j = i then d else s.fields name j }

def binary (op : BinaryOp) (lhs rhs : Eval Datum) : Eval Datum := do
  let l ← lhs
  match op with
  | .and => if ← truth l then return .bool (← truth (← rhs)) else return .bool false
  | .or => if ← truth l then return .bool true else return .bool (← truth (← rhs))
  | op =>
    let r ← rhs
    liftM (onData op l r)

def unary (op : UnaryOp) (operand : Eval Datum) : Eval Datum := do
  let d ← operand
  liftM (onDatum op d)

section Names

variable (S : Source)

/-- The scalar variable or field of that name. -/
def readScalar (locals : Locals) (name : String) : Eval Datum :=
  match locals.lookup name with
  | some x => expect x.ty x.value
  | none =>
    match S.member? name with
    | some (.field f) =>
      match f.size with
      | .scalar => readField f 0
      | .array _ => throw .meaningless
    | _ => throw .meaningless

/-- The field of that name and its length, if it is an array. -/
def array (locals : Locals) (name : String) : Eval (FieldDecl × Nat) :=
  match locals.lookup name with
  | some _ => throw .meaningless
  | none =>
    match S.member? name with
    | some (.field f) =>
      match f.size with
      | .array length => return (f, length)
      | .scalar => throw .meaningless
    | _ => throw .meaningless

/-- The type of the scalar variable or field of that name. -/
def scalarTy (locals : Locals) (name : String) : Eval Ty :=
  match locals.lookup name with
  | some x => return x.ty
  | none =>
    match S.member? name with
    | some (.field f) =>
      match f.size with
      | .scalar => return f.ty
      | .array _ => throw .meaningless
    | _ => throw .meaningless

def writeScalar (locals : Locals) (name : String) (d : Datum) : Eval Locals :=
  match locals.lookup name with
  | some _ => return locals.assign name d
  | none =>
    match S.member? name with
    | some (.field f) => do
      writeField f 0 d
      return locals
    | _ => throw .meaningless

def element (locals : Locals) (name : String) (index : Eval Datum) : Eval Datum := do
  let (f, length) ← array S locals name
  let i ← integer (← index)
  let i ← within i length
  readField f i

def assignScalar (locals : Locals) (name : String) (value : Eval Datum) : Eval Locals := do
  let ty ← scalarTy S locals name
  let d ← convert ty (← value)
  writeScalar S locals name d

/-- The index is checked after the value to be assigned was evaluated. -/
def assignElement (locals : Locals) (name : String) (index value : Eval Datum) : Eval Locals := do
  let (f, length) ← array S locals name
  let i ← integer (← index)
  let d ← convert f.ty (← value)
  let i ← within i length
  writeField f i d
  return locals

/-- What is called under a name. -/
inductive Callee where
  | foreign (e : ExternDecl)
  | method (d : Method)

def Callee.params : Callee → List Ty
  | foreign e => e.params.map (·.ty)
  | method d => d.params.map (·.ty)

def callee (locals : Locals) (name : String) (args : Nat) : Eval Callee :=
  match locals.lookup name with
  | some _ => throw .meaningless
  | none =>
    match S.member? name with
    | some (.foreign e) => if e.params.length = args then return .foreign e else throw .meaningless
    | some (.method d) => if d.params.length = args then return .method d else throw .meaningless
    | _ => throw .meaningless

end Names

/-- Asks an extern. The replies are numbered by the requests before them; where there is
none the extern is not bound. -/
def ask (replies : Nat → Option (Option Execution.Value)) (e : ExternDecl) (args : List Datum) :
    Eval (Option Datum) := do
  let s ← get
  match replies s.requests.length with
  | none => throw (.failure (.unboundExtern e.name))
  | some reply =>
    modify fun s => { s with requests := s.requests ++ [⟨e.name, args⟩] }
    if e.ret = .void then return none
    else
      match reply with
      | some x => return some (← expect e.ret (.ofValue x))
      | none => throw .mistyped

/-- How a statement ends. -/
inductive Signal where
  | next
  | jump (kind : Jump)
  | return (result : Option Datum)

/-- Passes through a loop, as many as there are rounds at most. -/
def loop (test : Locals → Eval Bool) (pass : Locals → Eval (Signal × Locals))
    (after : Locals → Eval Locals) : Nat → Locals → Eval (Signal × Locals)
  | 0, _ => throw .unfinished
  | rounds + 1, locals => do
    if ← test locals then
      let (signal, locals) ← pass locals
      match signal with
      | .jump .break => return (.next, locals)
      | .return result => return (.return result, locals)
      | .next | .jump .continue => loop test pass after rounds (← after locals)
    else
      return (.next, locals)

def branch (test : Locals → Eval Bool) (yes no : Locals → Eval (Signal × Locals))
    (locals : Locals) : Eval (Signal × Locals) := do
  if ← test locals then yes locals else no locals

/-- The variables of a block are gone when it ends. -/
def inBlock (vars : List VarDecl) (body : Locals → Eval (Signal × Locals)) (locals : Locals) :
    Eval (Signal × Locals) := do
  let (signal, after) ← body (locals.declare vars)
  return (signal, after.drop (after.length - locals.length))

/-- One statement, and the others unless control has left. -/
def sequence (first others : Locals → Eval (Signal × Locals)) (locals : Locals) :
    Eval (Signal × Locals) := do
  let (signal, locals) ← first locals
  match signal with
  | .next => others locals
  | _ => return (signal, locals)

section Phrases

variable (S : Source) (call : Callee → List Datum → Eval (Option Datum))

mutual

def expr (locals : Locals) : Expr → Eval (Option Datum)
  | .binary op lhs rhs _ =>
    some <$> binary op (asValue (expr locals lhs)) (asValue (expr locals rhs))
  | .unary op operand _ => some <$> unary op (asValue (expr locals operand))
  | .var name _ => some <$> readScalar S locals name
  | .element name index _ => some <$> element S locals name (asValue (expr locals index))
  | .call name args _ => do
    let callee ← callee S locals name args.length
    let args ← arguments locals args callee.params
    call callee args
  | .constant c => return some (.ofLiteral c.value)

/-- Arguments from left to right, each as its parameter wants it. -/
def arguments (locals : Locals) : List Expr → List Ty → Eval (List Datum)
  | e :: es, ty :: tys => do
    let d ← convert ty (← asValue (expr locals e))
    let ds ← arguments locals es tys
    return d :: ds
  | _, _ => return []

end

def value (locals : Locals) (e : Expr) : Eval Datum :=
  asValue (expr S call locals e)

def condition (e : Expr) (locals : Locals) : Eval Bool := do
  truth (← value S call locals e)

def assignment (a : Assignment) (locals : Locals) : Eval Locals :=
  match a with
  | .scalar name e _ => assignScalar S locals name (value S call locals e)
  | .element name index e _ =>
    assignElement S locals name (value S call locals index) (value S call locals e)

def assignments (as : List Assignment) (locals : Locals) : Eval Locals :=
  match as with
  | [] => return locals
  | a :: as => do assignments as (← assignment S call a locals)

/-- Without a result a method that owes one returns the default. -/
def returned (ret : Ty) (result : Option Expr) (locals : Locals) : Eval (Signal × Locals) :=
  match result with
  | none => return (.return (if ret = .void then none else some (.default ret)), locals)
  | some e => do
    if ret = .void then throw .meaningless
    let d ← convert ret (← value S call locals e)
    return (.return (some d), locals)

variable (ret : Ty) (rounds : Nat)

mutual

/-- A jump for which there is no loop does nothing. -/
def stmt (inside : Bool) : Stmt → Locals → Eval (Signal × Locals)
  | .block body => block inside body
  | .ifElse cond thenBlock elseBlock _ =>
    branch (condition S call cond) (block inside thenBlock) (optionalBlock inside elseBlock)
  | .while cond body _ => loop (condition S call cond) (block true body) pure rounds
  | .for init cond step body _ => fun locals => do
    loop (condition S call cond) (block true body) (assignments S call step) rounds
      (← assignments S call init locals)
  | .return result _ => returned S call ret result
  | .jump kind _ => fun locals => return (if inside then .jump kind else .next, locals)
  | .assign a => fun locals => return (.next, ← assignment S call a locals)
  | .call name args line => fun locals => do
    let _ ← expr S call locals (.call name args line)
    return (.next, locals)

def stmts (inside : Bool) : List Stmt → Locals → Eval (Signal × Locals)
  | [] => fun locals => return (.next, locals)
  | s :: ss => sequence (stmt inside s) (stmts inside ss)

def block (inside : Bool) : Block → Locals → Eval (Signal × Locals)
  | .mk vars body => inBlock vars (stmts inside body)

def optionalBlock (inside : Bool) : Option Block → Locals → Eval (Signal × Locals)
  | none => fun locals => return (.next, locals)
  | some b => block inside b

end

end Phrases

section Calls

variable (S : Source) (replies : Nat → Option (Option Execution.Value))

/-- Calls what was named. The body of a method has one round less. -/
def invoke : Nat → Callee → List Datum → Eval (Option Datum)
  | _, .foreign e, args => ask replies e args
  | 0, .method _, _ => throw .unfinished
  | rounds + 1, .method d, args => do
    let locals := (Locals.bind [] d.params args).declare d.body.vars
    let (signal, _) ← stmts S (invoke rounds) d.ret rounds false d.body.stmts locals
    match signal with
    | .return result => return result
    | _ => return if d.ret = .void then none else some (.default d.ret)

end Calls

end Eval

/-- Evaluates a call of a method from outside. -/
def Source.evaluate (S : Source) (replies : Nat → Option (Option Execution.Value)) (rounds : Nat)
    (d : Method) (args : List Execution.Value) (fields : String → Nat → Datum) :
    Except Stop (Option Datum) × Situation :=
  (Eval.invoke S replies rounds (.method d) (args.map .ofValue)).run.run ⟨fields, []⟩

/-- What the elements of a field start with. -/
def initialDatum (f : FieldDecl) : Datum :=
  match f.size, f.init with
  | .scalar, some c => ((Datum.ofLiteral c.value).convert? f.ty).getD (.zero f.ty)
  | _, _ => .zero f.ty

/-- The fields before the first call. -/
def Source.initialFields (S : Source) (name : String) (_ : Nat) : Datum :=
  match S.package.fields.find? (·.name == name) with
  | some f => initialDatum f
  | none => .int 0

end Decaf.Meaning
