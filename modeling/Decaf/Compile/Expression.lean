import Decaf.Compile.Emit

/-!
# Code for expressions

An expression becomes instructions that leave its value; only a call of a void function
leaves none. Operands are evaluated from left to right. The connectives `and` and `or`
branch around their right operand and merge the two outcomes by a phi.
-/

namespace Decaf

open IR

/-- The operators that may leave their right operand unevaluated. -/
inductive Connective where
  | and | or
  deriving DecidableEq, Repr

/-- How a binary operator is carried out: by one instruction, whose value is named by
the hint, or by a branch. -/
inductive Strategy where
  | instruction (op : BinOp) (hint : String)
  | connective (c : Connective)
  deriving DecidableEq, Repr

def BinaryOp.strategy : BinaryOp → Strategy
  | mul => .instruction .mul "mul"
  | div => .instruction .sdiv "div"
  | mod => .instruction .srem "rem"
  | add => .instruction .add "add"
  | sub => .instruction .sub "sub"
  | shl => .instruction .shl "shl"
  | shr => .instruction .lshr "shr"
  | eq => .instruction .eq "eq"
  | ne => .instruction .ne "ne"
  | ge => .instruction .sge "ge"
  | le => .instruction .sle "le"
  | gt => .instruction .sgt "gt"
  | lt => .instruction .slt "lt"
  | and => .connective .and
  | or => .connective .or

namespace Connective

def name : Connective → String
  | and => "and"
  | or => "or"

/-- The block to which the left operand leads if it is true, then that if it is false. -/
def branches (c : Connective) (rhs done : BlockId) : BlockId × BlockId :=
  match c with
  | and => (rhs, done)
  | or => (done, rhs)

end Connective

namespace Gen

variable {τ : Type} [Target τ]

/-- Insists that an expression, which stands on the given line, leaves a value. -/
def asValue (line : Nat) (e : Gen τ (Option ValueId)) : Gen τ ValueId := do
  match ← e with
  | some v => return v
  | none => throw (.voidValue line)

/-- If the operands have different types, truth values among them become integers. -/
def instruction (op : BinOp) (hint : String) (lhs rhs : Gen τ ValueId) : Gen τ ValueId := do
  let l ← lhs
  let r ← rhs
  if (← typeOf l) = (← typeOf r) then
    emit (.binary op l r hint)
  else
    let l ← coerce l .int
    let r ← coerce r .int
    emit (.binary op l r hint)

/-- Evaluates the right operand in a block of its own, which the left one may pass by. -/
def connective (m : MethodContext) (c : Connective) (lhs rhs : Gen τ ValueId) :
    Gen τ ValueId := do
  let l ← lhs
  let rhsBlock ← appendBlock m (c.name ++ ".rhs")
  let doneBlock ← appendBlock m (c.name ++ ".end")
  let lhsExit ← insertionBlock m
  let (onTrue, onFalse) := c.branches rhsBlock doneBlock
  emit (.terminate (.condBr l onTrue onFalse))
  emit (.positionAtEnd rhsBlock)
  let r ← rhs
  let rhsExit ← insertionBlock m
  let _ ← branchIfOpen doneBlock
  emit (.positionAtEnd doneBlock)
  emit (.phi .i1 [(l, lhsExit), (r, rhsExit)] c.name)

def constant : Literal → Gen τ ValueId
  | .int n => emit (.const (.i32 n))
  | .bool b => emit (.const (.bool b))
  | .string text => emit (.globalString text)

def variableValue (name : String) (line : Nat) : Gen τ ValueId := do
  let (ty, address) ← fromScopes fun s => s.resolveScalar name line
  emit (.load ty.repr address name)

mutual

def expr (m : MethodContext) : Expr → Gen τ (Option ValueId)
  | .binary op lhs rhs _ =>
    match op.strategy with
    | .instruction bin hint =>
      some <$> instruction bin hint
        (asValue lhs.line (expr m lhs)) (asValue rhs.line (expr m rhs))
    | .connective c =>
      some <$> connective m c
        (asValue lhs.line (expr m lhs)) (asValue rhs.line (expr m rhs))
  | .unary op operand _ => do
    let v ← asValue operand.line (expr m operand)
    match op with
    | .not => some <$> emit (.unary .not v "not")
    | .neg => some <$> emit (.unary .neg v "neg")
  | .var name line => some <$> variableValue name line
  | .element array index line => do
    let (ty, base) ← fromScopes fun s => s.resolveArray array line
    let i ← asValue index.line (expr m index)
    let address ← emit (.elementPtr ty.repr base i)
    some <$> emit (.load ty.repr address (array ++ ".elem"))
  | .call callee args line => do
    let (f, params) ← fromScopes fun s => s.resolveCall callee args.length line
    let values ← arguments m args params
    emit (.call f values)
  | .constant c => some <$> constant c.value

/-- Arguments from left to right, each as its parameter wants it. -/
def arguments (m : MethodContext) : List Expr → List Decaf.Ty → Gen τ (List ValueId)
  | e :: es, ty :: tys => do
    let v ← asValue e.line (expr m e)
    let v ← coerce v ty
    let vs ← arguments m es tys
    return v :: vs
  | _, _ => return []

end

/-- An expression that has to leave a value. -/
def value (m : MethodContext) (e : Expr) : Gen τ ValueId :=
  asValue e.line (expr m e)

end Gen

end Decaf
