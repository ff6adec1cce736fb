import Decaf.Language.Constant

/-!
# Programs

The abstract syntax of the language. Every node but a bare block carries the line
it stands on; lines are used in messages only. A block opens a scope: it lists its
variables, then its statements. Lines and lengths of arrays are natural numbers of any size;
those of 32 bits are among them, and none is computed from another.
-/

namespace Decaf

inductive Expr where
  | binary (op : BinaryOp) (lhs rhs : Expr) (line : Nat)
  | unary (op : UnaryOp) (operand : Expr) (line : Nat)
  | var (name : String) (line : Nat)
  | element (array : String) (index : Expr) (line : Nat)
  | call (callee : String) (args : List Expr) (line : Nat)
  | constant (c : Constant)

/-- A variable or a parameter. One without a name can be declared but not used. -/
structure VarDecl where
  name : Option String
  ty : Ty
  line : Nat
  deriving DecidableEq, Repr

inductive Assignment where
  | scalar (name : String) (value : Expr) (line : Nat)
  | element (array : String) (index value : Expr) (line : Nat)

/-- A statement that leaves the pass through a loop in progress. -/
inductive Jump where
  | break
  | continue
  deriving DecidableEq, Repr

mutual

inductive Stmt where
  | block (body : Block)
  | ifElse (cond : Expr) (thenBlock : Block) (elseBlock : Option Block) (line : Nat)
  | while (cond : Expr) (body : Block) (line : Nat)
  | for (init : List Assignment) (cond : Expr) (step : List Assignment) (body : Block)
      (line : Nat)
  | return (value : Option Expr) (line : Nat)
  | jump (kind : Jump) (line : Nat)
  | assign (assignment : Assignment)
  | call (callee : String) (args : List Expr) (line : Nat)

inductive Block where
  | mk (vars : List VarDecl) (stmts : List Stmt)

end

structure ExternDecl where
  name : String
  ret : Ty
  params : List VarDecl
  line : Nat
  deriving DecidableEq, Repr

/-- What a field holds: one value, or an array of as many values as it says. -/
inductive FieldSize where
  | scalar
  | array (length : Nat)
  deriving DecidableEq, Repr

structure FieldDecl where
  name : String
  ty : Ty
  size : FieldSize
  init : Option Constant
  line : Nat
  deriving DecidableEq, Repr

structure Method where
  name : String
  ret : Ty
  params : List VarDecl
  body : Block
  line : Nat

structure Package where
  name : String
  fields : List FieldDecl
  methods : List Method
  line : Nat

structure Program where
  externs : List ExternDecl
  package : Option Package

namespace Block

def vars : Block → List VarDecl
  | mk vars _ => vars

def stmts : Block → List Stmt
  | mk _ stmts => stmts

end Block

def Jump.keyword : Jump → String
  | .break => "break"
  | .continue => "continue"

def Expr.line : Expr → Nat
  | binary _ _ _ line => line
  | unary _ _ line => line
  | var _ line => line
  | element _ _ line => line
  | call _ _ line => line
  | constant c => c.line

def Assignment.line : Assignment → Nat
  | scalar _ _ line => line
  | element _ _ _ line => line

/-- A block as a statement has no line of its own. -/
def Stmt.line? : Stmt → Option Nat
  | block _ => none
  | ifElse _ _ _ line => some line
  | .while _ _ line => some line
  | .for _ _ _ _ line => some line
  | .return _ line => some line
  | jump _ line => some line
  | assign assignment => some assignment.line
  | call _ _ line => some line

end Decaf
