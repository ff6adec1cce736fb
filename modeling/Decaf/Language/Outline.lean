import Decaf.Language.Program

/-!
# Outlines

The outline of a node is its syntax tree on one line: the kind of the node and, in
parentheses and separated by commas, its parts. An empty list and a missing part are
both shown as `None`. Lines are left out.
-/

namespace Decaf.Outline

/-- A node of the given kind with the given parts. -/
def node (kind : String) (parts : List String) : String :=
  kind ++ "(" ++ ",".intercalate parts ++ ")"

/-- A list of parts; the empty one is shown by a word. -/
def sequence (parts : List String) : String :=
  if parts.isEmpty then "None" else ",".intercalate parts

def optional (part : Option String) : String :=
  part.getD "None"

end Decaf.Outline

namespace Decaf

open Outline

def Constant.outline (c : Constant) : String :=
  node "Constant" [c.value.kindName, c.lexeme]

mutual

def Expr.outline : Expr → String
  | .binary op lhs rhs _ => node "BinaryExpr" [op.name, lhs.outline, rhs.outline]
  | .unary op operand _ => node "UnaryExpr" [op.name, operand.outline]
  | .var name _ => node "VariableExpr" [name]
  | .element array index _ => node "ArrayLocExpr" [array, index.outline]
  | .call callee args _ => node "MethodCall" [callee, sequence (Expr.outlines args)]
  | .constant c => c.outline

def Expr.outlines : List Expr → List String
  | [] => []
  | e :: es => e.outline :: Expr.outlines es

end

def VarDecl.outline (v : VarDecl) : String :=
  match v.name with
  | some name => node "VarDef" [name, v.ty.name]
  | none => node "VarDef" [v.ty.name]

def Assignment.outline : Assignment → String
  | scalar name value _ => node "AssignVar" [name, value.outline]
  | element array index value _ => node "AssignArrayLoc" [array, index.outline, value.outline]

def Jump.outline : Jump → String
  | .break => "BreakStmt"
  | .continue => "ContinueStmt"

mutual

def Stmt.outline : Stmt → String
  | .block body => body.outline
  | .ifElse cond thenBlock elseBlock _ =>
    node "IfStmt" [cond.outline, thenBlock.outline, Block.optionalOutline elseBlock]
  | .while cond body _ => node "WhileStmt" [cond.outline, body.outline]
  | .for init cond step body _ =>
    node "ForStmt" [sequence (init.map Assignment.outline), cond.outline,
      sequence (step.map Assignment.outline), body.outline]
  | .return value _ => node "ReturnStmt" [optional (value.map Expr.outline)]
  | .jump kind _ => kind.outline
  | .assign assignment => assignment.outline
  | .call callee args _ => node "MethodCall" [callee, sequence (Expr.outlines args)]

def Stmt.outlines : List Stmt → List String
  | [] => []
  | s :: ss => s.outline :: Stmt.outlines ss

def Block.outline : Block → String
  | .mk vars stmts =>
    node "Block" [sequence (vars.map VarDecl.outline), sequence (Stmt.outlines stmts)]

def Block.optionalOutline : Option Block → String
  | none => "None"
  | some b => b.outline

end

/-- The outline of a block that is the body of a method. -/
def Block.bodyOutline (b : Block) : String :=
  node "MethodBlock" [sequence (b.vars.map VarDecl.outline), sequence (Stmt.outlines b.stmts)]

/-- The outline of a list of statements standing alone. -/
def Stmt.listOutline (stmts : List Stmt) : String :=
  sequence (Stmt.outlines stmts)

def ExternDecl.outline (e : ExternDecl) : String :=
  node "ExternFunction" [e.name, e.ret.name, sequence (e.params.map VarDecl.outline)]

def FieldSize.outline : FieldSize → String
  | scalar => "Scalar"
  | array length => node "Array" [toString length]

/-- An initialized field is shown by its initializer instead of its size. -/
def FieldDecl.outline (f : FieldDecl) : String :=
  match f.init with
  | some init => node "AssignGlobalVar" [f.name, f.ty.name, init.outline]
  | none => node "FieldDecl" [f.name, f.ty.name, f.size.outline]

def Method.outline (m : Method) : String :=
  node "Method" [m.name, m.ret.name, sequence (m.params.map VarDecl.outline),
    m.body.bodyOutline]

def Package.outline (p : Package) : String :=
  node "Package" [p.name, sequence (p.fields.map FieldDecl.outline),
    sequence (p.methods.map Method.outline)]

def Program.outline (p : Program) : String :=
  node "Program" [sequence (p.externs.map ExternDecl.outline),
    optional (p.package.map Package.outline)]

end Decaf
