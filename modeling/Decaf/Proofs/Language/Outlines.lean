import Decaf.Proofs.Language.Lexemes
import Decaf.Proofs.Language.Unlined

/-!
# Sketches of programs

Every outline reads as a sketch, in which lists stand beside their neighbours without brackets,
provided that names are words and constants are such as can be built.
-/

namespace Decaf

open Outline Sketch

section Sketches

def Constant.sketch (c : Constant) : Sketch :=
  spread "Constant" [[.leaf c.value.kindName], [.leaf c.lexeme]]

mutual

def Expr.sketch : Expr → Sketch
  | .binary op lhs rhs _ => spread "BinaryExpr" [[.leaf op.name], [lhs.sketch], [rhs.sketch]]
  | .unary op operand _ => spread "UnaryExpr" [[.leaf op.name], [operand.sketch]]
  | .var name _ => spread "VariableExpr" [[.leaf name]]
  | .element array index _ => spread "ArrayLocExpr" [[.leaf array], [index.sketch]]
  | .call callee args _ => spread "MethodCall" [[.leaf callee], splice (Expr.sketches args)]
  | .constant c => c.sketch

def Expr.sketches : List Expr → List Sketch
  | [] => []
  | e :: es => e.sketch :: Expr.sketches es

end

def VarDecl.sketch (v : VarDecl) : Sketch :=
  match v.name with
  | some name => spread "VarDef" [[.leaf name], [.leaf v.ty.name]]
  | none => spread "VarDef" [[.leaf v.ty.name]]

def Assignment.sketch : Assignment → Sketch
  | scalar name value _ => spread "AssignVar" [[.leaf name], [value.sketch]]
  | element array index value _ =>
    spread "AssignArrayLoc" [[.leaf array], [index.sketch], [value.sketch]]

mutual

def Stmt.sketch : Stmt → Sketch
  | .block body => body.sketch
  | .ifElse cond thenBlock elseBlock _ =>
    spread "IfStmt" [[cond.sketch], [thenBlock.sketch], Block.optionalSketch elseBlock]
  | .while cond body _ => spread "WhileStmt" [[cond.sketch], [body.sketch]]
  | .for init cond step body _ =>
    spread "ForStmt" [splice (init.map Assignment.sketch), [cond.sketch],
      splice (step.map Assignment.sketch), [body.sketch]]
  | .return value _ => spread "ReturnStmt" [optional (value.map Expr.sketch)]
  | .jump kind _ => .leaf kind.outline
  | .assign assignment => assignment.sketch
  | .call callee args _ => spread "MethodCall" [[.leaf callee], splice (Expr.sketches args)]

def Stmt.sketches : List Stmt → List Sketch
  | [] => []
  | s :: ss => s.sketch :: Stmt.sketches ss

def Block.sketch : Block → Sketch
  | .mk vars stmts =>
    spread "Block" [splice (vars.map VarDecl.sketch), splice (Stmt.sketches stmts)]

def Block.optionalSketch : Option Block → List Sketch
  | none => [.leaf "None"]
  | some b => [b.sketch]

end

def Block.bodySketch (b : Block) : Sketch :=
  spread "MethodBlock" [splice (b.vars.map VarDecl.sketch), splice (Stmt.sketches b.stmts)]

def ExternDecl.sketch (e : ExternDecl) : Sketch :=
  spread "ExternFunction" [[.leaf e.name], [.leaf e.ret.name], splice (e.params.map VarDecl.sketch)]

def FieldSize.sketch : FieldSize → Sketch
  | scalar => .leaf "Scalar"
  | array length => spread "Array" [[.leaf (toString length)]]

def FieldDecl.sketch (f : FieldDecl) : Sketch :=
  match f.init with
  | some init => spread "AssignGlobalVar" [[.leaf f.name], [.leaf f.ty.name], [init.sketch]]
  | none => spread "FieldDecl" [[.leaf f.name], [.leaf f.ty.name], [f.size.sketch]]

def Method.sketch (m : Method) : Sketch :=
  spread "Method" [[.leaf m.name], [.leaf m.ret.name], splice (m.params.map VarDecl.sketch),
    [m.body.bodySketch]]

def Package.sketch (p : Package) : Sketch :=
  spread "Package" [[.leaf p.name], splice (p.fields.map FieldDecl.sketch),
    splice (p.methods.map Method.sketch)]

def Program.sketch (p : Program) : Sketch :=
  spread "Program" [splice (p.externs.map ExternDecl.sketch),
    optional (p.package.map Package.sketch)]

end Sketches

section Lexical

mutual

/-- Names are words and constants can be built. -/
def Expr.Lexical : Expr → Prop
  | .binary _ lhs rhs _ => lhs.Lexical ∧ rhs.Lexical
  | .unary _ operand _ => operand.Lexical
  | .var name _ => Word name
  | .element array index _ => Word array ∧ index.Lexical
  | .call callee args _ => Word callee ∧ Expr.AllLexical args
  | .constant c => c.Written

def Expr.AllLexical : List Expr → Prop
  | [] => True
  | e :: es => e.Lexical ∧ Expr.AllLexical es

end

def VarDecl.Lexical (v : VarDecl) : Prop :=
  ∀ name ∈ v.name, Word name

def Assignment.Lexical : Assignment → Prop
  | scalar name value _ => Word name ∧ value.Lexical
  | element array index value _ => Word array ∧ index.Lexical ∧ value.Lexical

mutual

def Stmt.Lexical : Stmt → Prop
  | .block body => body.Lexical
  | .ifElse cond thenBlock elseBlock _ =>
    cond.Lexical ∧ thenBlock.Lexical ∧ Block.OptionalLexical elseBlock
  | .while cond body _ => cond.Lexical ∧ body.Lexical
  | .for init cond step body _ =>
    (∀ a ∈ init, a.Lexical) ∧ cond.Lexical ∧ (∀ a ∈ step, a.Lexical) ∧ body.Lexical
  | .return value _ => ∀ e ∈ value, e.Lexical
  | .jump _ _ => True
  | .assign assignment => assignment.Lexical
  | .call callee args _ => Word callee ∧ Expr.AllLexical args

def Stmt.AllLexical : List Stmt → Prop
  | [] => True
  | s :: ss => s.Lexical ∧ Stmt.AllLexical ss

def Block.Lexical : Block → Prop
  | .mk vars stmts => (∀ v ∈ vars, v.Lexical) ∧ Stmt.AllLexical stmts

def Block.OptionalLexical : Option Block → Prop
  | none => True
  | some b => b.Lexical

end

def ExternDecl.Lexical (e : ExternDecl) : Prop :=
  Word e.name ∧ ∀ v ∈ e.params, v.Lexical

/-- An outline does not show the size of an initialized field, which has to be a scalar. -/
def FieldDecl.Lexical (f : FieldDecl) : Prop :=
  Word f.name ∧ ∀ c ∈ f.init, c.Written ∧ f.size = .scalar

def Method.Lexical (m : Method) : Prop :=
  Word m.name ∧ (∀ v ∈ m.params, v.Lexical) ∧ m.body.Lexical

def Package.Lexical (p : Package) : Prop :=
  Word p.name ∧ (∀ f ∈ p.fields, f.Lexical) ∧ ∀ m ∈ p.methods, m.Lexical

def Program.Lexical (p : Program) : Prop :=
  (∀ e ∈ p.externs, e.Lexical) ∧ ∀ q ∈ p.package, q.Lexical

end Lexical

section Reading

theorem BinaryOp.word_name (op : BinaryOp) : Word op.name := by
  cases op <;> decide

theorem UnaryOp.word_name (op : UnaryOp) : Word op.name := by
  cases op <;> decide

theorem Ty.word_name (ty : Ty) : Word ty.name := by
  cases ty <;> decide

theorem Literal.word_kindName (v : Literal) : Word v.kindName := by
  cases v <;> simp only [Literal.kindName] <;> decide

theorem Jump.word_outline (kind : Jump) : Word kind.outline := by
  cases kind <;> decide

theorem Constant.reads {c : Constant} (h : c.Written) : Reads c.outline [c.sketch] :=
  .node (by decide) (.word c.value.word_kindName) (.cons (.leaf h.displays.lexeme) .nil)

mutual

theorem Expr.reads : ∀ {e : Expr}, e.Lexical → Reads e.outline [e.sketch]
  | .binary op _ _ _, h =>
    .node (by decide) (.word op.word_name)
      (.cons (Expr.reads h.1) (.cons (Expr.reads h.2) .nil))
  | .unary op operand _, h =>
    .node (by decide) (.word op.word_name) (.cons (Expr.reads (e := operand) h) .nil)
  | .var _ _, h => .node (by decide) (.word h) .nil
  | .element _ _ _, h => .node (by decide) (.word h.1) (.cons (Expr.reads h.2) .nil)
  | .call _ _ _, h =>
    .node (by decide) (.word h.1) (.cons (.sequence (Expr.reads_all h.2)) .nil)
  | .constant _, h => Constant.reads h

theorem Expr.reads_all : ∀ {es : List Expr}, Expr.AllLexical es →
    List.Forall₂ (fun text part => Reads text [part]) (Expr.outlines es) (Expr.sketches es)
  | [], _ => .nil
  | _ :: _, h => .cons (Expr.reads h.1) (Expr.reads_all h.2)

end

theorem VarDecl.reads {v : VarDecl} (h : v.Lexical) : Reads v.outline [v.sketch] := by
  obtain ⟨name, ty, line⟩ := v
  cases name with
  | none => exact .node (by decide) (.word ty.word_name) .nil
  | some name =>
    exact .node (by decide) (.word (h name rfl)) (.cons (.word ty.word_name) .nil)

theorem Assignment.reads : ∀ {a : Assignment}, a.Lexical → Reads a.outline [a.sketch]
  | scalar _ _ _, h => .node (by decide) (.word h.1) (.cons (Expr.reads h.2) .nil)
  | element _ _ _ _, h =>
    .node (by decide) (.word h.1) (.cons (Expr.reads h.2.1) (.cons (Expr.reads h.2.2) .nil))

mutual

theorem Stmt.reads : ∀ {s : Stmt}, s.Lexical → Reads s.outline [s.sketch]
  | .block body, h => Block.reads (b := body) h
  | .ifElse _ _ _ _, h =>
    .node (by decide) (Expr.reads h.1) (.cons (Block.reads h.2.1)
      (.cons (Block.reads_optional h.2.2) .nil))
  | .while _ _ _, h => .node (by decide) (Expr.reads h.1) (.cons (Block.reads h.2) .nil)
  | .for _ _ _ _ _, h =>
    .node (by decide) (.map fun a ha => Assignment.reads (h.1 a ha))
      (.cons (Expr.reads h.2.1) (.cons (.map fun a ha => Assignment.reads (h.2.2.1 a ha))
        (.cons (Block.reads h.2.2.2) .nil)))
  | .return _ _, h => .node (by decide) (.optional fun e he => Expr.reads (h e he)) .nil
  | .jump kind _, _ => .word kind.word_outline
  | .assign a, h => Assignment.reads (a := a) h
  | .call _ _ _, h =>
    .node (by decide) (.word h.1) (.cons (.sequence (Expr.reads_all h.2)) .nil)

theorem Stmt.reads_all : ∀ {ss : List Stmt}, Stmt.AllLexical ss →
    List.Forall₂ (fun text part => Reads text [part]) (Stmt.outlines ss) (Stmt.sketches ss)
  | [], _ => .nil
  | _ :: _, h => .cons (Stmt.reads h.1) (Stmt.reads_all h.2)

theorem Block.reads : ∀ {b : Block}, b.Lexical → Reads b.outline [b.sketch]
  | .mk _ _, h =>
    .node (by decide) (.map fun v hv => VarDecl.reads (h.1 v hv))
      (.cons (.sequence (Stmt.reads_all h.2)) .nil)

theorem Block.reads_optional : ∀ {b : Option Block}, Block.OptionalLexical b →
    Reads (Block.optionalOutline b) (Block.optionalSketch b)
  | none, _ => .none
  | some b, h => Block.reads (b := b) h

end

theorem Block.reads_body : ∀ {b : Block}, b.Lexical → Reads b.bodyOutline [b.bodySketch]
  | .mk _ _, h =>
    .node (by decide) (.map fun v hv => VarDecl.reads (h.1 v hv))
      (.cons (.sequence (Stmt.reads_all h.2)) .nil)

theorem ExternDecl.reads {e : ExternDecl} (h : e.Lexical) : Reads e.outline [e.sketch] :=
  .node (by decide) (.word h.1) (.cons (.word e.ret.word_name)
    (.cons (.map fun v hv => VarDecl.reads (h.2 v hv)) .nil))

theorem FieldSize.reads : ∀ size : FieldSize, Reads size.outline [size.sketch]
  | scalar => .word (by decide)
  | array length => .node (by decide) (.word (word_decimal length)) .nil

theorem FieldDecl.reads {f : FieldDecl} (h : f.Lexical) : Reads f.outline [f.sketch] := by
  obtain ⟨name, ty, size, init, line⟩ := f
  cases init with
  | none =>
    exact .node (by decide) (.word h.1) (.cons (.word ty.word_name)
      (.cons (FieldSize.reads size) .nil))
  | some c =>
    exact .node (by decide) (.word h.1) (.cons (.word ty.word_name)
      (.cons (Constant.reads (h.2 c rfl).1) .nil))

theorem Method.reads {m : Method} (h : m.Lexical) : Reads m.outline [m.sketch] :=
  .node (by decide) (.word h.1) (.cons (.word m.ret.word_name)
    (.cons (.map fun v hv => VarDecl.reads (h.2.1 v hv))
      (.cons (Block.reads_body h.2.2) .nil)))

theorem Package.reads {p : Package} (h : p.Lexical) : Reads p.outline [p.sketch] :=
  .node (by decide) (.word h.1)
    (.cons (.map fun f hf => FieldDecl.reads (h.2.1 f hf))
      (.cons (.map fun m hm => Method.reads (h.2.2 m hm)) .nil))

/-- The outline of a program reads as the sketch of the program. -/
theorem Program.reads {p : Program} (h : p.Lexical) : Reads p.outline [p.sketch] :=
  .node (by decide) (.map fun e he => ExternDecl.reads (h.1 e he))
    (.cons (.optional fun q hq => Package.reads (h.2 q hq)) .nil)

end Reading

end Decaf
