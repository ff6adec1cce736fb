import Decaf.Language.Outline

/-!
# Programs without their lines

Two programs are equal up to lines if they are equal once the lines are taken out. Outlines do
not see the difference.
-/

namespace Decaf

def Constant.unlined (c : Constant) : Constant :=
  { c with line := 0 }

mutual

def Expr.unlined : Expr → Expr
  | .binary op lhs rhs _ => .binary op lhs.unlined rhs.unlined 0
  | .unary op operand _ => .unary op operand.unlined 0
  | .var name _ => .var name 0
  | .element array index _ => .element array index.unlined 0
  | .call callee args _ => .call callee (Expr.allUnlined args) 0
  | .constant c => .constant c.unlined

def Expr.allUnlined : List Expr → List Expr
  | [] => []
  | e :: es => e.unlined :: Expr.allUnlined es

end

def VarDecl.unlined (v : VarDecl) : VarDecl :=
  { v with line := 0 }

def Assignment.unlined : Assignment → Assignment
  | scalar name value _ => scalar name value.unlined 0
  | element array index value _ => element array index.unlined value.unlined 0

mutual

def Stmt.unlined : Stmt → Stmt
  | .block body => .block body.unlined
  | .ifElse cond thenBlock elseBlock _ =>
    .ifElse cond.unlined thenBlock.unlined (Block.optionalUnlined elseBlock) 0
  | .while cond body _ => .while cond.unlined body.unlined 0
  | .for init cond step body _ =>
    .for (init.map Assignment.unlined) cond.unlined (step.map Assignment.unlined) body.unlined 0
  | .return value _ => .return (value.map Expr.unlined) 0
  | .jump kind _ => .jump kind 0
  | .assign assignment => .assign assignment.unlined
  | .call callee args _ => .call callee (Expr.allUnlined args) 0

def Stmt.allUnlined : List Stmt → List Stmt
  | [] => []
  | s :: ss => s.unlined :: Stmt.allUnlined ss

def Block.unlined : Block → Block
  | .mk vars stmts => .mk (vars.map VarDecl.unlined) (Stmt.allUnlined stmts)

def Block.optionalUnlined : Option Block → Option Block
  | none => none
  | some b => some b.unlined

end

def ExternDecl.unlined (e : ExternDecl) : ExternDecl :=
  { e with params := e.params.map VarDecl.unlined, line := 0 }

def FieldDecl.unlined (f : FieldDecl) : FieldDecl :=
  { f with init := f.init.map Constant.unlined, line := 0 }

def Method.unlined (m : Method) : Method :=
  { m with params := m.params.map VarDecl.unlined, body := m.body.unlined, line := 0 }

def Package.unlined (p : Package) : Package :=
  { p with
    fields := p.fields.map FieldDecl.unlined
    methods := p.methods.map Method.unlined
    line := 0 }

def Program.unlined (p : Program) : Program :=
  ⟨p.externs.map ExternDecl.unlined, p.package.map Package.unlined⟩

theorem Constant.outline_unlined (c : Constant) : c.unlined.outline = c.outline := rfl

mutual

theorem Expr.outline_unlined : ∀ e : Expr, e.unlined.outline = e.outline
  | .binary _ lhs rhs _ => by
    simp only [Expr.unlined, Expr.outline, lhs.outline_unlined, rhs.outline_unlined]
  | .unary _ operand _ => by simp only [Expr.unlined, Expr.outline, operand.outline_unlined]
  | .var _ _ => by simp only [Expr.unlined, Expr.outline]
  | .element _ index _ => by simp only [Expr.unlined, Expr.outline, index.outline_unlined]
  | .call _ args _ => by simp only [Expr.unlined, Expr.outline, Expr.outlines_allUnlined args]
  | .constant c => by simp only [Expr.unlined, Expr.outline, c.outline_unlined]

theorem Expr.outlines_allUnlined : ∀ es : List Expr,
    Expr.outlines (Expr.allUnlined es) = Expr.outlines es
  | [] => rfl
  | e :: es => by
    simp only [Expr.allUnlined, Expr.outlines, e.outline_unlined, Expr.outlines_allUnlined es]

end

theorem VarDecl.outline_unlined (v : VarDecl) : v.unlined.outline = v.outline := rfl

theorem Assignment.outline_unlined (a : Assignment) : a.unlined.outline = a.outline := by
  cases a <;> simp only [unlined, outline, Expr.outline_unlined]

mutual

theorem Stmt.outline_unlined : ∀ s : Stmt, s.unlined.outline = s.outline
  | .block body => by simp only [Stmt.unlined, Stmt.outline, body.outline_unlined]
  | .ifElse _ thenBlock elseBlock _ => by
    simp only [Stmt.unlined, Stmt.outline, Expr.outline_unlined, thenBlock.outline_unlined,
      Block.optionalOutline_unlined elseBlock]
  | .while _ body _ => by
    simp only [Stmt.unlined, Stmt.outline, Expr.outline_unlined, body.outline_unlined]
  | .for _ _ _ body _ => by
    simp only [Stmt.unlined, Stmt.outline, Expr.outline_unlined, body.outline_unlined,
      List.map_map, Function.comp_def, Assignment.outline_unlined]
  | .return value _ => by
    simp only [Stmt.unlined, Stmt.outline, Option.map_map, Function.comp_def, Expr.outline_unlined]
  | .jump _ _ => by simp only [Stmt.unlined, Stmt.outline]
  | .assign a => by simp only [Stmt.unlined, Stmt.outline, a.outline_unlined]
  | .call _ args _ => by simp only [Stmt.unlined, Stmt.outline, Expr.outlines_allUnlined]

theorem Stmt.outlines_allUnlined : ∀ ss : List Stmt,
    Stmt.outlines (Stmt.allUnlined ss) = Stmt.outlines ss
  | [] => rfl
  | s :: ss => by
    simp only [Stmt.allUnlined, Stmt.outlines, s.outline_unlined, Stmt.outlines_allUnlined ss]

theorem Block.outline_unlined : ∀ b : Block, b.unlined.outline = b.outline
  | .mk vars stmts => by
    simp only [Block.unlined, Block.outline, List.map_map, Function.comp_def,
      VarDecl.outline_unlined, Stmt.outlines_allUnlined stmts]

theorem Block.optionalOutline_unlined : ∀ b : Option Block,
    Block.optionalOutline (Block.optionalUnlined b) = Block.optionalOutline b
  | none => rfl
  | some b => by simp only [Block.optionalUnlined, Block.optionalOutline, b.outline_unlined]

end

theorem Block.bodyOutline_unlined (b : Block) : b.unlined.bodyOutline = b.bodyOutline := by
  cases b
  simp only [Block.unlined, bodyOutline, vars, stmts, List.map_map, Function.comp_def,
    VarDecl.outline_unlined, Stmt.outlines_allUnlined]

theorem ExternDecl.outline_unlined (e : ExternDecl) : e.unlined.outline = e.outline := by
  simp only [unlined, outline, List.map_map, Function.comp_def, VarDecl.outline_unlined]

theorem FieldDecl.outline_unlined (f : FieldDecl) : f.unlined.outline = f.outline := by
  obtain ⟨_, _, _, init, _⟩ := f
  cases init <;> rfl

theorem Method.outline_unlined (m : Method) : m.unlined.outline = m.outline := by
  simp only [unlined, outline, List.map_map, Function.comp_def, VarDecl.outline_unlined,
    Block.bodyOutline_unlined]

theorem Package.outline_unlined (p : Package) : p.unlined.outline = p.outline := by
  simp only [unlined, outline, List.map_map, Function.comp_def, FieldDecl.outline_unlined,
    Method.outline_unlined]

theorem Program.outline_unlined (p : Program) : p.unlined.outline = p.outline := by
  simp only [unlined, outline, List.map_map, Option.map_map, Function.comp_def,
    ExternDecl.outline_unlined, Package.outline_unlined]

end Decaf
