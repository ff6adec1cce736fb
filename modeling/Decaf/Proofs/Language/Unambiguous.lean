import Decaf.Language.Equality
import Decaf.Proofs.Language.Outlines

/-!
# Outlines are unambiguous

A sketch determines what it was made of, but for the lines: the label of a node tells the
constructor, and the labels of its parts tell where the lists among them end. As an outline reads
as one sketch only, two programs have the same outline exactly if they are equal up to lines.
-/

namespace Decaf

open Outline Sketch

theorem map_eq_of_map_eq {α β γ : Type} {f : α → β} {g : α → γ} {xs ys : List α}
    (each : ∀ x ∈ xs, ∀ y ∈ ys, f x = f y → g x = g y) (same : xs.map f = ys.map f) :
    xs.map g = ys.map g := by
  induction xs generalizing ys with
  | nil =>
    cases ys with
    | nil => rfl
    | cons y ys => cases same
  | cons x xs ih =>
    cases ys with
    | nil => cases same
    | cons y ys =>
      obtain ⟨first, others⟩ := List.cons.inj same
      rw [List.map_cons, List.map_cons, each x (by simp) y (by simp) first,
        ih (fun z hz w hw => each z (by simp [hz]) w (by simp [hw])) others]

theorem map_eq_of_optional {α β : Type} {f : α → Sketch} {g : α → β} {x y : Option α}
    (present : ∀ a, (f a).label ≠ "None") (each : ∀ a ∈ x, ∀ b ∈ y, f a = f b → g a = g b)
    (same : Sketch.optional (x.map f) = Sketch.optional (y.map f)) : x.map g = y.map g := by
  cases x with
  | none =>
    cases y with
    | none => rfl
    | some b => exact absurd (congrArg label (List.cons.inj same).1).symm (present b)
  | some a =>
    cases y with
    | none => exact absurd (congrArg label (List.cons.inj same).1) (present a)
    | some b =>
      rw [Option.map_some, Option.map_some, each a rfl b rfl (List.cons.inj same).1]

section Names

theorem BinaryOp.name_inj {op op' : BinaryOp} (same : op.name = op'.name) : op = op' := by
  have apart : ∀ a ∈ all, ∀ b ∈ all, a.name = b.name → a = b := by decide
  exact apart op (mem_all op) op' (mem_all op') same

theorem UnaryOp.name_inj {op op' : UnaryOp} (same : op.name = op'.name) : op = op' := by
  have apart : ∀ a ∈ all, ∀ b ∈ all, a.name = b.name → a = b := by decide
  exact apart op (mem_all op) op' (mem_all op') same

theorem Ty.name_inj {ty ty' : Ty} (same : ty.name = ty'.name) : ty = ty' := by
  have apart : ∀ a ∈ all, ∀ b ∈ all, a.name = b.name → a = b := by decide
  exact apart ty (mem_all ty) ty' (mem_all ty') same

theorem Jump.outline_inj {kind kind' : Jump} (same : kind.outline = kind'.outline) :
    kind = kind' := by
  cases kind <;> cases kind' <;> simp [outline] at same ⊢

end Names

section Labels

def Expr.labels : List String :=
  ["BinaryExpr", "UnaryExpr", "VariableExpr", "ArrayLocExpr", "MethodCall", "Constant"]

def Assignment.labels : List String :=
  ["AssignVar", "AssignArrayLoc"]

def Stmt.labels : List String :=
  ["Block", "IfStmt", "WhileStmt", "ForStmt", "ReturnStmt", "BreakStmt", "ContinueStmt",
    "AssignVar", "AssignArrayLoc", "MethodCall"]

def FieldDecl.labels : List String :=
  ["AssignGlobalVar", "FieldDecl"]

theorem Expr.label_sketch (e : Expr) : e.sketch.label ∈ Expr.labels := by
  cases e <;> simp [sketch, Constant.sketch, labels]

theorem Expr.label_ne_none (e : Expr) : e.sketch.label ≠ "None" := by
  intro missing
  exact absurd (missing ▸ e.label_sketch) (by decide)

theorem Expr.label_sketches (es : List Expr) : ∀ p ∈ Expr.sketches es, p.label ∈ Expr.labels := by
  induction es with
  | nil => exact nofun
  | cons e es ih => exact List.forall_mem_cons.2 ⟨e.label_sketch, ih⟩

theorem VarDecl.label_sketch (v : VarDecl) : v.sketch.label ∈ ["VarDef"] := by
  unfold sketch
  split <;> simp

theorem VarDecl.label_sketches (vs : List VarDecl) :
    ∀ p ∈ vs.map VarDecl.sketch, p.label ∈ ["VarDef"] :=
  List.forall_mem_map.2 fun v _ => v.label_sketch

theorem Assignment.label_sketch (a : Assignment) : a.sketch.label ∈ Assignment.labels := by
  cases a <;> simp [sketch, labels]

theorem Assignment.label_sketches (as : List Assignment) :
    ∀ p ∈ as.map Assignment.sketch, p.label ∈ Assignment.labels :=
  List.forall_mem_map.2 fun a _ => a.label_sketch

theorem Block.label_sketch (b : Block) : b.sketch.label = "Block" := by
  cases b
  rfl

theorem Stmt.label_sketch (s : Stmt) : s.sketch.label ∈ Stmt.labels := by
  cases s with
  | block b => simp [sketch, labels, b.label_sketch]
  | jump kind line => cases kind <;> simp [sketch, labels, Jump.outline]
  | assign a => cases a <;> simp [sketch, labels, Assignment.sketch]
  | _ => simp [sketch, labels]

/-- The number of the constructor whose sketches have the label. -/
def Stmt.ctorIdxOf (label : String) : Nat :=
  if label = "Block" then 0
  else if label = "IfStmt" then 1
  else if label = "WhileStmt" then 2
  else if label = "ForStmt" then 3
  else if label = "ReturnStmt" then 4
  else if label ∈ ["BreakStmt", "ContinueStmt"] then 5
  else if label ∈ Assignment.labels then 6
  else 7

theorem Stmt.ctorIdxOf_sketch (s : Stmt) : ctorIdxOf s.sketch.label = s.ctorIdx := by
  cases s with
  | block b => simp [sketch, b.label_sketch, ctorIdxOf, Stmt.ctorIdx]
  | jump kind line => cases kind <;> simp [sketch, Jump.outline, ctorIdxOf, Stmt.ctorIdx]
  | assign a =>
    cases a <;> simp [sketch, Assignment.sketch, ctorIdxOf, Assignment.labels, Stmt.ctorIdx]
  | _ => simp [sketch, ctorIdxOf, Assignment.labels, Stmt.ctorIdx]

theorem Stmt.ctorIdx_of_sketch {s s' : Stmt} (same : s.sketch = s'.sketch) :
    s.ctorIdx = s'.ctorIdx := by
  rw [← ctorIdxOf_sketch, same, ctorIdxOf_sketch]

theorem Stmt.label_sketches (ss : List Stmt) : ∀ p ∈ Stmt.sketches ss, p.label ∈ Stmt.labels := by
  induction ss with
  | nil => exact nofun
  | cons s ss ih => exact List.forall_mem_cons.2 ⟨s.label_sketch, ih⟩

theorem FieldDecl.label_sketch (f : FieldDecl) : f.sketch.label ∈ FieldDecl.labels := by
  unfold sketch
  split <;> simp [labels]

theorem FieldDecl.label_sketches (fs : List FieldDecl) :
    ∀ p ∈ fs.map FieldDecl.sketch, p.label ∈ FieldDecl.labels :=
  List.forall_mem_map.2 fun f _ => f.label_sketch

theorem Method.label_sketches (ms : List Method) :
    ∀ p ∈ ms.map Method.sketch, p.label ∈ ["Method"] :=
  List.forall_mem_map.2 fun _ _ => List.mem_singleton.2 rfl

theorem ExternDecl.label_sketches (es : List ExternDecl) :
    ∀ p ∈ es.map ExternDecl.sketch, p.label ∈ ["ExternFunction"] :=
  List.forall_mem_map.2 fun _ _ => List.mem_singleton.2 rfl

end Labels

section Recovery

theorem Constant.unlined_of_sketch {c c' : Constant} (h : c.Written) (h' : c'.Written)
    (same : c.sketch = c'.sketch) : c.unlined = c'.unlined := by
  obtain ⟨kind, lexeme⟩ : c.value.kindName = c'.value.kindName ∧ c.lexeme = c'.lexeme := by
    simpa [sketch, spread] using same
  have value := h.displays.unique (lexeme ▸ h'.displays) kind
  rw [unlined, unlined, value, lexeme]

theorem Expr.call_of_sketch {callee callee' : String} {args args' : List Expr}
    (same : spread "MethodCall" [[.leaf callee], splice (Expr.sketches args)] =
      spread "MethodCall" [[.leaf callee'], splice (Expr.sketches args')]) :
    callee = callee' ∧ Expr.sketches args = Expr.sketches args' := by
  obtain ⟨callees, lists⟩ :
      callee = callee' ∧ splice (Expr.sketches args) = splice (Expr.sketches args') := by
    simpa [spread] using same
  exact ⟨callees, splice_inj labels (by decide) (label_sketches args) (label_sketches args') lists⟩

mutual

theorem Expr.unlined_of_sketch : ∀ {e e' : Expr}, e.Lexical → e'.Lexical →
    e.sketch = e'.sketch → e.unlined = e'.unlined
  | .binary op l r _, e', h, h', same => by
    cases e' with
    | binary op' l' r' _ =>
      obtain ⟨ops, lefts, rights⟩ :
          op.name = op'.name ∧ l.sketch = l'.sketch ∧ r.sketch = r'.sketch := by
        simpa [Expr.sketch, spread] using same
      rw [Expr.unlined, Expr.unlined, BinaryOp.name_inj ops, Expr.unlined_of_sketch h.1 h'.1 lefts,
        Expr.unlined_of_sketch h.2 h'.2 rights]
    | _ => simp [Expr.sketch, Constant.sketch, spread] at same
  | .unary op operand _, e', h, h', same => by
    cases e' with
    | unary op' operand' _ =>
      obtain ⟨ops, operands⟩ : op.name = op'.name ∧ operand.sketch = operand'.sketch := by
        simpa [Expr.sketch, spread] using same
      have left : operand.Lexical := h
      have right : operand'.Lexical := h'
      rw [Expr.unlined, Expr.unlined, UnaryOp.name_inj ops,
        Expr.unlined_of_sketch left right operands]
    | _ => simp [Expr.sketch, Constant.sketch, spread] at same
  | .var name _, e', _, _, same => by
    cases e' with
    | var name' _ =>
      have names : name = name' := by simpa [Expr.sketch, spread] using same
      rw [Expr.unlined, Expr.unlined, names]
    | _ => simp [Expr.sketch, Constant.sketch, spread] at same
  | .element array index _, e', h, h', same => by
    cases e' with
    | element array' index' _ =>
      obtain ⟨arrays, indices⟩ : array = array' ∧ index.sketch = index'.sketch := by
        simpa [Expr.sketch, spread] using same
      rw [Expr.unlined, Expr.unlined, arrays, Expr.unlined_of_sketch h.2 h'.2 indices]
    | _ => simp [Expr.sketch, Constant.sketch, spread] at same
  | .call callee args _, e', h, h', same => by
    cases e' with
    | call callee' args' _ =>
      obtain ⟨callees, arguments⟩ := Expr.call_of_sketch same
      rw [Expr.unlined, Expr.unlined, callees, Expr.allUnlined_of_sketches h.2 h'.2 arguments]
    | _ => simp [Expr.sketch, Constant.sketch, spread] at same
  | .constant c, e', h, h', same => by
    cases e' with
    | constant c' => rw [Expr.unlined, Expr.unlined, Constant.unlined_of_sketch h h' same]
    | _ => simp [Expr.sketch, Constant.sketch, spread] at same

theorem Expr.allUnlined_of_sketches : ∀ {es es' : List Expr}, Expr.AllLexical es →
    Expr.AllLexical es' → Expr.sketches es = Expr.sketches es' →
    Expr.allUnlined es = Expr.allUnlined es'
  | [], [], _, _, _ => rfl
  | [], _ :: _, _, _, same => nomatch same
  | _ :: _, [], _, _, same => nomatch same
  | e :: es, e' :: es', h, h', same => by
    obtain ⟨first, others⟩ := List.cons.inj same
    rw [Expr.allUnlined, Expr.allUnlined, Expr.unlined_of_sketch h.1 h'.1 first,
      Expr.allUnlined_of_sketches h.2 h'.2 others]

end

theorem VarDecl.unlined_of_sketch {v v' : VarDecl} (same : v.sketch = v'.sketch) :
    v.unlined = v'.unlined := by
  obtain ⟨name, ty, line⟩ := v
  obtain ⟨name', ty', line'⟩ := v'
  cases name with
  | none =>
    cases name' with
    | none =>
      have types : ty.name = ty'.name := by simpa [sketch, spread] using same
      rw [Ty.name_inj types]
      rfl
    | some name' => simp [sketch, spread] at same
  | some name =>
    cases name' with
    | none => simp [sketch, spread] at same
    | some name' =>
      obtain ⟨names, types⟩ : name = name' ∧ ty.name = ty'.name := by
        simpa [sketch, spread] using same
      rw [names, Ty.name_inj types]
      rfl

theorem Assignment.unlined_of_sketch {a a' : Assignment} (h : a.Lexical) (h' : a'.Lexical)
    (same : a.sketch = a'.sketch) : a.unlined = a'.unlined := by
  cases a with
  | scalar name value line =>
    cases a' with
    | scalar name' value' line' =>
      obtain ⟨names, values⟩ : name = name' ∧ value.sketch = value'.sketch := by
        simpa [sketch, spread] using same
      rw [unlined, unlined, names, Expr.unlined_of_sketch h.2 h'.2 values]
    | element => simp [sketch, spread] at same
  | element array index value line =>
    cases a' with
    | scalar => simp [sketch, spread] at same
    | element array' index' value' line' =>
      obtain ⟨arrays, indices, values⟩ :
          array = array' ∧ index.sketch = index'.sketch ∧ value.sketch = value'.sketch := by
        simpa [sketch, spread] using same
      rw [unlined, unlined, arrays, Expr.unlined_of_sketch h.2.1 h'.2.1 indices,
        Expr.unlined_of_sketch h.2.2 h'.2.2 values]

theorem VarDecl.map_unlined {vs vs' : List VarDecl}
    (same : vs.map VarDecl.sketch = vs'.map VarDecl.sketch) :
    vs.map VarDecl.unlined = vs'.map VarDecl.unlined :=
  map_eq_of_map_eq (fun _ _ _ _ => VarDecl.unlined_of_sketch) same

theorem Assignment.map_unlined {as as' : List Assignment} (h : ∀ a ∈ as, a.Lexical)
    (h' : ∀ a ∈ as', a.Lexical) (same : as.map Assignment.sketch = as'.map Assignment.sketch) :
    as.map Assignment.unlined = as'.map Assignment.unlined :=
  map_eq_of_map_eq (fun a ha b hb => Assignment.unlined_of_sketch (h a ha) (h' b hb)) same

/-- The variables of a scope are told apart from its statements. -/
theorem Block.scope_of_splice {vs vs' : List VarDecl} {ss ss' : List Stmt}
    (same : splice (vs.map VarDecl.sketch) ++ splice (Stmt.sketches ss) =
      splice (vs'.map VarDecl.sketch) ++ splice (Stmt.sketches ss')) :
    vs.map VarDecl.sketch = vs'.map VarDecl.sketch ∧ Stmt.sketches ss = Stmt.sketches ss' := by
  have left := Stmt.label_sketches ss
  have right := Stmt.label_sketches ss'
  obtain ⟨vars, stmts⟩ := splice_append_inj ["VarDef"] ("None" :: Stmt.labels) (by decide)
    (by decide) (VarDecl.label_sketches vs) (VarDecl.label_sketches vs') (label_head_splice left)
    (label_head_splice right) same
  exact ⟨vars, splice_inj Stmt.labels (by decide) left right stmts⟩

theorem Stmt.loop_of_sketch {i i' p p' : List Assignment} {c c' : Expr} {b b' : Block}
    {n n' : Nat} (same : (Stmt.for i c p b n).sketch = (Stmt.for i' c' p' b' n').sketch) :
    i.map Assignment.sketch = i'.map Assignment.sketch ∧ c.sketch = c'.sketch ∧
      p.map Assignment.sketch = p'.map Assignment.sketch ∧ b.sketch = b'.sketch := by
  have parts : splice (i.map Assignment.sketch) ++ c.sketch ::
      (splice (p.map Assignment.sketch) ++ [b.sketch]) = splice (i'.map Assignment.sketch) ++
      c'.sketch :: (splice (p'.map Assignment.sketch) ++ [b'.sketch]) := by
    simpa [sketch, spread] using same
  have assigned := Assignment.label_sketches
  obtain ⟨inits, rest⟩ := splice_append_inj Assignment.labels Expr.labels (by decide) (by decide)
    (assigned i) (assigned i') (by simp [c.label_sketch]) (by simp [c'.label_sketch]) parts
  obtain ⟨conds, rest⟩ := List.cons.inj rest
  obtain ⟨steps, bodies⟩ := splice_append_inj Assignment.labels ["Block"] (by decide) (by decide)
    (assigned p) (assigned p') (by simp [b.label_sketch]) (by simp [b'.label_sketch]) rest
  exact ⟨inits, conds, steps, (List.cons.inj bodies).1⟩

mutual

theorem Stmt.unlined_of_sketch : ∀ {s s' : Stmt}, s.Lexical → s'.Lexical →
    s.sketch = s'.sketch → s.unlined = s'.unlined
  | .block b, s', h, h', same => by
    cases s' with
    | block b' =>
      have left : b.Lexical := h
      have right : b'.Lexical := h'
      rw [Stmt.unlined, Stmt.unlined, Block.unlined_of_sketch left right same]
    | _ => cases Stmt.ctorIdx_of_sketch same
  | .ifElse c t e _, s', h, h', same => by
    cases s' with
    | ifElse c' t' e' _ =>
      obtain ⟨conds, thens, elses⟩ : c.sketch = c'.sketch ∧ t.sketch = t'.sketch ∧
          Block.optionalSketch e = Block.optionalSketch e' := by
        simpa [Stmt.sketch, spread] using same
      rw [Stmt.unlined, Stmt.unlined, Expr.unlined_of_sketch h.1 h'.1 conds,
        Block.unlined_of_sketch h.2.1 h'.2.1 thens,
        Block.optionalUnlined_of_sketch h.2.2 h'.2.2 elses]
    | _ => cases Stmt.ctorIdx_of_sketch same
  | .while c b _, s', h, h', same => by
    cases s' with
    | «while» c' b' _ =>
      obtain ⟨conds, bodies⟩ : c.sketch = c'.sketch ∧ b.sketch = b'.sketch := by
        simpa [Stmt.sketch, spread] using same
      rw [Stmt.unlined, Stmt.unlined, Expr.unlined_of_sketch h.1 h'.1 conds,
        Block.unlined_of_sketch h.2 h'.2 bodies]
    | _ => cases Stmt.ctorIdx_of_sketch same
  | .for i c p b _, s', h, h', same => by
    cases s' with
    | «for» i' c' p' b' _ =>
      obtain ⟨inits, conds, steps, bodies⟩ := Stmt.loop_of_sketch same
      rw [Stmt.unlined, Stmt.unlined, Assignment.map_unlined h.1 h'.1 inits,
        Expr.unlined_of_sketch h.2.1 h'.2.1 conds,
        Assignment.map_unlined h.2.2.1 h'.2.2.1 steps,
        Block.unlined_of_sketch h.2.2.2 h'.2.2.2 bodies]
    | _ => cases Stmt.ctorIdx_of_sketch same
  | .return v _, s', h, h', same => by
    cases s' with
    | «return» v' _ =>
      have values : Sketch.optional (v.map Expr.sketch) = Sketch.optional (v'.map Expr.sketch) := by
        simpa [Stmt.sketch, spread] using same
      rw [Stmt.unlined, Stmt.unlined, map_eq_of_optional Expr.label_ne_none
        (fun a ha b hb => Expr.unlined_of_sketch (h a ha) (h' b hb)) values]
    | _ => cases Stmt.ctorIdx_of_sketch same
  | .jump kind _, s', _, _, same => by
    cases s' with
    | jump kind' _ => rw [Stmt.unlined, Stmt.unlined, Jump.outline_inj (Sketch.leaf.inj same)]
    | _ => cases Stmt.ctorIdx_of_sketch same
  | .assign a, s', h, h', same => by
    cases s' with
    | assign a' => rw [Stmt.unlined, Stmt.unlined, Assignment.unlined_of_sketch h h' same]
    | _ => cases Stmt.ctorIdx_of_sketch same
  | .call callee args _, s', h, h', same => by
    cases s' with
    | call callee' args' _ =>
      obtain ⟨callees, arguments⟩ := Expr.call_of_sketch same
      rw [Stmt.unlined, Stmt.unlined, callees, Expr.allUnlined_of_sketches h.2 h'.2 arguments]
    | _ => cases Stmt.ctorIdx_of_sketch same

theorem Stmt.allUnlined_of_sketches : ∀ {ss ss' : List Stmt}, Stmt.AllLexical ss →
    Stmt.AllLexical ss' → Stmt.sketches ss = Stmt.sketches ss' →
    Stmt.allUnlined ss = Stmt.allUnlined ss'
  | [], [], _, _, _ => rfl
  | [], _ :: _, _, _, same => nomatch same
  | _ :: _, [], _, _, same => nomatch same
  | s :: ss, s' :: ss', h, h', same => by
    obtain ⟨first, others⟩ := List.cons.inj same
    rw [Stmt.allUnlined, Stmt.allUnlined, Stmt.unlined_of_sketch h.1 h'.1 first,
      Stmt.allUnlined_of_sketches h.2 h'.2 others]

theorem Block.unlined_of_sketch : ∀ {b b' : Block}, b.Lexical → b'.Lexical →
    b.sketch = b'.sketch → b.unlined = b'.unlined
  | .mk vs ss, .mk vs' ss', h, h', same => by
    obtain ⟨vars, stmts⟩ := Block.scope_of_splice (by simpa [Block.sketch, spread] using same)
    rw [Block.unlined, Block.unlined, VarDecl.map_unlined vars,
      Stmt.allUnlined_of_sketches h.2 h'.2 stmts]

theorem Block.optionalUnlined_of_sketch : ∀ {b b' : Option Block}, Block.OptionalLexical b →
    Block.OptionalLexical b' → Block.optionalSketch b = Block.optionalSketch b' →
    Block.optionalUnlined b = Block.optionalUnlined b'
  | none, none, _, _, _ => rfl
  | none, some b, _, _, same => by
    have labels := congrArg Sketch.label (List.cons.inj same).1
    rw [b.label_sketch] at labels
    exact absurd labels (by decide)
  | some b, none, _, _, same => by
    have labels := congrArg Sketch.label (List.cons.inj same).1
    rw [b.label_sketch] at labels
    exact absurd labels (by decide)
  | some b, some b', h, h', same => by
    have left : b.Lexical := h
    have right : b'.Lexical := h'
    rw [Block.optionalUnlined, Block.optionalUnlined,
      Block.unlined_of_sketch left right (List.cons.inj same).1]

end

theorem Block.unlined_of_bodySketch : ∀ {b b' : Block}, b.Lexical → b'.Lexical →
    b.bodySketch = b'.bodySketch → b.unlined = b'.unlined
  | .mk vs ss, .mk vs' ss', h, h', same => by
    obtain ⟨vars, stmts⟩ :=
      Block.scope_of_splice (by simpa [bodySketch, Block.vars, Block.stmts, spread] using same)
    rw [unlined, unlined, VarDecl.map_unlined vars, Stmt.allUnlined_of_sketches h.2 h'.2 stmts]

theorem ExternDecl.unlined_of_sketch {e e' : ExternDecl} (same : e.sketch = e'.sketch) :
    e.unlined = e'.unlined := by
  obtain ⟨names, types, lists⟩ : e.name = e'.name ∧ e.ret.name = e'.ret.name ∧
      splice (e.params.map VarDecl.sketch) = splice (e'.params.map VarDecl.sketch) := by
    simpa [sketch, spread] using same
  have params := splice_inj ["VarDef"] (by decide) (VarDecl.label_sketches _)
    (VarDecl.label_sketches _) lists
  rw [unlined, unlined, names, Ty.name_inj types, VarDecl.map_unlined params]

theorem FieldSize.sketch_inj {size size' : FieldSize} (same : size.sketch = size'.sketch) :
    size = size' := by
  cases size with
  | scalar =>
    cases size' with
    | scalar => rfl
    | array => simp [sketch, spread] at same
  | array length =>
    cases size' with
    | scalar => simp [sketch, spread] at same
    | array length' =>
      have shown : toString length = toString length' := by simpa [sketch, spread] using same
      rw [Int.ofNat.inj (decimal_inj shown)]

theorem FieldDecl.unlined_of_sketch {f f' : FieldDecl} (h : f.Lexical) (h' : f'.Lexical)
    (same : f.sketch = f'.sketch) : f.unlined = f'.unlined := by
  obtain ⟨name, ty, size, init, line⟩ := f
  obtain ⟨name', ty', size', init', line'⟩ := f'
  cases init with
  | none =>
    cases init' with
    | none =>
      obtain ⟨names, types, sizes⟩ :
          name = name' ∧ ty.name = ty'.name ∧ size.sketch = size'.sketch := by
        simpa [sketch, spread] using same
      rw [names, Ty.name_inj types, FieldSize.sketch_inj sizes]
      rfl
    | some c' => simp [sketch, spread] at same
  | some c =>
    cases init' with
    | none => simp [sketch, spread] at same
    | some c' =>
      obtain ⟨names, types, inits⟩ :
          name = name' ∧ ty.name = ty'.name ∧ c.sketch = c'.sketch := by
        simpa [sketch, spread] using same
      obtain ⟨written, scalar⟩ := h.2 c rfl
      obtain ⟨written', scalar'⟩ := h'.2 c' rfl
      have values := Constant.unlined_of_sketch written written' inits
      rw [unlined, unlined, names, Ty.name_inj types, Option.map_some, Option.map_some, values,
        show size = .scalar from scalar, show size' = .scalar from scalar']

theorem Method.unlined_of_sketch {m m' : Method} (h : m.Lexical) (h' : m'.Lexical)
    (same : m.sketch = m'.sketch) : m.unlined = m'.unlined := by
  obtain ⟨names, types, rest⟩ : m.name = m'.name ∧ m.ret.name = m'.ret.name ∧
      splice (m.params.map VarDecl.sketch) ++ [m.body.bodySketch] =
        splice (m'.params.map VarDecl.sketch) ++ [m'.body.bodySketch] := by
    simpa [sketch, spread] using same
  obtain ⟨params, bodies⟩ := splice_append_inj ["VarDef"] ["MethodBlock"] (by decide) (by decide)
    (VarDecl.label_sketches _) (VarDecl.label_sketches _) (by simp [Block.bodySketch])
    (by simp [Block.bodySketch]) rest
  rw [unlined, unlined, names, Ty.name_inj types, VarDecl.map_unlined params,
    Block.unlined_of_bodySketch h.2.2 h'.2.2 (List.cons.inj bodies).1]

theorem Package.unlined_of_sketch {p p' : Package} (h : p.Lexical) (h' : p'.Lexical)
    (same : p.sketch = p'.sketch) : p.unlined = p'.unlined := by
  obtain ⟨names, rest⟩ : p.name = p'.name ∧
      splice (p.fields.map FieldDecl.sketch) ++ splice (p.methods.map Method.sketch) =
        splice (p'.fields.map FieldDecl.sketch) ++ splice (p'.methods.map Method.sketch) := by
    simpa [sketch, spread] using same
  have left := Method.label_sketches p.methods
  have right := Method.label_sketches p'.methods
  obtain ⟨fields, lists⟩ := splice_append_inj FieldDecl.labels ["None", "Method"] (by decide)
    (by decide) (FieldDecl.label_sketches _) (FieldDecl.label_sketches _) (label_head_splice left)
    (label_head_splice right) rest
  have methods := splice_inj ["Method"] (by decide) left right lists
  rw [unlined, unlined, names,
    map_eq_of_map_eq (fun f hf g hg => FieldDecl.unlined_of_sketch (h.2.1 f hf) (h'.2.1 g hg))
      fields,
    map_eq_of_map_eq (fun m hm n hn => Method.unlined_of_sketch (h.2.2 m hm) (h'.2.2 n hn))
      methods]

theorem Program.unlined_of_sketch {p p' : Program} (h : p.Lexical) (h' : p'.Lexical)
    (same : p.sketch = p'.sketch) : p.unlined = p'.unlined := by
  have rest : splice (p.externs.map ExternDecl.sketch) ++
      Sketch.optional (p.package.map Package.sketch) =
        splice (p'.externs.map ExternDecl.sketch) ++
          Sketch.optional (p'.package.map Package.sketch) := by
    simpa [sketch, spread] using same
  have packageLabel (q : Option Package) :
      ∀ r ∈ (Sketch.optional (q.map Package.sketch)).head?, r.label ∈ ["None", "Package"] := by
    cases q <;> simp [Sketch.optional, Package.sketch]
  obtain ⟨externs, packages⟩ := splice_append_inj ["ExternFunction"] ["None", "Package"] (by decide)
    (by decide) (ExternDecl.label_sketches _) (ExternDecl.label_sketches _) (packageLabel _)
    (packageLabel _) rest
  rw [unlined, unlined,
    map_eq_of_map_eq (fun _ _ _ _ => ExternDecl.unlined_of_sketch) externs,
    map_eq_of_optional (fun _ => by simp [Package.sketch])
      (fun a ha b hb => Package.unlined_of_sketch (h.2 a ha) (h'.2 b hb)) packages]

end Recovery

/-- An outline tells everything about a program but its lines, given that names are words,
constants can be built, strings among them with a closed lexeme, and initialized fields are
scalars. -/
theorem outline_eq_iff {p q : Program} (hp : p.Lexical) (hq : q.Lexical) :
    p.outline = q.outline ↔ p.unlined = q.unlined := by
  constructor
  · intro same
    have sketches := (Program.reads hp).unique (same ▸ Program.reads hq)
    exact Program.unlined_of_sketch hp hq (List.cons.inj sketches).1
  · intro same
    rw [← p.outline_unlined, same, q.outline_unlined]

/-- A program that prints what it is given. -/
def reciting (texts : List Constant) (line : Nat) : Program where
  externs := []
  package := some {
    name := "Reader"
    fields := [⟨"count", .int, .scalar, some (.ofInt (-1) 2), 2⟩]
    methods := [⟨"main", .void, [], .mk [] [.call "print_string" (texts.map .constant) line], 3⟩]
    line := 1 }

theorem lexical_reciting {texts : List Constant} (each : ∀ c ∈ texts, c.Written) (line : Nat) :
    (reciting texts line).Lexical := by
  have arguments : Expr.AllLexical (texts.map .constant) := by
    induction texts with
    | nil => trivial
    | cons c cs ih => exact ⟨each c (by simp), ih fun d hd => each d (by simp [hd])⟩
  have reader : Word "Reader" := .of_identifier (by decide) (by decide)
  have count : Word "count" := .of_identifier (by decide) (by decide)
  have main : Word "main" := .of_identifier (by decide) (by decide)
  have print : Word "print_string" := .of_identifier (by decide) (by decide)
  have field : FieldDecl.Lexical ⟨"count", .int, .scalar, some (.ofInt (-1) 2), 2⟩ := by
    refine ⟨count, ?_⟩
    rintro _ ⟨⟩
    exact ⟨.int (-1) 2, rfl⟩
  have method : Method.Lexical
      ⟨"main", .void, [], .mk [] [.call "print_string" (texts.map .constant) line], 3⟩ :=
    ⟨main, nofun, nofun, ⟨print, arguments⟩, trivial⟩
  refine ⟨nofun, ?_⟩
  rintro _ ⟨⟩
  exact ⟨reader, by simpa using field, by simpa using method⟩

theorem Constant.Written.of_decodeString {lexeme text : String} (closed : Quoted.Closed lexeme)
    (read : decodeString lexeme = .ok text) (line : Nat) :
    Constant.Written ⟨.string text, lexeme, line⟩ :=
  .string closed (by rw [Constant.ofString, read]; rfl)

def twoTexts : List Constant :=
  [⟨.string "a", "\"a\"", 4⟩, ⟨.string "b", "\"b\"", 4⟩]

/-- One text, in which the outline of a second one seems to begin. -/
def oneText : List Constant :=
  [⟨.string "a\"),Constant(StringConstant,\"b", "\"a\\\"),Constant(StringConstant,\\\"b\"", 4⟩]

theorem written_twoTexts : ∀ c ∈ twoTexts, c.Written := by
  have first : Quoted.Closed "\"a\"" := ⟨['a'], .plain (by decide) (by decide) .nil, rfl⟩
  have second : Quoted.Closed "\"b\"" := ⟨['b'], .plain (by decide) (by decide) .nil, rfl⟩
  simp only [twoTexts, List.forall_mem_cons]
  exact ⟨.of_decodeString first rfl 4, .of_decodeString second rfl 4, nofun⟩

theorem written_oneText : ∀ c ∈ oneText, c.Written := by
  have items : Quoted.Items "a\\\"),Constant(StringConstant,\\\"b".toList := by
    repeat first
      | apply Quoted.Items.escape
      | refine Quoted.Items.plain (by decide) (by decide) ?_
      | exact .nil
  simp only [oneText, List.forall_mem_cons]
  exact ⟨.of_decodeString ⟨_, items, rfl⟩ rfl 4, nofun⟩

theorem reciting_outlines :
    (reciting twoTexts 4).outline = (reciting twoTexts 7).outline ∧
      (reciting twoTexts 4).outline ≠ (reciting oneText 4).outline := by
  have two := lexical_reciting written_twoTexts
  have one := lexical_reciting written_oneText
  have apart : (reciting twoTexts 4).unlined ≠ (reciting oneText 4).unlined := by
    decide
  exact ⟨(outline_eq_iff (two 4) (two 7)).2 rfl,
    fun same => apart ((outline_eq_iff (two 4) (one 4)).1 same)⟩

end Decaf
