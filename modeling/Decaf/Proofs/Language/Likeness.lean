import Decaf.Compile.Diagnostic
import Decaf.Proofs.Language.Relators

/-!
# Programs that differ in lines and spelling

Two pieces of syntax are alike when they have the same shape, names and operators, and constants
of the same values. The lexemes of constants are not compared, and of the lines only what a
given relation asks of them. Where the relation holds of any two lines, likeness forgets the
lines; where it is equality, likeness is reflexive and forgets the lexemes only.
-/

namespace Decaf

variable (ℓ : Nat → Nat → Prop)

structure Constant.Like (c c' : Constant) : Prop where
  value : c'.value = c.value
  line : ℓ c.line c'.line

mutual

inductive Expr.Like : Expr → Expr → Prop where
  | binary (op : BinaryOp) {l l' r r' : Expr} {n n' : Nat} : Expr.Like l l' → Expr.Like r r' →
      ℓ n n' → Expr.Like (.binary op l r n) (.binary op l' r' n')
  | unary (op : UnaryOp) {e e' : Expr} {n n' : Nat} : Expr.Like e e' → ℓ n n' →
      Expr.Like (.unary op e n) (.unary op e' n')
  | var {name : String} {n n' : Nat} : ℓ n n' → Expr.Like (.var name n) (.var name n')
  | element (array : String) {i i' : Expr} {n n' : Nat} : Expr.Like i i' → ℓ n n' →
      Expr.Like (.element array i n) (.element array i' n')
  | call (callee : String) {args args' : List Expr} {n n' : Nat} : Expr.AllLike args args' →
      ℓ n n' → Expr.Like (.call callee args n) (.call callee args' n')
  | constant {c c' : Constant} : c.Like ℓ c' → Expr.Like (.constant c) (.constant c')

inductive Expr.AllLike : List Expr → List Expr → Prop where
  | nil : Expr.AllLike [] []
  | cons {e e' : Expr} {es es' : List Expr} : Expr.Like e e' → Expr.AllLike es es' →
      Expr.AllLike (e :: es) (e' :: es')

end

structure VarDecl.Like (v v' : VarDecl) : Prop where
  name : v'.name = v.name
  ty : v'.ty = v.ty
  line : ℓ v.line v'.line

inductive Assignment.Like : Assignment → Assignment → Prop where
  | scalar {name : String} {e e' : Expr} {n n' : Nat} : e.Like ℓ e' → ℓ n n' →
      Assignment.Like (.scalar name e n) (.scalar name e' n')
  | element {array : String} {i i' e e' : Expr} {n n' : Nat} : i.Like ℓ i' → e.Like ℓ e' →
      ℓ n n' → Assignment.Like (.element array i e n) (.element array i' e' n')

mutual

inductive Stmt.Like : Stmt → Stmt → Prop where
  | block {b b' : Block} : Block.Like b b' → Stmt.Like (.block b) (.block b')
  | ifElse {c c' : Expr} {t t' : Block} {e e' : Option Block} {n n' : Nat} : c.Like ℓ c' →
      Block.Like t t' → Block.OptionalLike e e' → ℓ n n' →
      Stmt.Like (.ifElse c t e n) (.ifElse c' t' e' n')
  | while {c c' : Expr} {b b' : Block} {n n' : Nat} : c.Like ℓ c' → Block.Like b b' → ℓ n n' →
      Stmt.Like (.while c b n) (.while c' b' n')
  | for {i i' : List Assignment} {c c' : Expr} {s s' : List Assignment} {b b' : Block}
      {n n' : Nat} : List.Forall₂ (Assignment.Like ℓ) i i' → c.Like ℓ c' →
      List.Forall₂ (Assignment.Like ℓ) s s' → Block.Like b b' → ℓ n n' →
      Stmt.Like (.for i c s b n) (.for i' c' s' b' n')
  | return {v v' : Option Expr} {n n' : Nat} : Option.Rel (Expr.Like ℓ) v v' → ℓ n n' →
      Stmt.Like (.return v n) (.return v' n')
  | jump (kind : Jump) {n n' : Nat} : ℓ n n' → Stmt.Like (.jump kind n) (.jump kind n')
  | assign {a a' : Assignment} : a.Like ℓ a' → Stmt.Like (.assign a) (.assign a')
  | call {callee : String} {args args' : List Expr} {n n' : Nat} : Expr.AllLike ℓ args args' →
      ℓ n n' → Stmt.Like (.call callee args n) (.call callee args' n')

inductive Stmt.AllLike : List Stmt → List Stmt → Prop where
  | nil : Stmt.AllLike [] []
  | cons {s s' : Stmt} {ss ss' : List Stmt} : Stmt.Like s s' → Stmt.AllLike ss ss' →
      Stmt.AllLike (s :: ss) (s' :: ss')

inductive Block.Like : Block → Block → Prop where
  | mk {vars vars' : List VarDecl} {ss ss' : List Stmt} : List.Forall₂ (VarDecl.Like ℓ) vars vars' →
      Stmt.AllLike ss ss' → Block.Like (.mk vars ss) (.mk vars' ss')

inductive Block.OptionalLike : Option Block → Option Block → Prop where
  | none : Block.OptionalLike none none
  | some {b b' : Block} : Block.Like b b' → Block.OptionalLike (some b) (some b')

end

structure ExternDecl.Like (e e' : ExternDecl) : Prop where
  name : e'.name = e.name
  ret : e'.ret = e.ret
  params : List.Forall₂ (VarDecl.Like ℓ) e.params e'.params
  line : ℓ e.line e'.line

structure FieldDecl.Like (f f' : FieldDecl) : Prop where
  name : f'.name = f.name
  ty : f'.ty = f.ty
  size : f'.size = f.size
  init : Option.Rel (Constant.Like ℓ) f.init f'.init
  line : ℓ f.line f'.line

structure Method.Like (d d' : Method) : Prop where
  name : d'.name = d.name
  ret : d'.ret = d.ret
  params : List.Forall₂ (VarDecl.Like ℓ) d.params d'.params
  body : d.body.Like ℓ d'.body
  line : ℓ d.line d'.line

structure Package.Like (p p' : Package) : Prop where
  name : p'.name = p.name
  fields : List.Forall₂ (FieldDecl.Like ℓ) p.fields p'.fields
  methods : List.Forall₂ (Method.Like ℓ) p.methods p'.methods
  line : ℓ p.line p'.line

structure Program.Like (P P' : Program) : Prop where
  externs : List.Forall₂ (ExternDecl.Like ℓ) P.externs P'.externs
  package : Option.Rel (Package.Like ℓ) P.package P'.package

/-- The same error with the same data, whose lines are related. -/
inductive CompileError.Like : CompileError → CompileError → Prop where
  | missingPackage : CompileError.Like .missingPackage .missingPackage
  | unresolvedIdentifier (name : String) {n n' : Nat} : ℓ n n' →
      CompileError.Like (.unresolvedIdentifier name n) (.unresolvedIdentifier name n')
  | notCallable (name : String) {n n' : Nat} : ℓ n n' →
      CompileError.Like (.notCallable name n) (.notCallable name n')
  | notAVariable (name : String) {n n' : Nat} : ℓ n n' →
      CompileError.Like (.notAVariable name n) (.notAVariable name n')
  | notAnArray (name : String) {n n' : Nat} : ℓ n n' →
      CompileError.Like (.notAnArray name n) (.notAnArray name n')
  | notAScalar (name : String) {n n' : Nat} : ℓ n n' →
      CompileError.Like (.notAScalar name n) (.notAScalar name n')
  | arityMismatch (name : String) (expected found : Nat) {n n' : Nat} : ℓ n n' →
      CompileError.Like (.arityMismatch name expected found n) (.arityMismatch name expected found n')
  | duplicateDefinition (name : String) {n n' previous previous' : Nat} : ℓ n n' →
      ℓ previous previous' →
      CompileError.Like (.duplicateDefinition name n previous)
        (.duplicateDefinition name n' previous')
  | jumpOutsideLoop (kind : Jump) {n n' : Nat} : ℓ n n' →
      CompileError.Like (.jumpOutsideLoop kind n) (.jumpOutsideLoop kind n')
  | missingReturn (method : String) :
      CompileError.Like (.missingReturn method) (.missingReturn method)
  | valueReturnFromVoid (method : String) {n n' : Nat} : ℓ n n' →
      CompileError.Like (.valueReturnFromVoid method n) (.valueReturnFromVoid method n')
  | invalidArraySize (name : String) {n n' : Nat} : ℓ n n' →
      CompileError.Like (.invalidArraySize name n) (.invalidArraySize name n')
  | invalidInitializer (name : String) {n n' : Nat} : ℓ n n' →
      CompileError.Like (.invalidInitializer name n) (.invalidInitializer name n')
  | voidValue {n n' : Nat} : ℓ n n' → CompileError.Like (.voidValue n) (.voidValue n')
  | malformed (method : String) (cause : Malformation) :
      CompileError.Like (.malformed method cause) (.malformed method cause)

/-- The same warning with the same data, whose lines are related. -/
inductive Warning.Like : Warning → Warning → Prop where
  | synthesizedReturn (method : String) {n n' : Nat} : ℓ n n' →
      Warning.Like (.synthesizedReturn method n) (.synthesizedReturn method n')
  | ignoredJump (kind : Jump) {n n' : Nat} : ℓ n n' →
      Warning.Like (.ignoredJump kind n) (.ignoredJump kind n')

section

variable {ℓ : Nat → Nat → Prop}

theorem Expr.Like.line {e e' : Expr} (h : e.Like ℓ e') : ℓ e.line e'.line := by
  cases h with
  | constant same => exact same.line
  | _ => assumption

theorem Expr.AllLike.length_eq : ∀ {es es' : List Expr}, Expr.AllLike ℓ es es' →
    es'.length = es.length
  | _, _, .nil => rfl
  | _, _, .cons _ others => congrArg (· + 1) others.length_eq

/-- What a declaration of parameters says besides its lines. -/
theorem signature_eq {vars vars' : List VarDecl} (h : List.Forall₂ (VarDecl.Like ℓ) vars vars') :
    vars'.map (fun p => (p.name, p.ty)) = vars.map fun p => (p.name, p.ty) := by
  induction h with
  | nil => rfl
  | cons first _ ih => rw [List.map_cons, List.map_cons, first.name, first.ty, ih]

end

section Reflexive

variable {ℓ : Nat → Nat → Prop}

theorem Warning.like_refl (same : ∀ n, ℓ n n) : ∀ w : Warning, w.Like ℓ w
  | .synthesizedReturn _ n => .synthesizedReturn _ (same n)
  | .ignoredJump _ n => .ignoredJump _ (same n)

theorem Warning.eq_of_like {w w' : Warning} (h : w.Like Eq w') : w = w' := by
  cases h <;> subst_vars <;> rfl

theorem Constant.like_refl (same : ∀ n, ℓ n n) (c : Constant) : c.Like ℓ c :=
  ⟨rfl, same c.line⟩

theorem VarDecl.like_refl (same : ∀ n, ℓ n n) (v : VarDecl) : v.Like ℓ v :=
  ⟨rfl, rfl, same v.line⟩

mutual

theorem Expr.like_refl (same : ∀ n, ℓ n n) : ∀ e : Expr, e.Like ℓ e
  | .binary op l r n => .binary op (Expr.like_refl same l) (Expr.like_refl same r) (same n)
  | .unary op e n => .unary op (Expr.like_refl same e) (same n)
  | .var _ n => .var (same n)
  | .element array i n => .element array (Expr.like_refl same i) (same n)
  | .call callee args n => .call callee (Expr.allLike_refl same args) (same n)
  | .constant c => .constant (c.like_refl same)

theorem Expr.allLike_refl (same : ∀ n, ℓ n n) : ∀ es : List Expr, Expr.AllLike ℓ es es
  | [] => .nil
  | e :: es => .cons (Expr.like_refl same e) (Expr.allLike_refl same es)

end

theorem Assignment.like_refl (same : ∀ n, ℓ n n) : ∀ a : Assignment, a.Like ℓ a
  | .scalar _ e n => .scalar (e.like_refl same) (same n)
  | .element _ i e n => .element (i.like_refl same) (e.like_refl same) (same n)

mutual

theorem Stmt.like_refl (same : ∀ n, ℓ n n) : ∀ s : Stmt, s.Like ℓ s
  | .block b => .block (Block.like_refl same b)
  | .ifElse c t e n => .ifElse (c.like_refl same) (Block.like_refl same t)
      (Block.optionalLike_refl same e) (same n)
  | .while c b n => .while (c.like_refl same) (Block.like_refl same b) (same n)
  | .for i c s b n => .for (forall₂_refl (Assignment.like_refl same) i) (c.like_refl same)
      (forall₂_refl (Assignment.like_refl same) s) (Block.like_refl same b) (same n)
  | .return v n => .return (optionRel_refl (Expr.like_refl same) v) (same n)
  | .jump kind n => .jump kind (same n)
  | .assign a => .assign (a.like_refl same)
  | .call _ args n => .call (Expr.allLike_refl same args) (same n)

theorem Stmt.allLike_refl (same : ∀ n, ℓ n n) : ∀ ss : List Stmt, Stmt.AllLike ℓ ss ss
  | [] => .nil
  | s :: ss => .cons (Stmt.like_refl same s) (Stmt.allLike_refl same ss)

theorem Block.like_refl (same : ∀ n, ℓ n n) : ∀ b : Block, b.Like ℓ b
  | .mk vars ss => .mk (forall₂_refl (VarDecl.like_refl same) vars) (Stmt.allLike_refl same ss)

theorem Block.optionalLike_refl (same : ∀ n, ℓ n n) : ∀ b : Option Block, Block.OptionalLike ℓ b b
  | none => .none
  | some b => .some (Block.like_refl same b)

end

theorem ExternDecl.like_refl (same : ∀ n, ℓ n n) (e : ExternDecl) : e.Like ℓ e :=
  ⟨rfl, rfl, forall₂_refl (VarDecl.like_refl same) e.params, same e.line⟩

theorem FieldDecl.like_refl (same : ∀ n, ℓ n n) (f : FieldDecl) : f.Like ℓ f :=
  ⟨rfl, rfl, rfl, optionRel_refl (Constant.like_refl same) f.init, same f.line⟩

theorem Method.like_refl (same : ∀ n, ℓ n n) (d : Method) : d.Like ℓ d :=
  ⟨rfl, rfl, forall₂_refl (VarDecl.like_refl same) d.params, d.body.like_refl same, same d.line⟩

theorem Package.like_refl (same : ∀ n, ℓ n n) (p : Package) : p.Like ℓ p :=
  ⟨rfl, forall₂_refl (FieldDecl.like_refl same) p.fields,
    forall₂_refl (Method.like_refl same) p.methods, same p.line⟩

end Reflexive

end Decaf
