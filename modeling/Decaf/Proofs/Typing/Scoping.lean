import Decaf.Proofs.Typing.Rules

/-!
# Scoping rules

Which programs are well scoped, as a check that can be run. Names are distinct within each scope
and stand for an entity of the kind that is wanted where they are used; a call has as many
arguments as its callee has parameters; and nothing that has no value is used as one. Types
beyond that do not matter.

Only live statements are looked at, those up to the first one at which control leaves the list
they stand in.
-/

namespace Decaf

mutual

/-- Control leaves the list in which the statement stands. A jump leaves it only inside a
loop. -/
def Stmt.leaves (loop : Bool) : Stmt → Bool
  | .block body => Block.leaves loop body
  | .ifElse _ thenBlock elseBlock _ =>
    Block.leaves loop thenBlock && Block.optionalLeaves loop elseBlock
  | .while _ _ _ => false
  | .for _ _ _ _ _ => false
  | .return _ _ => true
  | .jump _ _ => loop
  | .assign _ => false
  | .call _ _ _ => false

/-- Control leaves the list at one of its statements. -/
def Stmt.anyLeaves (loop : Bool) : List Stmt → Bool
  | [] => false
  | s :: ss => Stmt.leaves loop s || Stmt.anyLeaves loop ss

def Block.leaves (loop : Bool) : Block → Bool
  | .mk _ stmts => Stmt.anyLeaves loop stmts

/-- A branch that is not there does nothing, and control stays. -/
def Block.optionalLeaves (loop : Bool) : Option Block → Bool
  | none => false
  | some b => Block.leaves loop b

end

namespace Context

def hasVariable (Γ : Context) (name : String) : Bool :=
  match Γ.find? name with
  | some (.variable _) => true
  | _ => false

def hasArray (Γ : Context) (name : String) : Bool :=
  match Γ.find? name with
  | some (.array _) => true
  | _ => false

/-- The name stands for a function with that many parameters. -/
def hasFunction (Γ : Context) (name : String) (arity : Nat) : Bool :=
  match Γ.find? name with
  | some (.function _ params) => params.length == arity
  | _ => false

end Context

/-- Only a call of a function that returns `void` has no value. -/
def Expr.hasValue (Γ : Context) : Expr → Bool
  | .call callee _ _ =>
    match Γ.find? callee with
    | some (.function ret _) => ret != .void
    | _ => true
  | _ => true

mutual

/-- Every name in the expression resolves, and every operand has a value. -/
def Expr.scoped (Γ : Context) : Expr → Bool
  | .binary _ lhs rhs _ =>
    Expr.scoped Γ lhs && lhs.hasValue Γ && (Expr.scoped Γ rhs && rhs.hasValue Γ)
  | .unary _ operand _ => Expr.scoped Γ operand && operand.hasValue Γ
  | .var name _ => Γ.hasVariable name
  | .element array index _ => Γ.hasArray array && (Expr.scoped Γ index && index.hasValue Γ)
  | .call callee args _ => Γ.hasFunction callee args.length && Expr.allUsable Γ args
  | .constant _ => true

def Expr.allUsable (Γ : Context) : List Expr → Bool
  | [] => true
  | e :: es => Expr.scoped Γ e && e.hasValue Γ && Expr.allUsable Γ es

end

/-- The expression can stand where a value is wanted. -/
def Expr.usable (Γ : Context) (e : Expr) : Bool :=
  e.scoped Γ && e.hasValue Γ

def Assignment.scoped (Γ : Context) : Assignment → Bool
  | .scalar name value _ => Γ.hasVariable name && value.usable Γ
  | .element array index value _ => Γ.hasArray array && (index.usable Γ && value.usable Γ)

/-- The names that a list of declarations brings into scope. -/
def declaredNames (vars : List VarDecl) : List String :=
  vars.filterMap (·.name)

/-- The scope that a list of declarations makes, the latest first. -/
def declaredScope (vars : List VarDecl) : List (String × Entity) :=
  (vars.filterMap fun v => v.name.map fun name => (name, .variable v.ty)).reverse

/-- A local variable that has a name starts with zero, and `void` has none. -/
def VarDecl.startable (v : VarDecl) : Bool :=
  v.name.isNone || v.ty != .void

mutual

/-- A statement of a method that returns values of type `ret`. -/
def Stmt.scoped (ret : Ty) (loop : Bool) (Γ : Context) : Stmt → Bool
  | .block body => Block.scoped ret loop Γ body
  | .ifElse cond thenBlock elseBlock _ =>
    cond.usable Γ && (Block.scoped ret loop Γ thenBlock &&
      Block.optionalScoped ret loop Γ elseBlock)
  | .while cond body _ => cond.usable Γ && Block.scoped ret true Γ body
  | .for init cond step body _ =>
    init.all (Assignment.scoped Γ) && (cond.usable Γ &&
      (Block.scoped ret true Γ body && step.all (Assignment.scoped Γ)))
  | .return none _ => true
  | .return (some e) _ => ret != .void && e.usable Γ
  | .jump _ _ => true
  | .assign a => a.scoped Γ
  | .call callee args line => (Expr.call callee args line).scoped Γ

/-- The statements up to the first one at which control leaves. -/
def Stmt.liveScoped (ret : Ty) (loop : Bool) (Γ : Context) : List Stmt → Bool
  | [] => true
  | s :: ss => Stmt.scoped ret loop Γ s && (s.leaves loop || Stmt.liveScoped ret loop Γ ss)

def Block.scoped (ret : Ty) (loop : Bool) (Γ : Context) : Block → Bool
  | .mk vars body =>
    decide (declaredNames vars).Nodup && vars.all (·.startable) &&
      Stmt.liveScoped ret loop (declaredScope vars :: Γ) body

def Block.optionalScoped (ret : Ty) (loop : Bool) (Γ : Context) : Option Block → Bool
  | none => true
  | some b => Block.scoped ret loop Γ b

end

/-- Parameters and the variables of the body share one scope. -/
def Method.scoped (Γ : Context) (d : Method) : Bool :=
  decide (declaredNames (d.params ++ d.body.vars)).Nodup && d.body.vars.all (·.startable) &&
    Stmt.liveScoped d.ret false (declaredScope (d.params ++ d.body.vars) :: Γ) d.body.stmts

/-- A field that can be laid out: an array has a positive length and no initializer, a scalar
holds something and is initialized, if at all, by a number or a truth value that it accepts. -/
def FieldDecl.admissible (f : FieldDecl) : Bool :=
  match f.size, f.init with
  | .array length, init => length != 0 && init.isNone
  | .scalar, none => f.ty != .void
  | .scalar, some c => c.ty.isNumeric && f.ty.accepts c.ty

/-- What a program declares outside of its methods, in the order of declaration. -/
def Package.declared (externs : List ExternDecl) (p : Package) : List (String × Entity) :=
  externs.map (fun e => (e.name, functionEntity e.ret e.params)) ++
    p.fields.map (fun f => (f.name, f.entity)) ++
    p.methods.map (fun d => (d.name, functionEntity d.ret d.params))

def Program.wellScoped (P : Program) : Bool :=
  match P.package with
  | none => false
  | some p =>
    decide ((p.declared P.externs).map (·.1)).Nodup && p.fields.all (·.admissible) &&
      p.methods.all (·.scoped [(p.declared P.externs).reverse])

end Decaf
