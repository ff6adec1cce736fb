import Decaf.Language.Program

/-!
# Typing rules

Which programs are well typed, as a check that can be run. Names are looked up from the
innermost scope outwards and have to stand for an entity of the right kind. Truth values
are accepted where integers are wanted, in assignments, arguments and results as in
arithmetic with one integer operand; nothing else is converted. Whether jumps stand inside
loops is a question of its own.
-/

namespace Decaf

/-- What a name stands for, as far as types go. -/
inductive Entity where
  | variable (ty : Ty)
  | array (ty : Ty)
  | function (ret : Ty) (params : List Ty)
  deriving DecidableEq, Repr

/-- The entities in scope, scope by scope, the innermost and the latest first. -/
abbrev Context := List (List (String × Entity))

namespace Context

def find? (Γ : Context) (name : String) : Option Entity :=
  Γ.findSome? (·.lookup name)

/-- A further name in the innermost scope, where it has to be free. -/
def add? (Γ : Context) (name : String) (e : Entity) : Option Context :=
  match Γ with
  | [] => none
  | frame :: outer =>
    if (frame.lookup name).isSome then none else some (((name, e) :: frame) :: outer)

/-- Variables in the innermost scope; none of them may have type `void`. -/
def declare? (Γ : Context) : List VarDecl → Option Context
  | [] => some Γ
  | var :: vars =>
    if var.ty = .void then none
    else
      match var.name with
      | none => declare? Γ vars
      | some name => (Γ.add? name (.variable var.ty)).bind (declare? · vars)

end Context

namespace Ty

/-- A value of type `found` can go where one of type `wanted` is expected. -/
def accepts (wanted found : Ty) : Bool :=
  found != .void && (found == wanted || found == .bool && wanted == .int)

def isNumeric : Ty → Bool
  | int | bool => true
  | _ => false

/-- At least one of two numeric operands is an integer. -/
def mixes (l r : Ty) : Bool :=
  l.isNumeric && r.isNumeric && (l == .int || r == .int)

end Ty

def UnaryOp.result? : UnaryOp → Ty → Option Ty
  | .neg, .int => some .int
  | .not, .int => some .int
  | .not, .bool => some .bool
  | _, _ => none

def BinaryOp.result? (op : BinaryOp) (l r : Ty) : Option Ty :=
  match op with
  | .and | .or => if l = .bool ∧ r = .bool then some .bool else none
  | .eq | .ne => if l.isNumeric ∧ r.isNumeric then some .bool else none
  | .ge | .le | .gt | .lt => if l.mixes r then some .bool else none
  | .mul | .div | .mod | .add | .sub | .shl | .shr => if l.mixes r then some .int else none

mutual

/-- The type of an expression; that of a call may be `void`. -/
def Expr.type? (Γ : Context) : Expr → Option Ty
  | .binary op lhs rhs _ =>
    match Expr.type? Γ lhs, Expr.type? Γ rhs with
    | some l, some r => op.result? l r
    | _, _ => none
  | .unary op operand _ =>
    match Expr.type? Γ operand with
    | some ty => op.result? ty
    | none => none
  | .var name _ =>
    match Γ.find? name with
    | some (.variable ty) => some ty
    | _ => none
  | .element array index _ =>
    match Γ.find? array, Expr.type? Γ index with
    | some (.array ty), some .int => some ty
    | _, _ => none
  | .call callee args _ =>
    match Γ.find? callee with
    | some (.function ret params) => if Expr.passes Γ args params then some ret else none
    | _ => none
  | .constant c => some c.ty

/-- The arguments are as many as the parameters, and each is accepted. -/
def Expr.passes (Γ : Context) : List Expr → List Ty → Bool
  | [], [] => true
  | e :: es, ty :: tys =>
    (match Expr.type? Γ e with
      | some found => ty.accepts found
      | none => false) && Expr.passes Γ es tys
  | _, _ => false

end

/-- The expression can go where a value of type `wanted` is expected. -/
def Expr.yields (Γ : Context) (e : Expr) (wanted : Ty) : Bool :=
  match e.type? Γ with
  | some found => wanted.accepts found
  | none => false

def Assignment.wellTyped (Γ : Context) : Assignment → Bool
  | .scalar name value _ =>
    match Γ.find? name with
    | some (.variable ty) => value.yields Γ ty
    | _ => false
  | .element array index value _ =>
    match Γ.find? array with
    | some (.array ty) => index.type? Γ == some .int && value.yields Γ ty
    | _ => false

mutual

/-- A statement of a method that returns values of type `ret`. -/
def Stmt.wellTyped (ret : Ty) (Γ : Context) : Stmt → Bool
  | .block body => Block.wellTyped ret Γ body
  | .ifElse cond thenBlock elseBlock _ =>
    cond.type? Γ == some .bool && Block.wellTyped ret Γ thenBlock &&
      Block.optionalWellTyped ret Γ elseBlock
  | .while cond body _ => cond.type? Γ == some .bool && Block.wellTyped ret Γ body
  | .for init cond step body _ =>
    init.all (Assignment.wellTyped Γ) && cond.type? Γ == some .bool &&
      step.all (Assignment.wellTyped Γ) && Block.wellTyped ret Γ body
  | .return none _ => true
  | .return (some e) _ => ret != .void && e.yields Γ ret
  | .jump _ _ => true
  | .assign a => a.wellTyped Γ
  | .call callee args line => ((Expr.call callee args line).type? Γ).isSome

def Stmt.allWellTyped (ret : Ty) (Γ : Context) : List Stmt → Bool
  | [] => true
  | s :: ss => Stmt.wellTyped ret Γ s && Stmt.allWellTyped ret Γ ss

/-- The variables of a block are distinct and have a scope of their own. -/
def Block.wellTyped (ret : Ty) (Γ : Context) : Block → Bool
  | .mk vars body =>
    match Context.declare? ([] :: Γ) vars with
    | some inner => Stmt.allWellTyped ret inner body
    | none => false

def Block.optionalWellTyped (ret : Ty) (Γ : Context) : Option Block → Bool
  | none => true
  | some b => Block.wellTyped ret Γ b

end

mutual

/-- Every jump stands inside a loop, of the statement itself or around it. -/
def Stmt.jumpsInside (loop : Bool) : Stmt → Bool
  | .block body => Block.jumpsInside loop body
  | .ifElse _ thenBlock elseBlock _ =>
    Block.jumpsInside loop thenBlock && Block.optionalJumpsInside loop elseBlock
  | .while _ body _ => Block.jumpsInside true body
  | .for _ _ _ body _ => Block.jumpsInside true body
  | .jump _ _ => loop
  | .return _ _ | .assign _ | .call _ _ _ => true

def Stmt.allJumpsInside (loop : Bool) : List Stmt → Bool
  | [] => true
  | s :: ss => Stmt.jumpsInside loop s && Stmt.allJumpsInside loop ss

def Block.jumpsInside (loop : Bool) : Block → Bool
  | .mk _ body => Stmt.allJumpsInside loop body

def Block.optionalJumpsInside (loop : Bool) : Option Block → Bool
  | none => true
  | some b => Block.jumpsInside loop b

end

/-- Fields hold no `void`. An array has a positive length and no initializer; a scalar is
initialized by a number or a truth value that it accepts, if at all. -/
def FieldDecl.valid (f : FieldDecl) : Bool :=
  f.ty != .void &&
    match f.size, f.init with
    | .array length, init => length != 0 && init.isNone
    | .scalar, none => true
    | .scalar, some c => c.ty.isNumeric && f.ty.accepts c.ty

def FieldDecl.entity (f : FieldDecl) : Entity :=
  match f.size with
  | .array _ => .array f.ty
  | .scalar => .variable f.ty

def functionEntity (ret : Ty) (params : List VarDecl) : Entity :=
  .function ret (params.map (·.ty))

namespace Context

def declareExterns? (Γ : Context) : List ExternDecl → Option Context
  | [] => some Γ
  | e :: es =>
    if e.params.all (·.ty != .void) then
      (Γ.add? e.name (functionEntity e.ret e.params)).bind (declareExterns? · es)
    else none

def declareFields? (Γ : Context) : List FieldDecl → Option Context
  | [] => some Γ
  | f :: fs => if f.valid then (Γ.add? f.name f.entity).bind (declareFields? · fs) else none

def declareMethods? (Γ : Context) : List Method → Option Context
  | [] => some Γ
  | d :: ds => (Γ.add? d.name (functionEntity d.ret d.params)).bind (declareMethods? · ds)

end Context

/-- What the declarations of a program put in scope for all method bodies. -/
def Package.context? (externs : List ExternDecl) (p : Package) : Option Context := do
  let Γ ← Context.declareExterns? [[]] externs
  let Γ ← Γ.declareFields? p.fields
  Γ.declareMethods? p.methods

/-- Parameters and the variables of the body share one scope. -/
def Method.wellTyped (Γ : Context) (d : Method) : Bool :=
  match (Context.declare? ([] :: Γ) d.params).bind (·.declare? d.body.vars) with
  | some inner => Stmt.allWellTyped d.ret inner d.body.stmts
  | none => false

/-- The program has a package, its declarations are valid and distinct within each scope,
and every statement and expression keeps to the typing rules. -/
def Program.wellTyped (p : Program) : Bool :=
  match p.package with
  | none => false
  | some package =>
    match package.context? p.externs with
    | some Γ => package.methods.all (·.wellTyped Γ)
    | none => false

def Program.jumpsInside (p : Program) : Bool :=
  match p.package with
  | none => true
  | some package => package.methods.all (·.body.jumpsInside false)

end Decaf
