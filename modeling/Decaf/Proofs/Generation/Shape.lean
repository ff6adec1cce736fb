import Decaf.Compile.Program
import Decaf.Proofs.Generation.Body

/-!
# The shape of code

Which code a construct has in a finished module. A construct begins at a place in some
block and ends at another place, possibly in another block, or control has left before. The
shapes follow the generating computations one by one: each says where the code of the parts
stands and which instructions and terminators connect it.
-/

namespace Decaf

open IR

/-- The instruction for an operator. -/
def UnaryOp.instruction : UnaryOp → UnOp
  | not => .not
  | neg => .neg

/-- A point in a block, after some of its code. Values that are defined from here on are
numbered from `values`. -/
structure Place where
  block : BlockId
  before : List Inst
  values : Nat

/-- The start of a block. -/
def Place.start (b : BlockId) (values : Nat) : Place :=
  ⟨b, [], values⟩

namespace Shape

/-- Code that leaves a value. -/
abbrev Operand := Place → ValueId → Place → Prop

/-- Code that may leave a value. -/
abbrev Result := Place → Option ValueId → Place → Prop

/-- Code after which control goes on. -/
abbrev Step := Place → Place → Prop

/-- Code after which control goes on or has left. -/
abbrev Flow := Place → Option Place → Prop

section

variable (m : Module)

/-- The instruction at the place is `i`, and the second place comes after it. -/
structure Does (a : Place) (i : Inst) (z : Place) : Prop where
  next : ∃ after, m.codeOf a.block = a.before ++ i :: after
  block : z.block = a.block
  before : z.before = a.before ++ [i]
  values : a.values ≤ z.values

/-- The instruction defines a new value. -/
structure Emits (a : Place) (dst : ValueId) (i : Inst) (z : Place) : Prop extends
    Does m a i z where
  new : a.values ≤ dst.index
  held : dst.index < z.values

/-- The block ends at the place. -/
structure Exits (a : Place) (t : Terminator) : Prop where
  code : m.codeOf a.block = a.before
  leaves : m.terminator? a.block = some t

/-- The block has no phi. -/
def Plain (b : BlockId) : Prop :=
  ∀ i ∈ m.codeOf b, i.isPhi = false

/-- There is no code between the places. -/
structure Stays (a z : Place) : Prop where
  block : z.block = a.block
  before : z.before = a.before
  values : a.values ≤ z.values

/-- The value is a constant. -/
structure Constant (c : Const) (a : Place) (v : ValueId) (z : Place) : Prop extends
    Stays a z where
  value : ∃ name, m.value? v = some ⟨c.ty, .const c, name⟩
  held : v.index < z.values

/-- The value is the address of a string. -/
structure Text (s : String) (a : Place) (v : ValueId) (z : Place) : Prop extends
    Stays a z where
  value : m.IsGlobal v (.string s.toUTF8.toList)
  held : v.index < z.values

/-- A truth value becomes an integer where an integer is wanted. -/
def coerce (wanted : Decaf.Ty) (a : Place) (v w : ValueId) (z : Place) : Prop :=
  if wanted = .int ∧ m.typeOf v = .i1 then Emits m a w (.zext w v .i32) z else w = v ∧ z = a

def asValue (S : Result) : Operand :=
  fun a v z => S a (some v) z

def instruction (op : BinOp) (L R : Operand) : Operand := fun a v z =>
  ∃ l b r c, L a l b ∧ a.values ≤ b.values ∧ R b r c ∧ b.values ≤ c.values ∧
    if m.typeOf l = m.typeOf r then Emits m c v (.binary v op l r) z
    else ∃ l' d r' e, coerce m .int c l l' d ∧ coerce m .int d r r' e ∧
      Emits m e v (.binary v op l' r') z

/-- The phi stands at the start of the block where both ways meet. -/
def connective (k : Connective) (L R : Operand) : Operand := fun a v z =>
  ∃ l b right done n r c, L a l b ∧ a.values ≤ b.values ∧
    Exits m b (.condBr l (k.branches right done).1 (k.branches right done).2) ∧
    Plain m right ∧ b.values ≤ n ∧ R (.start right n) r c ∧ n ≤ c.values ∧
    Exits m c (.br done) ∧
    Emits m (.start done c.values) v (.phi v .i1 [(l, b.block), (r, c.block)]) z

def unary (op : UnaryOp) (O : Operand) : Operand := fun a v z =>
  ∃ u b, O a u b ∧ a.values ≤ b.values ∧ Emits m b v (.unary v op.instruction u) z

def constant : Literal → Operand
  | .int n => Constant m (.i32 n)
  | .bool b => Constant m (.bool b)
  | .string s => Text m s

def variableValue (scopes : ScopeStack) (name : String) (line : Nat) : Operand := fun a v z =>
  ∃ ty address, scopes.resolveScalar name line = .ok (ty, address) ∧
    Emits m a v (.load v ty.repr address) z

def element (scopes : ScopeStack) (array : String) (line : Nat) (I : Operand) : Operand :=
  fun a v z => ∃ ty base i b address c, scopes.resolveArray array line = .ok (ty, base) ∧
    I a i b ∧ a.values ≤ b.values ∧ Emits m b address (.elementPtr address ty.repr base i) c ∧
    Emits m c v (.load v ty.repr address) z

mutual

def expr (scopes : ScopeStack) : Expr → Result
  | .binary op lhs rhs _ => fun a r z => ∃ v, r = some v ∧
    match op.strategy with
    | .instruction bin _ =>
      instruction m bin (asValue (expr scopes lhs)) (asValue (expr scopes rhs)) a v z
    | .connective k =>
      connective m k (asValue (expr scopes lhs)) (asValue (expr scopes rhs)) a v z
  | .unary op operand _ => fun a r z => ∃ v, r = some v ∧
    unary m op (asValue (expr scopes operand)) a v z
  | .var name line => fun a r z => ∃ v, r = some v ∧ variableValue m scopes name line a v z
  | .element array index line => fun a r z => ∃ v, r = some v ∧
    element m scopes array line (asValue (expr scopes index)) a v z
  | .call callee args line => fun a r z => ∃ f params vs b,
    scopes.resolveCall callee args.length line = .ok (f, params) ∧
    arguments scopes args params a vs b ∧ a.values ≤ b.values ∧
    Does m b (.call r f vs) z ∧ ∀ v, r = some v → Emits m b v (.call (some v) f vs) z
  | .constant c => fun a r z => ∃ v, r = some v ∧ constant m c.value a v z

def arguments (scopes : ScopeStack) : List Expr → List Decaf.Ty → Place → List ValueId →
    Place → Prop
  | e :: es, ty :: tys => fun a vs z => ∃ v b w c ws, vs = w :: ws ∧
    asValue (expr scopes e) a v b ∧ a.values ≤ b.values ∧ coerce m ty b v w c ∧
    arguments scopes es tys c ws z ∧ c.values ≤ z.values
  | _, _ => fun a vs z => vs = [] ∧ z = a

end

def value (scopes : ScopeStack) (e : Expr) : Operand :=
  asValue (expr m scopes e)

def assignment (scopes : ScopeStack) : Assignment → Step
  | .scalar name e line => fun a z => ∃ ty slot v b w c,
    scopes.resolveScalar name line = .ok (ty, slot) ∧ value m scopes e a v b ∧
    a.values ≤ b.values ∧ coerce m ty b v w c ∧ Does m c (.store w slot) z
  | .element array index e line => fun a z => ∃ ty base i b v c w d address x,
    scopes.resolveArray array line = .ok (ty, base) ∧ value m scopes index a i b ∧
    a.values ≤ b.values ∧ value m scopes e b v c ∧ b.values ≤ c.values ∧
    coerce m ty c v w d ∧ Emits m d address (.elementPtr address ty.repr base i) x ∧
    Does m x (.store w address) z

def assignments (scopes : ScopeStack) : List Assignment → Step
  | [] => fun a z => z = a
  | x :: xs => fun a z => ∃ b, assignment m scopes x a b ∧ a.values ≤ b.values ∧
    assignments scopes xs b z

/-- A new slot gets the value, and the name is bound to it. -/
structure Declares (entry : BlockId) (scopes : ScopeStack) (a : Place) (name : String)
    (d : Descriptor) (slot v : ValueId) (z : Place) : Prop where
  handle : d.handle = .slot slot
  reserved : (slot, d.ty.repr) ∈ m.slotsOf entry
  fresh : ∀ x ∈ scopes.inner.flatten, x.2.handle ≠ .slot slot
  store : Does m a (.store v slot) z

/-- Variables that start with zero, from the scopes before to those after. -/
def declareLocals (entry : BlockId) : List VarDecl → ScopeStack → Place → ScopeStack → Place →
    Prop
  | [], scopes, a, scopes', z => scopes' = scopes ∧ z = a
  | var :: vars, scopes, a, scopes', z =>
    match var.name with
    | none => declareLocals entry vars scopes a scopes' z
    | some name => ∃ slot c zero b d, Const.zero? var.ty.repr = some c ∧
      Constant m c a zero b ∧
      Declares m entry scopes b name (.scalar .localVariable var.ty slot var.line) slot zero d ∧
      declareLocals entry vars (scopes.add name (.scalar .localVariable var.ty slot var.line)) d
        scopes' z

/-- Parameters that start with what is passed. -/
def bindParams (entry : BlockId) (params : List Param) : Nat → List VarDecl → ScopeStack →
    Place → ScopeStack → Place → Prop
  | _, [], scopes, a, scopes', z => scopes' = scopes ∧ z = a
  | index, param :: decls, scopes, a, scopes', z =>
    match param.name with
    | none => bindParams entry params (index + 1) decls scopes a scopes' z
    | some name => ∃ slot q b c, params[index]? = some q ∧ Stays a b ∧
      Declares m entry scopes b name (.scalar .parameter param.ty slot param.line) slot q.value
        c ∧
      bindParams entry params (index + 1) decls
        (scopes.add name (.scalar .parameter param.ty slot param.line)) c scopes' z

def returnDefault (ret : Decaf.Ty) : Flow := fun a z => z = none ∧ ∃ c v b,
  (if ret = .bool then some (.bool true) else Const.zero? ret.repr) = some c ∧
  Constant m c a v b ∧ Exits m b (.ret (some v))

def returnStmt (scopes : ScopeStack) (ret : Decaf.Ty) : Option Expr → Flow
  | none => fun a z =>
    if ret = .void then z = none ∧ Exits m a (.ret none) else returnDefault m ret a z
  | some e => fun a z => z = none ∧ ret ≠ .void ∧ ∃ v b w c, value m scopes e a v b ∧
    a.values ≤ b.values ∧ coerce m ret b v w c ∧ Exits m c (.ret (some w))

def jumpStmt (loops : LoopStack) (kind : Jump) : Flow := fun a z =>
  match loops.innermost? with
  | some targets => z = none ∧ Exits m a (.br (targets.target kind))
  | none => z = some a

/-- Control goes on to the block, if it comes that far. -/
def Falls (z : Option Place) (b : BlockId) : Prop :=
  ∀ y, z = some y → Exits m y (.br b)

/-- A block for a condition with a branch on each outcome. -/
def test (C : Operand) (cond onTrue onFalse : BlockId) (n : Nat) : Prop :=
  Plain m cond ∧ Plain m onTrue ∧ Plain m onFalse ∧
    ∃ v b, C (.start cond n) v b ∧ Exits m b (.condBr v onTrue onFalse)

def conditional (C : Operand) (T E : Flow) : Flow := fun a z =>
  ∃ cond onTrue onFalse done n n₁ y₁ n₂ y₂ n₃, Exits m a (.br cond) ∧ a.values ≤ n ∧
    test m C cond onTrue onFalse n ∧
    a.values ≤ n₁ ∧ T (.start onTrue n₁) y₁ ∧ Falls m y₁ done ∧
    a.values ≤ n₂ ∧ E (.start onFalse n₂) y₂ ∧ Falls m y₂ done ∧
    Plain m done ∧ a.values ≤ n₃ ∧
    z = if y₁.isNone ∧ y₂.isNone then none else some (.start done n₃)

def whileLoop (C : Operand) (B : LoopTargets → Flow) : Flow := fun a z =>
  ∃ cond body done n n₁ y n₂, Exits m a (.br cond) ∧ a.values ≤ n ∧
    test m C cond body done n ∧ a.values ≤ n₁ ∧ B ⟨cond, done⟩ (.start body n₁) y ∧
    Falls m y cond ∧ a.values ≤ n₂ ∧ z = some (.start done n₂)

def forLoop (I : Step) (C : Operand) (S : Step) (B : LoopTargets → Flow) : Flow := fun a z =>
  ∃ b cond body post done n n₁ y n₂ c n₃, I a b ∧ a.values ≤ b.values ∧
    Exits m b (.br cond) ∧ b.values ≤ n ∧ test m C cond body done n ∧
    b.values ≤ n₁ ∧ B ⟨post, done⟩ (.start body n₁) y ∧ Falls m y post ∧
    Plain m post ∧ b.values ≤ n₂ ∧ S (.start post n₂) c ∧ Exits m c (.br cond) ∧
    b.values ≤ n₃ ∧ z = some (.start done n₃)

/-- The second part is there unless control has left in the first. -/
def sequence (F G : Flow) : Flow := fun a z =>
  ∃ y, F a y ∧ match y with
    | none => z = none
    | some b => a.values ≤ b.values ∧ G b z

/-- Variables, and code in which they are bound. -/
def inScope (entry : BlockId) (vars : List VarDecl) (F : ScopeStack → Flow)
    (scopes : ScopeStack) : Flow := fun a z =>
  ∃ inner b, declareLocals m entry vars scopes.push a inner b ∧ a.values ≤ b.values ∧
    F inner b z

section

variable (entry : BlockId) (ret : Decaf.Ty)

mutual

def stmt : Stmt → LoopStack → ScopeStack → Flow
  | .block body, loops, scopes => block body loops scopes
  | .ifElse cond thenBlock elseBlock _, loops, scopes =>
    conditional m (value m scopes cond) (block thenBlock loops scopes)
      (optionalBlock elseBlock loops scopes)
  | .while cond body _, loops, scopes =>
    whileLoop m (value m scopes cond) fun targets => block body (loops.push targets) scopes
  | .for init cond step body _, loops, scopes =>
    forLoop m (assignments m scopes init) (value m scopes cond) (assignments m scopes step)
      fun targets => block body (loops.push targets) scopes
  | .return result _, _, scopes => returnStmt m scopes ret result
  | .jump kind _, loops, _ => jumpStmt m loops kind
  | .assign x, _, scopes => fun a z => ∃ b, assignment m scopes x a b ∧ z = some b
  | .call callee args line, _, scopes => fun a z => ∃ r b,
    expr m scopes (.call callee args line) a r b ∧ z = some b

def stmts : List Stmt → LoopStack → ScopeStack → Flow
  | [], _, _ => fun a z => z = some a
  | s :: ss, loops, scopes => sequence (stmt s loops scopes) (stmts ss loops scopes)

def block : Block → LoopStack → ScopeStack → Flow
  | .mk vars body, loops, scopes => inScope m entry vars (stmts body loops) scopes

def optionalBlock : Option Block → LoopStack → ScopeStack → Flow
  | none, _, _ => fun a z => z = some a
  | some b, loops, scopes => block b loops scopes

end

end

/-- The end of a method that control may reach. -/
def finishBody (ret : Decaf.Ty) (y : Option Place) : Prop :=
  ∀ a, y = some a → if ret = .void then Exits m a (.ret none) else returnDefault m ret a none

/-- The body of a method, in its entry. -/
def methodBody (entry : BlockId) (params : List Param) (d : Method) (scopes : ScopeStack)
    (a : Place) : Prop :=
  ∃ s₁ b s₂ c y, bindParams m entry params 0 d.params scopes.push a s₁ b ∧
    a.values ≤ b.values ∧ declareLocals m entry d.body.vars s₁ b s₂ c ∧ b.values ≤ c.values ∧
    stmts m entry d.ret d.body.stmts .empty s₂ c y ∧ finishBody m d.ret y

end

end Shape

end Decaf
