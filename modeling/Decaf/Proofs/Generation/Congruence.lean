import Decaf.Proofs.Generation.Outcome

/-!
# Relations that respect how code is generated

A relation between computations that is preserved when computations are put together relates
the code that is generated for any piece of syntax under one set of options to that generated
under another, as soon as it does so for what the options decide. With the same options on
both sides the relation may be a property of one computation.
-/

namespace Decaf

open IR

/-- The same method under other options. -/
def MethodContext.under (m : MethodContext) (options : Options) : MethodContext :=
  { m with options }

namespace Gen

variable {τ α β : Type} [Target τ]

/-- Preserved by each way of putting together computations that bind no names. Reading the state
is related to itself; what the options `o` and `o'` decide is related by assumption. -/
structure PlainCongruence (R : {α : Type} → Gen τ α → Gen τ α → Prop) (o o' : Options) :
    Prop where
  reads {α : Type} {x : Gen τ α} : (∀ s, (x.run.run s).2 = s) → R x x
  bind {α β : Type} {x y : Gen τ α} {f g : α → Gen τ β} :
    R x y → (∀ a, R (f a) (g a)) → R (x >>= f) (y >>= g)
  emit {r : Reply} (c : Command r) : R (emit c) (emit c)
  inLoop {x y : Gen τ Unit} (targets : LoopTargets) :
    R x y → R (inLoop targets x) (inLoop targets y)
  returnDefault (m : MethodContext) (line : Nat) :
    R (defaultValue m.ret line >>= fun v => Gen.emit (.terminate (.ret (some v))))
      (defaultValue m.ret line >>= fun v => Gen.emit (.terminate (.ret (some v)))) →
    R (returnDefault (m.under o) line) (returnDefault (m.under o') line)
  jumpStmt (m : MethodContext) (kind : Jump) (line : Nat) :
    R (jumpStmt (m.under o) kind line) (jumpStmt (m.under o') kind line)

/-- Names may be bound anywhere. -/
structure Congruence (R : {α : Type} → Gen τ α → Gen τ α → Prop) (o o' : Options) : Prop
    extends PlainCongruence R o o' where
  bindName (name : String) (d : Descriptor) : R (bindName name d) (bindName name d)
  inScope {x y : Gen τ Unit} : R x y → R (inScope x) (inScope y)

/-- Names are bound by a block, in its own scope. -/
structure BlockCongruence (R : {α : Type} → Gen τ α → Gen τ α → Prop) (o o' : Options) : Prop
    extends PlainCongruence R o o' where
  inBlock (vars : List VarDecl) {x y : Gen τ Unit} : R x y →
    R (inScope (declareLocals vars >>= fun _ => x)) (inScope (declareLocals vars >>= fun _ => y))

omit [Target τ] in
theorem related_ite {R : {α : Type} → Gen τ α → Gen τ α → Prop} {p : Prop} [Decidable p]
    {x y x' y' : Gen τ α} (pos : R x y) (neg : R x' y') :
    R (if p then x else x') (if p then y else y') := by
  split
  · exact pos
  · exact neg

/-- Options that are the same on both sides decide between computations that are related anyway. -/
theorem PlainCongruence.of_same {R : {α : Type} → Gen τ α → Gen τ α → Prop} (o : Options)
    (reads : ∀ {α : Type} {x : Gen τ α}, (∀ s, (x.run.run s).2 = s) → R x x)
    (bind : ∀ {α β : Type} {x y : Gen τ α} {f g : α → Gen τ β},
      R x y → (∀ a, R (f a) (g a)) → R (x >>= f) (y >>= g))
    (emit : ∀ {r : Reply} (c : Command r), R (Gen.emit c) (Gen.emit c))
    (inLoop : ∀ {x y : Gen τ Unit} (targets : LoopTargets),
      R x y → R (Gen.inLoop targets x) (Gen.inLoop targets y))
    (warn : ∀ w, R (warn w) (warn w)) : PlainCongruence R o o where
  reads := reads
  bind := bind
  emit := emit
  inLoop := inLoop
  returnDefault m line value := by
    cases policy : o.missingReturn with
    | error =>
      rw [Gen.returnDefault, show (m.under o).options.missingReturn = .error from policy]
      exact reads fun _ => rfl
    | synthesize =>
      rw [Gen.returnDefault, show (m.under o).options.missingReturn = .synthesize from policy]
      exact bind (warn _) fun _ => value
  jumpStmt m kind line := by
    refine bind (x := innermostLoop?) (reads fun _ => rfl) fun r => ?_
    cases r with
    | some targets => exact emit _
    | none =>
      cases policy : o.strayJump with
      | error =>
        simp only [show (m.under o).options.strayJump = .error from policy]
        exact reads fun _ => rfl
      | ignore =>
        simp only [show (m.under o).options.strayJump = .ignore from policy]
        exact warn _

namespace PlainCongruence

variable {R : {α : Type} → Gen τ α → Gen τ α → Prop} {o o' : Options}
  (h : PlainCongruence R o o') {m : MethodContext}

include h

theorem pure (a : α) : R (Pure.pure a) (Pure.pure a) :=
  h.reads fun _ => rfl

theorem throw (e : CompileError) : R (MonadExcept.throw e : Gen τ α) (MonadExcept.throw e) :=
  h.reads fun _ => rfl

theorem map {x y : Gen τ α} (f : α → β) (related : R x y) : R (f <$> x) (f <$> y) := by
  rw [map_eq_pure_bind, map_eq_pure_bind]
  exact h.bind related fun a => h.pure (f a)

theorem forM {γ : Type} {x y : γ → Gen τ Unit} {cs : List γ} (each : ∀ c ∈ cs, R (x c) (y c)) :
    R (cs.forM x) (cs.forM y) := by
  induction cs with
  | nil => exact h.pure ()
  | cons c cs ih =>
    exact h.bind (each c (List.mem_cons_self ..)) fun _ =>
      ih fun c' hc' => each c' (List.mem_cons_of_mem _ hc')

theorem mapM {γ : Type} {x y : γ → Gen τ α} {cs : List γ} (each : ∀ c ∈ cs, R (x c) (y c)) :
    R (cs.mapM x) (cs.mapM y) := by
  induction cs with
  | nil => exact h.pure []
  | cons c cs ih =>
    rw [List.mapM_cons, List.mapM_cons]
    exact h.bind (each c (List.mem_cons_self ..)) fun a =>
      h.bind (ih fun c' hc' => each c' (List.mem_cons_of_mem _ hc')) fun as => h.pure _

theorem fromScopes (query : ScopeStack → Except CompileError α) :
    R (Gen.fromScopes query) (Gen.fromScopes query) := by
  refine h.reads fun s => ?_
  rw [run_fromScopes]

theorem insertionBlock :
    R (Gen.insertionBlock (m.under o)) (Gen.insertionBlock (m.under o')) := by
  refine h.reads (x := Gen.insertionBlock m) fun s => ?_
  have got : (get : Gen τ (GenState τ)).run.run s = (.ok s, s) := rfl
  rw [Gen.insertionBlock, run_bind, got]
  dsimp only
  cases Target.insertion? s.target <;> rfl

theorem branchIfOpen (b : BlockId) : R (Gen.branchIfOpen b) (Gen.branchIfOpen b) := by
  refine h.bind (x := isTerminated) (h.reads fun _ => rfl) fun closed => ?_
  exact related_ite (h.pure false) (h.bind (h.emit _) fun _ => h.pure true)

theorem coerce (v : ValueId) (wanted : Decaf.Ty) : R (Gen.coerce v wanted) (Gen.coerce v wanted) :=
  h.bind (h.reads fun _ => rfl) fun _ => related_ite (h.emit _) (h.pure v)

theorem zeroValue (ty : Decaf.Ty) (line : Nat) :
    R (Gen.zeroValue ty line) (Gen.zeroValue ty line) := by
  rw [Gen.zeroValue]
  split
  · exact h.emit _
  · exact h.throw _

theorem defaultValue (ty : Decaf.Ty) (line : Nat) :
    R (Gen.defaultValue ty line) (Gen.defaultValue ty line) :=
  related_ite (h.emit _) (h.zeroValue ty line)

theorem asValue {e e' : Gen τ (Option ValueId)} (line : Nat) (related : R e e') :
    R (asValue line e) (asValue line e') := by
  refine h.bind related fun r => ?_
  cases r with
  | some v => exact h.pure v
  | none => exact h.throw _

theorem instruction {l l' r r' : Gen τ ValueId} (op : BinOp) (hint : String) (left : R l l')
    (right : R r r') : R (instruction op hint l r) (instruction op hint l' r') := by
  refine h.bind left fun v => h.bind right fun w => ?_
  refine h.bind (h.reads fun _ => rfl) fun tv => h.bind (h.reads fun _ => rfl) fun tw => ?_
  exact related_ite (h.emit _) (h.bind (h.coerce v _) fun v' => h.bind (h.coerce w _) fun w' => h.emit _)

theorem connective {l l' r r' : Gen τ ValueId} (c : Connective) (left : R l l')
    (right : R r r') : R (connective (m.under o) c l r) (connective (m.under o') c l' r') := by
  refine h.bind left fun v => h.bind (h.emit _) fun rhs => h.bind (h.emit _) fun done => ?_
  refine h.bind h.insertionBlock fun exit => h.bind (h.emit _) fun _ => ?_
  refine h.bind (h.emit _) fun _ => h.bind right fun w => ?_
  refine h.bind h.insertionBlock fun exit' => h.bind (h.branchIfOpen _) fun _ => ?_
  exact h.bind (h.emit _) fun _ => h.emit _

theorem constant (c : Literal) : R (Gen.constant c) (Gen.constant c) := by
  cases c <;> exact h.emit _

mutual

theorem expr : ∀ e : Expr, R (Gen.expr (m.under o) e) (Gen.expr (m.under o') e)
  | .binary op lhs rhs line => by
    simp only [Gen.expr]
    split
    · exact h.map some (h.instruction _ _ (h.asValue _ (expr lhs)) (h.asValue _ (expr rhs)))
    · exact h.map some (h.connective _ (h.asValue _ (expr lhs)) (h.asValue _ (expr rhs)))
  | .unary op operand line => by
    simp only [Gen.expr]
    refine h.bind (h.asValue _ (expr operand)) fun v => ?_
    cases op <;> exact h.map some (h.emit _)
  | .var name line => by
    simp only [Gen.expr]
    exact h.map some (h.bind (h.fromScopes _) fun _ => h.emit _)
  | .element array index line => by
    simp only [Gen.expr]
    refine h.bind (h.fromScopes _) fun _ => h.bind (h.asValue _ (expr index)) fun i => ?_
    exact h.bind (h.emit _) fun address => h.map some (h.emit _)
  | .call callee args line => by
    simp only [Gen.expr]
    exact h.bind (h.fromScopes _) fun _ => h.bind (arguments args _) fun vs => h.emit _
  | .constant c => by
    simp only [Gen.expr]
    exact h.map some (h.constant _)

theorem arguments : ∀ (es : List Expr) (tys : List Decaf.Ty),
    R (Gen.arguments (m.under o) es tys) (Gen.arguments (m.under o') es tys)
  | [], _ => by
    simp only [Gen.arguments]
    exact h.pure []
  | _ :: _, [] => by
    simp only [Gen.arguments]
    exact h.pure []
  | e :: es, ty :: tys => by
    simp only [Gen.arguments]
    refine h.bind (h.asValue _ (expr e)) fun v => h.bind (h.coerce v ty) fun w => ?_
    exact h.bind (arguments es tys) fun ws => h.pure _

end

theorem value (e : Expr) : R (Gen.value (m.under o) e) (Gen.value (m.under o') e) :=
  h.asValue _ (h.expr e)

theorem assignment (a : Assignment) :
    R (Gen.assignment (m.under o) a) (Gen.assignment (m.under o') a) := by
  cases a with
  | scalar name e line =>
    refine h.bind (h.fromScopes _) fun _ => h.bind (h.value e) fun v => ?_
    exact h.bind (h.coerce v _) fun w => h.emit _
  | element array index e line =>
    refine h.bind (h.fromScopes _) fun _ => h.bind (h.value index) fun i => ?_
    refine h.bind (h.value e) fun v => h.bind (h.coerce v _) fun w => ?_
    exact h.bind (h.emit _) fun address => h.emit _

theorem assignments (as : List Assignment) :
    R (Gen.assignments (m.under o) as) (Gen.assignments (m.under o') as) := by
  induction as with
  | nil => exact h.pure ()
  | cons a as ih => exact h.bind (h.assignment a) fun _ => ih

theorem conditional (cond : Expr) {T T' E E' : Gen τ Unit} (first : R T T') (second : R E E') :
    R (conditional (m.under o) cond T E) (conditional (m.under o') cond T' E') := by
  refine h.bind (h.emit _) fun c => h.bind (h.emit _) fun t => ?_
  refine h.bind (h.emit _) fun e => h.bind (h.emit _) fun done => ?_
  refine h.bind (h.emit _) fun _ => h.bind (h.emit _) fun _ => ?_
  refine h.bind (h.value cond) fun v => h.bind (h.emit _) fun _ => ?_
  refine h.bind (h.emit _) fun _ => h.bind first fun _ => ?_
  refine h.bind (h.branchIfOpen _) fun thenFalls => h.bind (h.emit _) fun _ => ?_
  refine h.bind second fun _ => h.bind (h.branchIfOpen _) fun elseFalls => ?_
  exact h.bind (h.emit _) fun _ => related_ite (h.pure ()) (h.emit _)

theorem whileLoop (cond : Expr) {B B' : Gen τ Unit}
    (body : ∀ targets, R (Gen.inLoop targets B) (Gen.inLoop targets B')) :
    R (whileLoop (m.under o) cond B) (whileLoop (m.under o') cond B') := by
  refine h.bind (h.emit _) fun c => h.bind (h.emit _) fun b => ?_
  refine h.bind (h.emit _) fun done => h.bind (h.emit _) fun _ => ?_
  refine h.bind (h.emit _) fun _ => h.bind (h.value cond) fun v => ?_
  refine h.bind (h.emit _) fun _ => h.bind (h.emit _) fun _ => ?_
  refine h.bind (body _) fun _ => h.bind (h.branchIfOpen _) fun _ => ?_
  exact h.emit _

theorem forLoop (init : List Assignment) (cond : Expr) (step : List Assignment)
    {B B' : Gen τ Unit} (body : ∀ targets, R (Gen.inLoop targets B) (Gen.inLoop targets B')) :
    R (forLoop (m.under o) init cond step B) (forLoop (m.under o') init cond step B') := by
  refine h.bind (h.assignments init) fun _ => h.bind (h.emit _) fun c => ?_
  refine h.bind (h.emit _) fun b => h.bind (h.emit _) fun post => ?_
  refine h.bind (h.emit _) fun done => h.bind (h.emit _) fun _ => ?_
  refine h.bind (h.emit _) fun _ => h.bind (h.value cond) fun v => ?_
  refine h.bind (h.emit _) fun _ => h.bind (h.emit _) fun _ => ?_
  refine h.bind (body _) fun _ => h.bind (h.branchIfOpen _) fun _ => ?_
  refine h.bind (h.emit _) fun _ => h.bind (h.assignments step) fun _ => ?_
  exact h.bind (h.emit _) fun _ => h.emit _

theorem unnamedReturn (line : Nat) :
    R (Gen.returnDefault (m.under o) line) (Gen.returnDefault (m.under o') line) :=
  h.returnDefault m line (h.bind (h.defaultValue m.ret line) fun _ => h.emit _)

theorem returnStmt (result : Option Expr) (line : Nat) :
    R (Gen.returnStmt (m.under o) result line) (Gen.returnStmt (m.under o') result line) := by
  cases result with
  | none => exact related_ite (h.emit _) (h.unnamedReturn line)
  | some e =>
    exact related_ite (h.throw _) (h.bind (h.value e) fun v => h.bind (h.coerce v _) fun w => h.emit _)

theorem finishBody (line : Nat) :
    R (Gen.finishBody (m.under o) line) (Gen.finishBody (m.under o') line) := by
  refine h.bind (x := isTerminated) (h.reads fun _ => rfl) fun closed => ?_
  exact related_ite (h.pure ()) (related_ite (h.emit _) (h.unnamedReturn line))

theorem checkMethod : R (Gen.checkMethod (m.under o)) (Gen.checkMethod (m.under o')) := by
  refine h.reads (x := Gen.checkMethod m) fun s => ?_
  rw [run_checkMethod]

/-- The options decide about a method only in its body. -/
theorem defineMethod_of_body (check : o.check = o'.check) (d : Method) (f : FunctionId)
    (body : R (methodBody (MethodContext.mk f d.name d.ret o) d)
      (methodBody (MethodContext.mk f d.name d.ret o') d)) :
    R (Gen.defineMethod o d f) (Gen.defineMethod o' d f) := by
  let m : MethodContext := ⟨f, d.name, d.ret, o⟩
  refine h.bind (h.emit _) fun entry => h.bind (h.emit _) fun _ => h.bind body fun _ => ?_
  rw [check]
  exact related_ite (h.checkMethod (m := m)) (h.pure ())

end PlainCongruence

namespace BlockCongruence

variable {R : {α : Type} → Gen τ α → Gen τ α → Prop} {o o' : Options}
  (h : BlockCongruence R o o') {m : MethodContext}

include h

mutual

theorem stmt : ∀ st : Stmt, R (Gen.stmt (m.under o) st) (Gen.stmt (m.under o') st)
  | .block body => by
    simp only [Gen.stmt]
    exact block body
  | .ifElse cond thenBlock elseBlock line => by
    simp only [Gen.stmt]
    exact h.conditional cond (block thenBlock) (optionalBlock elseBlock)
  | .while cond body line => by
    simp only [Gen.stmt]
    exact h.whileLoop cond fun targets => h.inLoop targets (block body)
  | .for init cond step body line => by
    simp only [Gen.stmt]
    exact h.forLoop init cond step fun targets => h.inLoop targets (block body)
  | .return result line => by
    simp only [Gen.stmt]
    exact h.returnStmt result line
  | .jump kind line => by
    simp only [Gen.stmt]
    exact h.jumpStmt m kind line
  | .assign a => by
    simp only [Gen.stmt]
    exact h.assignment a
  | .call callee args line => by
    simp only [Gen.stmt]
    exact h.bind (h.expr _) fun _ => h.pure ()

theorem stmts : ∀ ss : List Stmt, R (Gen.stmts (m.under o) ss) (Gen.stmts (m.under o') ss)
  | [] => by
    simp only [Gen.stmts]
    exact h.pure ()
  | st :: ss => by
    simp only [Gen.stmts]
    refine h.bind (x := isTerminated) (h.reads fun _ => rfl) fun closed => ?_
    exact related_ite (h.pure ()) (h.bind (stmt st) fun _ => stmts ss)

theorem block : ∀ b : Block, R (Gen.block (m.under o) b) (Gen.block (m.under o') b)
  | .mk vars body => by
    simp only [Gen.block]
    exact h.inBlock vars (stmts body)

theorem optionalBlock : ∀ b : Option Block,
    R (Gen.optionalBlock (m.under o) b) (Gen.optionalBlock (m.under o') b)
  | none => by
    simp only [Gen.optionalBlock]
    exact h.pure ()
  | some b => by
    simp only [Gen.optionalBlock]
    exact block b

end

end BlockCongruence

namespace Congruence

variable {R : {α : Type} → Gen τ α → Gen τ α → Prop} {o o' : Options} (h : Congruence R o o')
  {m : MethodContext}

include h

theorem declareLocals (vars : List VarDecl) :
    R (Gen.declareLocals vars) (Gen.declareLocals vars) := by
  induction vars with
  | nil => exact h.pure ()
  | cons var vars ih =>
    rw [Gen.declareLocals]
    cases var.name with
    | none => exact ih
    | some name =>
      refine h.bind (h.emit _) fun slot => h.bind (h.zeroValue _ _) fun zero => ?_
      exact h.bind (h.emit _) fun _ => h.bind (h.bindName _ _) fun _ => ih

theorem blockwise : BlockCongruence R o o' where
  toPlainCongruence := h.toPlainCongruence
  inBlock vars _ _ related := h.inScope (h.bind (h.declareLocals vars) fun _ => related)

theorem bindParams (params : List VarDecl) (index : Nat) :
    R (Gen.bindParams (m.under o) index params) (Gen.bindParams (m.under o') index params) := by
  induction params generalizing index with
  | nil => exact h.pure ()
  | cons param params ih =>
    rw [Gen.bindParams, Gen.bindParams]
    cases param.name with
    | none => exact ih _
    | some name =>
      refine h.bind (h.emit _) fun slot => ?_
      refine h.bind (x := parameter? m.function index) (h.reads fun _ => rfl) fun r => ?_
      cases r with
      | none => exact h.bind (h.bindName _ _) fun _ => ih _
      | some incoming => exact h.bind (h.emit _) fun _ => h.bind (h.bindName _ _) fun _ => ih _

theorem methodBody (d : Method) :
    R (Gen.methodBody (m.under o) d) (Gen.methodBody (m.under o') d) :=
  h.inScope (h.bind (h.bindParams d.params 0) fun _ => h.bind (h.declareLocals _) fun _ =>
    h.bind (h.blockwise.stmts _) fun _ => h.finishBody d.line)

theorem defineMethod (check : o.check = o'.check) (d : Method) (f : FunctionId) :
    R (Gen.defineMethod o d f) (Gen.defineMethod o' d f) :=
  h.defineMethod_of_body check d f (h.methodBody (m := ⟨f, d.name, d.ret, o⟩) d)

theorem declareField (f : FieldDecl) : R (Gen.declareField f) (Gen.declareField f) := by
  rw [Gen.declareField]
  split
  · exact related_ite (h.throw _)
      (related_ite (h.throw _) (h.bind (h.emit _) fun _ => h.bindName _ _))
  · split
    · exact h.throw _
    · exact h.bind (h.emit _) fun _ => h.bindName _ _

/-- Whatever the program, the two computations that compile it are related. -/
theorem program (check : o.check = o'.check) (externs : List ExternDecl) (p : Package) :
    R (Gen.program o externs p) (Gen.program o' externs p) := by
  refine h.bind (h.emit _) fun _ => ?_
  refine h.bind (h.forM fun e _ => h.bind (h.emit _) fun id => h.bindName _ _) fun _ => ?_
  refine h.bind (h.forM fun f _ => h.declareField f) fun _ => ?_
  refine h.bind (h.mapM fun d _ => h.bind (h.emit _) fun id =>
    h.bind (h.bindName _ _) fun _ => h.pure id) fun ids => ?_
  exact h.forM fun x _ => h.defineMethod check x.1 x.2

end Congruence

end Gen

end Decaf
