import Decaf.Proofs.Generation.Relating

/-!
# Code of the same syntax

Targets that answer corresponding commands by corresponding ids are given corresponding code
for syntax that is alike. That the ids and lines themselves decide nothing is what the
induction over the syntax shows: every question that code generation asks of its state has the
same answer in both runs.
-/

namespace Decaf

open IR

variable {τ τ' : Type} [Target τ] [Target τ'] {k : Matching} {T T₀ : τ → τ' → Prop}

/-- Corresponding targets go on corresponding, and answer questions in the same way. -/
structure Simulates (k : Matching) (T : τ → τ' → Prop) : Prop where
  perform {t : τ} {t' : τ'} {r : Reply} {c c' : Command r} : T t t' → k.command c c' →
    k.reply r (Target.perform t c).1 (Target.perform t' c').1 ∧
      T (Target.perform t c).2 (Target.perform t' c').2
  isTerminated {t : τ} {t' : τ'} : T t t' → Target.isTerminated t' = Target.isTerminated t
  insertion {t : τ} {t' : τ'} : T t t' →
    Option.Rel k.block (Target.insertion? t) (Target.insertion? t')
  typeOf {t : τ} {t' : τ'} {v v' : ValueId} : T t t' → k.value v v' →
    Target.typeOf t' v' = Target.typeOf t v
  parameter? {t : τ} {t' : τ'} {f f' : FunctionId} : T t t' → k.body f f' → ∀ i,
    Option.Rel k.value (Target.parameter? t f i) (Target.parameter? t' f' i)
  checkFunction {t : τ} {t' : τ'} {f f' : FunctionId} : T t t' → k.body f f' →
    Target.checkFunction t' f' = Target.checkFunction t f

namespace Simulates

open Gen

variable (h : Simulates k T) {m m' : MethodContext} (same : k.method m m')

include h

theorem emit {r : Reply} {c c' : Command r} (commands : k.command c c') :
    Relates k T (k.reply r) (Gen.emit c) (Gen.emit c') := by
  intro s s' states
  obtain ⟨replies, after⟩ := h.perform states.target commands
  exact ⟨.ok replies, states.retarget after⟩

theorem emit_bind {α β : Type} {V : α → β → Prop} {r : Reply} {c c' : Command r}
    {f : r.Carrier → Gen τ α} {g : r.Carrier → Gen τ' β} (commands : k.command c c')
    (rest : ∀ a b, k.reply r a b → Relates k T V (f a) (g b)) :
    Relates k T V (Gen.emit c >>= f) (Gen.emit c' >>= g) :=
  (h.emit commands).bind rest

theorem closedness {α β : Type} {V : α → β → Prop} {f : Bool → Gen τ α} {g : Bool → Gen τ' β}
    (rest : ∀ closed, Relates k T V (f closed) (g closed)) :
    Relates k T V (Gen.isTerminated >>= f) (Gen.isTerminated >>= g) := by
  have asked : Relates k T (fun a b => b = a) (Gen.isTerminated : Gen τ Bool)
      (Gen.isTerminated : Gen τ' Bool) :=
    .reads (fun _ => rfl) (fun _ => rfl) fun s s' states => h.isTerminated states.target
  refine asked.bind ?_
  rintro _ closed rfl
  exact rest closed

theorem type {α β : Type} {V : α → β → Prop} {v v' : ValueId} {f : IR.Ty → Gen τ α}
    {g : IR.Ty → Gen τ' β} (values : k.value v v')
    (rest : ∀ ty, Relates k T V (f ty) (g ty)) :
    Relates k T V (Gen.typeOf v >>= f) (Gen.typeOf v' >>= g) := by
  have asked : Relates k T (fun a b => b = a) (Gen.typeOf v : Gen τ IR.Ty)
      (Gen.typeOf v' : Gen τ' IR.Ty) :=
    .reads (fun _ => rfl) (fun _ => rfl) fun s s' states => h.typeOf states.target values
  refine asked.bind ?_
  rintro _ ty rfl
  exact rest ty

theorem branch {b b' : BlockId} (blocks : k.block b b') :
    Relates k T Nothing (Gen.branch b) (Gen.branch b') :=
  h.emit (.terminate (.br blocks))

theorem branchIfOpen {b b' : BlockId} (blocks : k.block b b') :
    Relates k T (fun open₁ open₂ => open₂ = open₁) (Gen.branchIfOpen b) (Gen.branchIfOpen b') :=
  h.closedness fun _ => .ite (.pure rfl) ((h.branch blocks).bind fun _ _ _ => .pure rfl)

theorem coerce {v v' : ValueId} (values : k.value v v') (wanted : Decaf.Ty) :
    Relates k T k.value (Gen.coerce v wanted) (Gen.coerce v' wanted) :=
  h.type values fun _ => .ite (h.emit (.zext .i32 values)) (.pure values)

theorem zeroValue (ty : Decaf.Ty) {n n' : Nat} (line : k.line n n') :
    Relates k T k.value (Gen.zeroValue ty n) (Gen.zeroValue ty n') := by
  unfold Gen.zeroValue
  split
  · exact h.emit (.const _)
  · exact .throw (.voidValue line)

theorem defaultValue (ty : Decaf.Ty) {n n' : Nat} (line : k.line n n') :
    Relates k T k.value (Gen.defaultValue ty n) (Gen.defaultValue ty n') :=
  .ite (h.emit (.const _)) (h.zeroValue ty line)

omit [Target τ] [Target τ'] h in
theorem asValue {e : Gen τ (Option ValueId)} {e' : Gen τ' (Option ValueId)} {n n' : Nat}
    (line : k.line n n') (related : Relates k T (Option.Rel k.value) e e') :
    Relates k T k.value (Gen.asValue n e) (Gen.asValue n' e') := by
  refine related.bind fun v v' values => ?_
  cases values with
  | none => exact .throw (.voidValue line)
  | some value => exact .pure value

theorem instruction {l r : Gen τ ValueId} {l' r' : Gen τ' ValueId} (op : BinOp) (hint : String)
    (left : Relates k T k.value l l') (right : Relates k T k.value r r') :
    Relates k T k.value (Gen.instruction op hint l r) (Gen.instruction op hint l' r') := by
  refine left.bind fun v v' lefts => right.bind fun w w' rights => ?_
  refine h.type lefts fun _ => h.type rights fun _ => .ite (h.emit (.binary op hint lefts rights)) ?_
  refine (h.coerce lefts .int).bind fun _ _ lefts => (h.coerce rights .int).bind fun _ _ rights => ?_
  exact h.emit (.binary op hint lefts rights)

include same

theorem insertionBlock :
    Relates k T k.block (Gen.insertionBlock m) (Gen.insertionBlock m') := by
  intro s s' states
  have here := h.insertion states.target
  have got : (get : Gen τ (GenState τ)).run.run s = (.ok s, s) := rfl
  have got' : (get : Gen τ' (GenState τ')).run.run s' = (.ok s', s') := rfl
  rw [Gen.insertionBlock, Gen.insertionBlock, run_bind, run_bind, got, got', same.name]
  dsimp only
  revert here
  generalize Target.insertion? s.target = b
  generalize Target.insertion? s'.target = b'
  intro here
  cases here with
  | none => exact ⟨.error (.malformed _ _), states⟩
  | some block => exact ⟨.ok block, states⟩

theorem appendBlock (hint : String) :
    Relates k T k.block (Gen.appendBlock m hint) (Gen.appendBlock m' hint) :=
  h.emit (.appendBlock hint same.function)

theorem connective {l r : Gen τ ValueId} {l' r' : Gen τ' ValueId} (c : Connective)
    (left : Relates k T k.value l l') (right : Relates k T k.value r r') :
    Relates k T k.value (Gen.connective m c l r) (Gen.connective m' c l' r') := by
  refine left.bind fun v v' lefts => (h.appendBlock same _).bind fun rhs rhs' rhsBlock => ?_
  refine (h.appendBlock same _).bind fun done done' doneBlock => ?_
  refine (h.insertionBlock same).bind fun exit exit' lhsExit => ?_
  have branches : k.block (c.branches rhs done).1 (c.branches rhs' done').1 ∧
      k.block (c.branches rhs done).2 (c.branches rhs' done').2 := by
    cases c with
    | and => exact ⟨rhsBlock, doneBlock⟩
    | or => exact ⟨doneBlock, rhsBlock⟩
  refine h.emit_bind (.terminate (.condBr lefts branches.1 branches.2)) fun _ _ _ => ?_
  refine h.emit_bind (.positionAtEnd rhsBlock) fun _ _ _ => right.bind fun w w' rights => ?_
  refine (h.insertionBlock same).bind fun exit₁ exit₁' rhsExit => ?_
  refine (h.branchIfOpen doneBlock).bind fun _ _ _ => ?_
  refine h.emit_bind (.positionAtEnd doneBlock) fun _ _ _ => ?_
  exact h.emit (.phi .i1 _ (.cons ⟨lefts, lhsExit⟩ (.cons ⟨rights, rhsExit⟩ .nil)))

omit same

theorem constant (c : Literal) : Relates k T k.value (Gen.constant c) (Gen.constant c) := by
  cases c with
  | int n => exact h.emit (.const _)
  | bool b => exact h.emit (.const _)
  | string text => exact h.emit (.globalString text)

theorem variableValue (name : String) {n n' : Nat} (line : k.line n n') :
    Relates k T k.value (Gen.variableValue name n) (Gen.variableValue name n') := by
  refine (Relates.fromScopes fun s s' scopes => Matching.scopes_resolveScalar scopes line name).bind ?_
  rintro ⟨_, address⟩ ⟨ty, address'⟩ ⟨rfl, values⟩
  exact h.emit (.load _ name values)

include same

omit h same in
mutual

theorem expr (h : Simulates k T) (same : k.method m m') : ∀ {e e' : Expr}, e.Like k.line e' →
    Relates k T (Option.Rel k.value) (Gen.expr m e) (Gen.expr m' e')
  | _, _, .binary op left right line => by
    simp only [Gen.expr]
    have lefts := asValue left.line (expr h same left)
    have rights := asValue right.line (expr h same right)
    split
    · exact (h.instruction _ _ lefts rights).map fun _ _ => .some
    · exact (h.connective same _ lefts rights).map fun _ _ => .some
  | _, _, .unary op operand line => by
    simp only [Gen.expr]
    refine (asValue operand.line (expr h same operand)).bind fun v v' values => ?_
    cases op with
    | not => exact (h.emit (.unary .not _ values)).map fun _ _ => .some
    | neg => exact (h.emit (.unary .neg _ values)).map fun _ _ => .some
  | _, _, .var line => by
    simp only [Gen.expr]
    exact (h.variableValue _ line).map fun _ _ => .some
  | _, _, .element array index line => by
    simp only [Gen.expr]
    refine (Relates.fromScopes fun s s' scopes =>
      Matching.scopes_resolveArray scopes line array).bind ?_
    rintro ⟨_, base⟩ ⟨ty, base'⟩ ⟨rfl, bases⟩
    refine (asValue index.line (expr h same index)).bind fun i i' indices => ?_
    refine h.emit_bind (.elementPtr _ bases indices) fun a a' addresses => ?_
    exact (h.emit (.load _ _ addresses)).map fun _ _ => .some
  | _, _, .call callee args line => by
    simp only [Gen.expr]
    rw [args.length_eq]
    refine (Relates.fromScopes fun s s' scopes =>
      Matching.scopes_resolveCall scopes line callee _).bind ?_
    rintro ⟨f, _⟩ ⟨f', tys⟩ ⟨callees, rfl⟩
    refine (arguments h same args tys).bind fun vs vs' values => ?_
    exact h.emit (.call callees values)
  | _, _, .constant constants => by
    simp only [Gen.expr]
    rw [constants.value]
    exact (h.constant _).map fun _ _ => .some

theorem arguments (h : Simulates k T) (same : k.method m m') :
    ∀ {es es' : List Expr}, Expr.AllLike k.line es es' → ∀ tys : List Decaf.Ty,
    Relates k T (List.Forall₂ k.value) (Gen.arguments m es tys) (Gen.arguments m' es' tys)
  | _, _, .nil, _ => by
    simp only [Gen.arguments]
    exact .pure .nil
  | _, _, .cons _ _, [] => by
    simp only [Gen.arguments]
    exact .pure .nil
  | _, _, .cons first others, ty :: tys => by
    simp only [Gen.arguments]
    refine (asValue first.line (expr h same first)).bind fun v v' values => ?_
    refine (h.coerce values ty).bind fun w w' coerced => ?_
    exact (arguments h same others tys).bind fun ws ws' rest => .pure (.cons coerced rest)

end

theorem value {e e' : Expr} (alike : e.Like k.line e') :
    Relates k T k.value (Gen.value m e) (Gen.value m' e') :=
  asValue alike.line (h.expr same alike)

theorem assignment {a a' : Assignment} (alike : a.Like k.line a') :
    Relates k T Nothing (Gen.assignment m a) (Gen.assignment m' a') := by
  cases alike with
  | @scalar name e e' n n' expr line =>
    refine (Relates.fromScopes fun s s' scopes =>
      Matching.scopes_resolveScalar scopes line name).bind ?_
    rintro ⟨_, slot⟩ ⟨ty, slot'⟩ ⟨rfl, slots⟩
    refine (h.value same expr).bind fun v v' values => ?_
    refine (h.coerce values ty).bind fun w w' coerced => ?_
    exact h.emit (.store coerced slots)
  | @element array i i' e e' n n' index expr line =>
    refine (Relates.fromScopes fun s s' scopes =>
      Matching.scopes_resolveArray scopes line array).bind ?_
    rintro ⟨_, base⟩ ⟨ty, base'⟩ ⟨rfl, bases⟩
    refine (h.value same index).bind fun i i' indices => ?_
    refine (h.value same expr).bind fun v v' values => ?_
    refine (h.coerce values ty).bind fun w w' coerced => ?_
    refine h.emit_bind (.elementPtr _ bases indices) fun a a' addresses => ?_
    exact h.emit (.store coerced addresses)

theorem assignments {as as' : List Assignment}
    (alike : List.Forall₂ (Assignment.Like k.line) as as') :
    Relates k T Nothing (Gen.assignments m as) (Gen.assignments m' as') := by
  induction alike with
  | nil => exact .pure trivial
  | cons first _ ih => exact (h.assignment same first).bind fun _ _ _ => ih

omit same

theorem declareLocals {vars vars' : List VarDecl}
    (alike : List.Forall₂ (VarDecl.Like k.line) vars vars') :
    Relates k T Nothing (Gen.declareLocals vars) (Gen.declareLocals vars') := by
  induction alike with
  | nil => exact .pure trivial
  | @cons var var' _ _ first _ ih =>
    rw [Gen.declareLocals, Gen.declareLocals, first.name, first.ty]
    cases var.name with
    | none => exact ih
    | some name =>
      refine h.emit_bind (.alloca _ name) fun slot slot' slots => ?_
      refine (h.zeroValue var.ty first.line).bind fun zero zero' zeros => ?_
      refine h.emit_bind (.store zeros slots) fun _ _ _ => ?_
      exact (Relates.bindName name (Matching.descriptor_scalar _ _ slots first.line)).bind
        fun _ _ _ => ih

include same

theorem bindParams {params params' : List VarDecl}
    (alike : List.Forall₂ (VarDecl.Like k.line) params params') (index : Nat) :
    Relates k T Nothing (Gen.bindParams m index params) (Gen.bindParams m' index params') := by
  induction alike generalizing index with
  | nil => exact .pure trivial
  | @cons param param' _ _ first _ ih =>
    rw [Gen.bindParams, Gen.bindParams, first.name, first.ty]
    cases param.name with
    | none => exact ih _
    | some name =>
      refine h.emit_bind (.alloca _ _) fun slot slot' slots => ?_
      have asked : Relates k T (Option.Rel k.value) (Gen.parameter? m.function index : Gen τ _)
          (Gen.parameter? m'.function index : Gen τ' _) :=
        .reads (fun _ => rfl) (fun _ => rfl) fun s s' states =>
          h.parameter? states.target same.function index
      refine asked.bind fun incoming incoming' values => ?_
      have bound : Relates k T Nothing
          (Gen.bindName name (.scalar .parameter param.ty slot param.line) >>= fun _ =>
            Gen.bindParams m (index + 1) _)
          (Gen.bindName name (.scalar .parameter param.ty slot' param'.line) >>= fun _ =>
            Gen.bindParams m' (index + 1) _) :=
        (Relates.bindName name (Matching.descriptor_scalar _ _ slots first.line)).bind
          fun _ _ _ => ih _
      cases values with
      | none => exact bound
      | some value => exact h.emit_bind (.store value slots) fun _ _ _ => bound

theorem conditional {c c' : Expr} {A B : Gen τ Unit} {A' B' : Gen τ' Unit}
    (cond : c.Like k.line c') (first : Relates k T Nothing A A') (second : Relates k T Nothing B B') :
    Relates k T Nothing (Gen.conditional m c A B) (Gen.conditional m' c' A' B') := by
  refine (h.appendBlock same _).bind fun _ _ condBlock => ?_
  refine (h.appendBlock same _).bind fun _ _ thenBlock => ?_
  refine (h.appendBlock same _).bind fun _ _ elseBlock => ?_
  refine (h.appendBlock same _).bind fun _ _ endBlock => ?_
  refine (h.branch condBlock).bind fun _ _ _ => ?_
  refine h.emit_bind (.positionAtEnd condBlock) fun _ _ _ => ?_
  refine (h.value same cond).bind fun _ _ values => ?_
  refine h.emit_bind (.terminate (.condBr values thenBlock elseBlock)) fun _ _ _ => ?_
  refine h.emit_bind (.positionAtEnd thenBlock) fun _ _ _ => first.bind fun _ _ _ => ?_
  refine (h.branchIfOpen endBlock).bind ?_
  rintro thenFalls _ rfl
  refine h.emit_bind (.positionAtEnd elseBlock) fun _ _ _ => second.bind fun _ _ _ => ?_
  refine (h.branchIfOpen endBlock).bind ?_
  rintro elseFalls _ rfl
  refine h.emit_bind (.positionAtEnd endBlock) fun _ _ _ => ?_
  exact .ite (.pure trivial) (h.emit (.terminate .unreachable))

theorem whileLoop {c c' : Expr} {B : Gen τ Unit} {B' : Gen τ' Unit} (cond : c.Like k.line c')
    (body : Relates k T Nothing B B') :
    Relates k T Nothing (Gen.whileLoop m c B) (Gen.whileLoop m' c' B') := by
  refine (h.appendBlock same _).bind fun _ _ condBlock => ?_
  refine (h.appendBlock same _).bind fun _ _ bodyBlock => ?_
  refine (h.appendBlock same _).bind fun _ _ endBlock => ?_
  refine (h.branch condBlock).bind fun _ _ _ => ?_
  refine h.emit_bind (.positionAtEnd condBlock) fun _ _ _ => ?_
  refine (h.value same cond).bind fun _ _ values => ?_
  refine h.emit_bind (.terminate (.condBr values bodyBlock endBlock)) fun _ _ _ => ?_
  refine h.emit_bind (.positionAtEnd bodyBlock) fun _ _ _ => ?_
  refine (body.inLoop ⟨condBlock, endBlock⟩).bind fun _ _ _ => ?_
  refine (h.branchIfOpen condBlock).bind fun _ _ _ => ?_
  exact h.emit (.positionAtEnd endBlock)

theorem forLoop {i i' s s' : List Assignment} {c c' : Expr} {B : Gen τ Unit} {B' : Gen τ' Unit}
    (init : List.Forall₂ (Assignment.Like k.line) i i') (cond : c.Like k.line c')
    (step : List.Forall₂ (Assignment.Like k.line) s s') (body : Relates k T Nothing B B') :
    Relates k T Nothing (Gen.forLoop m i c s B) (Gen.forLoop m' i' c' s' B') := by
  refine (h.assignments same init).bind fun _ _ _ => ?_
  refine (h.appendBlock same _).bind fun _ _ condBlock => ?_
  refine (h.appendBlock same _).bind fun _ _ bodyBlock => ?_
  refine (h.appendBlock same _).bind fun _ _ postBlock => ?_
  refine (h.appendBlock same _).bind fun _ _ endBlock => ?_
  refine (h.branch condBlock).bind fun _ _ _ => ?_
  refine h.emit_bind (.positionAtEnd condBlock) fun _ _ _ => ?_
  refine (h.value same cond).bind fun _ _ values => ?_
  refine h.emit_bind (.terminate (.condBr values bodyBlock endBlock)) fun _ _ _ => ?_
  refine h.emit_bind (.positionAtEnd bodyBlock) fun _ _ _ => ?_
  refine (body.inLoop ⟨postBlock, endBlock⟩).bind fun _ _ _ => ?_
  refine (h.branchIfOpen postBlock).bind fun _ _ _ => ?_
  refine h.emit_bind (.positionAtEnd postBlock) fun _ _ _ => ?_
  refine (h.assignments same step).bind fun _ _ _ => (h.branch condBlock).bind fun _ _ _ => ?_
  exact h.emit (.positionAtEnd endBlock)

theorem returnDefault {n n' : Nat} (line : k.line n n') :
    Relates k T Nothing (Gen.returnDefault m n) (Gen.returnDefault m' n') := by
  unfold Gen.returnDefault
  rw [same.options, same.name, same.ret]
  split
  · exact .throw (.missingReturn _)
  · refine (Relates.warn (.synthesizedReturn _ line)).bind fun _ _ _ => ?_
    refine (h.defaultValue m.ret line).bind fun v v' values => ?_
    exact h.emit (.terminate (.ret (.some values)))

theorem returnStmt {v v' : Option Expr} {n n' : Nat} (result : Option.Rel (Expr.Like k.line) v v')
    (line : k.line n n') :
    Relates k T Nothing (Gen.returnStmt m v n) (Gen.returnStmt m' v' n') := by
  unfold Gen.returnStmt
  rw [same.ret, same.name]
  cases result with
  | none => exact .ite (h.emit (.terminate (.ret .none))) (h.returnDefault same line)
  | some expr =>
    refine .ite (.throw (.valueReturnFromVoid _ line)) ?_
    refine (h.value same expr).bind fun w w' values => ?_
    refine (h.coerce values m.ret).bind fun x x' coerced => ?_
    exact h.emit (.terminate (.ret (.some coerced)))

theorem jumpStmt (kind : Jump) {n n' : Nat} (line : k.line n n') :
    Relates k T Nothing (Gen.jumpStmt m kind n) (Gen.jumpStmt m' kind n') := by
  unfold Gen.jumpStmt
  have asked : Relates k T (Option.Rel k.targets) (Gen.innermostLoop? : Gen τ _)
      (Gen.innermostLoop? : Gen τ' _) := by
    exact .reads (fun _ => rfl) (fun _ => rfl) fun s s' states =>
      forall₂_head? states.loops
  refine asked.bind fun t t' targets => ?_
  cases targets with
  | none =>
    dsimp only
    rw [same.options]
    split
    · exact .throw (.jumpOutsideLoop kind line)
    · exact .warn (.ignoredJump kind line)
  | some both =>
    cases kind with
    | «break» => exact h.branch both.onBreak
    | «continue» => exact h.branch both.onContinue

omit h same in
mutual

theorem stmt (h : Simulates k T) (same : k.method m m') : ∀ {st st' : Stmt}, st.Like k.line st' →
    Relates k T Nothing (Gen.stmt m st) (Gen.stmt m' st')
  | _, _, .block body => by
    simp only [Gen.stmt]
    exact block h same body
  | _, _, .ifElse cond thenBlock elseBlock _ => by
    simp only [Gen.stmt]
    exact h.conditional same cond (block h same thenBlock) (optionalBlock h same elseBlock)
  | _, _, .while cond body _ => by
    simp only [Gen.stmt]
    exact h.whileLoop same cond (block h same body)
  | _, _, .for init cond step body _ => by
    simp only [Gen.stmt]
    exact h.forLoop same init cond step (block h same body)
  | _, _, .return result line => by
    simp only [Gen.stmt]
    exact h.returnStmt same result line
  | _, _, .jump kind line => by
    simp only [Gen.stmt]
    exact h.jumpStmt same kind line
  | _, _, .assign assigned => by
    simp only [Gen.stmt]
    exact h.assignment same assigned
  | _, _, .call args line => by
    simp only [Gen.stmt]
    exact (h.expr same (.call _ args line)).bind fun _ _ _ => .pure trivial

theorem stmts (h : Simulates k T) (same : k.method m m') :
    ∀ {ss ss' : List Stmt}, Stmt.AllLike k.line ss ss' →
    Relates k T Nothing (Gen.stmts m ss) (Gen.stmts m' ss')
  | _, _, .nil => by
    simp only [Gen.stmts]
    exact .pure trivial
  | _, _, .cons first others => by
    simp only [Gen.stmts]
    refine h.closedness fun closed => .ite (.pure trivial) ?_
    exact (stmt h same first).bind fun _ _ _ => stmts h same others

theorem block (h : Simulates k T) (same : k.method m m') : ∀ {b b' : Block}, b.Like k.line b' →
    Relates k T Nothing (Gen.block m b) (Gen.block m' b')
  | _, _, .mk vars body => by
    simp only [Gen.block]
    exact .inScope ((h.declareLocals vars).bind fun _ _ _ => stmts h same body)

theorem optionalBlock (h : Simulates k T) (same : k.method m m') :
    ∀ {b b' : Option Block}, Block.OptionalLike k.line b b' →
    Relates k T Nothing (Gen.optionalBlock m b) (Gen.optionalBlock m' b')
  | _, _, .none => by
    simp only [Gen.optionalBlock]
    exact .pure trivial
  | _, _, .some body => by
    simp only [Gen.optionalBlock]
    exact block h same body

end

theorem finishBody {n n' : Nat} (line : k.line n n') :
    Relates k T Nothing (Gen.finishBody m n) (Gen.finishBody m' n') := by
  refine h.closedness fun closed => .ite (.pure trivial) ?_
  rw [same.ret]
  exact .ite (h.emit (.terminate (.ret .none))) (h.returnDefault same line)

theorem methodBody {d d' : Method} (alike : d.Like k.line d') :
    Relates k T Nothing (Gen.methodBody m d) (Gen.methodBody m' d') := by
  obtain ⟨name, ret, params, ⟨vars, body⟩, line⟩ := d
  obtain ⟨name', ret', params', ⟨vars', body'⟩, line'⟩ := d'
  obtain ⟨-, -, sameParams, sameBody, sameLine⟩ := alike
  cases sameBody with
  | mk sameVars statements =>
    refine .inScope ((h.bindParams same sameParams 0).bind fun _ _ _ => ?_)
    refine (h.declareLocals sameVars).bind fun _ _ _ => ?_
    exact (h.stmts same statements).bind fun _ _ _ => h.finishBody same sameLine

theorem checkMethod : Relates k T Nothing (Gen.checkMethod m) (Gen.checkMethod m') := by
  intro s s' states
  rw [run_checkMethod, run_checkMethod, h.checkFunction states.target same.function, same.name]
  cases Target.checkFunction s.target m.function with
  | ok => exact ⟨.ok trivial, states⟩
  | error e => exact ⟨.error (.malformed _ _), states⟩

end Simulates

/-- The target after the entry of a body was appended and chosen. -/
def enterBody {τ : Type} [Target τ] (t : τ) (f : FunctionId) : τ :=
  let (entry, t) := Target.perform t (.appendBlock f "entry")
  (Target.perform t (.positionAtEnd entry)).2

/-- From targets that correspond once both have entered their bodies. -/
theorem Simulates.defineMethod (h : Simulates k T) {o : Options} {d d' : Method}
    {f f' : FunctionId} (alike : d.Like k.line d') (functions : k.body f f') {s : GenState τ}
    {s' : GenState τ'} (states : s.Corresponds k T₀ s')
    (enter : T (enterBody s.target f) (enterBody s'.target f')) :
    Parallel (CompileError.Like k.line) Gen.Nothing ((Gen.defineMethod o d f).run.run s).1
        ((Gen.defineMethod o d' f').run.run s').1 ∧
      ((Gen.defineMethod o d f).run.run s).2.Corresponds k T
        ((Gen.defineMethod o d' f').run.run s').2 := by
  have same : k.method ⟨f, d.name, d.ret, o⟩ ⟨f', d'.name, d'.ret, o⟩ :=
    ⟨functions, alike.name, alike.ret, rfl⟩
  have body : Gen.Relates k T Gen.Nothing
      (do Gen.methodBody ⟨f, d.name, d.ret, o⟩ d
          if o.check then Gen.checkMethod ⟨f, d.name, d.ret, o⟩)
      (do Gen.methodBody ⟨f', d'.name, d'.ret, o⟩ d'
          if o.check then Gen.checkMethod ⟨f', d'.name, d'.ret, o⟩) :=
    (h.methodBody same alike).bind fun _ _ _ => .ite (h.checkMethod same) (.pure trivial)
  exact body _ _ (states.retarget enter)

/-- The commands of declarations. -/
inductive IR.Command.Declaring : {r : Reply} → Command r → Prop where
  | setModuleName (name : String) : Declaring (.setModuleName name)
  | declareFunction (name : String) (ret : IR.Ty) (params : List (Option String × IR.Ty)) :
      Declaring (.declareFunction name ret params)
  | globalScalar (hint : String) (ty : IR.Ty) (init : Const) :
      Declaring (.globalScalar hint ty init)
  | globalArray (hint : String) (ty : IR.Ty) (length : Nat) :
      Declaring (.globalArray hint ty length)

/-- Fields that are alike start with the same value. -/
theorem FieldDecl.Like.initializer {ℓ : Nat → Nat → Prop} {f f' : FieldDecl} (alike : f.Like ℓ f') :
    f'.initial? = f.initial? ∧ f'.init.isSome = f.init.isSome := by
  obtain ⟨name, ty, size, init, line⟩ := f
  obtain ⟨name', ty', size', init', line'⟩ := f'
  obtain ⟨-, rfl, -, constants, -⟩ := alike
  cases constants with
  | none => exact ⟨rfl, rfl⟩
  | some both => exact ⟨by simp only [initial?, both.value], rfl⟩

/-- Between bodies the targets need not correspond as closely as inside of them. -/
structure SimulatesPrograms (k : Matching) (T₀ T : τ → τ' → Prop) : Prop where
  inside : Simulates k T
  declares {t : τ} {t' : τ'} {r : Reply} {c : Command r} : T₀ t t' → c.Declaring →
    k.reply r (Target.perform t c).1 (Target.perform t' c).1 ∧
      T₀ (Target.perform t c).2 (Target.perform t' c).2
  bodies {f f' : FunctionId} : k.function f f' → k.body f f'
  enter {t : τ} {t' : τ'} {f f' : FunctionId} : T₀ t t' → k.body f f' →
    T (enterBody t f) (enterBody t' f')
  leave {t : τ} {t' : τ'} : T t t' → T₀ t t'

namespace SimulatesPrograms

open Gen

variable (h : SimulatesPrograms k T₀ T)

include h

theorem emit {r : Reply} {c : Command r} (declares : c.Declaring) :
    Relates k T₀ (k.reply r) (Gen.emit c) (Gen.emit c) := by
  intro s s' states
  obtain ⟨replies, after⟩ := h.declares states.target declares
  exact ⟨.ok replies, states.retarget after⟩

theorem declareExtern {e e' : ExternDecl} (alike : e.Like k.line e') :
    Relates k T₀ Nothing (Gen.declareExtern e) (Gen.declareExtern e') := by
  have types : (e'.params.map fun p => ((none : Option String), p.ty.repr)) =
      e.params.map fun p => (none, p.ty.repr) := by
    simpa [Function.comp_def] using
      congrArg (List.map fun p => ((none : Option String), p.2.repr)) (signature_eq alike.params)
  unfold Gen.declareExtern
  rw [alike.name, alike.ret, types]
  refine (h.emit (.declareFunction _ _ _)).bind fun f f' functions => ?_
  exact .bindName e.name (Matching.descriptor_function _ functions alike.params alike.line)

theorem declareMethod {d d' : Method} (alike : d.Like k.line d') :
    Relates k T₀ k.function (Gen.declareMethod d) (Gen.declareMethod d') := by
  have types : (d'.params.map fun p => (p.name, p.ty.repr)) =
      d.params.map fun p => (p.name, p.ty.repr) := by
    simpa [Function.comp_def] using
      congrArg (List.map fun p => (p.1, p.2.repr)) (signature_eq alike.params)
  unfold Gen.declareMethod
  rw [alike.name, alike.ret, types]
  refine (h.emit (.declareFunction _ _ _)).bind fun f f' functions => ?_
  exact (Relates.bindName d.name (Matching.descriptor_function _ functions alike.params
    alike.line)).bind fun _ _ _ => .pure functions

theorem declareField {f f' : FieldDecl} (alike : f.Like k.line f') :
    Relates k T₀ Nothing (Gen.declareField f) (Gen.declareField f') := by
  obtain ⟨initial, given⟩ := alike.initializer
  unfold Gen.declareField
  rw [alike.size, alike.name, alike.ty, initial, given]
  split
  · refine .ite (.throw (.invalidArraySize _ alike.line)) ?_
    refine .ite (.throw (.invalidInitializer _ alike.line)) ?_
    refine (h.emit (.globalArray _ _ _)).bind fun base base' bases => ?_
    exact .bindName _ (Matching.descriptor_array _ _ bases alike.line)
  · split
    · exact .throw (.invalidInitializer _ alike.line)
    · refine (h.emit (.globalScalar _ _ _)).bind fun slot slot' slots => ?_
      exact .bindName _ (Matching.descriptor_scalar _ _ slots alike.line)

theorem defineMethod (o : Options) {d d' : Method} {f f' : FunctionId} (alike : d.Like k.line d')
    (functions : k.function f f') :
    Relates k T₀ Nothing (Gen.defineMethod o d f) (Gen.defineMethod o d' f') := by
  intro s s' states
  have bodies := h.bodies functions
  obtain ⟨results, after⟩ := h.inside.defineMethod (o := o) alike bodies states
    (h.enter states.target bodies)
  exact ⟨results, after.retarget (h.leave after.target)⟩

theorem program (o : Options) {es es' : List ExternDecl} {p p' : Package}
    (externs : List.Forall₂ (ExternDecl.Like k.line) es es') (alike : p.Like k.line p') :
    Relates k T₀ Nothing (Gen.program o es p) (Gen.program o es' p') := by
  unfold Gen.program
  rw [alike.name]
  refine (h.emit (.setModuleName p.name)).bind fun _ _ _ => ?_
  refine (Relates.forM externs fun e e' => h.declareExtern).bind fun _ _ _ => ?_
  refine (Relates.forM alike.fields fun f f' => h.declareField).bind fun _ _ _ => ?_
  refine (Relates.mapM alike.methods fun d d' => h.declareMethod).bind fun fs fs' functions => ?_
  refine Relates.forM (R := fun x y => x.1.Like k.line y.1 ∧ k.function x.2 y.2) ?_
    fun x y pair => h.defineMethod o pair.1 pair.2
  have methods := alike.methods
  generalize p.methods = ds at methods
  generalize p'.methods = ds' at methods
  induction methods generalizing fs fs' with
  | nil => exact .nil
  | cons first _ ih =>
    cases functions with
    | nil => exact .nil
    | cons f others => exact .cons ⟨first, f⟩ (ih _ _ others)

end SimulatesPrograms

/-- The warnings and the target are those of the state that is left in the end. -/
theorem generate_eq_map {o : Options} {P : Program} {p : Package} (package : P.package = some p)
    (t : τ) :
    generate o P t =
      (((Gen.program o P.externs p).run.run (.start t)).1.map fun _ =>
          ((Gen.program o P.externs p).run.run (.start t)).2.warnings,
        ((Gen.program o P.externs p).run.run (.start t)).2.target) := by
  simp only [generate, package]
  rfl

end Decaf
