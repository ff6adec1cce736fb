import Decaf.Proofs.Generation.Courses
import Decaf.Proofs.Generation.Policies
import Decaf.Proofs.Typing.Liveness

/-!
# Code for well scoped syntax

An expression, an assignment or a statement compiles exactly if it is well scoped, and what
follows a statement is compiled exactly if by its syntax control does not leave there. What is
warned of on the way is read off the live statements.
-/

namespace Decaf

open IR

namespace ScopeStack

variable {m : Module} {s : ScopeStack} (apt : s.Apt m) {name : String} {line : Nat}

theorem isVariable_function : EntityKind.function.isVariable = false := rfl

theorem resolve_of_lookup {d : Descriptor} (there : s.lookup name = some d) :
    s.resolve name line = .ok d := by
  rw [resolve, there]

theorem not_ok_of_lookup (missing : s.lookup name = none) :
    (∀ x, s.resolveScalar name line ≠ .ok x) ∧ (∀ x, s.resolveArray name line ≠ .ok x) ∧
      ∀ args x, s.resolveCall name args line ≠ .ok x := by
  have refused : s.resolve name line = .error (.unresolvedIdentifier name line) := by
    rw [resolve, missing]
  simp only [resolveScalar, resolveArray, resolveCall, resolveStorage, resolveFunction, refused]
  refine ⟨fun _ h => ?_, fun _ h => ?_, fun _ _ h => ?_⟩ <;> cases h

include apt

/-- A name resolves to a variable exactly if it is in scope as one. -/
theorem resolveScalar_iff :
    (∃ x, s.resolveScalar name line = .ok x) ↔ s.context.hasVariable name = true := by
  rw [Context.hasVariable, find?_context]
  cases there : s.lookup name with
  | none => simp [(not_ok_of_lookup there).1]
  | some d =>
    have kind := apt name d there
    simp only [resolveScalar, resolveStorage, resolve_of_lookup there]
    obtain ⟨kind', ty, line', handle⟩ := d
    cases handle <;> simp only [Descriptor.Apt] at kind <;>
      simp [Descriptor.entity, kind, Bind.bind, Except.bind, isVariable_function]

theorem resolveArray_iff :
    (∃ x, s.resolveArray name line = .ok x) ↔ s.context.hasArray name = true := by
  rw [Context.hasArray, find?_context]
  cases there : s.lookup name with
  | none => simp [(not_ok_of_lookup there).2.1]
  | some d =>
    have kind := apt name d there
    simp only [resolveArray, resolveStorage, resolve_of_lookup there]
    obtain ⟨kind', ty, line', handle⟩ := d
    cases handle <;> simp only [Descriptor.Apt] at kind <;>
      simp [Descriptor.entity, kind, Bind.bind, Except.bind, isVariable_function]

theorem resolveCall_iff {args : Nat} :
    (∃ x, s.resolveCall name args line = .ok x) ↔ s.context.hasFunction name args = true := by
  rw [Context.hasFunction, find?_context]
  cases there : s.lookup name with
  | none => simp [(not_ok_of_lookup there).2.2]
  | some d =>
    have kind := apt name d there
    simp only [resolveCall, resolveFunction, resolve_of_lookup there]
    obtain ⟨kind', ty, line', handle⟩ := d
    cases handle <;> simp only [Descriptor.Apt] at kind <;>
      simp [Descriptor.entity, kind, Bind.bind, Except.bind, isVariable_function]
    rename_i f params
    by_cases arity : params.length = args <;> simp [arity]

/-- What a call that resolves comes to. -/
theorem resolveCall_ok {args : Nat} {f : FunctionId} {params : List Decaf.Ty}
    (h : s.resolveCall name args line = .ok (f, params)) :
    params.length = args ∧ ∃ ret, s.context.find? name = some (.function ret params) ∧
      m.returnOf? f = some ret.repr := by
  cases there : s.lookup name with
  | none => exact absurd h ((not_ok_of_lookup there).2.2 _ _)
  | some d =>
    have kind := apt name d there
    rw [find?_context, there]
    simp only [resolveCall, resolveFunction, resolve_of_lookup there] at h
    obtain ⟨kind', ty, line', handle⟩ := d
    cases handle <;> simp only [Descriptor.Apt] at kind <;>
      simp only [kind, Bind.bind, Except.bind, isVariable_function, Bool.false_eq_true, if_true,
        if_false] at h
    · cases h
    · cases h
    · split at h
      · rename_i arity
        cases h
        exact ⟨by simpa using arity, ty, rfl, kind.2⟩
      · cases h

end ScopeStack

namespace Gen

variable {loop closed : Bool} {Γ : Context} {m : MethodContext}

theorem judges_fromScopes {α : Type} {query : ScopeStack → Except CompileError α} {p : Prop}
    (same : ∀ (n : Module) (s : ScopeStack), s.Apt n → s.context = Γ →
      ((∃ x, query s = .ok x) ↔ p)) : Judges loop Γ (fromScopes query) p false := by
  intro s b ready names _
  have same := same _ _ ready.apt names
  refine decides_fromScopes (fun x found => ⟨same.1 ⟨x, found⟩, b, .start ready⟩)
    fun e refused holds => ?_
  obtain ⟨x, found⟩ := same.2 holds
  rw [refused] at found
  cases found

theorem judges_resolveScalar (name : String) (line : Nat) :
    Judges loop Γ (fromScopes fun s => s.resolveScalar name line)
      (Γ.hasVariable name = true) false :=
  judges_fromScopes fun _ _ apt names => by rw [ScopeStack.resolveScalar_iff apt, names]

theorem judges_resolveArray (name : String) (line : Nat) :
    Judges loop Γ (fromScopes fun s => s.resolveArray name line) (Γ.hasArray name = true) false :=
  judges_fromScopes fun _ _ apt names => by rw [ScopeStack.resolveArray_iff apt, names]

theorem Judges.instruction {l r : Gen Builder ValueId} {p q : Prop} (op : BinOp) (hint : String)
    (left : Judges loop Γ l p false) (right : Judges loop Γ r q false) :
    Judges loop Γ (instruction op hint l r) (p ∧ q) false := by
  refine left.bind fun v => right.before fun w => ?_
  refine (judges_typeOf v).then fun tv => (judges_typeOf w).then fun tw => ?_
  split
  · exact judges_emit _ rfl
  · exact (judges_coerce v _).then fun v' => (judges_coerce w _).then fun w' => judges_emit _ rfl

/-- The right operand has a block of its own, and what comes after has one. -/
theorem Judges.connective {l r : Gen Builder ValueId} {p q : Prop} (c : Connective)
    (left : Judges loop Γ l p false) (right : Judges loop Γ r q false) :
    Judges loop Γ (connective m c l r) (p ∧ q) false := by
  intro s b ready names loops
  refine (left s b ready names loops).bind fun v s₁ ⟨b₁, r₁⟩ => ?_
  refine (decides_appendBlock r₁ _).then fun rhs s₂ r₂ => ?_
  refine (decides_appendBlock r₂ _).then fun done s₃ r₃ => ?_
  refine (decides_insertionBlock r₃).then fun exit s₄ ⟨_, r₄⟩ => ?_
  refine (decides_terminate r₄ _).then fun _ s₅ r₅ => ?_
  refine (decides_positionAtEnd r₅).then fun _ s₆ r₆ => ?_
  refine (right.within r₆ ready names loops).before fun w s₇ ⟨b₇, r₇⟩ => ?_
  refine (decides_insertionBlock r₇).then fun exit' s₈ ⟨_, r₈⟩ => ?_
  refine (decides_branchIfOpen r₈ done).then fun _ s₉ ⟨_, r₉⟩ => ?_
  refine (decides_positionAtEnd r₉).then fun _ s₁₀ r₁₀ => ?_
  exact (decides_emit r₁₀ rfl).imp fun _ _ r => ⟨_, r⟩

theorem judges_constant (c : Literal) : Judges loop Γ (constant c) True false := by
  cases c <;> simp only [constant] <;> exact judges_emit _ rfl

mutual

/-- An expression compiles exactly if it is well scoped, and leaves a value unless it is a call
of a function that returns none. -/
theorem offers_expr : ∀ e : Expr,
    Offers loop Γ (expr m e) (e.scoped Γ = true) (e.hasValue Γ)
  | .binary op lhs rhs line => by
    have left := (offers_expr lhs).asValue lhs.line
    have right := (offers_expr rhs).asValue rhs.line
    simp only [expr, Expr.scoped, Bool.and_eq_true]
    show Offers loop Γ _ _ true
    split
    · exact (left.instruction _ _ right).some
    · exact (left.connective _ right).some
  | .unary op operand line => by
    have judged := (offers_expr operand).asValue operand.line
    simp only [expr, Expr.scoped, Bool.and_eq_true]
    show Offers loop Γ _ _ true
    refine (judged.offer fun v => ?_).congr (by rw [and_true])
    cases op <;> exact Judges.some (judges_emit _ rfl)
  | .var name line => by
    simp only [expr, Expr.scoped]
    show Offers loop Γ _ _ true
    refine Judges.some (Judges.before (judges_resolveScalar name line) fun _ => ?_)
    exact judges_emit _ rfl
  | .element array index line => by
    have judged := (offers_expr index).asValue index.line
    simp only [expr, Expr.scoped, Bool.and_eq_true]
    show Offers loop Γ _ _ true
    refine Judges.offer (judges_resolveArray array line) fun _ => ?_
    refine (judged.offer fun i => ?_).congr (by rw [and_true])
    exact ((judges_emit _ rfl).offer fun address => (judges_emit _ rfl).some).congr
      (by rw [and_true])
  | .call callee args line => by
    simp only [expr, Expr.scoped, Bool.and_eq_true]
    intro s b ready names loops
    refine Decides.bind (P := fun x s' => s' = s ∧
      s.scopes.resolveCall callee args.length line = .ok x) ?_ ?_
    · have same : (∃ x, s.scopes.resolveCall callee args.length line = .ok x) ↔
          s.scopes.context.hasFunction callee args.length = true :=
        ScopeStack.resolveCall_iff ready.apt
      rw [names] at same
      refine decides_fromScopes (fun x found => ⟨same.1 ⟨x, found⟩, rfl, found⟩)
        fun e refused holds => ?_
      obtain ⟨x, found⟩ := same.2 holds
      rw [refused] at found
      cases found
    · rintro ⟨f, params⟩ s₁ ⟨rfl, found⟩
      obtain ⟨arity, ret, entity, returns⟩ := ScopeStack.resolveCall_ok ready.apt found
      refine (judges_arguments args params arity _ b ready names loops).before
        fun vs s' ⟨b', r⟩ => ?_
      refine ends_emit ⟨trivial, ?_, b', r.calm (s'.target.calm_perform rfl)⟩
      rw [names] at entity
      rw [← r.returns] at returns
      refine (Builder.isSome_call returns vs).trans ?_
      simp only [Expr.hasValue, entity]
      cases ret <;> rfl
  | .constant c => by
    simp only [expr, Expr.scoped]
    show Offers loop Γ _ _ true
    exact ((judges_constant c.value).congr (by simp)).some

theorem judges_arguments : ∀ (es : List Expr) (tys : List Decaf.Ty), tys.length = es.length →
    Judges loop Γ (arguments m es tys) (Expr.allUsable Γ es = true) false
  | [], tys, _ => by
    simp only [arguments, Expr.allUsable]
    exact (judges_pure []).congr (by simp)
  | _ :: _, [], arity => by cases arity
  | e :: es, ty :: tys, arity => by
    simp only [arguments, Expr.allUsable, Bool.and_eq_true]
    refine ((offers_expr e).asValue e.line).bind fun v => (judges_coerce v ty).then fun w => ?_
    exact (judges_arguments es tys (Nat.succ.inj arity)).before fun ws => judges_pure _

end

theorem judges_value (e : Expr) : Judges loop Γ (value m e) (e.usable Γ = true) false :=
  ((offers_expr e).asValue e.line).congr (by rw [Expr.usable, Bool.and_eq_true])

theorem judges_assignment (a : Assignment) :
    Judges loop Γ (assignment m a) (a.scoped Γ = true) false := by
  cases a with
  | scalar name e line =>
    simp only [assignment, Assignment.scoped, Bool.and_eq_true]
    refine Judges.bind (judges_resolveScalar name line) fun _ => (judges_value e).before fun v => ?_
    exact (judges_coerce v _).then fun w => judges_emit _ rfl
  | element array index e line =>
    simp only [assignment, Assignment.scoped, Bool.and_eq_true]
    refine Judges.bind (judges_resolveArray array line) fun _ => (judges_value index).bind fun i => ?_
    refine (judges_value e).before fun v => (judges_coerce v _).then fun w => ?_
    exact (judges_emit _ rfl).then fun address => judges_emit _ rfl

theorem judges_assignments (as : List Assignment) :
    Judges loop Γ (assignments m as) (as.all (Assignment.scoped Γ) = true) false := by
  induction as with
  | nil => exact (judges_pure ()).congr (by simp)
  | cons a as ih =>
    simp only [assignments, List.all_cons, Bool.and_eq_true]
    exact (judges_assignment a).bind fun _ => ih

/-- A condition with a branch on each outcome. Control leaves if it leaves both. -/
theorem Judges.conditional (cond : Expr) {T E : Gen Builder Unit} {p q : Prop}
    {thenCloses elseCloses : Bool} {thenTold elseTold : List Warning}
    (first : Judges loop Γ T p thenCloses thenTold)
    (second : Judges loop Γ E q elseCloses elseTold) :
    Judges loop Γ (conditional m cond T E) (cond.usable Γ = true ∧ (p ∧ q))
      (thenCloses && elseCloses) (thenTold ++ elseTold) := by
  intro s b ready names loops
  refine (decides_appendBlock (.start ready) _).then fun c s₁ r₁ => ?_
  refine (decides_appendBlock r₁ _).then fun t s₂ r₂ => ?_
  refine (decides_appendBlock r₂ _).then fun e s₃ r₃ => ?_
  refine (decides_appendBlock r₃ _).then fun done s₄ r₄ => ?_
  refine (decides_terminate r₄ _).then fun _ s₅ r₅ => ?_
  refine (decides_positionAtEnd r₅).then fun _ s₆ r₆ => ?_
  refine ((judges_value cond).within r₆ ready names loops).bind fun v s₇ ⟨b₇, r₇⟩ => ?_
  refine (decides_terminate r₇ _).then fun _ s₈ r₈ => ?_
  refine (decides_positionAtEnd r₈).then fun _ s₉ r₉ => ?_
  refine (first.within r₉ ready names loops).bind fun _ s₁₀ ⟨b₁₀, r₁₀⟩ => ?_
  refine (decides_branchIfOpen r₁₀ done).then fun thenFalls s₁₁ ⟨thenFell, r₁₁⟩ => ?_
  refine (decides_positionAtEnd r₁₁).then fun _ s₁₂ r₁₂ => ?_
  refine (second.within r₁₂ ready names loops).before fun _ s₁₃ ⟨b₁₃, r₁₃⟩ => ?_
  refine (decides_branchIfOpen r₁₃ done).then fun elseFalls s₁₄ ⟨elseFell, r₁₄⟩ => ?_
  refine (decides_positionAtEnd r₁₄).then fun _ s₁₅ r₁₅ => ?_
  subst thenFell elseFell
  cases thenCloses <;> cases elseCloses
  case true.true => exact (decides_terminate r₁₅ .unreachable).imp fun _ _ r => ⟨_, r⟩
  all_goals exact decides_pure ⟨_, r₁₅⟩

theorem Judges.inLoop {x : Gen Builder Unit} {p : Prop} {told : List Warning}
    (h : Judges true Γ x p closed told) (targets : LoopTargets) :
    Judges loop Γ (inLoop targets x) p closed told := by
  intro s b ready names _
  refine decides_inLoop ((h { s with loops := s.loops.push targets } b
    ⟨ready.here, ready.isOpen, ready.apt⟩ names (by simp [LoopStack.push])).imp ?_)
  rintro _ s' ⟨b', r⟩
  exact ⟨b', { r with loops := by rw [r.loops]; rfl }⟩

theorem Judges.whileLoop (cond : Expr) {B : Gen Builder Unit} {p : Prop} {told : List Warning}
    (body : Judges true Γ B p closed told) :
    Judges loop Γ (whileLoop m cond B) (cond.usable Γ = true ∧ p) false told := by
  intro s b ready names loops
  refine (decides_appendBlock (.start ready) _).then fun c s₁ r₁ => ?_
  refine (decides_appendBlock r₁ _).then fun start s₂ r₂ => ?_
  refine (decides_appendBlock r₂ _).then fun done s₃ r₃ => ?_
  refine (decides_terminate r₃ _).then fun _ s₄ r₄ => ?_
  refine (decides_positionAtEnd r₄).then fun _ s₅ r₅ => ?_
  refine ((judges_value cond).within r₅ ready names loops).bind fun v s₆ ⟨b₆, r₆⟩ => ?_
  refine (decides_terminate r₆ _).then fun _ s₇ r₇ => ?_
  refine (decides_positionAtEnd r₇).then fun _ s₈ r₈ => ?_
  refine ((body.inLoop _).within r₈ ready names loops).before fun _ s₉ ⟨b₉, r₉⟩ => ?_
  refine (decides_branchIfOpen r₉ c).then fun _ s₁₀ ⟨_, r₁₀⟩ => ?_
  exact (decides_positionAtEnd r₁₀).imp fun _ _ r => ⟨_, r⟩

theorem Judges.forLoop (init : List Assignment) (cond : Expr) (step : List Assignment)
    {B : Gen Builder Unit} {p : Prop} {told : List Warning}
    (body : Judges true Γ B p closed told) :
    Judges loop Γ (forLoop m init cond step B) (init.all (Assignment.scoped Γ) = true ∧
      (cond.usable Γ = true ∧ (p ∧ step.all (Assignment.scoped Γ) = true))) false told := by
  intro s b ready names loops
  refine (judges_assignments init s b ready names loops).bind fun _ s₀ ⟨b₀, r₀⟩ => ?_
  refine (decides_appendBlock r₀ _).then fun c s₁ r₁ => ?_
  refine (decides_appendBlock r₁ _).then fun start s₂ r₂ => ?_
  refine (decides_appendBlock r₂ _).then fun post s₃ r₃ => ?_
  refine (decides_appendBlock r₃ _).then fun done s₄ r₄ => ?_
  refine (decides_terminate r₄ _).then fun _ s₅ r₅ => ?_
  refine (decides_positionAtEnd r₅).then fun _ s₆ r₆ => ?_
  refine ((judges_value cond).within r₆ ready names loops).bind fun v s₇ ⟨b₇, r₇⟩ => ?_
  refine (decides_terminate r₇ _).then fun _ s₈ r₈ => ?_
  refine (decides_positionAtEnd r₈).then fun _ s₉ r₉ => ?_
  refine ((body.inLoop _).within r₉ ready names loops).bind fun _ s₁₀ ⟨b₁₀, r₁₀⟩ => ?_
  refine (decides_branchIfOpen r₁₀ post).then fun _ s₁₁ ⟨_, r₁₁⟩ => ?_
  refine (decides_positionAtEnd r₁₁).then fun _ s₁₂ r₁₂ => ?_
  refine ((judges_assignments step).within r₁₂ ready names loops).before
    fun _ s₁₃ ⟨b₁₃, r₁₃⟩ => ?_
  rw [List.append_nil] at r₁₃
  refine (decides_terminate r₁₃ _).then fun _ s₁₄ r₁₄ => ?_
  exact (decides_positionAtEnd r₁₄).imp fun _ _ r => ⟨_, r⟩

/-- The value of a type that is not `void` is always there. -/
theorem judges_zeroValue (ty : Decaf.Ty) (line : Nat) :
    Judges loop Γ (zeroValue ty line) (ty ≠ .void) false := by
  cases ty with
  | void => exact judges_throw _ (by simp)
  | _ =>
    simp only [zeroValue, Ty.repr, Const.zero?]
    exact Judges.congr (judges_emit _ rfl) (by simp)

theorem judges_defaultValue {ty : Decaf.Ty} (holds : ty ≠ .void) (line : Nat) :
    Judges loop Γ (defaultValue ty line) True false := by
  rw [defaultValue]
  split
  · exact judges_emit _ rfl
  · exact (judges_zeroValue ty line).congr (by simp [holds])

theorem judges_warn (w : Warning) : Judges loop Γ (warn w) True false [w] :=
  fun _ b ready _ _ => ends_warn ⟨trivial, b, { Course.start ready with warnings := rfl }⟩

section Lenient

variable {check : Bool} (lenient : m.options = .lenient check)

include lenient

theorem judges_returnDefault (owed : m.ret ≠ .void) (line : Nat) :
    Judges loop Γ (returnDefault m line) True true [.synthesizedReturn m.name line] := by
  rw [returnDefault, lenient]
  intro s b ready names loops
  refine (judges_warn _ s b ready names loops).then fun _ s₁ passed => ?_
  obtain ⟨b₁, r₁⟩ := passed
  have ends : Judges loop Γ (defaultValue m.ret line >>= fun v =>
      emit (.terminate (.ret (some v)))) True true :=
    (judges_defaultValue owed line).then fun _ => judges_terminate _
  exact ends.within r₁ ready names loops

theorem judges_returnStmt (result : Option Expr) (line : Nat) :
    Judges loop Γ (returnStmt m result line)
      (Stmt.scoped m.ret loop Γ (.return result line) = true) true
      (warningsAt m.name m.ret (Stmt.live loop (.return result line))) := by
  cases result with
  | none =>
    simp only [returnStmt, Stmt.scoped, Stmt.live, warningsAt, List.filterMap_cons,
      List.filterMap_nil, Stmt.warning?]
    split
    · exact (judges_terminate _).congr (by simp)
    · rename_i owed
      exact (judges_returnDefault lenient owed line).congr (by simp)
  | some e =>
    simp only [returnStmt, Stmt.scoped]
    split
    · rename_i void
      exact judges_throw _ (by simp [void])
    · rename_i owed
      refine Judges.congr (Judges.before (judges_value e) fun v => ?_) (by simp [owed])
      exact (judges_coerce v _).then fun w => judges_terminate _

theorem judges_jumpStmt (kind : Jump) (line : Nat) :
    Judges loop Γ (jumpStmt m kind line) True loop
      (warningsAt m.name m.ret (Stmt.live loop (.jump kind line))) := by
  intro s b ready names loops
  apply ends_innermostLoop?
  cases around : s.loops.loops with
  | nil =>
    obtain rfl : loop = false := loops.1 around
    rw [LoopStack.innermost?, around, lenient]
    exact judges_warn _ s b ready names loops
  | cons targets outer =>
    obtain rfl : loop = true := by
      cases loop
      · rw [around] at loops
        simp at loops
      · rfl
    rw [LoopStack.innermost?, around]
    exact judges_terminate _ s b ready names loops

end Lenient

end Gen

end Decaf
