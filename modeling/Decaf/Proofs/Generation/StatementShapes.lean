import Decaf.Proofs.Generation.ControlFlow
import Decaf.Proofs.Generation.ExpressionShapes

/-!
# Shapes of statements

Code for a statement has the shape of the statement. It ends at a place in an open block
or, if control has left, at none. A declaration changes the scopes as well; the slot it
reserves is not that of any other variable in scope.
-/

namespace Decaf

open IR

/-- Control goes on after the code, which has the shape. -/
def CodesStep (mc : MethodContext) (scopes : ScopeStack) (g : Gen Builder Unit)
    (F : Module → Shape.Step) : Prop :=
  ∀ p s b, Site False p s b → s.target.module.terminator? b = none → mc.Serves p →
    s.scopes = scopes → Gen.Ends g s
      (fun _ s' => ∃ p' b', Advances False p s b p' s' b' ∧
        ∀ M, s'.target.module.Settles mc.function b' M → F M (s.place b) (s'.place b'))
      (Refusal False)

/-- Where code for a statement can be generated. -/
structure Setting (mc : MethodContext) (entry : BlockId) (scopes : ScopeStack)
    (loops : LoopStack) (p : Plan) (s : GenState Builder) (b : BlockId) : Prop where
  site : Site False p s b
  serves : mc.Serves p
  entry : p.entry = entry
  scopes : s.scopes = scopes
  loops : s.loops = loops

/-- The code has the shape, whether or not control goes on after it. -/
def CodesFlow (mc : MethodContext) (entry : BlockId) (scopes : ScopeStack) (loops : LoopStack)
    (g : Gen Builder Unit) (F : Module → Shape.Flow) : Prop :=
  ∀ p s b, Setting mc entry scopes loops p s b → s.target.module.terminator? b = none →
    Gen.Ends g s
      (fun _ s' => ∃ p' b', Reached False p s b p' s' b' [] ∧
        ∀ M, s'.target.module.Settles mc.function b' M → F M (s.place b) (s'.exit b'))
      (Refusal False)

section

variable {mc : MethodContext} {entry : BlockId} {scopes : ScopeStack} {loops : LoopStack}
  {p p' : Plan} {s s' : GenState Builder} {b b' : BlockId} {M : Module}

theorem Setting.stands (h : Setting mc entry scopes loops p s b)
    (isOpen : s.target.module.terminator? b = none) : s.target.StandsAt b mc.function :=
  h.serves.function ▸ h.site.stands isOpen

theorem Setting.next (h : Setting mc entry scopes loops p s b)
    (r : Reached False p s b p' s' b' []) : Setting mc entry scopes loops p' s' b' where
  site := r.site
  serves := h.serves.refines r.plan
  entry := r.plan.entry.trans h.entry
  scopes := r.scopes.trans h.scopes
  loops := r.loops.trans h.loops

theorem CodesStep.of_goesOn {g : Gen Builder Unit} {F : Module → Shape.Step}
    (h : Gen.GoesOn False mc scopes g)
    (shape : ∀ p s b, Site False p s b → s.target.module.terminator? b = none → mc.Serves p →
      s.scopes = scopes → Gen.Ends g s (fun _ s' => ∃ b', s'.target.insertion = some b' ∧
        ∀ M, s'.target.module.Settles mc.function b' M → F M (s.place b) (s'.place b'))
      fun _ => True) : CodesStep mc scopes g F := by
  intro p s b site isOpen serves here
  refine ((h p s b site isOpen serves here).and (shape p s b site isOpen serves here)).imp ?_
  rintro _ s' ⟨⟨p', b', a⟩, b'', at_, shaped⟩
  obtain rfl : b' = b'' := Option.some.inj (a.reached.site.here.symm.trans at_)
  exact ⟨p', b', a, shaped⟩

theorem CodesStep.flow {g : Gen Builder Unit} {F : Module → Shape.Step}
    (h : CodesStep mc scopes g F) :
    CodesFlow mc entry scopes loops g fun M a z => ∃ b, F M a b ∧ z = some b := by
  intro p s b setting isOpen
  refine (h p s b setting.site isOpen setting.serves setting.scopes).imp ?_
  rintro _ s' ⟨p', b', a, shaped⟩
  exact ⟨p', b', a.reached, fun M settles =>
    ⟨_, shaped M settles, GenState.exit_open a.isOpen⟩⟩

theorem CodesFlow.of_completes {g : Gen Builder Unit} {F : Module → Shape.Flow}
    (h : Completes False mc scopes false g)
    (shape : ∀ p s b, Setting mc entry scopes loops p s b →
      s.target.module.terminator? b = none → Gen.Ends g s
        (fun _ s' => ∃ b', s'.target.insertion = some b' ∧
          ∀ M, s'.target.module.Settles mc.function b' M → F M (s.place b) (s'.exit b'))
      fun _ => True) : CodesFlow mc entry scopes loops g F := by
  intro p s b setting isOpen
  refine ((h p s b setting.site isOpen setting.serves setting.scopes nofun).and
    (shape p s b setting isOpen)).imp ?_
  rintro _ s' ⟨⟨p', b', r⟩, b'', at_, shaped⟩
  obtain rfl : b' = b'' := Option.some.inj (r.site.here.symm.trans at_)
  exact ⟨p', b', r, shaped⟩

end

namespace Gen

section

variable {mc : MethodContext} {entry : BlockId} {scopes : ScopeStack} {loops : LoopStack}
  {E : CompileError → Prop}

theorem codesStep_assignScalar (name : String) (e : Expr) (line : Nat) :
    CodesStep mc scopes (assignment mc (.scalar name e line))
      fun M => Shape.assignment M scopes (.scalar name e line) := by
  refine .of_goesOn (goesOn_assignment _ False.elim) ?_
  intro p s b site isOpen serves here
  rw [assignment]
  refine ends_bind (P := fun x s' => s' = s ∧ s.scopes.resolveScalar name line = .ok x)
    (ends_fromScopes (fun x found => ⟨rfl, found⟩) fun _ _ => trivial) ?_
  rintro ⟨ty, slot⟩ _ ⟨rfl, resolved⟩
  refine ends_bind (codes_value e p _ b site isOpen serves here).lax ?_
  rintro v s₁ ⟨p₁, b₁, a₁, usable, shaped⟩
  refine ends_bind (ends_coerced (a₁.stands serves) v ty usable.index_lt) ?_
  rintro w s₂ ⟨at₂, -, -, -, widened⟩
  refine (puts_store at₂ w slot).imp ?_
  intro _ s₃ puts
  refine ⟨b₁, puts.stands.here, fun M h => ?_⟩
  obtain ⟨h₁, widens⟩ := widened M (puts.settles M h)
  exact ⟨ty, slot, v, _, w, _, here ▸ resolved, shaped M h₁, a₁.values_le, widens, puts.does h⟩

theorem codesStep_assignElement (array : String) (index e : Expr) (line : Nat) :
    CodesStep mc scopes (assignment mc (.element array index e line))
      fun M => Shape.assignment M scopes (.element array index e line) := by
  refine .of_goesOn (goesOn_assignment _ False.elim) ?_
  intro p s b site isOpen serves here
  rw [assignment]
  refine ends_bind (P := fun x s' => s' = s ∧ s.scopes.resolveArray array line = .ok x)
    (ends_fromScopes (fun x found => ⟨rfl, found⟩) fun _ _ => trivial) ?_
  rintro ⟨ty, base⟩ _ ⟨rfl, resolved⟩
  refine ends_bind (codes_value index p _ b site isOpen serves here).lax ?_
  rintro i s₁ ⟨p₁, b₁, a₁, -, shapedI⟩
  have serves₁ := serves.refines a₁.reached.plan
  refine ends_bind (codes_value e p₁ s₁ b₁ a₁.reached.site a₁.isOpen serves₁
    (a₁.reached.scopes.trans here)).lax ?_
  rintro v s₂ ⟨p₂, b₂, a₂, usable, shapedV⟩
  refine ends_bind (ends_coerced (a₂.stands serves₁) v ty usable.index_lt) ?_
  rintro w s₃ ⟨at₃, -, -, -, widened⟩
  refine ends_bind (puts_emit at₃ .ptr "elem" (fun dst => .elementPtr dst ty.repr base i) rfl
    fun _ => ⟨rfl, rfl⟩) ?_
  rintro address s₄ ⟨puts₄, -, emits⟩
  refine (puts_store puts₄.stands w address).imp ?_
  intro _ s₅ puts₅
  refine ⟨b₂, puts₅.stands.here, fun M h => ?_⟩
  have h₄ := puts₅.settles M h
  obtain ⟨h₂, widens⟩ := widened M (puts₄.settles M h₄)
  exact ⟨ty, base, i, _, v, _, w, _, address, _, here ▸ resolved,
    shapedI M (a₂.settles serves₁ a₁.isOpen h₂), a₁.values_le, shapedV M h₂, a₂.values_le,
    widens, emits M h₄, puts₅.does h⟩

theorem codesStep_assignment : ∀ (a : Assignment),
    CodesStep mc scopes (assignment mc a) fun M => Shape.assignment M scopes a
  | .scalar name e line => codesStep_assignScalar name e line
  | .element array index e line => codesStep_assignElement array index e line

theorem codesStep_assignments : ∀ (as : List Assignment),
    CodesStep mc scopes (assignments mc as) fun M => Shape.assignments M scopes as
  | [] => fun p s b site isOpen _ _ => ends_pure ⟨p, b, ⟨.refl site, isOpen⟩, fun _ _ => rfl⟩
  | a :: as => by
    intro p s b site isOpen serves here
    rw [assignments]
    refine ends_bind (codesStep_assignment a p s b site isOpen serves here) ?_
    rintro _ s₁ ⟨p₁, b₁, a₁, shaped₁⟩
    have serves₁ := serves.refines a₁.reached.plan
    refine (codesStep_assignments as p₁ s₁ b₁ a₁.reached.site a₁.isOpen serves₁
      (a₁.reached.scopes.trans here)).imp ?_
    rintro _ s₂ ⟨p₂, b₂, a₂, shaped₂⟩
    exact ⟨p₂, b₂, a₁.next a₂, fun M h =>
      ⟨_, shaped₁ M (a₂.settles serves₁ a₁.isOpen h), a₁.values_le, shaped₂ M h⟩⟩

theorem ends_defaultValue_shape {f : FunctionId} {s : GenState Builder} {b : BlockId}
    (at_ : s.target.StandsAt b f) (ty : Ty) (line : Nat) :
    Ends (defaultValue ty line) s (fun v s' => s'.target.StandsAt b f ∧
      ∀ M, s'.target.module.Settles f b M → ∃ c,
        (if ty = .bool then some (.bool true) else Const.zero? ty.repr) = some c ∧
          Shape.Constant M c (s.place b) v (s'.place b)) fun _ => True := by
  have constant (c : Const) : Ends (emit (.const c)) s (fun v s' => s'.target.StandsAt b f ∧
      ∀ M, s'.target.module.Settles f b M → Shape.Constant M c (s.place b) v (s'.place b))
      fun _ => True :=
    (ends_emit_constant at_ c).imp fun _ _ ended => by
      obtain ⟨at', _, _, shaped⟩ := ended
      exact ⟨at', fun M h => (shaped M h).2⟩
  rw [defaultValue]
  split
  · refine (constant _).imp fun _ _ ended => ?_
    exact ⟨ended.1, fun M h => ⟨_, rfl, ended.2 M h⟩⟩
  · rw [zeroValue]
    cases Const.zero? ty.repr with
    | none => exact ends_throw trivial
    | some c =>
      refine (constant c).imp fun _ _ ended => ?_
      exact ⟨ended.1, fun M h => ⟨c, rfl, ended.2 M h⟩⟩

theorem ends_returnDefault_shape {s : GenState Builder} {b : BlockId}
    (at_ : s.target.StandsAt b mc.function) (line : Nat) :
    Ends (returnDefault mc line) s (fun _ s' => s'.target.insertion = some b ∧
      s'.target.module.terminator? b ≠ none ∧ ∀ M, s'.target.module.Settles mc.function b M →
        Shape.returnDefault M mc.ret (s.place b) none) fun _ => True := by
  rw [returnDefault]
  split
  · exact ends_throw trivial
  · refine ends_bind (P := fun _ s' =>
      s' = { s with warnings := s.warnings ++ [.synthesizedReturn mc.name line] })
        (ends_warn rfl) ?_
    rintro _ _ rfl
    refine ends_bind (ends_defaultValue_shape
      (s := { s with warnings := s.warnings ++ [.synthesizedReturn mc.name line] })
      at_ mc.ret line) ?_
    rintro v s₁ ⟨at₁, shaped⟩
    refine (ends_emit_terminator at₁ (.ret (some v))).imp ?_
    rintro _ s₂ ⟨here, closed, exits⟩
    refine ⟨here, by simp [closed], fun M h => ?_⟩
    obtain ⟨h₁, exit⟩ := exits M h
    obtain ⟨c, default, constant⟩ := shaped M h₁
    exact ⟨rfl, c, v, _, default, constant, exit⟩

theorem codesFlow_returnStmt (result : Option Expr) (line : Nat) :
    CodesFlow mc entry scopes loops (returnStmt mc result line)
      fun M => Shape.returnStmt M scopes mc.ret result := by
  refine .of_completes (completes_returnStmt result line False.elim False.elim) ?_
  intro p s b setting isOpen
  have at_ := setting.stands isOpen
  cases result with
  | none =>
    rw [returnStmt]
    split
    · rename_i void
      refine (ends_emit_terminator at_ (.ret none)).imp ?_
      rintro _ s' ⟨here, closed, exits⟩
      refine ⟨b, here, fun M h => ?_⟩
      exact (if_pos void).mpr ⟨GenState.exit_closed (by simp [closed]), (exits M h).2⟩
    · rename_i value
      refine (ends_returnDefault_shape at_ line).imp ?_
      rintro _ s' ⟨here, closed, shaped⟩
      refine ⟨b, here, fun M h => ?_⟩
      rw [GenState.exit_closed closed]
      exact (if_neg value).mpr (shaped M h)
  | some e =>
    rw [returnStmt]
    split
    · exact ends_throw trivial
    · rename_i value
      refine ends_bind (codes_value e p s b setting.site isOpen setting.serves
        setting.scopes).lax ?_
      rintro v s₁ ⟨p₁, b₁, a₁, usable, shaped⟩
      refine ends_bind (ends_coerced (a₁.stands setting.serves) v mc.ret usable.index_lt) ?_
      rintro w s₂ ⟨at₂, -, -, -, widened⟩
      refine (ends_emit_terminator at₂ (.ret (some w))).imp ?_
      rintro _ s₃ ⟨here, closed, exits⟩
      refine ⟨b₁, here, fun M h => ?_⟩
      obtain ⟨h₂, exit⟩ := exits M h
      obtain ⟨h₁, widens⟩ := widened M h₂
      rw [GenState.exit_closed (by simp [closed])]
      exact ⟨rfl, value, v, _, w, _, shaped M h₁, a₁.values_le, widens, exit⟩

theorem codesFlow_jumpStmt (kind : Jump) (line : Nat) :
    CodesFlow mc entry scopes loops (jumpStmt mc kind line)
      fun M => Shape.jumpStmt M loops kind := by
  refine .of_completes (completes_jumpStmt kind line False.elim) ?_
  intro p s b setting isOpen
  apply ends_innermostLoop?
  simp only [Shape.jumpStmt, setting.loops]
  cases loops.innermost? with
  | some targets =>
    refine (ends_emit_terminator (setting.stands isOpen) (.br (targets.target kind))).imp ?_
    rintro _ s' ⟨here, closed, exits⟩
    refine ⟨b, here, fun M h => ?_⟩
    exact ⟨GenState.exit_closed (by simp [closed]), (exits M h).2⟩
  | none =>
    cases mc.options.strayJump with
    | error => exact ends_throw trivial
    | ignore => exact ends_warn ⟨b, setting.site.here, fun M h => GenState.exit_open isOpen⟩

end

end Gen

end Decaf
