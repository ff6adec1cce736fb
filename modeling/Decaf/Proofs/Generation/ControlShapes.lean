import Decaf.Proofs.Generation.DeclarationShapes

/-!
# Shapes of control flow

The blocks of a conditional or a loop are filled one after the other, and each is closed
before the builder moves on to the next. So what is known of a block when it is left still
holds at the end.
-/

namespace Decaf

open IR

/-- What was put between the block where a test began and the block `x` for its true
outcome. -/
structure Tests (mc : MethodContext) (scopes : ScopeStack) (e : Expr) (s : GenState Builder)
    (b c x y : BlockId) (s' : GenState Builder) : Prop where
  empty : s'.target.module.codeOf x = []
  values : s.target.module.values.size ≤ s'.target.module.values.size
  shape : ∀ M, s'.target.module.Settles mc.function x M →
    s.target.module.Settles mc.function b M ∧ Shape.Exits M (s.place b) (.br c) ∧
      Shape.Plain M c ∧ Shape.Plain M x ∧ ∃ n, s.target.module.values.size ≤ n ∧
        ∃ v z, Shape.value M scopes e (.start c n) v z ∧ Shape.Exits M z (.condBr v x y)

namespace Gen

section

variable {mc : MethodContext} {entry : BlockId} {scopes : ScopeStack} {loops : LoopStack}
  {p₀ p : Plan} {s₀ s : GenState Builder} {b₀ b c x y : BlockId} {rest : List BlockId}

theorem ends_test_walk (r : Reached False p₀ s₀ b₀ p s b (c :: x :: rest))
    (isOpen : s.target.module.terminator? b = none) (serves : mc.Serves p₀)
    (here : s₀.scopes = scopes) (e : Expr) (exit : y ∈ x :: rest) :
    Ends (do
      branch c
      emit (.positionAtEnd c)
      let v ← value mc e
      emit (.terminate (.condBr v x y))
      emit (.positionAtEnd x)) s (fun _ s' => Tests mc scopes e s b c x y s') fun _ => True := by
  obtain ⟨waiting, apart, new⟩ := r.waiting c (by simp)
  have serves_p := serves.refines r.plan
  have only {d : BlockId} (hd : d ∈ (Terminator.br c).successors) : d = c := by
    simpa [Terminator.successors] using hd
  refine ends_bind (ends_exits r serves isOpen (r.joinable (by simp)).closes_br
    fun d hd => .inr (only hd ▸ new)) ?_
  rintro _ s₁ ⟨r₁, closed₁, ext₁, exits₁⟩
  refine ends_bind (ends_moves r₁ serves closed₁) ?_
  rintro _ s₂ ⟨r₂, moved₂⟩
  refine ends_bind (codes_value e p s₂ c r₂.site moved₂.isOpen serves_p
    (r₂.scopes.trans here)).lax ?_
  rintro v s₃ ⟨p₃, b₃, a₃, usable, shaped⟩
  have r₃ := r₂.next a₃.reached
  obtain ⟨closes, joins⟩ := r₃.closes_condBr ⟨usable, False.elim⟩ List.mem_cons_self exit
  refine ends_bind (ends_exits r₃ serves a₃.isOpen closes joins) ?_
  rintro _ s₄ ⟨r₄, closed₄, ext₄, exits₄⟩
  refine (ends_moves r₄ serves closed₄).imp ?_
  rintro _ s₅ ⟨r₅, moved₅⟩
  have size₂ := Nat.le_trans ext₁.size_le moved₂.values_le
  have size₄ := Nat.le_trans a₃.values_le ext₄.size_le
  refine ⟨moved₅.empty, Nat.le_trans size₂ (Nat.le_trans size₄ moved₅.values_le), fun M h => ?_⟩
  obtain ⟨h₄, plain₅⟩ := moved₅.settles M h
  obtain ⟨h₃, exit₃⟩ := exits₄ M h₄
  obtain ⟨h₁, plain₂⟩ := moved₂.settles M (a₃.settles serves_p moved₂.isOpen h₃)
  obtain ⟨h₀, exit₀⟩ := exits₁ M h₁
  have shape := shaped M h₃
  rw [GenState.place_start moved₂.empty] at shape
  exact ⟨h₀, exit₀, plain₂, plain₅, _, size₂, v, _, shape, exit₃⟩

/-- As `ends_test`, with the shape of the test. -/
theorem ends_test_shape {β : Type} {e : Expr} {k : Gen Builder β}
    {R : β → GenState Builder → Prop} (r : Reached False p₀ s₀ b₀ p s b (c :: x :: rest))
    (isOpen : s.target.module.terminator? b = none) (serves : mc.Serves p₀)
    (here : s₀.scopes = scopes) (exit : y ∈ x :: rest)
    (next : ∀ p' s', Tested False p₀ s₀ b₀ p s c x y rest p' s' → Tests mc scopes e s b c x y s' →
      Ends k s' R (Refusal False)) :
    Ends (do
      branch c
      emit (.positionAtEnd c)
      let v ← value mc e
      emit (.terminate (.condBr v x y))
      emit (.positionAtEnd x)
      k) s R (Refusal False) := by
  have tested := ends_test (k := pure ()) (R := fun _ s' => ∃ p',
    Tested False p₀ s₀ b₀ p s c x y rest p' s') r isOpen serves here (e := e) False.elim exit
    fun p' s' h => ends_pure ⟨p', h⟩
  simp only [bind_pure_unit] at tested
  have both := ends_bind (tested.and (ends_test_walk r isOpen serves here e exit))
    fun _ s' ⟨⟨p', reached⟩, tests⟩ => next p' s' reached tests
  simpa only [bind_assoc] using both

/-- The body of a branch, begun at a block that waited. -/
theorem ends_body_flow {body : Gen Builder Unit} {F : Module → Shape.Flow}
    (r : Reached False p₀ s₀ b₀ p s b rest) (isOpen : s.target.module.terminator? b = none)
    (setting : Setting mc entry scopes loops p₀ s₀ b₀)
    (codes : CodesFlow mc entry scopes loops body F) :
    Ends body s (fun _ s' => ∃ p' b', Reached False p s b p' s' b' [] ∧
      Reached False p₀ s₀ b₀ p' s' b' rest ∧ ∀ M, s'.target.module.Settles mc.function b' M →
        s.target.module.Settles mc.function b M ∧ F M (s.place b) (s'.exit b'))
      (Refusal False) := by
  have here : Setting mc entry scopes loops p s b :=
    ⟨r.site, setting.serves.refines r.plan, r.plan.entry.trans setting.entry,
      r.scopes.trans setting.scopes, r.loops.trans setting.loops⟩
  refine (codes p s b here isOpen).imp ?_
  rintro _ s' ⟨p', b', q, shaped⟩
  exact ⟨p', b', q, r.next q, fun M h => ⟨q.settles isOpen here.serves.function h, shaped M h⟩⟩

theorem ends_loopBody_flow {body : Gen Builder Unit} {F : Module → Shape.Flow} {d : BlockId}
    (r : Reached False p₀ s₀ b₀ p s b rest) (isOpen : s.target.module.terminator? b = none)
    (setting : Setting mc entry scopes loops p₀ s₀ b₀) (onContinue : s.target.module.Header p
      (s₀.target.module.there p₀ b₀) c) (continue_ne : c ≠ b)
    (continue_new : s₀.target.module.blocks.size ≤ c.index) (onBreak : d ∈ rest)
    (completes : Completes False mc scopes true body)
    (codes : CodesFlow mc entry scopes (loops.push ⟨c, d⟩) body F) :
    Ends (inLoop ⟨c, d⟩ body) s (fun _ s' => ∃ p' b',
      Reached False p { s with loops := s.loops.push ⟨c, d⟩ } b p'
        { s' with loops := s.loops.push ⟨c, d⟩ } b' [] ∧
      Reached False p₀ s₀ b₀ p' s' b' rest ∧ ∀ M, s'.target.module.Settles mc.function b' M →
        s.target.module.Settles mc.function b M ∧ F M (s.place b) (s'.exit b'))
      (Refusal False) := by
  have serves := setting.serves.refines r.plan
  have inside : Setting mc entry scopes (loops.push ⟨c, d⟩) p
      { s with loops := s.loops.push ⟨c, d⟩ } b :=
    ⟨Site.inLoop r onContinue continue_ne onBreak, serves, r.plan.entry.trans setting.entry,
      r.scopes.trans setting.scopes, by rw [r.loops, setting.loops]⟩
  have walk : Ends (inLoop ⟨c, d⟩ body) s (fun _ s' => ∃ b', s'.target.insertion = some b' ∧
      ∀ M, s'.target.module.Settles mc.function b' M →
        s.target.module.Settles mc.function b M ∧ F M (s.place b) (s'.exit b'))
      fun _ => True := by
    refine ends_inLoop ((codes p _ b inside isOpen).imp ?_).lax
    rintro _ s' ⟨p', b', q, shaped⟩
    exact ⟨b', q.site.here, fun M h => ⟨q.settles isOpen serves.function h, shaped M h⟩⟩
  refine ((ends_loopBody r isOpen setting.serves setting.scopes onContinue continue_ne
    continue_new onBreak completes).and walk).imp ?_
  rintro _ s' ⟨⟨p', b', q, outer⟩, b'', at_, shaped⟩
  obtain rfl : b' = b'' := Option.some.inj (outer.site.here.symm.trans at_)
  exact ⟨p', b', q, outer, shaped⟩

theorem codesFlow_whileLoop {e : Expr} {body : Gen Builder Unit}
    {F : LoopTargets → Module → Shape.Flow} (completes : Completes False mc scopes true body)
    (codes : ∀ targets, CodesFlow mc entry scopes (loops.push targets) body (F targets)) :
    CodesFlow mc entry scopes loops (whileLoop mc e body)
      fun M => Shape.whileLoop M (Shape.value M scopes e) fun targets => F targets M := by
  intro p s b setting isOpen
  have serves := setting.serves
  refine ends_bind (ends_appendBlock (.refl setting.site) serves _) ?_
  rintro condBlock s₁ ⟨r₁, new₁⟩
  refine ends_bind (ends_appendBlock r₁ (serves.refines r₁.plan) _) ?_
  rintro bodyBlock s₂ ⟨r₂, new₂⟩
  refine ends_bind (ends_appendBlock r₂ (serves.refines r₂.plan) _) ?_
  rintro endBlock s₃ ⟨r₃, new₃⟩
  have r₃ : Reached False p s b _ s₃ b [condBlock, bodyBlock, endBlock] := r₃
  have opened : s.target.module.Appends p.function s₃.target.module :=
    .append (.append (.append .refl new₁) new₂) new₃
  have open₃ := (opened.terminator? b).trans isOpen
  refine ends_test_shape r₃ open₃ serves setting.scopes (y := endBlock) (by simp) ?_
  rintro p₄ s₄ tested tests
  refine ends_bind (ends_loopBody_flow tested.reached tested.isOpen setting tested.header
    tested.apart.1 tested.new (by simp) completes (codes ⟨condBlock, endBlock⟩)) ?_
  rintro _ s₅ ⟨p₅, b₅, q₅, r₅, shaped₅⟩
  have header₅ := q₅.header tested.header tested.apart.1
  refine ends_bind (ends_falls r₅ serves (header₅.joinable r₅.there) tested.new) ?_
  rintro fell s₆ ⟨r₆, closed₆, -, -, falls₆⟩
  refine (ends_moves r₆ serves closed₆).imp ?_
  rintro _ s₇ ⟨r₇, moved₇⟩
  -- from here back to the code before the loop
  refine ⟨p₅, endBlock, r₇, fun M h => ?_⟩
  obtain ⟨h₆, plainEnd⟩ := moved₇.settles M h
  obtain ⟨h₅, fallsBack⟩ := falls₆ M h₆
  obtain ⟨h₄, shape⟩ := shaped₅ M h₅
  obtain ⟨h₃, exit, plain, plainBody, n, le, v, z, cond, branch⟩ := tests.shape M h₄
  have size₃ := r₃.values_le
  rw [GenState.place_start tests.empty] at shape
  rw [GenState.exit_open moved₇.isOpen, GenState.place_start moved₇.empty]
  refine ⟨condBlock, bodyBlock, endBlock, n, _, _, _, ?_, Nat.le_trans size₃ le,
    ⟨plain, plainBody, plainEnd, v, z, cond, branch⟩, tested.reached.values_le, shape, fallsBack,
    r₇.values_le, rfl⟩
  exact ⟨exit.code.trans (opened.codeOf b), exit.leaves⟩

/-- The assignments after each pass of a loop, and the way back to its condition. -/
theorem ends_step_flow {step : List Assignment} (r : Reached False p₀ s₀ b₀ p s b (x :: y :: rest))
    (serves : mc.Serves p₀) (here : s₀.scopes = scopes)
    (header : s.target.module.Header p (s₀.target.module.there p₀ b₀) c) (away : c ≠ b)
    (apart : c ≠ x) (new : s₀.target.module.blocks.size ≤ c.index) :
    Ends (do
      let _ ← branchIfOpen x
      emit (.positionAtEnd x)
      assignments mc step
      branch c
      emit (.positionAtEnd y)) s
      (fun _ s' => ∃ p', Reached False p₀ s₀ b₀ p' s' y rest ∧
        s'.target.module.terminator? y = none ∧ s'.target.module.codeOf y = [] ∧
        s.target.module.values.size ≤ s'.target.module.values.size ∧
        ∀ M, s'.target.module.Settles mc.function y M →
          s.target.module.Settles mc.function b M ∧ Shape.Falls M (s.exit b) x ∧
            Shape.Plain M x ∧ Shape.Plain M y ∧ ∃ n z, s.target.module.values.size ≤ n ∧
              Shape.assignments M scopes step (.start x n) z ∧ Shape.Exits M z (.br c))
      (Refusal False) := by
  refine ends_bind (ends_falls r serves (r.joinable (by simp)) (r.waiting x (by simp)).2.2) ?_
  rintro fell s₁ ⟨r₁, closed₁, e₁, -, falls₁⟩
  have header₁ := header.edit e₁ away
  refine ends_bind (ends_moves r₁ serves closed₁) ?_
  rintro _ s₂ ⟨r₂, moved₂⟩
  have serves₂ := serves.refines r₂.plan
  refine ends_bind (codesStep_assignments step p s₂ x r₂.site moved₂.isOpen serves₂
    (r₂.scopes.trans here)) ?_
  rintro _ s₃ ⟨p₃, b₃, a₃, shaped₃⟩
  have r₃ := r₂.next a₃.reached
  have header₃ : s₃.target.module.Header p₃ (s₀.target.module.there p₀ b₀) c := by
    rw [← moved₂.same] at header₁
    exact a₃.reached.header header₁ apart
  refine ends_bind (ends_exits r₃ serves a₃.isOpen (header₃.joinable r₃.there).closes_br
    (by simpa [Terminator.successors] using .inr new)) ?_
  rintro _ s₄ ⟨r₄, closed₄, ext₄, exits₄⟩
  refine (ends_moves r₄ serves closed₄).imp ?_
  rintro _ s₅ ⟨r₅, moved₅⟩
  have size₂ := Nat.le_trans e₁.ext.size_le moved₂.values_le
  have size₅ := Nat.le_trans (Nat.le_trans a₃.values_le ext₄.size_le) moved₅.values_le
  refine ⟨p₃, r₅, moved₅.isOpen, moved₅.empty, Nat.le_trans size₂ size₅, fun M h => ?_⟩
  obtain ⟨h₄, plainEnd⟩ := moved₅.settles M h
  obtain ⟨h₃, back⟩ := exits₄ M h₄
  obtain ⟨h₁, plain⟩ := moved₂.settles M (a₃.settles serves₂ moved₂.isOpen h₃)
  obtain ⟨h₀, falls⟩ := falls₁ M h₁
  have shape := shaped₃ M h₃
  rw [GenState.place_start moved₂.empty] at shape
  exact ⟨h₀, falls, plain, plainEnd, _, _, size₂, shape, back⟩

theorem codesFlow_forLoop {init step : List Assignment} {e : Expr} {body : Gen Builder Unit}
    {F : LoopTargets → Module → Shape.Flow} (completes : Completes False mc scopes true body)
    (codes : ∀ targets, CodesFlow mc entry scopes (loops.push targets) body (F targets)) :
    CodesFlow mc entry scopes loops (forLoop mc init e step body) fun M =>
      Shape.forLoop M (Shape.assignments M scopes init) (Shape.value M scopes e)
        (Shape.assignments M scopes step) fun targets => F targets M := by
  intro p s b setting isOpen
  have serves := setting.serves
  refine ends_bind (codesStep_assignments init p s b setting.site isOpen serves
    setting.scopes) ?_
  rintro _ s₀ ⟨p₀, b₀, a₀, shaped₀⟩
  have r₀ := a₀.reached
  refine ends_bind (ends_appendBlock r₀ (serves.refines r₀.plan) _) ?_
  rintro condBlock s₁ ⟨r₁, new₁⟩
  refine ends_bind (ends_appendBlock r₁ (serves.refines r₁.plan) _) ?_
  rintro bodyBlock s₂ ⟨r₂, new₂⟩
  refine ends_bind (ends_appendBlock r₂ (serves.refines r₂.plan) _) ?_
  rintro postBlock s₃ ⟨r₃, new₃⟩
  refine ends_bind (ends_appendBlock r₃ (serves.refines r₃.plan) _) ?_
  rintro endBlock s₄ ⟨r₄, new₄⟩
  have r₄ : Reached False p s b _ s₄ b₀ [condBlock, bodyBlock, postBlock, endBlock] := r₄
  have opened : s₀.target.module.Appends p₀.function s₄.target.module :=
    .append (.append (.append (.append .refl new₁) new₂) new₃) new₄
  have open₄ := (opened.terminator? b₀).trans a₀.isOpen
  refine ends_test_shape r₄ open₄ serves setting.scopes (y := endBlock) (by simp) ?_
  rintro p₅ s₅ tested tests
  obtain ⟨waiting₅, post_ne, post_new⟩ := tested.reached.waiting postBlock (by simp)
  refine ends_bind (ends_loopBody_flow (d := endBlock) tested.reached tested.isOpen setting
    waiting₅.header post_ne post_new (by simp) completes (codes ⟨postBlock, endBlock⟩)) ?_
  rintro _ s₆ ⟨p₆, b₆, q₆, r₆, shaped₆⟩
  have header₆ := q₆.header tested.header tested.apart.1
  have away := q₆.exit_ne (Module.index_lt_of_functionOf? tested.header.owned) tested.apart.1
  refine (ends_step_flow r₆ serves setting.scopes header₆ away.symm
    (fun same => tested.apart.2 (by simp [same])) tested.new).imp ?_
  rintro _ s₇ ⟨p₇, r₇, open₇, empty₇, size₇, stepped⟩
  -- from here back to the code before the loop
  refine ⟨p₇, endBlock, r₇, fun M h => ?_⟩
  obtain ⟨h₆, fallsOn, plainPost, plainEnd, n₂, z₂, le₂, post, back⟩ := stepped M h
  obtain ⟨h₅, shape⟩ := shaped₆ M h₆
  obtain ⟨h₄, exit, plain, plainBody, n, le, v, z, cond, branch⟩ := tests.shape M h₅
  have settled₀ := h₄.appends ((serves.refines r₀.plan).function ▸ opened)
  have size₄ := opened.ext.size_le
  have size₅ := Nat.le_trans size₄ tests.values
  have size₆ := Nat.le_trans size₅ q₆.values_le
  rw [GenState.place_start tests.empty] at shape
  rw [GenState.exit_open open₇, GenState.place_start empty₇]
  exact ⟨s₀.place b₀, condBlock, bodyBlock, postBlock, endBlock, n, _, _, n₂, z₂, _,
    shaped₀ M settled₀, a₀.values_le, ⟨exit.code.trans (opened.codeOf b₀), exit.leaves⟩,
    Nat.le_trans size₄ le, ⟨plain, plainBody, plainEnd, v, z, cond, branch⟩, size₅, shape, fallsOn,
    plainPost, Nat.le_trans size₆ le₂, post, back, Nat.le_trans size₆ size₇, rfl⟩

/-- A branch of a conditional was passed, and the builder stands at the block `c`, in which there
is nothing yet. -/
structure Branched (mc : MethodContext) (F : Module → Shape.Flow) (s : GenState Builder)
    (b d : BlockId) (fell : Bool) (s' : GenState Builder) (c : BlockId) : Prop where
  isOpen : s'.target.module.terminator? c = none
  empty : s'.target.module.codeOf c = []
  shape : ∀ M, s'.target.module.Settles mc.function c M →
    s.target.module.Settles mc.function b M ∧ Shape.Plain M c ∧
      ∃ z, F M (s.place b) z ∧ Shape.Falls M z d ∧ (fell = false ↔ z = none)

/-- A branch of a conditional, the way to its end, and on to a block that waits. -/
theorem ends_branch_flow {β : Type} {body : Gen Builder Unit} {F : Module → Shape.Flow}
    {d : BlockId} {k : Bool → Gen Builder β} {R : β → GenState Builder → Prop}
    (r : Reached False p₀ s₀ b₀ p s b (c :: rest)) (isOpen : s.target.module.terminator? b = none)
    (setting : Setting mc entry scopes loops p₀ s₀ b₀)
    (codes : CodesFlow mc entry scopes loops body F) (waits : d ∈ c :: rest)
    (next : ∀ fell p' s', Reached False p₀ s₀ b₀ p' s' c rest → Branched mc F s b d fell s' c →
      Ends (k fell) s' R (Refusal False)) :
    Ends (do
      body
      let fell ← branchIfOpen d
      emit (.positionAtEnd c)
      k fell) s R (Refusal False) := by
  refine ends_bind (ends_body_flow r isOpen setting codes) ?_
  rintro _ s₁ ⟨p₁, b₁, -, r₁, shaped₁⟩
  refine ends_bind (ends_falls r₁ setting.serves (r₁.joinable waits)
    (r₁.waiting d waits).2.2) ?_
  rintro fell s₂ ⟨r₂, closed₂, -, fell₂, falls₂⟩
  refine ends_bind (ends_moves r₂ setting.serves closed₂) ?_
  rintro _ s₃ ⟨r₃, moved₃⟩
  refine next fell p₁ s₃ r₃ ⟨moved₃.isOpen, moved₃.empty, fun M h => ?_⟩
  obtain ⟨h₂, plain⟩ := moved₃.settles M h
  obtain ⟨h₁, falls⟩ := falls₂ M h₂
  obtain ⟨h₀, shape⟩ := shaped₁ M h₁
  exact ⟨h₀, plain, _, shape, falls, fell₂⟩

theorem codesFlow_conditional {e : Expr} {thenBody elseBody : Gen Builder Unit}
    {T F : Module → Shape.Flow}
    (structured : Completes False mc scopes false (conditional mc e thenBody elseBody))
    (first : CodesFlow mc entry scopes loops thenBody T)
    (second : CodesFlow mc entry scopes loops elseBody F) :
    CodesFlow mc entry scopes loops (conditional mc e thenBody elseBody)
      fun M => Shape.conditional M (Shape.value M scopes e) (T M) (F M) := by
  refine .of_completes structured ?_
  intro p s b setting isOpen
  have serves := setting.serves
  refine ends_bind (ends_appendBlock (.refl setting.site) serves _) ?_
  rintro condBlock s₁ ⟨r₁, new₁⟩
  refine ends_bind (ends_appendBlock r₁ (serves.refines r₁.plan) _) ?_
  rintro thenBlock s₂ ⟨r₂, new₂⟩
  refine ends_bind (ends_appendBlock r₂ (serves.refines r₂.plan) _) ?_
  rintro elseBlock s₃ ⟨r₃, new₃⟩
  refine ends_bind (ends_appendBlock r₃ (serves.refines r₃.plan) _) ?_
  rintro endBlock s₄ ⟨r₄, new₄⟩
  have r₄ : Reached False p s b _ s₄ b [condBlock, thenBlock, elseBlock, endBlock] := r₄
  have opened : s.target.module.Appends p.function s₄.target.module :=
    .append (.append (.append (.append .refl new₁) new₂) new₃) new₄
  have open₄ := (opened.terminator? b).trans isOpen
  refine (ends_test_shape (R := fun _ s' => ∃ b', s'.target.insertion = some b' ∧
    ∀ M, s'.target.module.Settles mc.function b' M → Shape.conditional M
      (Shape.value M scopes e) (T M) (F M) (s.place b) (s'.exit b')) r₄ open₄ serves
    setting.scopes (y := elseBlock) (by simp) ?_).lax
  rintro p₅ s₅ tested tests
  refine ends_branch_flow tested.reached tested.isOpen setting first (d := endBlock) (by simp) ?_
  rintro thenFalls p₆ s₆ r₆ thenBranch
  refine ends_branch_flow r₆ thenBranch.isOpen setting second (by simp) ?_
  rintro elseFalls p₇ s₇ r₇ elseBranch
  -- what is known of both branches when building goes on after them
  have shaped (M : Module) (h : s₇.target.module.Settles mc.function endBlock M)
      {z : Option Place} (end_ : z = if thenFalls = false ∧ elseFalls = false then none
        else some (.start endBlock s₇.target.module.values.size)) :
      Shape.conditional M (Shape.value M scopes e) (T M) (F M) (s.place b) z := by
    obtain ⟨h₆, plainEnd, z₂, elseShape, elseEnd, elseFell⟩ := elseBranch.shape M h
    obtain ⟨h₅, plainElse, z₁, thenShape, thenEnd, thenFell⟩ := thenBranch.shape M h₆
    obtain ⟨h₄, exit, plain, plainThen, n, le, v, z, cond, branch⟩ := tests.shape M h₅
    rw [GenState.place_start tests.empty] at thenShape
    rw [GenState.place_start thenBranch.empty] at elseShape
    refine ⟨condBlock, thenBlock, elseBlock, endBlock, n, _, z₁, _, z₂, _,
      ⟨exit.code.trans (opened.codeOf b), exit.leaves⟩, Nat.le_trans r₄.values_le le,
      ⟨plain, plainThen, plainElse, v, z, cond, branch⟩, tested.reached.values_le, thenShape,
      thenEnd, r₆.values_le, elseShape, elseEnd, plainEnd, r₇.values_le, ?_⟩
    simp only [end_, thenFell, elseFell, Option.isNone_iff_eq_none]
  by_cases neither : thenFalls = false ∧ elseFalls = false
  · obtain ⟨rfl, rfl⟩ := neither
    refine (ends_emit_terminator ((serves.refines r₇.plan).function ▸
      r₇.site.stands elseBranch.isOpen) .unreachable).imp ?_
    rintro _ s₈ ⟨here, closed, exits⟩
    refine ⟨endBlock, here, fun M h => ?_⟩
    rw [GenState.exit_closed (by simp [closed])]
    exact shaped M (exits M h).1 rfl
  · have falls : (thenFalls || elseFalls) = true := by
      revert neither
      cases thenFalls <;> cases elseFalls <;> simp
    rw [falls]
    refine ends_pure ⟨endBlock, r₇.site.here, fun M h => shaped M h ?_⟩
    rw [if_neg neither, GenState.exit_open elseBranch.isOpen,
      GenState.place_start elseBranch.empty]

/-- After control has left nothing is done. -/
theorem ends_stmts_closed (site : Site False p s b)
    (closed : s.target.module.terminator? b ≠ none) (ss : List Stmt) {E : CompileError → Prop} :
    Ends (stmts mc ss) s (fun _ s' => s' = s) E := by
  cases ss with
  | nil =>
    rw [stmts]
    exact ends_pure rfl
  | cons st ss =>
    rw [stmts]
    apply ends_isTerminated
    rw [show Target.isTerminated s.target = _ from site.isTerminated,
      Option.isSome_iff_ne_none.2 closed]
    exact ends_pure rfl

theorem codesFlow_sequence {st : Stmt} {ss : List Stmt} {F G : Module → Shape.Flow}
    (first : CodesFlow mc entry scopes loops (stmt mc st) F)
    (others : CodesFlow mc entry scopes loops (stmts mc ss) G) :
    CodesFlow mc entry scopes loops (stmts mc (st :: ss))
      fun M => Shape.sequence (F M) (G M) := by
  intro p s b setting isOpen
  rw [stmts]
  apply ends_isTerminated
  rw [show Target.isTerminated s.target = _ from setting.site.isTerminated, isOpen]
  refine ends_bind (first p s b setting isOpen) ?_
  rintro _ s₁ ⟨p₁, b₁, r₁, shaped₁⟩
  have setting₁ := setting.next r₁
  cases open₁ : s₁.target.module.terminator? b₁ with
  | some t =>
    refine (ends_stmts_closed r₁.site (by simp [open₁]) ss).imp ?_
    rintro _ _ rfl
    refine ⟨p₁, b₁, r₁, fun M h => ⟨_, shaped₁ M h, ?_⟩⟩
    rw [GenState.exit_closed (by simp [open₁])]
  | none =>
    refine (others p₁ s₁ b₁ setting₁ open₁).imp ?_
    rintro _ s₂ ⟨p₂, b₂, r₂, shaped₂⟩
    refine ⟨p₂, b₂, r₁.next r₂, fun M h =>
      ⟨_, shaped₁ M (r₂.settles open₁ setting₁.serves.function h), ?_⟩⟩
    rw [GenState.exit_open open₁]
    exact ⟨r₁.values_le, shaped₂ M h⟩

/-- A block begins with its variables. -/
theorem codesFlow_mk {vars : List VarDecl} {body : List Stmt}
    {F : ScopeStack → Module → Shape.Flow}
    (codes : ∀ scopes, CodesFlow mc entry scopes loops (stmts mc body) (F scopes)) :
    CodesFlow mc entry scopes loops (block mc (.mk vars body)) fun M =>
      Shape.inScope M entry vars (fun inner => F inner M) scopes := by
  refine .of_completes (completes_mk False.elim fun inner _ =>
    completesFrom_stmts False.elim body inner false False.elim False.elim) ?_
  intro p s b setting isOpen
  have function := setting.serves.function
  have first := setting.entry
  rw [block]
  refine ends_inScope (ends_bind (ends_declareLocals_shape vars
    (Site.rescope setting.site setting.site.scopes.push) isOpen (by simp [ScopeStack.push])) ?_)
  rintro _ s₁ ⟨d, declared⟩
  refine ((codes s₁.scopes p s₁ b ⟨d.site, setting.serves, first, rfl,
    d.advances.reached.loops.trans setting.loops⟩ d.advances.isOpen)).lax.imp ?_
  rintro _ s₂ ⟨p₂, b₂, q, shaped⟩
  refine ⟨b₂, q.site.here, fun M h => ?_⟩
  have h₁ := q.settles d.advances.isOpen function h
  rw [function, first] at declared
  have inner := declared M h₁
  rw [← setting.scopes]
  exact ⟨s₁.scopes, _, inner, d.advances.reached.values_le, shaped M h⟩

mutual

/-- Code for a statement has its shape. -/
theorem codesFlow_stmt : ∀ (st : Stmt) (loops : LoopStack) (scopes : ScopeStack),
    CodesFlow mc entry scopes loops (stmt mc st)
      fun M => Shape.stmt M entry mc.ret st loops scopes
  | .block body, loops, scopes => by
    simp only [stmt, Shape.stmt]
    exact codesFlow_block body loops scopes
  | .ifElse cond thenBlock elseBlock line, loops, scopes => by
    have structured : Completes False mc scopes false
        (stmt mc (.ifElse cond thenBlock elseBlock line)) :=
      completes_stmt False.elim _ scopes false False.elim False.elim
    simp only [stmt, Shape.stmt] at structured ⊢
    exact codesFlow_conditional structured (codesFlow_block thenBlock loops scopes)
      (codesFlow_optionalBlock elseBlock loops scopes)
  | .while cond body line, loops, scopes => by
    simp only [stmt, Shape.stmt]
    exact codesFlow_whileLoop (completes_block False.elim body scopes true False.elim False.elim)
      fun targets => codesFlow_block body (loops.push targets) scopes
  | .for init cond step body line, loops, scopes => by
    simp only [stmt, Shape.stmt]
    exact codesFlow_forLoop (completes_block False.elim body scopes true False.elim False.elim)
      fun targets => codesFlow_block body (loops.push targets) scopes
  | .return result line, loops, scopes => by
    simp only [stmt, Shape.stmt]
    exact codesFlow_returnStmt result line
  | .jump kind line, loops, scopes => by
    simp only [stmt, Shape.stmt]
    exact codesFlow_jumpStmt kind line
  | .assign a, loops, scopes => by
    simp only [stmt, Shape.stmt]
    exact (codesStep_assignment a).flow
  | .call callee args line, loops, scopes => by
    simp only [stmt, Shape.stmt]
    intro p s b setting isOpen
    refine ends_bind (codesResult_expr (.call callee args line) p s b setting.site isOpen
      setting.serves setting.scopes) ?_
    rintro r s₁ ⟨p₁, b₁, a₁, -, shaped⟩
    exact ends_pure ⟨p₁, b₁, a₁.reached, fun M h =>
      ⟨r, _, shaped M h, GenState.exit_open a₁.isOpen⟩⟩

theorem codesFlow_stmts : ∀ (ss : List Stmt) (loops : LoopStack) (scopes : ScopeStack),
    CodesFlow mc entry scopes loops (stmts mc ss)
      fun M => Shape.stmts M entry mc.ret ss loops scopes
  | [], loops, scopes => fun p s b setting isOpen => by
    rw [stmts]
    simp only [Shape.stmts]
    exact ends_pure ⟨p, b, .refl setting.site, fun M h => GenState.exit_open isOpen⟩
  | st :: ss, loops, scopes => by
    simp only [Shape.stmts]
    exact codesFlow_sequence (codesFlow_stmt st loops scopes) (codesFlow_stmts ss loops scopes)

theorem codesFlow_block : ∀ (body : Block) (loops : LoopStack) (scopes : ScopeStack),
    CodesFlow mc entry scopes loops (block mc body)
      fun M => Shape.block M entry mc.ret body loops scopes
  | .mk vars body, loops, scopes => by
    simp only [Shape.block]
    exact codesFlow_mk fun inner => codesFlow_stmts body loops inner

theorem codesFlow_optionalBlock : ∀ (body : Option Block) (loops : LoopStack)
    (scopes : ScopeStack), CodesFlow mc entry scopes loops (optionalBlock mc body)
      fun M => Shape.optionalBlock M entry mc.ret body loops scopes
  | none, loops, scopes => fun p s b setting isOpen => by
    rw [optionalBlock]
    simp only [Shape.optionalBlock]
    exact ends_pure ⟨p, b, .refl setting.site, fun M h => GenState.exit_open isOpen⟩
  | some body, loops, scopes => by
    simp only [optionalBlock, Shape.optionalBlock]
    exact codesFlow_block body loops scopes

end

end

end Gen

end Decaf
