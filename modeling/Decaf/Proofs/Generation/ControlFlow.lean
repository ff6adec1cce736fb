import Decaf.Proofs.Generation.Statements

/-!
# Generating control flow

Conditionals and loops begin with a test: control goes to a block of its own for the
condition and from there to one of two waiting blocks. A block that ends in `unreachable`
closes a conditional of which neither branch comes back; nothing leads to it.
-/

namespace Decaf

open IR

/-- A condition was generated and the builder stands at the block for its true outcome. -/
structure Tested (typed : Prop) (p₀ : Plan) (s₀ : GenState Builder) (b₀ : BlockId) (p : Plan)
    (s : GenState Builder) (cond onTrue onFalse : BlockId) (rest : List BlockId) (p' : Plan)
    (s' : GenState Builder) : Prop where
  reached : Reached typed p₀ s₀ b₀ p' s' onTrue rest
  isOpen : s'.target.module.terminator? onTrue = none
  header : s'.target.module.Header p' (s₀.target.module.there p₀ b₀) cond
  apart : cond ≠ onTrue ∧ cond ∉ rest
  new : s₀.target.module.blocks.size ≤ cond.index
  size : s.target.module.blocks.size ≤ s'.target.module.blocks.size
  unjoined : ∀ c, c ≠ cond → c ≠ onTrue → c ≠ onFalse →
    s₀.target.module.blocks.size ≤ c.index → c.index < s.target.module.blocks.size →
    s.target.module.Unjoined p.function c → s'.target.module.Unjoined p'.function c

/-- A branch was passed and the builder stands at the block `c`. If control does not come back from
the branch, it leads to no block that was there. -/
structure Passed (typed : Prop) (p₀ : Plan) (s₀ : GenState Builder) (b₀ : BlockId) (p : Plan)
    (s : GenState Builder) (c : BlockId) (rest : List BlockId) (fell : Bool) (p' : Plan)
    (s' : GenState Builder) : Prop where
  reached : Reached typed p₀ s₀ b₀ p' s' c rest
  isOpen : s'.target.module.terminator? c = none
  size : s.target.module.blocks.size ≤ s'.target.module.blocks.size
  unjoined : fell = false → ∀ d, d ∉ s₀.loops.blocks → d.index < s.target.module.blocks.size →
    s.target.module.Unjoined p.function d → s'.target.module.Unjoined p'.function d

namespace Gen

section

variable {typed : Prop} {mc : MethodContext} {scopes : ScopeStack} {loop : Bool} {β : Type}

section Test

variable {p₀ p p' : Plan} {s₀ s s₁ s₂ s₃ : GenState Builder} {b₀ b b₂ c x y : BlockId}
  {rest : List BlockId} {v : ValueId} (r : Reached typed p₀ s₀ b₀ p s b (c :: x :: rest))
  (before : Moved typed p₀ s₀ b₀ p s b (.br c) c (x :: rest) s₁)
  (test : Advances typed p s₁ c p' s₂ b₂)
  (after : Moved typed p₀ s₀ b₀ p' s₂ b₂ (.condBr v x y) x rest s₃)

include r before test after

/-- The block before a condition belongs to the function and leads to the condition. -/
theorem mem_successorsOf_test : s₃.target.module.functionOf? b = some p'.function ∧
    c ∈ s₃.target.module.successorsOf b := by
  obtain ⟨-, apart, -⟩ := r.waiting c (by simp)
  have owned₁ : s₁.target.module.functionOf? b = some p.function :=
    (before.edit.owners b).trans r.site.owned
  have held := Module.index_lt_of_functionOf? owned₁
  have kept := (test.reached.grown.keep b held apart.symm).2
  have away : b ≠ b₂ := (test.reached.exit_ne held apart.symm).symm
  constructor
  · rw [test.reached.plan.function, after.edit.owners]
    exact test.reached.grown.ext.blocks _ _ owned₁
  · rw [Module.mem_successorsOf, after.edit.terms, if_neg away, kept, before.closed]
    exact ⟨_, rfl, by simp [Terminator.successors]⟩

/-- Control can be sent to the condition again. -/
theorem header_test : s₃.target.module.Header p' (s₀.target.module.there p₀ b₀) c := by
  obtain ⟨waiting, -, -⟩ := r.waiting c (by simp)
  obtain ⟨owned, edge⟩ := mem_successorsOf_test r before test after
  obtain ⟨more, code, plain⟩ := test.reached.grown.here
  constructor
  case owned =>
    rw [test.reached.plan.function, after.edit.owners]
    exact test.reached.grown.ext.blocks _ _ before.reached.site.owned
  case inner =>
    rw [test.reached.plan.entry]
    exact waiting.inner
  case avail =>
    rw [test.reached.plan.avail c before.reached.site.index_lt]
    exact waiting.avail
  case noPhi =>
    rw [after.edit.code, code, before.empty]
    simpa using plain
  case alive => exact after.reached.site.body.alive_of_edge owned edge

/-- A test sends control to its own blocks only. -/
theorem unjoined_test {d : BlockId} (cond_ne : d ≠ c) (true_ne : d ≠ x) (false_ne : d ≠ y)
    (isOpen : s.target.module.terminator? b = none)
    (new : s₀.target.module.blocks.size ≤ d.index) (held : d.index < s.target.module.blocks.size)
    (free : s.target.module.Unjoined p.function d) :
    s₃.target.module.Unjoined p'.function d := by
  have free₁ := free.edit before.edit (fun _ => isOpen) fun u hu hd => by
    cases hu
    exact cond_ne (by simpa [Terminator.successors] using hd)
  have outside : d ∉ s₁.loops.blocks := by
    rw [before.reached.loops]
    exact r.base.not_target new
  have free₂ := test.reached.unjoined free₁ (before.edit.size ▸ held) outside
  refine free₂.edit after.edit (fun _ => test.isOpen) fun u hu hd => ?_
  cases hu
  rcases List.mem_cons.1 hd with same | hd
  · exact true_ne same
  · exact false_ne (List.mem_singleton.1 hd)

end Test

/-- From the block where the builder stands to the true outcome of a condition. -/
theorem ends_test {p₀ p : Plan} {s₀ s : GenState Builder} {b₀ b c x y : BlockId}
    {rest : List BlockId} {e : Expr} {k : Gen Builder β} {R : β → GenState Builder → Prop}
    (r : Reached typed p₀ s₀ b₀ p s b (c :: x :: rest))
    (isOpen : s.target.module.terminator? b = none) (serves : mc.Serves p₀)
    (here : s₀.scopes = scopes) (type : typed → e.type? scopes.context = some .bool)
    (exit : y ∈ x :: rest)
    (next : ∀ p' s', Tested typed p₀ s₀ b₀ p s c x y rest p' s' → Ends k s' R (Refusal typed)) :
    Ends (do
      branch c
      emit (.positionAtEnd c)
      let v ← value mc e
      emit (.terminate (.condBr v x y))
      emit (.positionAtEnd x)
      k) s R (Refusal typed) := by
  obtain ⟨-, -, new⟩ := r.waiting c (by simp)
  have different : c ≠ x ∧ c ∉ rest := by
    have := (List.nodup_cons.1 r.nodup).1
    simpa only [List.mem_cons, not_or] using this
  refine ends_goOn r isOpen (r.joinable (by simp)).closes_br
    (by simpa [Terminator.successors] using .inr new) fun s₁ before => ?_
  have r₁ := before.reached
  refine ends_bind (leaves_value type (fun _ => Ty.bool_ne_void) p s₁ c r₁.site before.isOpen
    (serves.refines r₁.plan) (r₁.scopes.trans here)) ?_
  rintro v s₂ ⟨p₂, b₂, test, operand⟩
  have r₂ := r₁.next test.reached
  obtain ⟨closes, joins⟩ := r₂.closes_condBr operand List.mem_cons_self exit
  refine ends_goOn r₂ test.isOpen closes joins fun s₃ after => next p₂ s₃ ?_
  exact {
    reached := after.reached
    isOpen := after.isOpen
    header := header_test r before test after
    apart := different
    new := new
    size := by
      rw [after.edit.size, ← before.edit.size]
      exact test.reached.grown.size
    unjoined := fun d cond_ne true_ne false_ne late held free =>
      unjoined_test r before test after cond_ne true_ne false_ne isOpen late held free }

/-- The body of a branch, begun at a block that waited. -/
theorem ends_body {p₀ p : Plan} {s₀ s : GenState Builder} {b₀ b : BlockId}
    {rest : List BlockId} {body : Gen Builder Unit} (r : Reached typed p₀ s₀ b₀ p s b rest)
    (isOpen : s.target.module.terminator? b = none) (serves : mc.Serves p₀)
    (here : s₀.scopes = scopes) (inside : loop = true → s₀.loops.innermost? ≠ none)
    (completes : Completes typed mc scopes loop body) :
    Ends body s (fun _ s' => ∃ p' b', Reached typed p s b p' s' b' [] ∧
      Reached typed p₀ s₀ b₀ p' s' b' rest) (Refusal typed) := by
  refine (completes p s b r.site isOpen (serves.refines r.plan) (r.scopes.trans here)
    (by rw [r.loops]; exact inside)).mono ?_ fun _ h => h
  rintro _ s' ⟨p', b', q⟩
  exact ⟨p', b', q, r.next q⟩

/-- A block to which nothing leads is closed as one that is not reached. -/
theorem ends_unreachable {p₀ p : Plan} {s₀ s : GenState Builder} {b₀ b : BlockId}
    {rest : List BlockId} (r : Reached typed p₀ s₀ b₀ p s b rest)
    (isOpen : s.target.module.terminator? b = none) (inner : b ≠ p.entry)
    (free : s.target.module.Unjoined p.function b) :
    Ends (emit (.terminate .unreachable)) s (fun _ s' => Reached typed p₀ s₀ b₀ p s' b rest)
      (Refusal typed) :=
  (ends_terminate r isOpen (u := .unreachable)
    ⟨trivial, fun _ hd => (by cases hd), fun _ => ⟨inner, free⟩⟩
    fun _ hd => by cases hd).mono (fun _ _ closed => closed.1) fun _ h => h

/-- A branch of a conditional, the way to its end, and on to a block that waits. -/
theorem ends_branch {p₀ p : Plan} {s₀ s : GenState Builder} {b₀ b c d : BlockId}
    {rest : List BlockId} {body : Gen Builder Unit} {k : Bool → Gen Builder β}
    {R : β → GenState Builder → Prop} (r : Reached typed p₀ s₀ b₀ p s b (c :: rest))
    (isOpen : s.target.module.terminator? b = none) (serves : mc.Serves p₀)
    (here : s₀.scopes = scopes) (inside : loop = true → s₀.loops.innermost? ≠ none)
    (completes : Completes typed mc scopes loop body) (waits : d ∈ c :: rest)
    (next : ∀ fell p' s', Passed typed p₀ s₀ b₀ p s c rest fell p' s' →
      Ends (k fell) s' R (Refusal typed)) :
    Ends (do
      body
      let fell ← branchIfOpen d
      emit (.positionAtEnd c)
      k fell) s R (Refusal typed) := by
  refine ends_bind (ends_body r isOpen serves here inside completes) ?_
  rintro _ s₁ ⟨p₁, b₁, q₁, r₁⟩
  refine ends_bind (ends_branchIfOpen r₁ (r₁.joinable waits) (r₁.waiting d waits).2.2) ?_
  rintro fell s₂ ⟨r₂, closed₂, -, e₂, -, stays₂⟩
  refine ends_bind (ends_position r₂ closed₂) ?_
  rintro _ s₃ ⟨r₃, same₃, open₃, -⟩
  refine next fell p₁ s₃ ⟨r₃, open₃, ?_, fun gone x outside held free => ?_⟩
  · rw [same₃, e₂.size]
    exact q₁.grown.size
  · rw [same₃, stays₂ gone]
    exact q₁.unjoined free held (by rw [r.loops]; exact outside)

theorem completes_conditional {e : Expr} {thenBody elseBody : Gen Builder Unit}
    (type : typed → e.type? scopes.context = some .bool)
    (first : Completes typed mc scopes loop thenBody)
    (second : Completes typed mc scopes loop elseBody) :
    Completes typed mc scopes loop (conditional mc e thenBody elseBody) := by
  intro p s b site isOpen serves here inside
  refine ends_bind (ends_appendBlock (.refl site) serves _) ?_
  rintro condBlock s₁ ⟨r₁, new₁⟩
  refine ends_bind (ends_appendBlock r₁ (serves.refines r₁.plan) _) ?_
  rintro thenBlock s₂ ⟨r₂, new₂⟩
  refine ends_bind (ends_appendBlock r₂ (serves.refines r₂.plan) _) ?_
  rintro elseBlock s₃ ⟨r₃, new₃⟩
  refine ends_bind (ends_appendBlock r₃ (serves.refines r₃.plan) _) ?_
  rintro endBlock s₄ ⟨r₄, new₄⟩
  have r₄ : Reached typed p s b _ s₄ b [condBlock, thenBlock, elseBlock, endBlock] := r₄
  have opened : s.target.module.Appends p.function s₄.target.module :=
    .append (.append (.append (.append .refl new₁) new₂) new₃) new₄
  have open₄ := (opened.terminator? b).trans isOpen
  have free₄ := Module.Append.unjoined r₃.site.body new₄
  have nodup := r₄.nodup
  simp only [List.nodup_cons, List.mem_cons, List.not_mem_nil, or_false, not_or] at nodup
  obtain ⟨⟨-, -, cond_end⟩, ⟨then_else, then_end⟩, else_end, -⟩ := nodup
  obtain ⟨waiting, -, after⟩ := r₄.waiting endBlock (by simp)
  have held₄ := Module.index_lt_of_functionOf? waiting.owned
  have outside : endBlock ∉ s.loops.blocks := site.not_target after
  refine ends_test r₄ open₄ serves here type (y := elseBlock) (by simp) ?_
  rintro p₅ s₅ tested
  have free₅ := tested.unjoined endBlock (Ne.symm cond_end) (Ne.symm then_end)
    (Ne.symm else_end) after held₄ free₄
  have held₅ := Nat.lt_of_lt_of_le held₄ tested.size
  refine ends_branch tested.reached tested.isOpen serves here inside first (d := endBlock)
    (by simp) ?_
  rintro thenFalls p₆ s₆ passed₆
  refine ends_branch passed₆.reached passed₆.isOpen serves here inside second (by simp) ?_
  rintro elseFalls p₇ s₇ passed₇
  cases thenFalls with
  | true => exact ends_pure ⟨p₇, endBlock, passed₇.reached⟩
  | false =>
    cases elseFalls with
    | true => exact ends_pure ⟨p₇, endBlock, passed₇.reached⟩
    | false =>
      -- neither branch has come back, so nothing leads to the block after them
      have free₆ := passed₆.unjoined rfl endBlock outside held₅ free₅
      have free₇ := passed₇.unjoined rfl endBlock outside
        (Nat.lt_of_lt_of_le held₅ passed₆.size) free₆
      have inner : endBlock ≠ p₇.entry := by
        rw [passed₇.reached.plan.entry, ← r₄.plan.entry]
        exact waiting.inner
      refine (ends_unreachable passed₇.reached passed₇.isOpen inner free₇).mono ?_ fun _ h => h
      rintro _ s₈ r₈
      exact ⟨p₇, endBlock, r₈⟩

/-- The site at which the body of a loop begins. -/
theorem Site.inLoop {p₀ p : Plan} {s₀ s : GenState Builder} {b₀ b c d : BlockId}
    {rest : List BlockId} (r : Reached typed p₀ s₀ b₀ p s b rest)
    (onContinue : s.target.module.Header p (s₀.target.module.there p₀ b₀) c) (continue_ne : c ≠ b)
    (onBreak : d ∈ rest) : Site typed p { s with loops := s.loops.push ⟨c, d⟩ } b where
  body := r.site.body
  here := r.site.here
  owned := r.site.owned
  scopes := r.site.scopes
  loops x hx := by
    obtain ⟨waiting, break_ne, -⟩ := r.waiting d onBreak
    change x ∈ c :: d :: s.loops.blocks at hx
    rcases List.mem_cons.1 hx with rfl | hx
    · exact ⟨onContinue.joinable r.there, continue_ne⟩
    rcases List.mem_cons.1 hx with rfl | hx
    · exact ⟨waiting.joinable r.there, break_ne⟩
    · exact r.site.loops x hx

/-- The body of a loop, with the targets of its jumps. -/
theorem ends_loopBody {p₀ p : Plan} {s₀ s : GenState Builder} {b₀ b c d : BlockId}
    {rest : List BlockId} {body : Gen Builder Unit} (r : Reached typed p₀ s₀ b₀ p s b rest)
    (isOpen : s.target.module.terminator? b = none) (serves : mc.Serves p₀)
    (here : s₀.scopes = scopes) (onContinue : s.target.module.Header p
      (s₀.target.module.there p₀ b₀) c) (continue_ne : c ≠ b)
    (continue_new : s₀.target.module.blocks.size ≤ c.index) (onBreak : d ∈ rest)
    (completes : Completes typed mc scopes true body) :
    Ends (inLoop ⟨c, d⟩ body) s (fun _ s' => ∃ p' b',
      Reached typed p { s with loops := s.loops.push ⟨c, d⟩ } b p'
        { s' with loops := s.loops.push ⟨c, d⟩ } b' [] ∧
      Reached typed p₀ s₀ b₀ p' s' b' rest) (Refusal typed) := by
  obtain ⟨-, -, break_new⟩ := r.waiting d onBreak
  have blocks : LoopStack.blocks (s.loops.push ⟨c, d⟩) = c :: d :: s.loops.blocks := rfl
  have site := Site.inLoop r onContinue continue_ne onBreak
  refine ends_inLoop ((completes p _ b site isOpen (serves.refines r.plan)
    (r.scopes.trans here) fun _ other => by cases other).mono ?_ fun _ h => h)
  rintro _ ⟨target, outer, loops, warnings⟩ ⟨p', b', q⟩
  obtain rfl : loops = s.loops.push ⟨c, d⟩ := q.loops
  refine ⟨p', b', q, r.trans q rfl (fun x hx => ?_) (fun x hx => ?_) rfl q.scopes rfl⟩
  · rw [show LoopStack.blocks _ = _ from blocks]
    exact List.mem_cons_of_mem _ (List.mem_cons_of_mem _ hx)
  · rw [show LoopStack.blocks _ = _ from blocks] at hx
    rcases List.mem_cons.1 hx with rfl | hx
    · exact .inr continue_new
    rcases List.mem_cons.1 hx with rfl | hx
    · exact .inr break_new
    · exact .inl hx

theorem completes_whileLoop {e : Expr} {body : Gen Builder Unit}
    (type : typed → e.type? scopes.context = some .bool)
    (completes : Completes typed mc scopes true body) :
    Completes typed mc scopes loop (whileLoop mc e body) := by
  intro p s b site isOpen serves here inside
  refine ends_bind (ends_appendBlock (.refl site) serves _) ?_
  rintro condBlock s₁ ⟨r₁, new₁⟩
  refine ends_bind (ends_appendBlock r₁ (serves.refines r₁.plan) _) ?_
  rintro bodyBlock s₂ ⟨r₂, new₂⟩
  refine ends_bind (ends_appendBlock r₂ (serves.refines r₂.plan) _) ?_
  rintro endBlock s₃ ⟨r₃, new₃⟩
  have r₃ : Reached typed p s b _ s₃ b [condBlock, bodyBlock, endBlock] := r₃
  have opened : s.target.module.Appends p.function s₃.target.module :=
    .append (.append (.append .refl new₁) new₂) new₃
  have open₃ := (opened.terminator? b).trans isOpen
  refine ends_test r₃ open₃ serves here type (y := endBlock) (by simp) ?_
  rintro p₄ s₄ tested
  refine ends_bind (ends_loopBody tested.reached tested.isOpen serves here tested.header
    tested.apart.1 tested.new (by simp) completes) ?_
  rintro _ s₅ ⟨p₅, b₅, q₅, r₅⟩
  have header₅ := q₅.header tested.header tested.apart.1
  refine ends_bind (ends_branchIfOpen r₅ (header₅.joinable r₅.there) tested.new) ?_
  rintro falls s₆ ⟨r₆, closed₆, -⟩
  refine (ends_position r₆ closed₆).mono ?_ fun _ h => h
  rintro _ s₇ ⟨r₇, -⟩
  exact ⟨p₅, endBlock, r₇⟩

theorem completes_forLoop {init step : List Assignment} {e : Expr} {body : Gen Builder Unit}
    (before : typed → init.all (Assignment.wellTyped scopes.context) = true)
    (type : typed → e.type? scopes.context = some .bool)
    (after : typed → step.all (Assignment.wellTyped scopes.context) = true)
    (completes : Completes typed mc scopes true body) :
    Completes typed mc scopes loop (forLoop mc init e step body) := by
  intro p s b site isOpen serves here inside
  refine ends_bind (goesOn_assignments init before p s b site isOpen serves here) ?_
  rintro _ s₀ ⟨p₀, b₀, a₀⟩
  have r₀ := a₀.reached
  refine ends_bind (ends_appendBlock r₀ (serves.refines r₀.plan) _) ?_
  rintro condBlock s₁ ⟨r₁, new₁⟩
  refine ends_bind (ends_appendBlock r₁ (serves.refines r₁.plan) _) ?_
  rintro bodyBlock s₂ ⟨r₂, new₂⟩
  refine ends_bind (ends_appendBlock r₂ (serves.refines r₂.plan) _) ?_
  rintro postBlock s₃ ⟨r₃, new₃⟩
  refine ends_bind (ends_appendBlock r₃ (serves.refines r₃.plan) _) ?_
  rintro endBlock s₄ ⟨r₄, new₄⟩
  have r₄ : Reached typed p s b _ s₄ b₀ [condBlock, bodyBlock, postBlock, endBlock] := r₄
  have opened : s₀.target.module.Appends p₀.function s₄.target.module :=
    .append (.append (.append (.append .refl new₁) new₂) new₃) new₄
  have open₄ := (opened.terminator? b₀).trans a₀.isOpen
  refine ends_test r₄ open₄ serves here type (y := endBlock) (by simp) ?_
  rintro p₅ s₅ tested
  have cond_post : condBlock ≠ postBlock := fun same => tested.apart.2 (by simp [same])
  obtain ⟨waiting₅, post_ne, post_new⟩ := tested.reached.waiting postBlock (by simp)
  refine ends_bind (ends_loopBody (d := endBlock) tested.reached tested.isOpen serves here
    waiting₅.header post_ne post_new (by simp) completes) ?_
  rintro _ s₆ ⟨p₆, b₆, q₆, r₆⟩
  have header₆ := q₆.header tested.header tested.apart.1
  have away := q₆.exit_ne (Module.index_lt_of_functionOf? tested.header.owned) tested.apart.1
  refine ends_bind (ends_branchIfOpen r₆ (r₆.joinable (by simp)) post_new) ?_
  rintro falls s₇ ⟨r₇, closed₇, -, e₇, -⟩
  have header₇ := header₆.edit e₇ away.symm
  refine ends_bind (ends_position r₇ closed₇) ?_
  rintro _ s₈ ⟨r₈, same₈, open₈, -⟩
  refine ends_bind (goesOn_assignments step after p₆ s₈ postBlock r₈.site open₈
    (serves.refines r₈.plan) (r₈.scopes.trans here)) ?_
  rintro _ s₉ ⟨p₉, b₉, a₉⟩
  have r₉ := r₈.next a₉.reached
  have header₉ : s₉.target.module.Header p₉ (s.target.module.there p b) condBlock := by
    rw [← same₈] at header₇
    exact a₉.reached.header header₇ cond_post
  refine ends_bind (ends_terminate r₉ a₉.isOpen (header₉.joinable r₉.there).closes_br
    fun d hd => ?_) ?_
  · obtain rfl : d = condBlock := by simpa [Terminator.successors] using hd
    exact .inr tested.new
  rintro _ s₁₀ ⟨r₁₀, -, closed₁₀⟩
  refine (ends_position r₁₀ (by simp [closed₁₀])).mono ?_ fun _ h => h
  rintro _ s₁₁ ⟨r₁₁, -⟩
  exact ⟨p₉, endBlock, r₁₁⟩

/-- Declarations and the statements after them, in a scope of their own. -/
theorem reached_scoped {p p' : Plan} {s s₁ s' : GenState Builder} {b b' : BlockId}
    (site : Site typed p s b)
    (d : Declares typed p { s with scopes := s.scopes.push } b s₁)
    (q : Reached typed p s₁ b p' s' b' []) :
    Reached typed p s b p' { s' with scopes := s'.scopes.pop } b' [] := by
  have declared : Reached typed p s b p { s₁ with scopes := s.scopes } b [] :=
    (Reached.refl site).trans d.advances.reached rfl (fun _ mem => mem) (fun _ mem => .inl mem)
      rfl rfl d.advances.reached.loops
  refine declared.trans q rfl (fun _ mem => mem) (fun _ mem => .inl mem) rfl ?_ q.loops
  show s'.scopes.pop = s.scopes
  rw [show s'.scopes = s₁.scopes from q.scopes, d.outer]
  rfl

/-- As `Completes`, wherever the builder stands: after control has left nothing is done. -/
def CompletesFrom (typed : Prop) (mc : MethodContext) (scopes : ScopeStack) (loop : Bool)
    (g : Gen Builder Unit) : Prop :=
  ∀ p s b, Site typed p s b → mc.Serves p → s.scopes = scopes →
    (loop = true → s.loops.innermost? ≠ none) → Ends g s
      (fun _ s' => ∃ p' b', Reached typed p s b p' s' b' [])
      (Refusal typed)

/-- The scope of a block opens with its variables. -/
theorem completes_mk {vars : List VarDecl} {body : List Stmt}
    (type : typed → (Block.mk vars body).wellTyped mc.ret scopes.context = true)
    (completes : ∀ inner : ScopeStack,
      (typed → Stmt.allWellTyped mc.ret inner.context body = true) →
      CompletesFrom typed mc inner loop (stmts mc body)) :
    Completes typed mc scopes loop (block mc (.mk vars body)) := by
  intro p s b site isOpen serves here inside
  have parts (t : typed) : ∃ Γ, Context.declare? ([] :: scopes.context) vars = some Γ ∧
      Stmt.allWellTyped mc.ret Γ body = true := by
    have := type t
    rw [Block.wellTyped] at this
    split at this
    · exact ⟨_, ‹_›, this⟩
    · cases this
  obtain ⟨Γ, parts⟩ := exists_of_typed [] parts
  rw [block]
  refine ends_inScope (ends_bind (ends_declareLocals vars (Γ := Γ)
    (Site.rescope site site.scopes.push) isOpen (by simp [ScopeStack.push]) fun t => ?_) ?_)
  · have : ScopeStack.context s.scopes.push = [] :: s.scopes.context := rfl
    rw [this, here]
    exact (parts t).1
  rintro _ s₁ ⟨d, context⟩
  refine (completes s₁.scopes (fun t => by rw [context t]; exact (parts t).2) p s₁ b d.site
    serves rfl ?_).mono ?_ fun _ h => h
  · rw [show s₁.loops = s.loops from d.advances.reached.loops]
    exact inside
  · rintro _ s₂ ⟨p₂, b₂, q⟩
    exact ⟨p₂, b₂, reached_scoped site d q⟩

end

section

variable {typed : Prop} {mc : MethodContext}

mutual

theorem completes_stmt (lenient : typed → mc.options.missingReturn = .synthesize) :
    ∀ (st : Stmt) (scopes : ScopeStack) (loop : Bool),
    (typed → st.wellTyped mc.ret scopes.context = true) →
    (typed → st.jumpsInside loop = true) → Completes typed mc scopes loop (stmt mc st)
  | .block body, scopes, loop, type, inside => by
    rw [stmt]
    exact completes_block lenient body scopes loop type inside
  | .ifElse cond thenBlock elseBlock line, scopes, loop, type, inside => by
    have types (t : typed) : cond.type? scopes.context = some .bool ∧
        thenBlock.wellTyped mc.ret scopes.context = true ∧
        Block.optionalWellTyped mc.ret scopes.context elseBlock = true := by
      simpa only [Stmt.wellTyped, Bool.and_eq_true, beq_iff_eq, and_assoc] using type t
    have jumps (t : typed) : thenBlock.jumpsInside loop = true ∧
        Block.optionalJumpsInside loop elseBlock = true := by
      simpa only [Stmt.jumpsInside, Bool.and_eq_true] using inside t
    rw [stmt]
    exact completes_conditional (fun t => (types t).1)
      (completes_block lenient thenBlock scopes loop (fun t => (types t).2.1) fun t => (jumps t).1)
      (completes_optionalBlock lenient elseBlock scopes loop (fun t => (types t).2.2)
        fun t => (jumps t).2)
  | .while cond body line, scopes, loop, type, inside => by
    have types (t : typed) : cond.type? scopes.context = some .bool ∧
        body.wellTyped mc.ret scopes.context = true := by
      simpa only [Stmt.wellTyped, Bool.and_eq_true, beq_iff_eq] using type t
    rw [stmt]
    exact completes_whileLoop (fun t => (types t).1)
      (completes_block lenient body scopes true (fun t => (types t).2) inside)
  | .for init cond step body line, scopes, loop, type, inside => by
    have types (t : typed) : init.all (Assignment.wellTyped scopes.context) = true ∧
        cond.type? scopes.context = some .bool ∧
        step.all (Assignment.wellTyped scopes.context) = true ∧
        body.wellTyped mc.ret scopes.context = true := by
      simpa only [Stmt.wellTyped, Bool.and_eq_true, beq_iff_eq, and_assoc] using type t
    rw [stmt]
    exact completes_forLoop (fun t => (types t).1) (fun t => (types t).2.1)
      (fun t => (types t).2.2.1)
      (completes_block lenient body scopes true (fun t => (types t).2.2.2) inside)
  | .return none line, scopes, loop, _, _ => by
    rw [stmt]
    exact completes_returnStmt none line lenient fun _ _ same => by cases same
  | .return (some e) line, scopes, loop, type, _ => by
    rw [stmt]
    refine completes_returnStmt (some e) line lenient fun t e' he => ?_
    cases he
    simpa only [Stmt.wellTyped, Bool.and_eq_true, bne_iff_ne] using type t
  | .jump kind line, scopes, loop, _, inside => by
    rw [stmt]
    exact completes_jumpStmt kind line inside
  | .assign a, scopes, loop, type, _ => by
    rw [stmt]
    exact (goesOn_assignment a type).completes
  | .call callee args line, scopes, loop, type, _ => by
    rw [stmt]
    obtain ⟨ty, hty⟩ := exists_of_typed .int fun t => Option.isSome_iff_exists.1 (type t)
    intro p s b site isOpen serves here _
    refine ends_bind (mayLeave_expr (.call callee args line) hty p s b site isOpen serves
      here) ?_
    rintro r s₁ ⟨p₁, b₁, a₁, -⟩
    exact ends_pure ⟨p₁, b₁, a₁.reached⟩

theorem completesFrom_stmts (lenient : typed → mc.options.missingReturn = .synthesize) :
    ∀ (ss : List Stmt) (scopes : ScopeStack) (loop : Bool),
    (typed → Stmt.allWellTyped mc.ret scopes.context ss = true) →
    (typed → Stmt.allJumpsInside loop ss = true) →
    CompletesFrom typed mc scopes loop (stmts mc ss)
  | [], scopes, loop, _, _ => by
    intro p s b site serves here _
    rw [stmts]
    exact ends_pure ⟨p, b, .refl site⟩
  | st :: ss, scopes, loop, type, inside => by
    have types (t : typed) : st.wellTyped mc.ret scopes.context = true ∧
        Stmt.allWellTyped mc.ret scopes.context ss = true := by
      simpa only [Stmt.allWellTyped, Bool.and_eq_true] using type t
    have jumps (t : typed) : st.jumpsInside loop = true ∧
        Stmt.allJumpsInside loop ss = true := by
      simpa only [Stmt.allJumpsInside, Bool.and_eq_true] using inside t
    intro p s b site serves here loops
    rw [stmts]
    apply ends_isTerminated
    rw [show Target.isTerminated s.target = _ from site.isTerminated]
    cases isOpen : s.target.module.terminator? b with
    | some u => exact ends_pure ⟨p, b, .refl site⟩
    | none =>
      refine ends_bind (completes_stmt lenient st scopes loop (fun t => (types t).1)
        (fun t => (jumps t).1) p s b site isOpen serves here loops) ?_
      rintro _ s₁ ⟨p₁, b₁, r₁⟩
      refine (completesFrom_stmts lenient ss scopes loop (fun t => (types t).2)
        (fun t => (jumps t).2) p₁ s₁ b₁ r₁.site (serves.refines r₁.plan)
        (r₁.scopes.trans here) (by rw [r₁.loops]; exact loops)).mono ?_ fun _ h => h
      rintro _ s₂ ⟨p₂, b₂, r₂⟩
      exact ⟨p₂, b₂, r₁.next r₂⟩

theorem completes_block (lenient : typed → mc.options.missingReturn = .synthesize) :
    ∀ (body : Block) (scopes : ScopeStack) (loop : Bool),
    (typed → body.wellTyped mc.ret scopes.context = true) →
    (typed → body.jumpsInside loop = true) → Completes typed mc scopes loop (block mc body)
  | .mk _ body, _, loop, type, inside =>
    completes_mk type fun inner types => completesFrom_stmts lenient body inner loop types inside

theorem completes_optionalBlock (lenient : typed → mc.options.missingReturn = .synthesize) :
    ∀ (body : Option Block) (scopes : ScopeStack) (loop : Bool),
    (typed → Block.optionalWellTyped mc.ret scopes.context body = true) →
    (typed → Block.optionalJumpsInside loop body = true) →
    Completes typed mc scopes loop (optionalBlock mc body)
  | none, scopes, loop, _, _ => by
    intro p s b site isOpen serves here _
    rw [optionalBlock]
    exact ends_pure ⟨p, b, .refl site⟩
  | some body, scopes, loop, type, inside => by
    rw [optionalBlock]
    exact completes_block lenient body scopes loop type inside

end

end

end Gen

end Decaf
