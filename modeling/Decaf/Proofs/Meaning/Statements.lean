import Decaf.Proofs.Meaning.Assignments

/-!
# Statements

Code for a statement leads to where the evaluation goes: to the place after it, to the target
of a jump, or to the end of the call.
-/

namespace Decaf.Meaning

open IR Execution

variable {X : Setting}

namespace Activation

variable {A : Activation X} {p : Bindings} {b : Bindings} {outer : List Bindings}
  {locals : Locals} {s : Situation} {a z : Place} {c : Config (List HostCall)}

/-- The innermost scope has a new variable. -/
theorem Stands.add (h : A.Stands ⟨p, b :: outer⟩ locals s a c) {name : String} {d : Descriptor}
    {x : Datum} (kind : d.kind.isVariable = true) {slot : ValueId} {i : Nat} {v : Value}
    (handle : d.handle = .slot slot)
    (fresh : ∀ x ∈ (b :: outer).flatten, x.2.handle ≠ .slot slot)
    (there : A.slots[i]? = some (slot, d.ty.repr))
    (cell : c.world.memory.regions[A.mark + i]? = some #[v]) (represents : Represents X.module x v) :
    A.Stands ⟨p, ((name, d) :: b) :: outer⟩ ((name, ⟨d.ty, x⟩) :: locals) s a c :=
  { h with
    distinct := by
      rw [List.flatten_cons, List.cons_append, ← List.flatten_cons, List.map_cons, List.nodup_cons]
      refine ⟨fun twice => ?_, h.distinct⟩
      obtain ⟨y, hy, same⟩ := List.mem_map.1 twice
      exact fresh y hy (same.trans handle)
    locals := .cons ⟨rfl, kind, rfl, slot, i, v, handle, there, cell, represents⟩ h.locals }

/-- A variable is declared by a store into its slot. -/
theorem Stands.declares (h : A.Stands ⟨p, b :: outer⟩ locals s a c) {name : String} {d : Descriptor}
    {slot v : ValueId} {x : Datum} {y : Value} (kind : d.kind.isVariable = true)
    (declares : Shape.Declares X.module A.plan.entry ⟨p, b :: outer⟩ a name d slot v z)
    (value : operand X.module c.frame.values v = .ok y) (represents : Represents X.module x y) :
    ∃ c', X.machine.after 1 c = .running c' ∧
      A.Stands ⟨p, ((name, d) :: b) :: outer⟩ ((name, ⟨d.ty, x⟩) :: locals) s z c' ∧
      c'.frame.values = c.frame.values := by
  obtain ⟨i, there⟩ := List.getElem?_of_mem declares.reserved
  obtain ⟨post, running⟩ := h.running
  obtain ⟨cells, at_, size, -⟩ := (running.active.slots i _ there).2
  obtain ⟨old, rfl⟩ := Array.size_eq_one_iff.1 size
  rw [h.mark] at at_
  have above := A.above
  have absent : .slot slot ∉ ((b :: outer).flatten).map (·.2.handle) := fun mem => by
    obtain ⟨y, hy, same⟩ := List.mem_map.1 mem
    exact declares.fresh y hy same
  obtain ⟨c', running', stands, values, memory⟩ := h.store declares.store
    (storeTarget_start value (h.operand_slot there) at_) (.inr (Nat.le_add_right ..))
    (h.holds.congr X.linked (fun r below =>
      regions_set_of_ne (c := ⟨A.mark + i, 0⟩) (show r ≠ A.mark + i by omega)) rfl)
    (binds_set_of_not_mem h.locals there absent y)
  refine ⟨c', running', stands.add kind declares.handle declares.fresh there ?_ represents, values⟩
  rw [memory]
  exact regions_set (c := ⟨A.mark + i, 0⟩) at_

theorem Stands.push {scopes : ScopeStack} (h : A.Stands scopes locals s a c) :
    A.Stands scopes.push locals s a c :=
  { h with }

/-- The variables of a block are gone after it. -/
theorem Stands.leave (h : A.Stands ⟨p, b :: outer⟩ locals s a c) {n : Nat}
    (size : outer.flatten.length = n) :
    A.Stands ⟨p, outer⟩ (locals.drop (locals.length - n)) s a c := by
  have length := h.locals.length_eq
  rw [List.flatten_cons, List.length_append] at length
  have count : locals.length - n = b.length := by omega
  rw [count]
  exact { h with
    distinct := by
      have distinct := h.distinct
      rw [List.flatten_cons, List.map_append, List.nodup_append] at distinct
      exact distinct.2.1
    locals := by
      have left := List.forall₂_drop b.length h.locals
      rwa [List.flatten_cons, List.drop_left] at left }

/-- Variables are declared, and start with zero. -/
theorem Stands.declareLocals : ∀ (vars : List VarDecl) {b : Bindings} {locals : Locals} {a z : Place}
    {c : Config (List HostCall)} {scopes : ScopeStack},
    Shape.declareLocals X.module A.plan.entry vars ⟨p, b :: outer⟩ a scopes z →
    A.Stands ⟨p, b :: outer⟩ locals s a c → ∃ b' n c', scopes = ⟨p, b' :: outer⟩ ∧
      X.machine.after n c = .running c' ∧ A.Stands scopes (locals.declare vars) s z c'
  | [], b, locals, a, z, c, scopes, shape, stands => by
    obtain ⟨rfl, rfl⟩ := shape
    exact ⟨b, 0, c, rfl, rfl, stands⟩
  | var :: vars, b, locals, a, z, c, scopes, shape, stands => by
    rw [Shape.declareLocals] at shape
    rw [Locals.declare]
    cases named : var.name with
    | none =>
      rw [named] at shape
      exact Stands.declareLocals vars shape stands
    | some name =>
      rw [named] at shape
      obtain ⟨slot, k, zero, e, d, value, ⟨stays, ⟨label, constant⟩, -⟩, declares, others⟩ := shape
      obtain ⟨c₁, running₁, stands₁, -⟩ := (stands.stays stays).declares (x := .zero var.ty) rfl
        declares (y := .ofConst k) (by simp [operand, constant]) (represents_zero_const value)
      obtain ⟨b', n, c₂, same, running₂, stands₂⟩ := Stands.declareLocals vars others stands₁
      exact ⟨b', 1 + n, c₂, same, (Machine.after_add running₁ n).trans running₂, stands₂⟩

end Activation

/-- What a method of the type hands over. -/
inductive Handed (m : Module) (ret : Decaf.Ty) : Option Datum → Option Value → Prop where
  | none : ret = .void → Handed m ret none none
  | some {d : Datum} {x : Value} : ret ≠ .void → d.ty = ret → Represents m d x →
      Handed m ret (some d) (some x)

/-- The call in progress is about to end with the result. -/
structure Returns (A : Activation X) (ret : Decaf.Ty) (o : Option Datum) (s : Situation)
    (c : Config (List HostCall)) : Prop where
  result : ∃ x, X.machine.advance c = Machine.actReturn x c.world.tick A.mark A.callers ∧
    Handed X.module ret o x
  below : ∀ r, X.module.globals.size ≤ r → r < A.mark → c.world.memory.regions[r]? = A.below r
  top : A.mark ≤ c.world.memory.mark
  holds : X.Holds s c.world

/-- Where control is after a statement, for which code ends at `z` if control goes on. -/
def Left (A : Activation X) (ret : Decaf.Ty) (loops : LoopStack) (scopes : ScopeStack)
    (z : Option Place) (out : Eval.Signal × Locals) (s : Situation)
    (c : Config (List HostCall)) : Prop :=
  match out.1 with
  | .next => ∃ y, z = some y ∧ A.Stands scopes out.2 s y c
  | .jump kind => ∃ targets, loops.innermost? = some targets ∧
    A.Stands scopes out.2 s (.start (targets.target kind) 0) c
  | .return result => Returns A ret result s c

/-- Code that leads to where the evaluation goes. -/
def Goes (A : Activation X) (rounds : Nat) (ret : Decaf.Ty) (loops : LoopStack)
    (scopes : ScopeStack) (e : Locals → Eval (Eval.Signal × Locals)) (F : Shape.Flow) : Prop :=
  ∀ a z locals s c, F a z → A.Stands scopes locals s a c →
    X.Tracks rounds (e locals) s c (Left A ret loops scopes z)

/-- A condition is decided at the start of a block, and control goes to one of two others. -/
def Decides (A : Activation X) (rounds : Nat) (scopes : ScopeStack) (e : Locals → Eval Bool)
    (cond onTrue onFalse : BlockId) : Prop :=
  ∀ locals s c n, A.Stands scopes locals s (.start cond n) c →
    X.Tracks rounds (e locals) s c fun b s' c' => ∃ c'', X.machine.after 1 c' = .running c'' ∧
      ∀ n, A.Stands scopes locals s' (.start (if b then onTrue else onFalse) n) c''

section

variable {A : Activation X} {rounds : Nat} {ret : Decaf.Ty} {loops : LoopStack}
  {scopes : ScopeStack} {locals : Locals} {s : Situation} {a : Place} {z : Option Place}
  {c : Config (List HostCall)}

theorem Activation.Stands.returns (h : A.Stands scopes locals s a c) {v : Option ValueId}
    {x : Option Value} {o : Option Datum} (exits : Shape.Exits X.module a (.ret v))
    (found : resultOf X.module c.frame.values v = .ok x) (handed : Handed X.module ret o x) :
    Returns A ret o s c where
  result := ⟨x, h.ret exits found, handed⟩
  below := h.below
  top := by
    obtain ⟨-, -, -, top⟩ := h.ended exits
    rw [top, h.mark]
    exact Nat.le_add_right ..
  holds := h.holds

theorem goes_sequence {e e' : Locals → Eval (Eval.Signal × Locals)} {F G : Shape.Flow}
    (first : Goes A rounds ret loops scopes e F) (second : Goes A rounds ret loops scopes e' G) :
    Goes A rounds ret loops scopes (Eval.sequence e e') (Shape.sequence F G) := by
  rintro a z locals s c ⟨y, shape, others⟩ stands
  refine Setting.tracks_bind (first a y locals s c shape stands) ?_
  rintro ⟨signal, locals'⟩ s' c' left
  cases signal with
  | next =>
    obtain ⟨b, rfl, stands'⟩ := left
    exact second b z locals' s' c' others.2 stands'
  | jump kind => exact Setting.tracks_pure left
  | «return» result => exact Setting.tracks_pure left

theorem decides_condition {e : Locals → Eval Datum} {C : Shape.Operand}
    (value : Yields A rounds scopes e C) {cond onTrue onFalse : BlockId} {n : Nat}
    (test : Shape.test X.module C cond onTrue onFalse n) :
    Decides A rounds scopes (fun locals => do Eval.truth (← e locals)) cond onTrue onFalse := by
  obtain ⟨-, plainTrue, plainFalse, v, b, shape, splits⟩ := test
  intro locals s c k stands
  refine Setting.tracks_bind (value _ v b locals s c shape (stands.renumber n)) fun d s' c' y => ?_
  refine Setting.tracks_truth fun x same => ?_
  subst same
  obtain ⟨c'', running, next, -⟩ := y.stands.condBr splits y.carries.bool
    (by cases x <;> assumption) 0
  exact ⟨c'', running, fun n => next.renumber n⟩

/-- Where a part of a statement goes on at a block, the statement does. -/
theorem Left.falls {e : Eval (Eval.Signal × Locals)} {y : Option Place} {b : BlockId} {n : Nat}
    (h : X.Tracks rounds e s c (Left A ret loops scopes y)) (falls : Shape.Falls X.module y b)
    (plain : Shape.Plain X.module b) (on : ∀ p, y = some p → z = some (.start b n)) :
    X.Tracks rounds e s c (Left A ret loops scopes z) := by
  refine h.onward ?_
  rintro ⟨signal, locals'⟩ s' c' left
  cases signal with
  | next =>
    obtain ⟨p, rfl, stands⟩ := left
    obtain ⟨c'', running, stands', -⟩ := stands.br (falls p rfl) plain n
    exact ⟨1, c'', running, _, on p rfl, stands'⟩
  | jump kind => exact ⟨0, c', rfl, left⟩
  | «return» result => exact ⟨0, c', rfl, left⟩

theorem goes_conditional {test : Locals → Eval Datum} {yes no : Locals → Eval (Eval.Signal × Locals)}
    {C : Shape.Operand} {T E : Shape.Flow} (value : Yields A rounds scopes test C)
    (thenPart : Goes A rounds ret loops scopes yes T)
    (elsePart : Goes A rounds ret loops scopes no E) :
    Goes A rounds ret loops scopes
      (Eval.branch (fun locals => do Eval.truth (← test locals)) yes no)
      (Shape.conditional X.module C T E) := by
  rintro a z locals s c ⟨cond, onTrue, onFalse, done, n, n₁, y₁, n₂, y₂, n₃, enters, -, tests, -,
    first, falls₁, -, second, falls₂, plain, -, rfl⟩ stands
  obtain ⟨c₁, running₁, stands₁, -⟩ := stands.br enters tests.1 n
  refine Setting.Tracks.step ?_ running₁
  refine Setting.tracks_bind (decides_condition value tests locals s c₁ n stands₁)
    fun b s₂ c₂ ⟨c₃, running₃, stands₃⟩ => Setting.Tracks.step ?_ running₃
  -- both branches go on at the same block
  cases b with
  | true =>
    refine Left.falls (n := n₃) (thenPart _ y₁ locals s₂ c₃ first (stands₃ n₁)) falls₁ plain ?_
    rintro p rfl
    simp
  | false =>
    refine Left.falls (n := n₃) (elsePart _ y₂ locals s₂ c₃ second (stands₃ n₂)) falls₂ plain ?_
    rintro p rfl
    simp

/-- The passes through a loop. Each takes at least the step from the condition. -/
theorem tracks_loop {test : Locals → Eval Bool} {pass : Locals → Eval (Eval.Signal × Locals)}
    {after : Locals → Eval Locals} {cond body post done : BlockId} {n n₁ : Nat} {B : Shape.Flow}
    {y : Option Place} (decides : Decides A rounds scopes test cond body done)
    (passes : Goes A rounds ret (loops.push ⟨post, done⟩) scopes pass B)
    (shape : B (.start body n₁) y) (falls : Shape.Falls X.module y post)
    (plain : Shape.Plain X.module post)
    (repeats : ∀ locals s c, A.Stands scopes locals s (.start post 0) c →
      X.Tracks rounds (after locals) s c fun locals' s' c' =>
        A.Stands scopes locals' s' (.start cond 0) c') :
    ∀ k ≤ rounds, ∀ locals s c, A.Stands scopes locals s (.start cond 0) c →
      X.Tracks k (Eval.loop test pass after k locals) s c
        (Left A ret loops scopes (some (.start done n)))
  | 0, _, locals, s, c, _ => ⟨0, c, Nat.le_refl _, rfl⟩
  | k + 1, le, locals, s, c, stands => by
    -- the induction is on the rounds left for the loop; what is inside has all of them
    refine Setting.tracks_bind ((decides locals s c 0 stands).weaken le)
      fun b s₁ c₁ ⟨c₂, running₂, stands₂⟩ => Setting.Tracks.after ?_ running₂
    cases b with
    | false => exact Setting.tracks_pure ⟨_, rfl, stands₂ n⟩
    | true =>
      have fewer : k ≤ rounds := Nat.le_of_succ_le le
      have again (locals' : Locals) (s' : Situation) (c' : Config (List HostCall))
          (stands' : A.Stands scopes locals' s' (.start post 0) c') :
          X.Tracks k (after locals' >>= Eval.loop test pass after k) s' c'
            (Left A ret loops scopes (some (.start done n))) :=
        Setting.tracks_bind ((repeats locals' s' c' stands').weaken fewer) fun locals'' s'' c'' =>
          tracks_loop decides passes shape falls plain repeats k fewer locals'' s'' c''
      refine Setting.tracks_bind ((passes _ y locals s₁ c₂ shape (stands₂ n₁)).weaken fewer) ?_
      rintro ⟨signal, locals'⟩ s' c' left
      cases signal with
      | next =>
        obtain ⟨p, rfl, stands'⟩ := left
        obtain ⟨c'', running, next, -⟩ := stands'.br (falls p rfl) plain 0
        exact (again locals' s' c'' next).step running
      | jump kind =>
        obtain ⟨targets, same, stands'⟩ := left
        obtain rfl := Option.some.inj same
        cases kind with
        | «continue» => exact again locals' s' c' stands'
        | «break» => exact Setting.tracks_pure ⟨_, rfl, stands'.renumber n⟩
      | «return» result => exact Setting.tracks_pure left

theorem goes_while {test : Locals → Eval Datum} {pass : Locals → Eval (Eval.Signal × Locals)}
    {C : Shape.Operand} {B : LoopTargets → Shape.Flow} (value : Yields A rounds scopes test C)
    (passes : ∀ targets, Shape.Plain X.module targets.onContinue →
      Shape.Plain X.module targets.onBreak →
      Goes A rounds ret (loops.push targets) scopes pass (B targets)) :
    Goes A rounds ret loops scopes
      (Eval.loop (fun locals => do Eval.truth (← test locals)) pass pure rounds)
      (Shape.whileLoop X.module C B) := by
  rintro a z locals s c ⟨cond, body, done, n, n₁, y, n₂, enters, -, tests, -, shape, falls, -, rfl⟩
    stands
  obtain ⟨c₁, running₁, stands₁, -⟩ := stands.br enters tests.1 0
  refine Setting.Tracks.step ?_ running₁
  exact tracks_loop (decides_condition value tests) (passes ⟨cond, done⟩ tests.1 tests.2.2.1) shape
    falls tests.1 (fun locals' s' c' stands' => Setting.tracks_pure stands') rounds (Nat.le_refl _)
    locals s c₁ stands₁

theorem goes_for {init step : Locals → Eval Locals} {test : Locals → Eval Datum}
    {pass : Locals → Eval (Eval.Signal × Locals)} {I S : Shape.Step} {C : Shape.Operand}
    {B : LoopTargets → Shape.Flow} (inits : Assigns A rounds scopes init I)
    (value : Yields A rounds scopes test C) (steps : Assigns A rounds scopes step S)
    (passes : ∀ targets, Shape.Plain X.module targets.onContinue →
      Shape.Plain X.module targets.onBreak →
      Goes A rounds ret (loops.push targets) scopes pass (B targets)) :
    Goes A rounds ret loops scopes
      (fun locals => do
        Eval.loop (fun locals => do Eval.truth (← test locals)) pass step rounds (← init locals))
      (Shape.forLoop X.module I C S B) := by
  rintro a z locals s c ⟨b, cond, body, post, done, n, n₁, y, n₂, e, n₃, first, -, enters, -, tests,
    -, shape, falls, plain, -, last, back, -, rfl⟩ stands
  refine Setting.tracks_bind (inits a b locals s c first stands) fun locals₁ s₁ c₁ stands₁ => ?_
  obtain ⟨c₂, running₂, stands₂, -⟩ := stands₁.br enters tests.1 0
  refine Setting.Tracks.step ?_ running₂
  refine tracks_loop (decides_condition value tests) (passes ⟨post, done⟩ plain tests.2.2.1) shape
    falls plain (fun locals' s' c' stands' => ?_) rounds (Nat.le_refl _) locals₁ s₁ c₂ stands₂
  refine (steps _ e locals' s' c' last (stands'.renumber n₂)).onward fun locals'' s'' c'' there => ?_
  obtain ⟨c₃, running₃, stands₃, -⟩ := there.br back tests.1 0
  exact ⟨1, c₃, running₃, stands₃⟩

/-- The targets of the innermost loop begin with no phi. -/
def Aimed (m : Module) (loops : LoopStack) : Prop :=
  ∀ t, loops.innermost? = some t → Shape.Plain m t.onContinue ∧ Shape.Plain m t.onBreak

theorem aimed_push {m : Module} {targets : LoopTargets}
    (onContinue : Shape.Plain m targets.onContinue) (onBreak : Shape.Plain m targets.onBreak) :
    Aimed m (loops.push targets) := by
  rintro t same
  obtain rfl := Option.some.inj same
  exact ⟨onContinue, onBreak⟩

theorem goes_jump (kind : Jump) (aimed : Aimed X.module loops) :
    Goes A rounds ret loops scopes
      (fun locals => pure (if loops.innermost?.isSome then .jump kind else .next, locals))
      (Shape.jumpStmt X.module loops kind) := by
  intro a z locals s c shape stands
  rw [Shape.jumpStmt] at shape
  cases innermost : loops.innermost? with
  | none =>
    rw [innermost] at shape
    exact Setting.tracks_pure ⟨a, shape, stands⟩
  | some t =>
    rw [innermost] at shape
    have plain : Shape.Plain X.module (t.target kind) := by
      cases kind with
      | «break» => exact (aimed t innermost).2
      | «continue» => exact (aimed t innermost).1
    obtain ⟨c', running, stands', -⟩ := stands.br shape.2 plain 0
    exact (Setting.tracks_pure ⟨t, innermost, stands'⟩).step running

theorem returns_default (nonvoid : ret ≠ .void) (shape : Shape.returnDefault X.module ret a z)
    (stands : A.Stands scopes locals s a c) : Returns A ret (some (.default ret)) s c := by
  obtain ⟨-, k, v, b, value, ⟨stays, ⟨name, constant⟩, -⟩, exits⟩ := shape
  obtain ⟨represents, type⟩ := represents_default (m := X.module) value
  have found : resultOf X.module c.frame.values (some v) = .ok (some (.ofConst k)) := by
    simp [resultOf, operand, constant, Except.map]
  exact (stands.stays stays).returns exits found (.some nonvoid type represents)

theorem goes_return {call : Eval.Callee → List Datum → Eval (Option Datum)}
    (follows : Follows X rounds call) (result : Option Expr) :
    Goes A rounds ret loops scopes (Eval.returned X.source call ret result)
      (Shape.returnStmt X.module scopes ret result) := by
  intro a z locals s c shape stands
  cases result with
  | none =>
    rw [Shape.returnStmt] at shape
    refine Setting.tracks_pure ?_
    by_cases void : ret = .void
    · rw [if_pos void] at shape
      simp only [if_pos void]
      exact stands.returns shape.2 rfl (.none void)
    · rw [if_neg void] at shape
      simp only [if_neg void]
      exact returns_default void shape stands
  | some e =>
    obtain ⟨-, nonvoid, v, b, w, k, value, le, coerces, exits⟩ := shape
    simp only [Eval.returned, if_neg nonvoid]
    refine Setting.tracks_bind (yields_value follows e a v b locals s c value stands)
      fun d s₁ c₁ y₁ => ?_
    refine tracks_convert y₁ coerces le fun d' c₂ type y₂ => Setting.tracks_pure ?_
    obtain ⟨x, there, represents⟩ := y₂.carries.value
    have found : resultOf X.module c₂.frame.values (some w) = .ok (some x) := by
      simp [resultOf, there, Except.map]
    exact y₂.stands.returns exits found (.some nonvoid type represents)

/-- A block, in a scope of its own. -/
theorem goes_inScope {vars : List VarDecl} {body : Locals → Eval (Eval.Signal × Locals)}
    {F : ScopeStack → Shape.Flow} (goes : ∀ inner, Goes A rounds ret loops inner body (F inner)) :
    Goes A rounds ret loops scopes (Eval.inBlock vars body)
      (Shape.inScope X.module A.plan.entry vars F scopes) := by
  rintro a z locals s c ⟨inner, e, shape, -, inside⟩ stands
  obtain ⟨b, n, c₁, rfl, running₁, stands₁⟩ :=
    Activation.Stands.declareLocals vars shape stands.push
  refine Setting.Tracks.step ?_ running₁
  refine Setting.tracks_bind (goes _ e z _ s c₁ inside stands₁) ?_
  rintro ⟨signal, after⟩ s' c' left
  refine Setting.tracks_pure ?_
  have size : scopes.inner.flatten.length = locals.length := stands.locals.length_eq
  cases signal with
  | next =>
    obtain ⟨y, rfl, stands'⟩ := left
    exact ⟨y, rfl, stands'.leave size⟩
  | jump kind =>
    obtain ⟨targets, innermost, stands'⟩ := left
    exact ⟨targets, innermost, stands'.leave size⟩
  | «return» result => exact left

section Calls

variable {call : Eval.Callee → List Datum → Eval (Option Datum)}

mutual

theorem goes_stmt (follows : Follows X rounds call) : ∀ (x : Stmt) (loops : LoopStack)
    (scopes : ScopeStack), Aimed X.module loops →
    Goes A rounds ret loops scopes
      (Eval.stmt X.source call ret rounds loops.innermost?.isSome x)
      (Shape.stmt X.module A.plan.entry ret x loops scopes)
  | .block body, loops, scopes, aimed => by
    simp only [Eval.stmt, Shape.stmt]
    exact goes_block follows body loops scopes aimed
  | .ifElse cond thenBlock elseBlock _, loops, scopes, aimed => by
    simp only [Eval.stmt, Shape.stmt]
    exact goes_conditional (yields_value follows cond)
      (goes_block follows thenBlock loops scopes aimed)
      (goes_optionalBlock follows elseBlock loops scopes aimed)
  | .while cond body _, loops, scopes, aimed => by
    simp only [Eval.stmt, Shape.stmt]
    exact goes_while (yields_value follows cond) fun targets onContinue onBreak =>
      goes_block follows body (loops.push targets) scopes (aimed_push onContinue onBreak)
  | .for init cond step body _, loops, scopes, aimed => by
    simp only [Eval.stmt, Shape.stmt]
    exact goes_for (assigns_assignments follows init) (yields_value follows cond)
      (assigns_assignments follows step) fun targets onContinue onBreak =>
        goes_block follows body (loops.push targets) scopes (aimed_push onContinue onBreak)
  | .return result _, loops, scopes, aimed => by
    simp only [Eval.stmt, Shape.stmt]
    exact goes_return follows result
  | .jump kind _, loops, scopes, aimed => by
    simp only [Eval.stmt, Shape.stmt]
    exact goes_jump kind aimed
  | .assign x, loops, scopes, aimed => by
    simp only [Eval.stmt, Shape.stmt]
    rintro a z locals s c ⟨b, shape, rfl⟩ stands
    exact Setting.tracks_bind (assigns_assignment follows x a b locals s c shape stands)
      fun locals' s' c' stands' => Setting.tracks_pure ⟨b, rfl, stands'⟩
  | .call callee args line, loops, scopes, aimed => by
    simp only [Eval.stmt, Shape.stmt]
    rintro a z locals s c ⟨r, b, shape, rfl⟩ stands
    exact Setting.tracks_bind (gives_expr follows (.call callee args line) a r b locals s c shape
      stands) fun o s' c' given => Setting.tracks_pure ⟨b, rfl, given.stands⟩

theorem goes_stmts (follows : Follows X rounds call) : ∀ (xs : List Stmt) (loops : LoopStack)
    (scopes : ScopeStack), Aimed X.module loops →
    Goes A rounds ret loops scopes
      (Eval.stmts X.source call ret rounds loops.innermost?.isSome xs)
      (Shape.stmts X.module A.plan.entry ret xs loops scopes)
  | [], loops, scopes, aimed => by
    simp only [Eval.stmts, Shape.stmts]
    rintro a z locals s c rfl stands
    exact Setting.tracks_pure ⟨a, rfl, stands⟩
  | x :: xs, loops, scopes, aimed => by
    simp only [Eval.stmts, Shape.stmts]
    exact goes_sequence (goes_stmt follows x loops scopes aimed)
      (goes_stmts follows xs loops scopes aimed)

theorem goes_block (follows : Follows X rounds call) : ∀ (x : Block) (loops : LoopStack)
    (scopes : ScopeStack), Aimed X.module loops →
    Goes A rounds ret loops scopes
      (Eval.block X.source call ret rounds loops.innermost?.isSome x)
      (Shape.block X.module A.plan.entry ret x loops scopes)
  | .mk vars body, loops, scopes, aimed => by
    simp only [Eval.block, Shape.block]
    exact goes_inScope fun inner => goes_stmts follows body loops inner aimed

theorem goes_optionalBlock (follows : Follows X rounds call) : ∀ (x : Option Block)
    (loops : LoopStack) (scopes : ScopeStack), Aimed X.module loops →
    Goes A rounds ret loops scopes
      (Eval.optionalBlock X.source call ret rounds loops.innermost?.isSome x)
      (Shape.optionalBlock X.module A.plan.entry ret x loops scopes)
  | none, loops, scopes, aimed => by
    simp only [Eval.optionalBlock, Shape.optionalBlock]
    rintro a z locals s c rfl stands
    exact Setting.tracks_pure ⟨a, rfl, stands⟩
  | some x, loops, scopes, aimed => by
    simp only [Eval.optionalBlock, Shape.optionalBlock]
    exact goes_block follows x loops scopes aimed

end

end Calls

end

end Decaf.Meaning
