import Decaf.Proofs.Generation.Literals

/-!
# Strings of compiled programs

What statements add to the strings depends on which of them are compiled. So where control is has
to be kept track of, as it is for the slots of a method.
-/

namespace Decaf

open IR

namespace Gen

/-- From any place in the function of the first kind, inside the given loops, the computation
comes, unless it fails, to a place of the second kind, and adds the strings of the texts. -/
def Writes {α : Type} (f : FunctionId) (entry : BlockId) (loops : LoopStack) (closed : Bool)
    (waiting : List BlockId) (x : Gen Builder α) (ts : List String) (closed' : Bool)
    (waiting' : List BlockId) : Prop :=
  ∀ k s, s.loops = loops → s.target.Building f entry closed waiting k →
    Ends x s (fun _ s' => (s'.loops = loops ∧
        ∃ k', s'.target.Building f entry closed' waiting' k') ∧
      s'.target.module.strings = s.target.module.strings ++ ts.map utf8) fun _ => True

section

variable {f : FunctionId} {entry c : BlockId} {loops : LoopStack} {closed closed' closed'' : Bool}
  {waiting waiting' waiting'' own : List BlockId} {n : Nat} {ts us : List String} {α β : Type}
  {m : MethodContext}

/-- Places are counted elsewhere. -/
theorem Reserves.writes {x : Gen Builder α}
    (h : Reserves f entry loops closed waiting x n closed' waiting') (spells : Spells x ts) :
    Writes f entry loops closed waiting x ts closed' waiting' := by
  intro k s inside at_
  refine (((h k s inside at_).imp fun _ s' after => ?_).and (spells s))
  exact ⟨after.1, k + n, after.2⟩

theorem Writes.bind {x : Gen Builder α} {g : α → Gen Builder β}
    (first : Writes f entry loops closed waiting x ts closed' waiting')
    (rest : ∀ a, Writes f entry loops closed' waiting' (g a) us closed'' waiting'') :
    Writes f entry loops closed waiting (x >>= g) (ts ++ us) closed'' waiting'' := by
  intro k s inside at_
  refine ends_bind (first k s inside at_) ?_
  rintro a s' ⟨⟨inside', k', at'⟩, same⟩
  refine (rest a k' s' inside' at').imp ?_
  rintro _ s'' ⟨after, same'⟩
  exact ⟨after, by rw [same', same, List.map_append, List.append_assoc]⟩

/-- The first part adds no string. -/
theorem Writes.then {x : Gen Builder α} {g : α → Gen Builder β}
    (first : Writes f entry loops closed waiting x [] closed' waiting')
    (rest : ∀ a, Writes f entry loops closed' waiting' (g a) ts closed'' waiting'') :
    Writes f entry loops closed waiting (x >>= g) ts closed'' waiting'' :=
  first.bind rest

/-- The second part adds no string. -/
theorem Writes.before {x : Gen Builder α} {g : α → Gen Builder β}
    (first : Writes f entry loops closed waiting x ts closed' waiting')
    (rest : ∀ a, Writes f entry loops closed' waiting' (g a) [] closed'' waiting'') :
    Writes f entry loops closed waiting (x >>= g) ts closed'' waiting'' := by
  have both := first.bind rest
  rwa [List.append_nil] at both

theorem writes_position :
    Writes f entry loops closed (c :: waiting) (emit (.positionAtEnd c)) [] false waiting :=
  reserves_position.writes (spells_emit (.positionAtEnd c))

theorem writes_terminate (t : Terminator) :
    Writes f entry loops false waiting (emit (.terminate t)) [] true waiting :=
  (reserves_terminate t).writes (spells_emit (.terminate t))

theorem writes_value (e : Expr) :
    Writes m.function entry loops false waiting (value m e) e.texts false waiting :=
  (reserves_value e).writes (spells_value e)

theorem writes_assignments (as : List Assignment) : Writes m.function entry loops false waiting
    (assignments m as) (as.flatMap (·.texts)) false waiting :=
  (reserves_assignments as).writes (spells_assignments as)

/-- A block is appended to those that wait already. -/
theorem Writes.append (own : List BlockId) {hint : String} {g : BlockId → Gen Builder β}
    (rest : ∀ c, Writes m.function entry loops closed (own ++ c :: waiting) (g c) ts closed'
      waiting') :
    Writes m.function entry loops closed (own ++ waiting) (appendBlock m hint >>= g) ts closed'
      waiting' := by
  intro k s inside at_
  have same := s.target.strings_perform (.appendBlock m.function hint)
  refine ends_bind (P := fun c s' => s'.loops = loops ∧
      s'.target.Building m.function entry closed (own ++ c :: waiting) k ∧
      s'.target.module.strings = s.target.module.strings)
    (ends_emit ⟨inside, at_.append hint, same.trans (List.append_nil _)⟩) ?_
  rintro c s' ⟨inside', at', kept⟩
  rw [← kept]
  exact rest c k s' inside' at'

theorem Writes.ask {g : Bool → Gen Builder β}
    (rest : Writes f entry loops closed waiting (g closed) ts closed' waiting') :
    Writes f entry loops closed waiting (isTerminated >>= g) ts closed' waiting' := by
  intro k s inside at_
  apply ends_isTerminated
  rw [show Target.isTerminated s.target = closed from at_.isTerminated]
  exact rest k s inside at_

/-- The branch is taken if the block is open, and afterwards it is closed. -/
theorem Writes.branch {next : BlockId} {g : Bool → Gen Builder β}
    (rest : Writes f entry loops true waiting (g (!closed)) ts closed' waiting') :
    Writes f entry loops closed waiting (branchIfOpen next >>= g) ts closed' waiting' := by
  rw [branchIfOpen, bind_assoc]
  apply Writes.ask
  cases closed with
  | true => exact rest
  | false =>
    rw [if_neg Bool.false_ne_true, bind_assoc]
    exact (writes_terminate (.br next)).then fun _ => rest

theorem Writes.inScope {x : Gen Builder Unit}
    (h : Writes f entry loops closed waiting x ts closed' waiting') :
    Writes f entry loops closed waiting (inScope x) ts closed' waiting' :=
  fun k _ inside at_ => ends_inScope (h k _ inside at_)

theorem Writes.inLoop {x : Gen Builder Unit} {targets : LoopTargets}
    (h : Writes f entry (loops.push targets) closed waiting x ts closed' waiting') :
    Writes f entry loops closed waiting (inLoop targets x) ts closed' waiting' := by
  intro k s inside at_
  refine ends_inLoop ((h k { s with loops := s.loops.push targets }
    (congrArg (LoopStack.push · targets) inside) at_).imp ?_)
  rintro _ s' ⟨⟨inside', at'⟩, same⟩
  exact ⟨⟨congrArg LoopStack.pop inside', at'⟩, same⟩

/-- The bodies may stand anywhere in the function. -/
theorem Writes.conditional (cond : Expr) {T E : Gen Builder Unit} {thenCloses elseCloses : Bool}
    (first : ∀ waiting, Writes m.function entry loops false waiting T ts thenCloses waiting)
    (second : ∀ waiting, Writes m.function entry loops false waiting E us elseCloses waiting) :
    Writes m.function entry loops false waiting (conditional m cond T E)
      (cond.texts ++ (ts ++ us)) (thenCloses && elseCloses) waiting := by
  refine .append [] fun c => .append [c] fun t => .append [c, t] fun e => ?_
  refine .append [c, t, e] fun done => (writes_terminate _).then fun _ => ?_
  refine writes_position.then fun _ => (writes_value cond).bind fun v => ?_
  refine (writes_terminate _).then fun _ => writes_position.then fun _ => ?_
  refine (first _).bind fun _ => .branch (writes_position.then fun _ => ?_)
  refine (second _).before fun _ => .branch (writes_position.then fun _ => ?_)
  cases thenCloses <;> cases elseCloses
  case true.true => exact writes_terminate .unreachable
  all_goals exact (reserves_pure ()).writes (spells_pure ())

theorem Writes.whileLoop (cond : Expr) {B : Gen Builder Unit}
    (body : ∀ targets waiting,
      Writes m.function entry (loops.push targets) false waiting B ts closed waiting) :
    Writes m.function entry loops false waiting (whileLoop m cond B) (cond.texts ++ ts) false
      waiting := by
  refine .append [] fun c => .append [c] fun start => .append [c, start] fun done => ?_
  refine (writes_terminate _).then fun _ => writes_position.then fun _ => ?_
  refine (writes_value cond).bind fun v => (writes_terminate _).then fun _ => ?_
  refine writes_position.then fun _ => (body _ _).inLoop.before fun _ => ?_
  exact .branch writes_position

theorem Writes.forLoop (init : List Assignment) (cond : Expr) (step : List Assignment)
    {B : Gen Builder Unit} (body : ∀ targets waiting,
      Writes m.function entry (loops.push targets) false waiting B ts closed waiting) :
    Writes m.function entry loops false waiting (forLoop m init cond step B)
      (init.flatMap (·.texts) ++ (cond.texts ++ (ts ++ step.flatMap (·.texts)))) false waiting := by
  refine (writes_assignments init).bind fun _ => .append [] fun c => .append [c] fun start => ?_
  refine .append [c, start] fun post => .append [c, start, post] fun done => ?_
  refine (writes_terminate _).then fun _ => writes_position.then fun _ => ?_
  refine (writes_value cond).bind fun v => (writes_terminate _).then fun _ => ?_
  refine writes_position.then fun _ => (body _ _).inLoop.bind fun _ => ?_
  refine .branch (writes_position.then fun _ => ?_)
  refine (writes_assignments step).before fun _ => (writes_terminate _).then fun _ => ?_
  exact writes_position

mutual

/-- A statement adds a string for each string constant that is compiled with it. -/
theorem writes_stmt {loop : Bool} : ∀ (st : Stmt) (loops : LoopStack) (waiting : List BlockId),
    (loops.loops = [] ↔ loop = false) →
    Writes m.function entry loops false waiting (stmt m st) (st.texts loop) (st.leaves loop) waiting
  | .block body, loops, waiting, inside => by
    simp only [stmt, Stmt.texts, Stmt.leaves]
    exact writes_block body loops waiting inside
  | .ifElse cond thenBlock elseBlock line, loops, waiting, inside => by
    simp only [stmt, Stmt.texts, Stmt.leaves]
    exact .conditional cond (fun waiting => writes_block thenBlock loops waiting inside)
      fun waiting => writes_optionalBlock elseBlock loops waiting inside
  | .while cond body line, loops, waiting, inside => by
    simp only [stmt, Stmt.texts, Stmt.leaves]
    exact .whileLoop cond fun targets waiting =>
      writes_block body (loops.push targets) waiting (by simp [LoopStack.push])
  | .for init cond step body line, loops, waiting, inside => by
    simp only [stmt, Stmt.texts, Stmt.leaves]
    exact .forLoop init cond step fun targets waiting =>
      writes_block body (loops.push targets) waiting (by simp [LoopStack.push])
  | .return none line, loops, waiting, inside => by
    simp only [stmt, Stmt.texts, Stmt.leaves]
    exact (reserves_returnStmt none line).writes (spells_returnStmt none line)
  | .return (some result) line, loops, waiting, inside => by
    simp only [stmt, Stmt.texts, Stmt.leaves]
    exact (reserves_returnStmt (some result) line).writes (spells_returnStmt (some result) line)
  | .jump kind line, loops, waiting, inside => by
    simp only [stmt, Stmt.texts, Stmt.leaves]
    exact (reserves_jumpStmt inside kind line).writes (spells_jumpStmt kind line)
  | .assign a, loops, waiting, inside => by
    simp only [stmt, Stmt.texts, Stmt.leaves]
    exact (reserves_assignment a).writes (spells_assignment a)
  | .call callee args line, loops, waiting, inside => by
    have called : Spells (expr m (.call callee args line)) (Expr.allTexts args) := spells_expr _
    simp only [stmt, Stmt.texts, Stmt.leaves]
    exact ((reserves_expr (.call callee args line) waiting).writes called).before
      fun _ => (reserves_pure ()).writes (spells_pure ())

theorem writes_stmts {loop : Bool} : ∀ (ss : List Stmt) (loops : LoopStack)
    (waiting : List BlockId), (loops.loops = [] ↔ loop = false) →
    Writes m.function entry loops false waiting (stmts m ss) (Stmt.liveTexts loop ss)
      (Stmt.anyLeaves loop ss) waiting
  | [], loops, waiting, inside => by
    simp only [stmts, Stmt.liveTexts, Stmt.anyLeaves]
    exact (reserves_pure ()).writes (spells_pure ())
  | st :: ss, loops, waiting, inside => by
    simp only [stmts, Stmt.liveTexts, Stmt.anyLeaves]
    refine .ask ?_
    rw [if_neg Bool.false_ne_true]
    refine (writes_stmt st loops waiting inside).bind fun _ => ?_
    cases left : st.leaves loop with
    | true =>
      -- nothing of the rest is compiled
      intro k s here at_
      rw [Ends, run_stmts_of_terminated at_.isTerminated]
      exact ⟨⟨here, k, at_⟩, (List.append_nil _).symm⟩
    | false => exact writes_stmts ss loops waiting inside

theorem writes_block {loop : Bool} : ∀ (b : Block) (loops : LoopStack)
    (waiting : List BlockId), (loops.loops = [] ↔ loop = false) →
    Writes m.function entry loops false waiting (block m b) (b.texts loop) (b.leaves loop) waiting
  | .mk vars ss, loops, waiting, inside => by
    simp only [block, Block.texts, Block.leaves]
    exact (((reserves_declareLocals vars).writes (spells_declareLocals vars)).then fun _ =>
      writes_stmts ss loops waiting inside).inScope

theorem writes_optionalBlock {loop : Bool} : ∀ (b : Option Block) (loops : LoopStack)
    (waiting : List BlockId), (loops.loops = [] ↔ loop = false) →
    Writes m.function entry loops false waiting (optionalBlock m b)
      (Block.optionalTexts loop b) (Block.optionalLeaves loop b) waiting
  | none, loops, waiting, inside => by
    simp only [optionalBlock, Block.optionalTexts, Block.optionalLeaves]
    exact (reserves_pure ()).writes (spells_pure ())
  | some b, loops, waiting, inside => by
    simp only [optionalBlock, Block.optionalTexts, Block.optionalLeaves]
    exact writes_block b loops waiting inside

end

end

end Gen

end Decaf
