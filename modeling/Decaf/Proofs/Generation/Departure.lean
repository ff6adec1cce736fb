import Decaf.Proofs.Generation.Congruence
import Decaf.Proofs.Typing.Scoping

/-!
# Statements at which control leaves

After a `return`, after a jump inside a loop, and after a block or a two-sided conditional in
which control leaves on every path, nothing more of a statement list is compiled. That control
has left is asked of the builder. Here it is read off the syntax: once such a statement has
been compiled the builder is at a block that is closed, whatever was there before.
-/

namespace Decaf

open IR

namespace IR.Builder

/-- Wherever a terminator is put, no instruction can follow it. -/
theorem isTerminated_terminate (b : Builder) (t : Terminator) :
    (b.perform (.terminate t)).2.isTerminated = true := by
  cases here : b.insertion with
  | none => simp [perform, extend, here, isTerminated, record]
  | some c =>
    cases closed : b.isClosed c with
    | true =>
      simp only [perform, extend, here, closed, if_true, isTerminated, record]
      exact closed
    | false =>
      simp only [isClosed] at closed
      split at closed
      · rename_i data there
        simp only [perform, extend_of_open here (by simpa [isClosed, there] using closed),
          isTerminated, isClosed, modifyBlock, here, Module.block?] at there ⊢
        simp [Array.getElem?_modify, there, Block.close]
      · cases closed

end IR.Builder

namespace Gen

section Loops

variable {τ : Type}

/-- Computations do the same in any state that is inside a loop, if there is to be one, and
leave the loops as they found them. -/
structure Alike (loop : Bool) {α : Type} (x y : Gen τ α) : Prop where
  loops : ∀ s, (x.run.run s).2.loops = s.loops
  same : ∀ s, (loop = true → s.loops.loops ≠ []) → x.run.run s = y.run.run s

variable {loop : Bool} {α β : Type}

theorem Alike.refl {x : Gen τ α} (loops : ∀ s, (x.run.run s).2.loops = s.loops) :
    Alike loop x x :=
  ⟨loops, fun _ _ => rfl⟩

theorem Alike.bind {x y : Gen τ α} {f g : α → Gen τ β} (first : Alike loop x y)
    (rest : ∀ a, Alike loop (f a) (g a)) : Alike loop (x >>= f) (y >>= g) := by
  constructor
  · intro s
    have loops := first.loops s
    rw [run_bind]
    rcases hx : x.run.run s with ⟨e | a, s'⟩ <;> rw [hx] at loops
    · exact loops
    · exact ((rest a).loops s').trans loops
  · intro s inside
    have loops := first.loops s
    rw [run_bind, run_bind, ← first.same s inside]
    rcases hx : x.run.run s with ⟨e | a, s'⟩ <;> rw [hx] at loops
    exact (rest a).same s' fun h => by rw [loops]; exact inside h

theorem Alike.inScope {x y : Gen τ α} (h : Alike loop x y) : Alike loop (inScope x) (inScope y) :=
  ⟨fun s => h.loops { s with scopes := s.scopes.push }, fun s inside => by
    rw [run_inScope, run_inScope, h.same { s with scopes := s.scopes.push } inside]⟩

/-- Inside a loop there is one, whether or not there was one outside. -/
theorem Alike.inLoop {inner : Bool} {x y : Gen τ α} (h : Alike inner x y) (targets : LoopTargets) :
    Alike loop (inLoop targets x) (inLoop targets y) := by
  constructor
  · intro s
    have loops := h.loops { s with loops := s.loops.push targets }
    rw [run_inLoop, loops]
    rfl
  · intro s _
    rw [run_inLoop, run_inLoop,
      h.same { s with loops := s.loops.push targets } fun _ => List.cons_ne_nil _ _]

theorem alike_congruence [Target τ] (loop : Bool) (o : Options) :
    Congruence (τ := τ) (Alike loop) o o where
  toPlainCongruence := by
    refine .of_same o (fun reads => .refl fun s => by rw [reads]) Alike.bind
      (fun _ => .refl fun _ => rfl) (fun targets related => related.inLoop targets) fun _ => ?_
    exact .refl fun _ => rfl
  bindName name d := by
    refine .refl fun s => ?_
    rw [bindName, run_bind, run_fromScopes]
    cases s.scopes.bind name d <;> rfl
  inScope related := related.inScope

end Loops

section Leaving

variable {loop : Bool} {m : MethodContext} {α β : Type}

/-- If the computation comes to its end inside a loop, where there is to be one, nothing can
follow what it has built. -/
def Departs (loop : Bool) (x : Gen Builder α) : Prop :=
  ∀ s : GenState Builder, (loop = true → s.loops.loops ≠ []) →
    Ends x s (fun _ s' => s'.target.isTerminated = true) fun _ => True

theorem departs_throw (e : CompileError) : Departs loop (throw e : Gen Builder α) :=
  fun _ _ => ends_throw trivial

theorem departs_terminate (t : Terminator) : Departs loop (emit (.terminate t)) :=
  fun s _ => ends_emit (s.target.isTerminated_terminate t)

theorem Alike.ends {x x' : Gen Builder α} {s : GenState Builder}
    {P : α → GenState Builder → Prop} {E : CompileError → Prop} (plain : Alike loop x x')
    (h : Ends x s P E) : Ends x s (fun a s' => P a s' ∧ s'.loops = s.loops) E := by
  have loops := plain.loops s
  unfold Ends at h ⊢
  split at h
  · rename_i run
    rw [run] at loops
    exact ⟨h, loops⟩
  · exact h

theorem ends_trivial (x : Gen Builder α) (s : GenState Builder) :
    Ends x s (fun _ _ => True) fun _ => True := by
  unfold Ends
  split <;> trivial

theorem Departs.after {x : Gen Builder α} {f : α → Gen Builder β} (plain : Alike loop x x)
    (last : ∀ a, Departs loop (f a)) : Departs loop (x >>= f) := by
  intro s inside
  refine ends_bind (plain.ends (ends_trivial x s)) fun a s' same => ?_
  exact last a s' fun h => by rw [same.2]; exact inside h

theorem Departs.ite {p : Prop} [Decidable p] {x y : Gen Builder α} (pos : Departs loop x)
    (neg : Departs loop y) : Departs loop (if p then x else y) := by
  split
  · exact pos
  · exact neg

theorem Departs.inScope {x : Gen Builder α} (h : Departs loop x) : Departs loop (inScope x) :=
  fun s inside => ends_inScope (h { s with scopes := s.scopes.push } inside)

theorem departs_returnDefault (line : Nat) : Departs loop (returnDefault m line) := by
  rw [returnDefault]
  split
  · exact departs_throw _
  · exact .after (.refl fun _ => rfl) fun _ =>
      .after ((alike_congruence loop m.options).defaultValue _ _) fun _ => departs_terminate _

theorem departs_returnStmt (result : Option Expr) (line : Nat) :
    Departs loop (returnStmt m result line) := by
  cases result with
  | none => exact (departs_terminate _).ite (departs_returnDefault line)
  | some e =>
    exact (departs_throw _).ite (.after ((alike_congruence loop m.options).value (m := m) e)
      fun v => .after ((alike_congruence loop m.options).coerce v _) fun _ => departs_terminate _)

theorem departs_jumpStmt (kind : Jump) (line : Nat) : Departs true (jumpStmt m kind line) := by
  intro s inside
  apply ends_innermostLoop?
  cases loops : s.loops.loops with
  | nil => exact absurd loops (inside rfl)
  | cons targets outer =>
    rw [LoopStack.innermost?, loops]
    exact ends_emit (s.target.isTerminated_terminate _)

/-- Where control has left, nothing more is compiled. -/
theorem run_stmts_of_terminated {s : GenState Builder} (closed : s.target.isTerminated = true)
    (ss : List Stmt) : (stmts m ss).run.run s = (.ok (), s) := by
  cases ss with
  | nil => rw [stmts]; rfl
  | cons st ss =>
    have asked : (isTerminated : Gen Builder Bool).run.run s = (.ok true, s) := by
      rw [← closed]
      rfl
    rw [stmts, run_bind, asked]
    rfl

/-- After a body in which control leaves there is no branch to what comes next. -/
theorem Departs.branchIfOpen {x : Gen Builder Unit} (h : Departs loop x) (plain : Alike loop x x)
    (next : BlockId) {f : Bool → Gen Builder β} (rest : Departs loop (f false)) :
    Departs loop (x >>= fun _ => Gen.branchIfOpen next >>= f) := by
  intro s inside
  refine ends_bind (plain.ends (h s inside)) fun _ s' ⟨closed, loops⟩ => ?_
  have asked : (Gen.branchIfOpen next : Gen Builder Bool).run.run s' = (.ok false, s') := by
    have asked : (isTerminated : Gen Builder Bool).run.run s' = (.ok true, s') := by
      rw [← closed]
      rfl
    rw [Gen.branchIfOpen, run_bind, asked]
    rfl
  rw [Ends, run_bind, asked]
  exact rest s' fun h => by rw [loops]; exact inside h

theorem Departs.conditional (cond : Expr) {T E : Gen Builder Unit} (thenLeaves : Departs loop T)
    (elseLeaves : Departs loop E) (thenPlain : Alike loop T T) (elsePlain : Alike loop E E) :
    Departs loop (conditional m cond T E) := by
  have emits {r : Reply} (c : Command r) : Alike loop (emit c : Gen Builder _) (emit c) :=
    .refl fun _ => rfl
  refine .after (emits _) fun c => .after (emits _) fun t => .after (emits _) fun e => ?_
  refine .after (emits _) fun done => .after (emits _) fun _ => .after (emits _) fun _ => ?_
  refine .after ((alike_congruence loop m.options).value (m := m) cond) fun v => ?_
  refine .after (emits _) fun _ => .after (emits _) fun _ => ?_
  refine thenLeaves.branchIfOpen thenPlain done (.after (emits _) fun _ => ?_)
  refine elseLeaves.branchIfOpen elsePlain done (.after (emits _) fun _ => ?_)
  rw [if_neg (by simp)]
  exact departs_terminate _

theorem Departs.first {st : Stmt} {ss : List Stmt} (h : Departs loop (stmt m st)) :
    Departs loop (stmts m (st :: ss)) := by
  intro s inside
  rw [stmts]
  apply ends_isTerminated
  split
  · rename_i closed
    exact ends_pure closed
  · refine ends_bind (h s inside) fun _ s' closed => ?_
    rw [Ends, run_stmts_of_terminated closed]
    exact closed

theorem Departs.later {st : Stmt} {ss : List Stmt} (h : Departs loop (stmts m ss)) :
    Departs loop (stmts m (st :: ss)) := by
  intro s inside
  rw [stmts]
  apply ends_isTerminated
  split
  · rename_i closed
    exact ends_pure closed
  · exact Departs.after ((alike_congruence loop m.options).blockwise.stmt (m := m) st) (fun _ => h)
      s inside

mutual

/-- A statement that by its syntax leaves its list closes the block it ends in. -/
theorem departs_stmt : ∀ st : Stmt, st.leaves loop = true → Departs loop (stmt m st)
  | .block body, h => by
    simp only [Stmt.leaves] at h
    simp only [stmt]
    exact departs_block body h
  | .ifElse cond thenBlock none line, h => by
    simp [Stmt.leaves, Block.optionalLeaves] at h
  | .ifElse cond thenBlock (some elseBlock) line, h => by
    simp only [Stmt.leaves, Block.optionalLeaves, Bool.and_eq_true] at h
    simp only [stmt, optionalBlock]
    exact .conditional cond (departs_block thenBlock h.1) (departs_block elseBlock h.2)
      ((alike_congruence loop m.options).blockwise.block (m := m) thenBlock)
      ((alike_congruence loop m.options).blockwise.block (m := m) elseBlock)
  | .while .., h => by simp [Stmt.leaves] at h
  | .for .., h => by simp [Stmt.leaves] at h
  | .return result line, _ => by
    simp only [stmt]
    exact departs_returnStmt result line
  | .jump kind line, h => by
    simp only [Stmt.leaves] at h
    subst h
    simp only [stmt]
    exact departs_jumpStmt kind line
  | .assign _, h => by simp [Stmt.leaves] at h
  | .call .., h => by simp [Stmt.leaves] at h

theorem departs_stmts : ∀ ss : List Stmt, Stmt.anyLeaves loop ss = true →
    Departs loop (stmts m ss)
  | [], h => by simp [Stmt.anyLeaves] at h
  | st :: ss, h => by
    simp only [Stmt.anyLeaves, Bool.or_eq_true] at h
    rcases h with h | h
    · exact (departs_stmt st h).first
    · exact (departs_stmts ss h).later

theorem departs_block : ∀ b : Block, b.leaves loop = true → Departs loop (block m b)
  | .mk vars ss, h => by
    simp only [Block.leaves] at h
    simp only [block]
    exact .inScope (.after ((alike_congruence loop m.options).declareLocals vars) fun _ =>
      departs_stmts ss h)

end

end Leaving

end Gen

end Decaf
