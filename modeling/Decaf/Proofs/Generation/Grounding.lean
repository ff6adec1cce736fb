import Decaf.IR.History
import Decaf.Proofs.Generation.Programs

/-!
# Grounded builders

In a builder with a history every block, and every issue that was recorded inside a
function, belongs to a function that is there. So a function that is declared next has
neither.
-/

namespace Decaf.IR.Builder

/-- Blocks and issues belong to functions that are there. -/
structure Grounded (b : Builder) : Prop where
  blocks : b.module.Grounded
  issues : ∀ i ∈ b.module.issues, ∀ f, i.1 = some f → f.index < b.module.functions.size

namespace Grounded

variable {b b' : Builder}

/-- Functions may be added as long as blocks keep their owners and no issue is recorded. -/
theorem mono (h : b.Grounded) (size : b.module.functions.size ≤ b'.module.functions.size)
    (owners : ∀ c f, b'.module.functionOf? c = some f → b.module.functionOf? c = some f)
    (issues : b'.module.issues = b.module.issues) : b'.Grounded where
  blocks c f owned := Nat.lt_of_lt_of_le (h.blocks c f (owners c f owned)) size
  issues i hi f hf := by
    rw [issues] at hi
    exact Nat.lt_of_lt_of_le (h.issues i hi f hf) size

theorem pushValue (h : b.Grounded) (info : ValueInfo) : (b.pushValue info).2.Grounded :=
  h.mono (Nat.le_refl _) (fun _ _ owned => owned) rfl

theorem localName (h : b.Grounded) (f : Option FunctionId) (hint : String) :
    (b.localName f hint).2.Grounded := by
  have same := module_localName b f hint
  exact h.mono (Nat.le_of_eq (by rw [same])) (fun c g owned => by rwa [same] at owned)
    (by rw [same])

theorem pushGlobal (h : b.Grounded) (hint : String) (kind : GlobalKind) :
    (b.pushGlobal hint kind).2.Grounded :=
  h.mono (Nat.le_refl _) (fun _ _ owned => owned) rfl

/-- The issue is recorded for the function of the block where the builder stands. -/
theorem record (h : b.Grounded) (issue : EmitIssue) : (b.record issue).Grounded where
  blocks := h.blocks
  issues i hi f hf := by
    rcases Array.mem_push.1 hi with old | rfl
    · exact h.issues i old f hf
    · obtain ⟨c, -, owned⟩ := Option.bind_eq_some_iff.1 hf
      exact h.blocks c f owned

theorem modifyBlock (h : b.Grounded) (block : BlockId) {change : Block → Block}
    (keeps : ∀ d, (change d).function = d.function) : (b.modifyBlock block change).Grounded := by
  refine h.mono (Nat.le_refl _) (fun c f owned => ?_) rfl
  have look : (b.modifyBlock block change).module.block? c =
      if c = block then (b.module.block? c).map change else b.module.block? c :=
    Module.block?_modify ..
  rw [Module.functionOf?, look] at owned
  split at owned
  · rw [Option.map_map] at owned
    rw [Module.functionOf?, ← owned]
    exact congrArg (fun g => Option.map g _) (funext fun d => (keeps d).symm)
  · exact owned

theorem extend (h : b.Grounded) {change : Block → Block}
    (keeps : ∀ d, (change d).function = d.function) : (b.extend change).Grounded := by
  rw [Builder.extend]
  split
  · exact h.record _
  · split
    · exact h.record _
    · exact h.modifyBlock _ keeps

theorem emit (h : b.Grounded) (ty : Ty) (hint : String) (inst : ValueId → Inst) :
    (b.emit ty hint inst).2.Grounded :=
  ((h.localName _ hint).pushValue _).extend fun _ => rfl

theorem declareFunction (h : b.Grounded) (name : String) (ret : Ty)
    (params : List (Option String × Ty)) : (b.declareFunction name ret params).2.Grounded := by
  refine h.mono ?_ (fun _ _ owned => owned) rfl
  have : (b.declareFunction name ret params).2.module.functions.size =
      b.module.functions.size + 1 := Array.size_push _
  omega

theorem appendBlock (h : b.Grounded) {f : FunctionId} (known : b.HasFunction f)
    (hint : String) : (b.appendBlock f hint).2.Grounded := by
  obtain ⟨a, -⟩ := b.appendBlock_append f hint
  have size : (b.appendBlock f hint).2.module.functions.size = b.module.functions.size := by
    simp [Builder.appendBlock, module_localName]
  constructor
  case blocks =>
    intro c g owned
    rw [size]
    by_cases same : c = (b.appendBlock f hint).1
    · subst same
      rw [a.functionOf?] at owned
      obtain rfl := Option.some.inj owned
      exact known
    · rw [a.functionOf?_of_ne same] at owned
      exact h.blocks c g owned
  case issues =>
    intro i hi g hg
    rw [a.issues] at hi
    rw [size]
    exact h.issues i hi g hg

theorem alloca (h : b.Grounded) (ty : Ty) (hint : String) : (b.alloca ty hint).2.Grounded := by
  have named := (h.localName b.insertionFunction? hint).pushValue
    ⟨.ptr, .inst ((b.insertionFunction?.bind b.module.function?).bind Function.entry?),
      (b.localName b.insertionFunction? hint).1⟩
  rw [Builder.alloca]
  cases entry : (b.insertionFunction?.bind b.module.function?).bind Function.entry? with
  | none =>
    rw [entry] at named
    exact named.record _
  | some block =>
    rw [entry] at named
    exact named.modifyBlock _ fun _ => rfl

theorem call (h : b.Grounded) (callee : FunctionId) (args : List ValueId) :
    (b.call callee args).2.Grounded := by
  have emitted := h.emit (((b.module.function? callee).map (·.ret)).getD .void) "call"
    fun dst => .call (some dst) callee args
  rw [Builder.call]
  split
  · exact h.extend fun _ => rfl
  · exact emitted

theorem perform (h : b.Grounded) {r : Reply} (c : Command r) (known : b.Knows c) :
    (b.perform c).2.Grounded := by
  cases c with
  | setModuleName name => exact ⟨h.blocks, h.issues⟩
  | declareFunction name ret params => exact h.declareFunction name ret params
  | appendBlock f hint => exact h.appendBlock known hint
  | positionAtEnd block => exact ⟨h.blocks, h.issues⟩
  | terminate t => exact h.extend fun _ => rfl
  | alloca ty hint => exact h.alloca ty hint
  | load ty address hint => exact h.emit _ _ _
  | store value address => exact h.extend fun _ => rfl
  | elementPtr ty base index => exact h.emit _ _ _
  | binary op lhs rhs hint => exact h.emit _ _ _
  | unary op operand hint => exact h.emit _ _ _
  | zext value ty => exact h.emit _ _ _
  | phi ty incoming hint => exact h.emit _ _ _
  | call callee args => exact h.call callee args
  | globalScalar hint ty init => exact h.pushGlobal _ _
  | globalArray hint ty length => exact h.pushGlobal _ _
  | globalString contents => exact h.pushGlobal _ _
  | const c => exact h.pushValue _

end Grounded

theorem Reachable.grounded {b : Builder} (h : b.Reachable) : b.Grounded := by
  induction h with
  | empty =>
    refine ⟨fun c f owned => ?_, fun i hi => ?_⟩
    · cases owned
    · simp [Builder.empty, Module.empty] at hi
  | perform c _ known ih => exact ih.perform c known

end Decaf.IR.Builder
