import Decaf.Proofs.Building.Effects

/-!
# Open and closed blocks

Which blocks have their terminator, and what each command does about that. A terminator closes
the block at the insertion point; a new block is open; every other command leaves all blocks as
open or closed as they were. What functions return never changes.
-/

namespace Decaf.IR

/-- The type of what a function returns. -/
def Module.returnOf? (m : Module) (f : FunctionId) : Option Ty :=
  (m.function? f).map (·.ret)

/-- The command neither moves the insertion point nor opens or closes a block nor declares a
function. -/
def Command.isCalm : Command r → Bool
  | .declareFunction _ _ _ | .appendBlock _ _ | .positionAtEnd _ | .terminate _ => false
  | _ => true

namespace Builder

/-- As many blocks, as open or closed as before, the same insertion point and functions that
return the same. -/
structure Calm (b b' : Builder) : Prop where
  insertion : b'.insertion = b.insertion
  size : b'.module.blocks.size = b.module.blocks.size
  isClosed : b'.isClosed = b.isClosed
  returns : b'.module.returnOf? = b.module.returnOf?

theorem Calm.refl (b : Builder) : b.Calm b := ⟨rfl, rfl, rfl, rfl⟩

theorem Calm.trans {b b' b'' : Builder} (h : b.Calm b') (h' : b'.Calm b'') : b.Calm b'' :=
  ⟨h'.insertion.trans h.insertion, h'.size.trans h.size, h'.isClosed.trans h.isClosed,
    h'.returns.trans h.returns⟩

theorem Alike.calm {b b' : Builder} (h : b.Alike b') : b.Calm b' where
  insertion := h.insertion
  size := by rw [h.blocks]
  isClosed := funext h.isClosed
  returns := by
    funext f
    rw [Module.returnOf?, Module.function?, h.functions, Module.returnOf?, Module.function?]

theorem calm_record (b : Builder) (issue : EmitIssue) : b.Calm (b.record issue) :=
  ⟨rfl, rfl, rfl, rfl⟩

/-- A change that leaves the terminators alone closes nothing. -/
theorem calm_modifyBlock (b : Builder) (c : BlockId) {change : Block → Block}
    (same : ∀ d, (change d).terminator = d.terminator) : b.Calm (b.modifyBlock c change) where
  insertion := rfl
  size := Array.size_modify
  isClosed := by
    funext e
    simp only [Builder.isClosed, modifyBlock, Module.block?, Array.getElem?_modify]
    by_cases here : c.index = e.index
    · rw [if_pos here]
      cases b.module.blocks[e.index]? with
      | none => rfl
      | some d => simp [same]
    · rw [if_neg here]
  returns := rfl

theorem calm_extend (b : Builder) {change : Block → Block}
    (same : ∀ d, (change d).terminator = d.terminator) : b.Calm (b.extend change) := by
  rw [extend]
  split
  · exact b.calm_record _
  · split
    · exact b.calm_record _
    · exact b.calm_modifyBlock _ same

theorem calm_emit (b : Builder) (ty : Ty) (hint : String) (inst : ValueId → Inst) :
    b.Calm (b.emit ty hint inst).2 := by
  obtain ⟨name, b', pushed, alike, -⟩ := b.alike_named b.insertionFunction? hint ty
    (.inst (b.localName b.insertionFunction? hint).2.insertion)
  simp only [emit, pushed]
  exact alike.calm.trans (b'.calm_extend fun _ => rfl)

theorem calm_alloca (b : Builder) (ty : Ty) (hint : String) : b.Calm (b.alloca ty hint).2 := by
  obtain ⟨name, b', pushed, alike, -⟩ := b.alike_named b.insertionFunction? hint .ptr
    (.inst ((b.insertionFunction?.bind b.module.function?).bind Function.entry?))
  cases entry : (b.insertionFunction?.bind b.module.function?).bind Function.entry? with
  | none =>
    simp only [entry] at pushed
    simp only [alloca, entry, pushed]
    exact alike.calm.trans (b'.calm_record _)
  | some c =>
    simp only [entry] at pushed
    simp only [alloca, entry, pushed]
    exact alike.calm.trans (b'.calm_modifyBlock c fun _ => rfl)

theorem calm_call (b : Builder) (callee : FunctionId) (args : List ValueId) :
    b.Calm (b.call callee args).2 := by
  have emitted := b.calm_emit (((b.module.function? callee).map (·.ret)).getD .void) "call"
    fun dst => .call (some dst) callee args
  simp only [call]
  split
  · exact b.calm_extend fun _ => rfl
  · exact emitted

theorem calm_perform (b : Builder) {r : Reply} {c : Command r} (calm : c.isCalm = true) :
    b.Calm (b.perform c).2 := by
  cases c with
  | declareFunction | appendBlock | positionAtEnd | terminate => cases calm
  | setModuleName name => exact ⟨rfl, rfl, rfl, rfl⟩
  | alloca ty hint => exact b.calm_alloca ty hint
  | store value address => exact b.calm_extend fun _ => rfl
  | call callee args => exact b.calm_call callee args
  | globalScalar hint ty init => exact (b.alike_pushGlobal hint _).calm
  | globalArray hint ty length => exact (b.alike_pushGlobal hint _).calm
  | globalString contents => exact (b.alike_pushGlobal ".str" _).calm
  | const c => exact ⟨rfl, rfl, rfl, rfl⟩
  | _ => exact b.calm_emit ..

/-- Where instructions can be inserted, a terminator closes the block and no other one. -/
theorem terminate_of_open {b : Builder} {c : BlockId} (here : b.insertion = some c)
    (isOpen : b.isClosed c = false) (t : Terminator) :
    (b.perform (.terminate t)).2.insertion = some c ∧
      (b.perform (.terminate t)).2.module.blocks.size = b.module.blocks.size ∧
      (b.perform (.terminate t)).2.isClosed c = true ∧
      (∀ e, e ≠ c → (b.perform (.terminate t)).2.isClosed e = b.isClosed e) ∧
      (b.perform (.terminate t)).2.module.returnOf? = b.module.returnOf? := by
  have changed : (b.perform (.terminate t)).2 = b.modifyBlock c (Block.close t) :=
    extend_of_open here isOpen
  rw [changed]
  refine ⟨here, Array.size_modify, ?_, fun e other => ?_, rfl⟩
  · simp only [isClosed, modifyBlock, Module.block?, Array.getElem?_modify, if_true] at isOpen ⊢
    cases there : b.module.blocks[c.index]? with
    | none => simp [there] at isOpen
    | some d => rfl
  · have apart : c.index ≠ e.index := fun same => other (congrArg BlockId.mk same).symm
    simp only [isClosed, modifyBlock, Module.block?, Array.getElem?_modify, if_neg apart]

/-- A new block comes after all others and is open. -/
theorem appendBlock_opens (b : Builder) (f : FunctionId) (hint : String) :
    (b.appendBlock f hint).1 = ⟨b.module.blocks.size⟩ ∧
      (b.appendBlock f hint).2.insertion = b.insertion ∧
      (b.appendBlock f hint).2.module.blocks.size = b.module.blocks.size + 1 ∧
      (b.appendBlock f hint).2.isClosed ⟨b.module.blocks.size⟩ = false ∧
      (∀ e : BlockId, e.index < b.module.blocks.size →
        (b.appendBlock f hint).2.isClosed e = b.isClosed e) ∧
      (b.appendBlock f hint).2.module.returnOf? = b.module.returnOf? := by
  have same := module_localName b (some f) hint
  refine ⟨?_, insertion_localName b (some f) hint, ?_, ?_, fun e he => ?_, ?_⟩
  · simp only [appendBlock]
  · simp [appendBlock, same]
  · simp [appendBlock, same, isClosed, Module.block?]
  · simp [appendBlock, same, isClosed, Module.block?, Array.getElem?_push, Nat.ne_of_lt he]
  · funext g
    simp only [appendBlock, same, Module.returnOf?, Module.function?, Array.getElem?_modify]
    split
    · cases b.module.functions[g.index]? <;> rfl
    · rfl

/-- A new function returns what it was declared to return, and those there were stay. -/
theorem declareFunction_returns (b : Builder) (name : String) (ret : Ty)
    (params : List (Option String × Ty)) :
    (b.declareFunction name ret params).2.module.returnOf?
        (b.declareFunction name ret params).1 = some ret ∧
      ∀ f ty, b.module.returnOf? f = some ty →
        (b.declareFunction name ret params).2.module.returnOf? f = some ty := by
  constructor
  · simp [declareFunction, Module.returnOf?, Module.function?]
  · intro f ty there
    obtain ⟨F, hF, rfl⟩ := Option.map_eq_some_iff.1 there
    have inside : f.index < b.module.functions.size := (Array.getElem?_eq_some_iff.1 hF).1
    have kept : (b.declareFunction name ret params).2.module.function? f = some F := by
      rw [← hF]
      simp [declareFunction, Module.function?, Array.getElem?_push, Nat.ne_of_lt inside]
    rw [Module.returnOf?, kept]
    rfl

/-- A call leaves a value unless its callee returns `void`. -/
theorem isSome_call {b : Builder} {callee : FunctionId} {ret : Ty}
    (returns : b.module.returnOf? callee = some ret) (args : List ValueId) :
    (b.call callee args).1.isSome = (ret != .void) := by
  have result : ((b.module.function? callee).map (·.ret)).getD .void = ret := by
    rw [show (b.module.function? callee).map (·.ret) = some ret from returns]
    rfl
  simp only [call, result]
  split
  · simp [*]
  · simp [*]

end Builder

end Decaf.IR
