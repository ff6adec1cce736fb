import Decaf.Proofs.Generation.Grounding

/-!
# Effects of commands

What carrying out one command does to a module, said once. Values and globals are only ever
added. Of functions, blocks and issues at most one thing happens: a function is declared, a
block is appended, a block gains an instruction or its terminator, or what was asked for is
dropped and an issue recorded. Invariants of builders are shown by going through these.
-/

namespace Decaf.IR

/-- The block gains an instruction, wherever it is put, and is otherwise as before. -/
structure Block.Gains (d d' : Block) (i : Inst) : Prop where
  function : d'.function = d.function
  terminator : d'.terminator = d.terminator
  insts : d'.insts.toList.Perm (i :: d.insts.toList)

theorem Block.gains_push (d : Block) (i : Inst) : d.Gains (d.push i) i where
  function := rfl
  terminator := rfl
  insts := by
    rw [Block.push, Array.toList_push]
    exact List.perm_append_singleton i d.insts.toList

theorem Block.gains_hoist (d : Block) (i : Inst) : d.Gains (d.hoist i) i where
  function := rfl
  terminator := rfl
  insts := by
    have split := List.takeWhile_append_dropWhile (p := Inst.isAlloca) (l := d.insts.toList)
    refine List.perm_middle.trans ?_
    rw [split]

namespace Module

/-- The value is there and has the given type. -/
def Holds (m : Module) (v : ValueId) (ty : Ty) : Prop :=
  ∃ info, m.value? v = some info ∧ info.ty = ty

/-- The value that an instruction defines is there, with the type the instruction gives it. -/
def Records (m : Module) : Inst → Prop
  | .alloca dst _ => m.Holds dst .ptr
  | .load dst ty _ => m.Holds dst ty
  | .store _ _ => True
  | .elementPtr dst _ _ _ => m.Holds dst .ptr
  | .binary dst op lhs _ => ∃ ty, m.Holds lhs ty ∧ m.Holds dst (op.resultTy ty)
  | .unary dst _ operand => ∃ ty, m.Holds operand ty ∧ m.Holds dst ty
  | .zext dst _ ty => m.Holds dst ty
  | .phi dst ty _ => m.Holds dst ty
  | .call (some dst) callee _ => ∃ F, m.function? callee = some F ∧ m.Holds dst F.ret
  | .call none _ _ => True

/-- The values of the parameters are there, with the types of the parameters. -/
def RecordsParams (m : Module) (F : Function) : Prop :=
  ∀ q ∈ F.params, m.Holds q.value q.ty

/-- Functions, and blocks to which they lay claim, agree about who owns what. -/
structure Owned (m : Module) : Prop where
  position : ∀ f F, m.function? f = some F → F.id = f
  listed : ∀ c f, c ∈ m.blocksOf f ↔ m.functionOf? c = some f

theorem Holds.mono {m m' : Module} {v : ValueId} {ty : Ty} (h : m.Holds v ty)
    (values : m.values.toList <+: m'.values.toList) : m'.Holds v ty := by
  obtain ⟨info, there, type⟩ := h
  exact ⟨info, getElem?_of_prefix values there, type⟩

theorem Holds.typeOf {m : Module} {v : ValueId} {ty : Ty} (h : m.Holds v ty) :
    m.typeOf v = ty := by
  obtain ⟨info, there, rfl⟩ := h
  exact typeOf_of_value? there

theorem holds_typeOf {m : Module} {v : ValueId} (there : v.index < m.values.size) :
    m.Holds v (m.typeOf v) := by
  have look : m.value? v = some m.values[v.index] := Array.getElem?_eq_getElem there
  exact ⟨_, look, (typeOf_of_value? look).symm⟩

theorem Records.congr {m m' : Module} {i : Inst} (h : m.Records i) (values : m'.values = m.values)
    (functions : m'.functions = m.functions) : m'.Records i := by
  have holds (v : ValueId) (ty : Ty) : m'.Holds v ty ↔ m.Holds v ty := by
    simp only [Holds, value?, values]
  have look (f : FunctionId) : m'.function? f = m.function? f := by
    rw [Module.function?, functions, Module.function?]
  cases i with
  | call dst callee args =>
    cases dst with
    | none => trivial
    | some dst => simpa only [Records, holds, look] using h
  | store value address => trivial
  | _ => simpa only [Records, holds] using h

theorem Owned.function? {m : Module} (h : m.Owned) {c : BlockId} {f : FunctionId}
    (owned : m.functionOf? c = some f) : ∃ F, m.function? f = some F ∧ c ∈ F.blocks := by
  have listed := (h.listed c f).2 owned
  unfold blocksOf at listed
  cases there : m.function? f with
  | none => simp [there] at listed
  | some F => exact ⟨F, rfl, by simpa [there] using listed⟩

theorem Owned.grounded {m : Module} (h : m.Owned) : m.Grounded := by
  intro c f owned
  obtain ⟨F, there, -⟩ := h.function? owned
  exact (Array.getElem?_eq_some_iff.1 there).1

end Module

/-- The command asks for an instruction or a terminator. -/
def Command.emits : Command r → Bool
  | .terminate _ | .alloca _ _ | .load _ _ _ | .store _ _ | .elementPtr _ _ _ => true
  | .binary _ _ _ _ | .unary _ _ _ | .zext _ _ | .phi _ _ _ | .call _ _ => true
  | _ => false

namespace Builder

/-- What becomes of the functions, blocks and issues of a builder's module. The flag says
whether code was asked for. -/
inductive Effect (b : Builder) : Bool → Module → Prop where
  | quiet {m : Module} : m.functions = b.module.functions → m.blocks = b.module.blocks →
      m.issues = b.module.issues → Effect b false m
  | declare {m : Module} (F : Function) : F.id = ⟨b.module.functions.size⟩ → F.blocks = #[] →
      m.RecordsParams F → m.functions = b.module.functions.push F →
      m.blocks = b.module.blocks → m.issues = b.module.issues → Effect b false m
  | append {m : Module} (f : FunctionId) (data : Block) : b.HasFunction f →
      data.function = f → data.insts = #[] →
      m.functions = b.module.functions.modify f.index (fun F =>
        { F with blocks := F.blocks.push ⟨b.module.blocks.size⟩ }) →
      m.blocks = b.module.blocks.push data → m.issues = b.module.issues → Effect b false m
  | insert {m : Module} (c : BlockId) (i : Inst) (change : Block → Block) : b.HasBlock c →
      (∀ d, Block.Gains d (change d) i) → m.Records i →
      m.functions = b.module.functions → m.blocks = b.module.blocks.modify c.index change →
      m.issues = b.module.issues → Effect b true m
  | close {m : Module} (c : BlockId) (t : Terminator) : b.isClosed c = false →
      m.functions = b.module.functions →
      m.blocks = b.module.blocks.modify c.index (Block.close t) →
      m.issues = b.module.issues → Effect b true m
  | drop {m : Module} (issue : EmitIssue) : m.functions = b.module.functions →
      m.blocks = b.module.blocks →
      m.issues = b.module.issues.push (b.insertionFunction?, issue) → Effect b true m

/-- The builders differ in values, globals and names at most. -/
structure Alike (b b' : Builder) : Prop where
  insertion : b'.insertion = b.insertion
  functions : b'.module.functions = b.module.functions
  blocks : b'.module.blocks = b.module.blocks
  issues : b'.module.issues = b.module.issues

namespace Alike

variable {b b' : Builder}

theorem block? (h : b.Alike b') (c : BlockId) : b'.module.block? c = b.module.block? c := by
  rw [Module.block?, h.blocks, Module.block?]

theorem isClosed (h : b.Alike b') (c : BlockId) : b'.isClosed c = b.isClosed c := by
  rw [Builder.isClosed, h.block?, Builder.isClosed]

theorem insertionFunction? (h : b.Alike b') : b'.insertionFunction? = b.insertionFunction? := by
  have owner : b'.module.functionOf? = b.module.functionOf? := by
    funext c
    rw [Module.functionOf?, h.block?, Module.functionOf?]
  rw [Builder.insertionFunction?, h.insertion, owner, Builder.insertionFunction?]

theorem quiet (h : b.Alike b') : b.Effect false b'.module :=
  .quiet h.functions h.blocks h.issues

theorem drop (h : b.Alike b') (issue : EmitIssue) : b.Effect true (b'.record issue).module := by
  refine .drop issue h.functions h.blocks ?_
  rw [Builder.record, h.insertionFunction?, h.issues]

end Alike

theorem hasBlock_of_isClosed {b : Builder} {c : BlockId} (isOpen : b.isClosed c = false) :
    b.HasBlock c := by
  cases there : b.module.block? c with
  | none => simp [Builder.isClosed, there] at isOpen
  | some data => exact (Array.getElem?_eq_some_iff.1 there).1

section

variable (b : Builder)

theorem alike_localName (f : Option FunctionId) (hint : String) :
    b.Alike (b.localName f hint).2 := by
  have same := module_localName b f hint
  exact ⟨insertion_localName b f hint, by rw [same], by rw [same], by rw [same]⟩

theorem Alike.pushValue {b b' : Builder} (h : b.Alike b') (info : ValueInfo) :
    b.Alike (b'.pushValue info).2 :=
  ⟨h.insertion, h.functions, h.blocks, h.issues⟩

theorem alike_pushGlobal (hint : String) (kind : GlobalKind) :
    b.Alike (b.pushGlobal hint kind).2 :=
  ⟨rfl, rfl, rfl, rfl⟩

theorem values_extend (change : Block → Block) :
    (b.extend change).module.values = b.module.values := by
  unfold extend
  split
  · rfl
  · split <;> rfl

end

/-- Code goes to the open block at the insertion point, or an issue is recorded. -/
theorem Alike.extend {b b' : Builder} (h : b.Alike b') {change : Block → Block}
    (placed : ∀ c m, b.isClosed c = false → m.functions = b.module.functions →
      m.blocks = b.module.blocks.modify c.index change → m.issues = b.module.issues →
      m.values = b'.module.values → b.Effect true m) :
    b.Effect true (b'.extend change).module := by
  rw [Builder.extend]
  split
  · exact h.drop _
  · rename_i c at_
    by_cases closed : b'.isClosed c = true
    · rw [if_pos closed]
      exact h.drop _
    · rw [if_neg closed]
      refine placed c _ (by simpa [h.isClosed] using closed) h.functions ?_ h.issues rfl
      rw [modifyBlock, h.blocks]

theorem Alike.push {b b' : Builder} (h : b.Alike b') {i : Inst}
    (records : b'.module.Records i) : b.Effect true (b'.extend (Block.push i)).module := by
  refine h.extend fun c m isOpen functions blocks issues values => ?_
  refine .insert c i (Block.push i) (hasBlock_of_isClosed isOpen) (·.gains_push i) ?_ functions
    blocks issues
  exact records.congr values (functions.trans h.functions.symm)

/-- A new value is named and recorded before anything else is done. -/
theorem alike_named (b : Builder) (f : Option FunctionId) (hint : String) (ty : Ty)
    (origin : Origin) : ∃ name b', (b.localName f hint).2.pushValue
        ⟨ty, origin, (b.localName f hint).1⟩ = (⟨b.module.values.size⟩, b') ∧
      b.Alike b' ∧ b'.module.values = b.module.values.push ⟨ty, origin, name⟩ := by
  have same := module_localName b f hint
  refine ⟨(b.localName f hint).1, _, ?_, (b.alike_localName f hint).pushValue
    ⟨ty, origin, (b.localName f hint).1⟩, ?_⟩
  · simp only [pushValue, same]
  · simp only [pushValue, same]

theorem holds_of_push {m m' : Module} {info : ValueInfo}
    (values : m'.values = m.values.push info) : m'.Holds ⟨m.values.size⟩ info.ty :=
  ⟨info, by simp [Module.value?, values], rfl⟩

/-- The value that an instruction defines comes after all others. -/
theorem effect_emit (b : Builder) (ty : Ty) (hint : String) (inst : ValueId → Inst)
    (records : ∀ m : Module, m.functions = b.module.functions →
      b.module.values.toList <+: m.values.toList → m.Holds ⟨b.module.values.size⟩ ty →
      m.Records (inst ⟨b.module.values.size⟩)) :
    b.Effect true (b.emit ty hint inst).2.module := by
  obtain ⟨name, b', pushed, alike, values⟩ := b.alike_named b.insertionFunction? hint ty
    (.inst (b.localName b.insertionFunction? hint).2.insertion)
  simp only [emit, pushed]
  exact alike.push (records _ alike.functions (by simp [values]) (holds_of_push values))

theorem effect_alloca {b : Builder} (owned : b.module.Owned) (ty : Ty) (hint : String) :
    b.Effect true (b.alloca ty hint).2.module := by
  cases entry : (b.insertionFunction?.bind b.module.function?).bind Function.entry? with
  | none =>
    obtain ⟨name, b', pushed, alike, values⟩ := b.alike_named b.insertionFunction? hint .ptr
      (.inst none)
    simp only [alloca, entry, pushed]
    exact alike.drop _
  | some c =>
    obtain ⟨name, b', pushed, alike, values⟩ := b.alike_named b.insertionFunction? hint .ptr
      (.inst (some c))
    obtain ⟨F, there, first⟩ := Option.bind_eq_some_iff.1 entry
    obtain ⟨f, -, hF⟩ := Option.bind_eq_some_iff.1 there
    have listed : c ∈ b.module.blocksOf f := by
      rw [Module.blocksOf, hF]
      exact Array.mem_toList_iff.2 (Array.mem_of_getElem? first)
    simp only [alloca, entry, pushed]
    refine .insert c (.alloca ⟨b.module.values.size⟩ ty) _
      (Module.index_lt_of_functionOf? ((owned.listed c f).1 listed)) (·.gains_hoist _)
      (holds_of_push values) alike.functions ?_ alike.issues
    rw [modifyBlock, alike.blocks]

theorem effect_call (b : Builder) (callee : FunctionId) (args : List ValueId)
    (known : b.HasFunction callee) : b.Effect true (b.call callee args).2.module := by
  have there : b.module.function? callee = some b.module.functions[callee.index] :=
    Array.getElem?_eq_getElem known
  simp only [call, there]
  split
  · exact Alike.push ⟨rfl, rfl, rfl, rfl⟩ trivial
  · have emitted := b.effect_emit b.module.functions[callee.index].ret "call"
      (fun dst => .call (some dst) callee args) fun m functions _ holds =>
        ⟨b.module.functions[callee.index], by rwa [Module.function?, functions], holds⟩
    exact emitted

theorem effect_declareFunction {b : Builder} (owned : b.module.Owned) (name : String) (ret : Ty)
    (params : List (Option String × Ty)) :
    b.Effect false (b.declareFunction name ret params).2.module := by
  obtain ⟨-, -, bodiless⟩ := b.declareFunction_outside name ret params owned.grounded
  obtain ⟨⟨id, -⟩, -, blocks, -, values⟩ := bodiless.found Array.getElem?_push_size
  refine .declare _ id blocks (fun q hq => ?_) rfl rfl rfl
  obtain ⟨i, name, value⟩ := values q hq
  exact ⟨_, value, rfl⟩

theorem effect_appendBlock {b : Builder} {f : FunctionId} (known : b.HasFunction f)
    (hint : String) : b.Effect false (b.appendBlock f hint).2.module := by
  have same := module_localName b (some f) hint
  refine .append f ⟨⟨b.module.blocks.size⟩, f, (b.localName (some f) hint).1.getD hint, #[], none⟩
    known rfl rfl ?_ ?_ ?_ <;> simp only [appendBlock, same]

/-- Every command has an effect, given that all it mentions is there. -/
theorem effect_perform {b : Builder} (owned : b.module.Owned) {r : Reply} {c : Command r}
    (known : b.Knows c) : b.Effect c.emits (b.perform c).2.module := by
  cases c with
  | setModuleName name => exact .quiet rfl rfl rfl
  | declareFunction name ret params => exact effect_declareFunction owned name ret params
  | appendBlock f hint => exact effect_appendBlock known hint
  | positionAtEnd block => exact .quiet rfl rfl rfl
  | terminate t =>
    exact Alike.extend ⟨rfl, rfl, rfl, rfl⟩ fun c m isOpen functions blocks issues _ =>
      .close c t isOpen functions blocks issues
  | alloca ty hint => exact effect_alloca owned ty hint
  | load ty address hint => exact b.effect_emit _ _ _ fun m _ _ holds => holds
  | store value address => exact Alike.push ⟨rfl, rfl, rfl, rfl⟩ trivial
  | elementPtr ty base index => exact b.effect_emit _ _ _ fun m _ _ holds => holds
  | binary op lhs rhs hint =>
    exact b.effect_emit _ _ _ fun m _ values holds =>
      ⟨_, (Module.holds_typeOf known.1).mono values, holds⟩
  | unary op operand hint =>
    exact b.effect_emit _ _ _ fun m _ values holds =>
      ⟨_, (Module.holds_typeOf known).mono values, holds⟩
  | zext value ty => exact b.effect_emit _ _ _ fun m _ _ holds => holds
  | phi ty incoming hint => exact b.effect_emit _ _ _ fun m _ _ holds => holds
  | call callee args => exact b.effect_call callee args known.1
  | globalScalar hint ty init => exact (b.alike_pushGlobal _ _).quiet
  | globalArray hint ty length => exact (b.alike_pushGlobal _ _).quiet
  | globalString contents => exact (b.alike_pushGlobal _ _).quiet
  | const c => exact .quiet rfl rfl rfl

end Builder

end Decaf.IR
