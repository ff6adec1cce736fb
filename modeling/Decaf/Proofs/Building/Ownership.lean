import Decaf.Proofs.Building.Effects

/-!
# Owners of blocks

In a builder with a history a function lists exactly the blocks that name it as their owner,
and whatever is there stays: values, owners, signatures and recorded issues.
-/

namespace Decaf.IR

/-- A constant is recorded with its own type, the address of a global as a pointer. -/
def ValueInfo.Fits (info : ValueInfo) : Prop :=
  match info.origin with
  | .const k => info.ty = k.ty
  | .global _ => info.ty = .ptr
  | _ => True

namespace Module

/-- What the first module has, the second has as well. Code is not compared. -/
structure Later (m m' : Module) : Prop where
  values : m.values.toList <+: m'.values.toList
  issues : m.issues.toList <+: m'.issues.toList
  owners : ∀ c f, m.functionOf? c = some f → m'.functionOf? c = some f
  signatures : ∀ f F, m.function? f = some F → ∃ F', m'.function? f = some F' ∧
    F'.ret = F.ret ∧ F'.params = F.params

namespace Later

theorem refl (m : Module) : m.Later m :=
  ⟨List.prefix_refl _, List.prefix_refl _, fun _ _ h => h, fun _ F h => ⟨F, h, rfl, rfl⟩⟩

theorem trans {m m₁ m' : Module} (h : m.Later m₁) (k : m₁.Later m') : m.Later m' where
  values := h.values.trans k.values
  issues := h.issues.trans k.issues
  owners c f owned := k.owners c f (h.owners c f owned)
  signatures f F hF := by
    obtain ⟨F₁, hF₁, ret, params⟩ := h.signatures f F hF
    obtain ⟨F', hF', ret', params'⟩ := k.signatures f F₁ hF₁
    exact ⟨F', hF', ret'.trans ret, params'.trans params⟩

end Later

namespace Owned

variable {m m' : Module}

/-- Where functions are the same and blocks keep their owners, nothing is to be shown. -/
theorem congr (owned : m.Owned) (functions : m'.functions = m.functions)
    (owners : m'.functionOf? = m.functionOf?) : m'.Owned where
  position f F hF := by
    rw [Module.function?, functions] at hF
    exact owned.position f F hF
  listed c f := by
    rw [owners, ← owned.listed c f, blocksOf, Module.function?, functions]
    rfl

/-- A function that is declared without blocks owns none. -/
theorem declare (owned : m.Owned) {G : Function} (id : G.id = ⟨m.functions.size⟩)
    (bodiless : G.blocks = #[]) (functions : m'.functions = m.functions.push G)
    (owners : m'.functionOf? = m.functionOf?) : m'.Owned := by
  have look (f : FunctionId) : m'.function? f =
      if f.index = m.functions.size then some G else m.function? f := by
    rw [Module.function?, functions, Array.getElem?_push]
    rfl
  constructor
  case position =>
    intro f F hF
    rw [look] at hF
    by_cases new : f.index = m.functions.size
    · rw [if_pos new] at hF
      rw [← Option.some.inj hF, id, ← new]
    · rw [if_neg new] at hF
      exact owned.position f F hF
  case listed =>
    intro c f
    rw [owners, ← owned.listed c f, blocksOf, look, blocksOf]
    by_cases new : f.index = m.functions.size
    · have none : m.function? f = none := by
        simp [Module.function?, new]
      simp [new, none, bodiless]
    · rw [if_neg new]

/-- A block that is appended to a function names it as its owner. -/
theorem append (owned : m.Owned) {g : FunctionId} {data : Block}
    (known : g.index < m.functions.size) (function : data.function = g)
    (functions : m'.functions = m.functions.modify g.index fun F =>
      { F with blocks := F.blocks.push ⟨m.blocks.size⟩ })
    (blocks : m'.blocks = m.blocks.push data) : m'.Owned := by
  have look (f : FunctionId) : m'.function? f = if f = g then
      (m.function? f).map fun F => { F with blocks := F.blocks.push ⟨m.blocks.size⟩ }
      else m.function? f := by
    rw [Module.function?, functions]
    exact Module.function?_modify ..
  have listed (f : FunctionId) : m'.blocksOf f =
      if f = g then m.blocksOf f ++ [⟨m.blocks.size⟩] else m.blocksOf f := by
    rw [blocksOf, look, blocksOf]
    by_cases here : f = g
    · subst here
      have there : m.function? f = some m.functions[f.index] := Array.getElem?_eq_getElem known
      simp [there]
    · simp only [if_neg here]
  have owner (c : BlockId) : m'.functionOf? c =
      if c = ⟨m.blocks.size⟩ then some g else m.functionOf? c := by
    rw [functionOf?, block?, blocks, Array.getElem?_push, functionOf?, block?]
    by_cases new : c = ⟨m.blocks.size⟩
    · rw [if_pos new, if_pos (congrArg _ new), Option.map_some, function]
    · rw [if_neg new, if_neg fun same => new (by rw [BlockId.mk.injEq, same])]
  constructor
  case position =>
    intro f F hF
    rw [look] at hF
    by_cases here : f = g
    · rw [if_pos here] at hF
      obtain ⟨F', hF', rfl⟩ := Option.map_eq_some_iff.1 hF
      exact owned.position f F' hF'
    · rw [if_neg here] at hF
      exact owned.position f F hF
  case listed =>
    intro c f
    have before := owned.listed c f
    rw [listed, owner]
    by_cases new : c = ⟨m.blocks.size⟩
    · have fresh : m.functionOf? c ≠ some f := fun old => by
        have := index_lt_of_functionOf? old
        rw [new] at this
        exact Nat.lt_irrefl _ this
      by_cases here : f = g
      · simp [here, new]
      · rw [if_neg here, if_pos new, before]
        simp [fresh, Ne.symm here]
    · rw [if_neg new, ← before]
      by_cases here : f = g
      · simp [here, new]
      · rw [if_neg here]

end Owned

end Module

namespace Builder

variable {b : Builder} {r : Reply}

/-- Values are only added, and constants and globals come with their types. -/
theorem values_perform (b : Builder) (c : Command r) : ∃ more : List ValueInfo,
    (b.perform c).2.module.values.toList = b.module.values.toList ++ more ∧
      ∀ info ∈ more, info.Fits := by
  have none (m : Module) (same : m.values = b.module.values) : ∃ more : List ValueInfo,
      m.values.toList = b.module.values.toList ++ more ∧ ∀ info ∈ more, info.Fits :=
    ⟨[], by simp [same], by simp⟩
  have push (b' : Builder) (info : ValueInfo) (fits : info.Fits)
      (same : b'.module.values = b.module.values) : ∃ more : List ValueInfo,
      (b'.pushValue info).2.module.values.toList = b.module.values.toList ++ more ∧
        ∀ info ∈ more, info.Fits :=
    ⟨[info], by simp [pushValue, same], by simpa using fits⟩
  have emitted (ty : Ty) (hint : String) (inst : ValueId → Inst) : ∃ more : List ValueInfo,
      (b.emit ty hint inst).2.module.values.toList = b.module.values.toList ++ more ∧
        ∀ info ∈ more, info.Fits := by
    simp only [emit, values_extend]
    exact push _ _ trivial (by rw [module_localName])
  cases c with
  | setModuleName name => exact none _ rfl
  | declareFunction name ret params =>
    refine ⟨_, Array.toList_appendList, fun info mem => ?_⟩
    obtain ⟨i, hi, rfl⟩ := List.mem_mapIdx.1 mem
    trivial
  | appendBlock f hint => exact none _ (by simp [perform, appendBlock, module_localName])
  | positionAtEnd block => exact none _ rfl
  | terminate t => exact none _ (values_extend ..)
  | alloca ty hint =>
    simp only [perform, alloca]
    split <;> exact push _ _ trivial (by rw [module_localName])
  | load ty address hint => exact emitted _ _ _
  | store value address => exact none _ (values_extend ..)
  | elementPtr ty base index => exact emitted _ _ _
  | binary op lhs rhs hint => exact emitted _ _ _
  | unary op operand hint => exact emitted _ _ _
  | zext value ty => exact emitted _ _ _
  | phi ty incoming hint => exact emitted _ _ _
  | call callee args =>
    simp only [perform, call]
    split
    · exact none _ (values_extend ..)
    · exact emitted (((b.module.function? callee).map (·.ret)).getD .void) "call"
        fun dst => .call (some dst) callee args
  | globalScalar hint ty init => exact push _ _ rfl rfl
  | globalArray hint ty length => exact push _ _ rfl rfl
  | globalString contents => exact push _ _ rfl rfl
  | const c => exact push _ _ rfl rfl

/-- The insertion point moves only to blocks that are there. -/
theorem insertion_perform {c : Command r} (known : b.Knows c) :
    (b.perform c).2.insertion = b.insertion ∨
      ∃ block, (b.perform c).2.insertion = some block ∧ b.HasBlock block := by
  have emitted (ty : Ty) (hint : String) (inst : ValueId → Inst) :
      (b.emit ty hint inst).2.insertion = b.insertion := by
    simp only [emit, insertion_extend]
    exact insertion_localName ..
  cases c with
  | positionAtEnd block => exact .inr ⟨block, rfl, known⟩
  | setModuleName name => exact .inl rfl
  | declareFunction name ret params => exact .inl rfl
  | appendBlock f hint => exact .inl (insertion_localName ..)
  | terminate t => exact .inl (insertion_extend ..)
  | alloca ty hint =>
    left
    simp only [perform, alloca]
    split <;> exact insertion_localName ..
  | load ty address hint => exact .inl (emitted _ _ _)
  | store value address => exact .inl (insertion_extend ..)
  | elementPtr ty base index => exact .inl (emitted _ _ _)
  | binary op lhs rhs hint => exact .inl (emitted _ _ _)
  | unary op operand hint => exact .inl (emitted _ _ _)
  | zext value ty => exact .inl (emitted _ _ _)
  | phi ty incoming hint => exact .inl (emitted _ _ _)
  | call callee args =>
    left
    simp only [perform, call]
    split
    · exact insertion_extend ..
    · exact emitted (((b.module.function? callee).map (·.ret)).getD .void) "call"
        fun dst => .call (some dst) callee args
  | globalScalar hint ty init => exact .inl rfl
  | globalArray hint ty length => exact .inl rfl
  | globalString contents => exact .inl rfl
  | const c => exact .inl rfl

section

variable {m : Module} {emits : Bool}

theorem functionOf?_modify {m m' : Module} {c : BlockId} {change : Block → Block}
    (blocks : m'.blocks = m.blocks.modify c.index change)
    (keeps : ∀ d, (change d).function = d.function) : m'.functionOf? = m.functionOf? := by
  funext d
  have look : m'.block? d = if d = c then (m.block? d).map change else m.block? d := by
    rw [Module.block?, blocks]
    exact Module.block?_modify ..
  rw [Module.functionOf?, look]
  by_cases same : d = c
  · rw [if_pos same, Option.map_map]
    exact congrArg (fun g => Option.map g _) (funext keeps)
  · rw [if_neg same]
    rfl

/-- Blocks keep their owners, and an effect other than an appended block adds none. -/
theorem Effect.owners (e : b.Effect emits m) {c : BlockId} {f : FunctionId}
    (owned : b.module.functionOf? c = some f) : m.functionOf? c = some f := by
  have same (blocks : m.blocks = b.module.blocks) : m.functionOf? c = some f := by
    rwa [Module.functionOf?, Module.block?, blocks]
  cases e with
  | quiet functions blocks issues => exact same blocks
  | declare F id bodiless params functions blocks issues => exact same blocks
  | append g data known function insts functions blocks issues =>
    have old := Module.index_lt_of_functionOf? owned
    rw [Module.functionOf?, Module.block?, blocks,
      Array.getElem?_push_lt old, ← Array.getElem?_eq_getElem old]
    exact owned
  | insert d i change there gains records functions blocks issues =>
    rwa [functionOf?_modify blocks fun d => (gains d).function]
  | close d t isOpen functions blocks issues =>
    rwa [functionOf?_modify blocks fun _ => rfl]
  | drop issue functions blocks issues => exact same blocks

theorem Effect.later (e : b.Effect emits m) (values : b.module.values.toList <+: m.values.toList) :
    b.module.Later m where
  values := values
  issues := by
    cases e with
    | drop issue functions blocks issues => simp [issues]
    | quiet _ _ issues | declare _ _ _ _ _ _ issues | append _ _ _ _ _ _ _ issues
    | insert _ _ _ _ _ _ _ _ issues | close _ _ _ _ _ issues =>
      exact issues.symm ▸ List.prefix_refl _
  owners c f owned := e.owners owned
  signatures f F hF := by
    have same (functions : m.functions = b.module.functions) : m.function? f = some F := by
      rwa [Module.function?, functions]
    cases e with
    | append g data known function insts functions blocks issues =>
      rw [Module.function?, functions, Array.getElem?_modify]
      unfold Module.function? at hF
      by_cases here : g.index = f.index
      · refine ⟨{ F with blocks := F.blocks.push ⟨b.module.blocks.size⟩ }, ?_, rfl, rfl⟩
        rw [if_pos here, hF, Option.map_some]
      · exact ⟨F, by rw [if_neg here, hF], rfl, rfl⟩
    | declare G id bodiless params functions blocks issues =>
      refine ⟨F, ?_, rfl, rfl⟩
      have old := (Array.getElem?_eq_some_iff.1 hF).1
      rw [Module.function?, functions, Array.getElem?_push_lt old, ← Array.getElem?_eq_getElem old]
      exact hF
    | quiet functions => exact ⟨F, same functions, rfl, rfl⟩
    | insert _ _ _ _ _ _ functions => exact ⟨F, same functions, rfl, rfl⟩
    | close _ _ _ functions => exact ⟨F, same functions, rfl, rfl⟩
    | drop _ functions => exact ⟨F, same functions, rfl, rfl⟩

theorem Effect.owned (e : b.Effect emits m) (owned : b.module.Owned) : m.Owned := by
  have unchanged (blocks : m.blocks = b.module.blocks) :
      m.functionOf? = b.module.functionOf? := by
    funext c
    rw [Module.functionOf?, Module.block?, blocks]
    rfl
  cases e with
  | quiet functions blocks issues => exact owned.congr functions (unchanged blocks)
  | drop issue functions blocks issues => exact owned.congr functions (unchanged blocks)
  | insert d i change there gains records functions blocks issues =>
    exact owned.congr functions (functionOf?_modify blocks fun d => (gains d).function)
  | close d t isOpen functions blocks issues =>
    exact owned.congr functions (functionOf?_modify blocks fun _ => rfl)
  | declare G id bodiless params functions blocks issues =>
    exact owned.declare id bodiless functions (unchanged blocks)
  | append g data known function insts functions blocks issues =>
    exact owned.append known function functions blocks

/-- Owners and lists of blocks agree in every builder with a history. -/
theorem Reachable.owned (h : b.Reachable) : b.module.Owned := by
  induction h with
  | empty =>
    constructor
    case position =>
      intro f F hF
      simp [Builder.empty, Module.empty, Module.function?] at hF
    case listed =>
      intro c f
      simp [Builder.empty, Module.empty, Module.blocksOf, Module.function?, Module.functionOf?,
        Module.block?]
  | perform c _ known ih => exact (effect_perform ih known).owned ih

end

theorem Reachable.effect (h : b.Reachable) {c : Command r} (known : b.Knows c) :
    b.Effect c.emits (b.perform c).2.module :=
  effect_perform h.owned known

theorem Reachable.later_perform (h : b.Reachable) {c : Command r} (known : b.Knows c) :
    b.module.Later (b.perform c).2.module := by
  obtain ⟨more, values, -⟩ := b.values_perform c
  exact (h.effect known).later ⟨more, values.symm⟩

/-- Whatever is built afterwards, what is there stays. -/
theorem Reachable.later_performAll (h : b.Reachable) {commands : List AnyCommand}
    (known : b.KnowsAll commands) : b.module.Later (b.performAll commands).module := by
  induction commands generalizing b with
  | nil => exact .refl _
  | cons first rest ih =>
    obtain ⟨r, c⟩ := first
    exact (h.later_perform known.1).trans (ih (h.perform c known.1) known.2)

/-- The insertion point is in a block of some function. -/
theorem Reachable.placed (h : b.Reachable) {c : BlockId} (here : b.insertion = some c) :
    ∃ f, b.module.functionOf? c = some f := by
  have there : b.HasBlock c := by
    induction h with
    | empty => cases here
    | @perform b r command reachable known ih =>
      have grown {d : BlockId} (old : b.HasBlock d) : (b.perform command).2.HasBlock d := by
        obtain ⟨f, hf⟩ := Option.ne_none_iff_exists'.1 (Module.functionOf?_ne_none old)
        exact Module.index_lt_of_functionOf? ((reachable.later_perform known).owners d f hf)
      rcases insertion_perform known with same | ⟨d, moved, old⟩
      · exact grown (ih (same ▸ here))
      · rw [moved] at here
        exact Option.some.inj here ▸ grown old
  exact Option.ne_none_iff_exists'.1 (Module.functionOf?_ne_none there)

end Builder

end Decaf.IR
