import Decaf.Proofs.Building.Ownership

/-!
# Recorded types

In a builder with a history every instruction defines a value that is recorded with the type
the instruction gives it, and so are parameters, constants and globals.
-/

namespace Decaf.IR

namespace Module

/-- All values are recorded with the types of what defines them. -/
structure Recorded (m : Module) : Prop where
  insts : ∀ c data, m.block? c = some data → ∀ i ∈ data.insts.toList, m.Records i
  params : ∀ f F, m.function? f = some F → m.RecordsParams F
  fixed : ∀ v info, m.value? v = some info → info.Fits

/-- The incoming values of a phi are recorded with the type of the phi. -/
def PhiTyped (m : Module) : Inst → Prop
  | .phi _ ty incoming => ∀ i ∈ incoming, m.typeOf i.1 = ty
  | _ => True

instance (m : Module) : (i : Inst) → Decidable (m.PhiTyped i)
  | .phi _ ty incoming => inferInstanceAs (Decidable (∀ i ∈ incoming, m.typeOf i.1 = ty))
  | .alloca _ _ | .load _ _ _ | .store _ _ | .elementPtr _ _ _ _ | .binary _ _ _ _
  | .unary _ _ _ | .zext _ _ _ | .call _ _ _ => .isTrue trivial

def PhisTyped (m : Module) : Prop :=
  ∀ data ∈ m.blocks, ∀ i ∈ data.insts, m.PhiTyped i

instance (m : Module) : Decidable m.PhisTyped :=
  inferInstanceAs (Decidable (∀ data ∈ m.blocks, ∀ i ∈ data.insts, m.PhiTyped i))

variable {m m' : Module}

theorem Records.mono {i : Inst} (h : m.Records i) (later : m.Later m') : m'.Records i := by
  have holds {v : ValueId} {ty : Ty} (there : m.Holds v ty) : m'.Holds v ty :=
    there.mono later.values
  cases i with
  | alloca dst ty => exact holds h
  | load dst ty address => exact holds h
  | store value address => trivial
  | elementPtr dst ty base index => exact holds h
  | binary dst op lhs rhs =>
    obtain ⟨ty, left, defined⟩ := h
    exact ⟨ty, holds left, holds defined⟩
  | unary dst op operand =>
    obtain ⟨ty, used, defined⟩ := h
    exact ⟨ty, holds used, holds defined⟩
  | zext dst value ty => exact holds h
  | phi dst ty incoming => exact holds h
  | call dst callee args =>
    cases dst with
    | none => trivial
    | some dst =>
      obtain ⟨F, there, defined⟩ := h
      obtain ⟨F', there', ret, -⟩ := later.signatures callee F there
      exact ⟨F', there', ret ▸ holds defined⟩

theorem RecordsParams.mono {F F' : Function} (h : m.RecordsParams F) (later : m.Later m')
    (params : F'.params = F.params) : m'.RecordsParams F' := by
  intro q hq
  rw [params] at hq
  exact (h q hq).mono later.values

end Module

namespace Builder

variable {b : Builder} {m : Module} {emits : Bool}

/-- After an effect every block has instructions from before, and what it has gained. -/
theorem Effect.insts_cases (e : b.Effect emits m) {c : BlockId} {data : Block}
    (there : m.block? c = some data) {i : Inst} (mem : i ∈ data.insts.toList) :
    m.Records i ∨ ∃ old, b.module.block? c = some old ∧ i ∈ old.insts.toList := by
  have same (blocks : m.blocks = b.module.blocks) :
      m.Records i ∨ ∃ old, b.module.block? c = some old ∧ i ∈ old.insts.toList := by
    rw [Module.block?, blocks] at there
    exact .inr ⟨data, there, mem⟩
  cases e with
  | quiet functions blocks issues => exact same blocks
  | declare F id bodiless params functions blocks issues => exact same blocks
  | drop issue functions blocks issues => exact same blocks
  | append f appended known function insts functions blocks issues =>
    rw [Module.block?, blocks, Array.getElem?_push] at there
    split at there
    · rw [← Option.some.inj there, insts] at mem
      cases mem
    · exact .inr ⟨data, there, mem⟩
  | insert d j change held gains records functions blocks issues =>
    rw [Module.block?, blocks, Module.block?_modify] at there
    split at there
    · obtain ⟨old, before, rfl⟩ := Option.map_eq_some_iff.1 there
      rcases List.mem_cons.1 ((gains old).insts.subset mem) with rfl | earlier
      · exact .inl records
      · exact .inr ⟨old, before, earlier⟩
    · exact .inr ⟨data, there, mem⟩
  | close d t isOpen functions blocks issues =>
    rw [Module.block?, blocks, Module.block?_modify] at there
    split at there
    · obtain ⟨old, before, rfl⟩ := Option.map_eq_some_iff.1 there
      exact .inr ⟨old, before, mem⟩
    · exact .inr ⟨data, there, mem⟩

/-- After an effect every function has its parameters from before, or recorded ones. -/
theorem Effect.params_cases (e : b.Effect emits m) {f : FunctionId} {F : Function}
    (there : m.function? f = some F) :
    m.RecordsParams F ∨ ∃ old, b.module.function? f = some old ∧ F.params = old.params := by
  have same (functions : m.functions = b.module.functions) :
      m.RecordsParams F ∨ ∃ old, b.module.function? f = some old ∧ F.params = old.params := by
    rw [Module.function?, functions] at there
    exact .inr ⟨F, there, rfl⟩
  cases e with
  | quiet functions => exact same functions
  | drop issue functions => exact same functions
  | insert d i change held gains records functions => exact same functions
  | close d t isOpen functions => exact same functions
  | declare G id bodiless params functions blocks issues =>
    rw [Module.function?, functions, Array.getElem?_push] at there
    split at there
    · exact .inl (Option.some.inj there ▸ params)
    · exact .inr ⟨F, there, rfl⟩
  | append g data known function insts functions blocks issues =>
    rw [Module.function?, functions, Array.getElem?_modify] at there
    split at there
    · obtain ⟨old, before, rfl⟩ := Option.map_eq_some_iff.1 there
      exact .inr ⟨old, before, rfl⟩
    · exact .inr ⟨F, there, rfl⟩

/-- What every command does keeps all values recorded with their types. -/
theorem Reachable.recorded (h : b.Reachable) : b.module.Recorded := by
  induction h with
  | empty =>
    constructor
    case insts =>
      intro c data there
      simp [Builder.empty, Module.empty, Module.block?] at there
    case params =>
      intro f F there
      simp [Builder.empty, Module.empty, Module.function?] at there
    case fixed =>
      intro v info there
      simp [Builder.empty, Module.empty, Module.value?] at there
  | @perform b r c reachable known ih =>
    have effect := reachable.effect known
    have later := reachable.later_perform known
    constructor
    case insts =>
      intro d data there i mem
      rcases effect.insts_cases there mem with new | ⟨old, before, earlier⟩
      · exact new
      · exact (ih.insts d old before i earlier).mono later
    case params =>
      intro f F there
      rcases effect.params_cases there with new | ⟨old, before, params⟩
      · exact new
      · exact (ih.params f old before).mono later params
    case fixed =>
      intro v info there
      obtain ⟨more, values, fits⟩ := b.values_perform c
      rw [Module.value?, ← Array.getElem?_toList, values, List.getElem?_append] at there
      split at there
      · exact ih.fixed v info (by rwa [Array.getElem?_toList] at there)
      · exact fits info (List.mem_of_getElem? there)

end Builder

end Decaf.IR
