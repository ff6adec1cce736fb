import Decaf.Proofs.Generation.Edit

/-!
# Commands as edits

What each building command does to the module of a builder that stands at an open block:
it adds an instruction or a terminator there, or a slot to the entry, or only a value.
-/

namespace Decaf.IR

namespace Module

variable {m : Module} {b : BlockId}

theorem block?_modify (blocks : Array Block) (change : Block → Block) (c : BlockId) :
    (blocks.modify b.index change)[c.index]? =
      if c = b then blocks[c.index]?.map change else blocks[c.index]? := by
  rw [Array.getElem?_modify]
  by_cases h : c = b
  · simp [h]
  · have : b.index ≠ c.index := fun same => h (by rw [BlockId.mk.injEq, same])
    simp [h, this]

theorem function?_modify (functions : Array Function) (f : FunctionId)
    (change : Function → Function) (g : FunctionId) :
    (functions.modify f.index change)[g.index]? =
      if g = f then functions[g.index]?.map change else functions[g.index]? := by
  rw [Array.getElem?_modify]
  by_cases h : g = f
  · simp [h]
  · have : f.index ≠ g.index := fun same => h (by rw [FunctionId.mk.injEq, same])
    simp [h, this]

/-- A change of one block, with new values and globals, is an edit. -/
theorem edit_of_modify {values : Array ValueInfo}
    {change : Block → Block} {slots : List (ValueId × Ty)} {code : List Inst}
    {terminator : Option Terminator} {data : Block} (there : m.block? b = some data)
    (hvalues : m.values.toList <+: values.toList)
    (function : ∀ d, (change d).function = d.function)
    (hslots : (change data).slots = data.slots ++ slots)
    (hcode : (change data).code = data.code ++ code)
    (hterm : (change data).terminator = terminator.or data.terminator)
    (horder : data.Ordered → (change data).Ordered)
    (new : ∀ s ∈ slots, m.values.size ≤ s.1.index) :
    m.Edit { m with values, blocks := m.blocks.modify b.index change } b slots code
      terminator := by
  have lookup (c : BlockId) : Module.block?
      { m with values, blocks := m.blocks.modify b.index change } c =
        if c = b then (m.block? c).map change else m.block? c :=
    block?_modify m.blocks change c
  have owners (c : BlockId) : Module.functionOf?
      { m with values, blocks := m.blocks.modify b.index change } c =
        m.functionOf? c := by
    simp only [functionOf?, lookup]
    split
    · simp [Function.comp_def, function]
    · rfl
  have slotsAt (c : BlockId) : Module.slotsOf
      { m with values, blocks := m.blocks.modify b.index change } c =
        m.slotsOf c ++ if c = b then slots else [] := by
    simp only [slotsOf, lookup]
    split
    · rename_i same
      simp [same, there, hslots]
    · simp
  exact {
    ext := {
      values := hvalues
      globals := List.prefix_refl _
      functions := fun f F hF => ⟨F, hF, ⟨rfl, rfl⟩, rfl, rfl⟩
      blocks := fun c f hc => (owners c).trans hc
      slots := fun c _ => by
        refine ⟨_, slotsAt c, fun s hs => ?_⟩
        split at hs
        · exact new s hs
        · cases hs }
    functions := rfl
    strings := .of_eq rfl
    issues := rfl
    size := Array.size_modify
    owners := owners
    slots := slotsAt
    code := fun c => by
      simp only [codeOf, lookup]
      split
      · rename_i same
        simp [same, there, hcode]
      · simp
    terms := fun c => by
      simp only [terminator?, lookup]
      split
      · rename_i same
        simp [same, there, hterm]
      · rfl
    order := fun c hc d hd => by
      rw [lookup] at hd
      split at hd
      · rename_i same
        subst same
        rw [there] at hd
        cases hd
        exact horder (hc data there)
      · exact hc d hd
    others := fun c hc => by simp [lookup, hc] }

theorem edit_values {values : Array ValueInfo} {globals : Array Global}
    (hvalues : m.values.toList <+: values.toList)
    (hglobals : m.globals.toList <+: globals.toList)
    (strings : m.StringsAfter { m with values, globals }) :
    m.Edit { m with values, globals } b [] [] none where
  ext := {
    values := hvalues
    globals := hglobals
    functions := fun f F hF => ⟨F, hF, ⟨rfl, rfl⟩, rfl, rfl⟩
    blocks := fun _ _ hc => hc
    slots := fun _ _ => ⟨[], by simp [slotsOf, block?], by simp⟩ }
  functions := rfl
  strings := strings
  issues := rfl
  size := rfl
  owners _ := rfl
  slots _ := by simp [slotsOf, block?]
  code _ := by simp [codeOf, block?]
  terms _ := by simp [terminator?, block?]
  order _ h := h
  others _ _ := rfl

theorem terminator?_of_block? {data : Block} (h : m.block? b = some data) :
    m.terminator? b = data.terminator := by
  simp [terminator?, h]

end Module

namespace Builder

variable {b : Builder} {block : BlockId} {f : FunctionId}

/-- The builder stands at a block of `f` that has no terminator. -/
structure StandsAt (b : Builder) (block : BlockId) (f : FunctionId) : Prop where
  here : b.insertion = some block
  owned : b.module.functionOf? block = some f
  isOpen : b.module.terminator? block = none

theorem isClosed_eq (owned : b.module.functionOf? block = some f) :
    b.isClosed block = (b.module.terminator? block).isSome := by
  obtain ⟨data, hdata, -⟩ := Module.functionOf?_eq_some.1 owned
  simp [isClosed, Module.terminator?, hdata]

theorem module_localName (b : Builder) (f : Option FunctionId) (hint : String) :
    (b.localName f hint).2.module = b.module := by
  unfold localName
  split <;> rfl

theorem insertion_localName (b : Builder) (f : Option FunctionId) (hint : String) :
    (b.localName f hint).2.insertion = b.insertion := by
  unfold localName
  split <;> rfl

theorem module_modifyBlock_push (b : Builder) (info : ValueInfo) (change : Block → Block) :
    ((b.pushValue info).2.modifyBlock block change).module =
      { b.module with
        values := b.module.values.push info
        blocks := b.module.blocks.modify block.index change } := rfl

namespace StandsAt

theorem extend (at_ : b.StandsAt block f) (change : Block → Block) :
    b.extend change = b.modifyBlock block change :=
  extend_of_open at_.here (by rw [isClosed_eq at_.owned, at_.isOpen]; rfl)

theorem insertionFunction? (at_ : b.StandsAt block f) : b.insertionFunction? = some f := by
  simp [Builder.insertionFunction?, at_.here, at_.owned]

theorem block? (at_ : b.StandsAt block f) :
    ∃ data, b.module.block? block = some data ∧ data.terminator = none := by
  obtain ⟨data, hdata, -⟩ := Module.functionOf?_eq_some.1 at_.owned
  exact ⟨data, hdata, by rw [← Module.terminator?_of_block? hdata, at_.isOpen]⟩

/-- An instruction that defines a value is put at the end of the block. -/
theorem emit (at_ : b.StandsAt block f) (ty : Ty) (hint : String) (inst : ValueId → Inst)
    (plain : ∀ v, (inst v).isAlloca = false) :
    (b.emit ty hint inst).1 = ⟨b.module.values.size⟩ ∧
    (b.emit ty hint inst).2.insertion = some block ∧
    b.module.Edit (b.emit ty hint inst).2.module block [] [inst ⟨b.module.values.size⟩] none ∧
    ∃ name, (b.emit ty hint inst).2.module.value? ⟨b.module.values.size⟩ =
      some ⟨ty, .inst (some block), name⟩ := by
  obtain ⟨data, hdata, -⟩ := at_.block?
  have named : (b.localName b.insertionFunction? hint).2.module = b.module :=
    module_localName ..
  have here : (b.localName b.insertionFunction? hint).2.insertion = some block :=
    (insertion_localName ..).trans at_.here
  have module_eq : (b.emit ty hint inst).2.module = { b.module with
      values := b.module.values.push
        ⟨ty, .inst (some block), (b.localName b.insertionFunction? hint).1⟩
      blocks := b.module.blocks.modify block.index
        (Block.push (inst ⟨b.module.values.size⟩)) } := by
    have stands : ((b.localName b.insertionFunction? hint).2.pushValue
        ⟨ty, .inst (some block), (b.localName b.insertionFunction? hint).1⟩).2.StandsAt
          block f := by
      refine ⟨here, ?_, ?_⟩
      · exact (congrArg (·.functionOf? block) named).trans at_.owned
      · exact (congrArg (·.terminator? block) named).trans at_.isOpen
    simp only [Builder.emit, here]
    rw [stands.extend, module_modifyBlock_push, named]
    simp only [pushValue, named]
  refine ⟨?_, ?_, ?_, ?_⟩
  · simp only [Builder.emit, pushValue, named]
  · simp only [Builder.emit, insertion_extend, pushValue, here]
  · rw [module_eq]
    exact Module.edit_of_modify hdata (by simp) (fun _ => rfl)
      (by simp [Block.slots_push (plain _)]) (Block.code_push (plain _)) rfl
      (fun h => h.push (plain _)) (by simp)
  · rw [module_eq]
    exact ⟨_, Array.getElem?_push_size⟩

theorem push (at_ : b.StandsAt block f) {i : Inst} (plain : i.isAlloca = false) :
    b.module.Edit (b.extend (Block.push i)).module block [] [i] none := by
  obtain ⟨data, hdata, -⟩ := at_.block?
  rw [at_.extend]
  exact Module.edit_of_modify hdata (List.prefix_refl _) (fun _ => rfl)
    (by simp [Block.slots_push plain]) (Block.code_push plain) rfl (fun h => h.push plain)
    (by simp)

theorem close (at_ : b.StandsAt block f) (t : Terminator) :
    b.module.Edit (b.extend (Block.close t)).module block [] [] (some t) := by
  obtain ⟨data, hdata, -⟩ := at_.block?
  rw [at_.extend]
  exact Module.edit_of_modify hdata (List.prefix_refl _) (fun _ => rfl)
    (List.append_nil _).symm (List.append_nil _).symm rfl id (by simp)

/-- A slot is reserved in the entry, whatever block the builder stands at. -/
theorem alloca (at_ : b.StandsAt block f) {F : Function} {entry : BlockId}
    (hF : b.module.function? f = some F) (hentry : F.entry? = some entry) {g : FunctionId}
    (there : b.module.functionOf? entry = some g) (order : b.module.OrderedAt entry) (ty : Ty)
    (hint : String) :
    (b.alloca ty hint).1 = ⟨b.module.values.size⟩ ∧
    (b.alloca ty hint).2.insertion = some block ∧
    b.module.Edit (b.alloca ty hint).2.module entry [(⟨b.module.values.size⟩, ty)] [] none ∧
    ∃ name, (b.alloca ty hint).2.module.value? ⟨b.module.values.size⟩ =
      some ⟨.ptr, .inst (some entry), name⟩ := by
  obtain ⟨data, hdata, -⟩ := Module.functionOf?_eq_some.1 there
  have ordered := order data hdata
  have found : (b.insertionFunction?.bind b.module.function?).bind Function.entry? =
      some entry := by
    simp [at_.insertionFunction?, hF, hentry]
  have named : (b.localName b.insertionFunction? hint).2.module = b.module :=
    module_localName ..
  have here : (b.localName b.insertionFunction? hint).2.insertion = some block :=
    (insertion_localName ..).trans at_.here
  have module_eq : (b.alloca ty hint).2.module = { b.module with
      values := b.module.values.push
        ⟨.ptr, .inst (some entry), (b.localName b.insertionFunction? hint).1⟩
      blocks := b.module.blocks.modify entry.index
        (Block.hoist (.alloca ⟨b.module.values.size⟩ ty)) } := by
    simp only [Builder.alloca, found]
    rw [module_modifyBlock_push, named]
    simp only [pushValue, named]
  refine ⟨?_, ?_, ?_, ?_⟩
  · simp only [Builder.alloca, found, pushValue, named]
  · simpa only [Builder.alloca, found, pushValue, modifyBlock] using here
  · rw [module_eq]
    exact Module.edit_of_modify hdata (by simp) (fun _ => rfl)
      (Block.slots_hoist ordered _ _) (by simp [Block.code_hoist ordered]) rfl
      (fun h => h.hoist _ _) (by simp)
  · rw [module_eq]
    exact ⟨_, Array.getElem?_push_size⟩

end StandsAt

theorem edit_pushValue (b : Builder) (block : BlockId) (info : ValueInfo) :
    b.module.Edit (b.pushValue info).2.module block [] [] none ∧
      (b.pushValue info).2.module.value? ⟨b.module.values.size⟩ = some info :=
  ⟨Module.edit_values (by simp) (List.prefix_refl _) (.of_eq rfl),
    by simp [pushValue, Module.value?]⟩

/-- The address of a new global. -/
theorem isGlobal_pushGlobal (b : Builder) (hint : String) (kind : GlobalKind) :
    (b.pushGlobal hint kind).2.module.IsGlobal (b.pushGlobal hint kind).1 kind :=
  ⟨⟨b.module.globals.size⟩, some (b.symbols.unique hint).1,
    ⟨⟨b.module.globals.size⟩, (b.symbols.unique hint).1, kind, ⟨b.module.values.size⟩⟩,
    Array.getElem?_push_size, Array.getElem?_push_size, rfl⟩

/-- A further string changes no block. -/
theorem edit_pushString (b : Builder) (block : BlockId) (hint : String) (bytes : List UInt8) :
    b.module.Edit (b.pushGlobal hint (.string bytes)).2.module block [] [] none := by
  refine Module.edit_values (by simp) (by simp) fun i G hG => ?_
  rw [Array.getElem?_push] at hG
  split at hG
  · cases hG
    exact .inr ⟨bytes, rfl⟩
  · exact .inl hG

/-- A new block belongs to the function it was appended to, and is empty. -/
theorem appendBlock_append (b : Builder) (f : FunctionId) (hint : String) :
    b.module.Append (b.appendBlock f hint).2.module f (b.appendBlock f hint).1 ∧
      (b.appendBlock f hint).2.insertion = b.insertion := by
  have module_eq : (b.appendBlock f hint).2.module = { b.module with
      blocks := b.module.blocks.push ⟨⟨b.module.blocks.size⟩, f,
        (b.localName (some f) hint).1.getD hint, #[], none⟩
      functions := b.module.functions.modify f.index fun function =>
        { function with blocks := function.blocks.push ⟨b.module.blocks.size⟩ } } := by
    simp only [appendBlock, module_localName]
  have id : (b.appendBlock f hint).1 = ⟨b.module.blocks.size⟩ := rfl
  have functions (g : FunctionId) : (b.appendBlock f hint).2.module.function? g =
      if g = f then (b.module.function? g).map fun function =>
        { function with blocks := function.blocks.push ⟨b.module.blocks.size⟩ }
      else b.module.function? g := by
    rw [module_eq]
    exact Module.function?_modify ..
  have others (c : BlockId) (h : c ≠ ⟨b.module.blocks.size⟩) :
      (b.appendBlock f hint).2.module.block? c = b.module.block? c := by
    have : c.index ≠ b.module.blocks.size := fun same => h (by rw [← same])
    rw [module_eq]
    simp [Module.block?, Array.getElem?_push, this]
  have held {c : BlockId} (owned : b.module.functionOf? c ≠ none) :
      c ≠ ⟨b.module.blocks.size⟩ := by
    rintro rfl
    simp [Module.functionOf?, Module.block?] at owned
  refine ⟨?_, by simp [appendBlock, insertion_localName]⟩
  rw [id]
  exact {
    ext := {
      values := by simp only [module_eq]; exact List.prefix_refl _
      globals := by simp only [module_eq]; exact List.prefix_refl _
      functions := fun g G hG => by
        rw [functions]
        split
        · rw [hG]
          exact ⟨_, rfl, ⟨rfl, rfl⟩, rfl, rfl⟩
        · exact ⟨G, hG, ⟨rfl, rfl⟩, rfl, rfl⟩
      blocks := fun c g hc => by
        rwa [Module.functionOf?, others c (held (by simp [hc]))]
      slots := fun c hc => ⟨[], by simp [Module.slotsOf, others c (held hc)], by simp⟩ }
    globals := by rw [module_eq]
    issues := by rw [module_eq]
    position := rfl
    size := by rw [module_eq]; exact Array.size_push _
    block := ⟨_, by rw [module_eq]; exact Array.getElem?_push_size⟩
    others := others
    function := fun F hF => by rw [functions, if_pos rfl, hF]; rfl
    functions := fun g hg => by rw [functions, if_neg hg] }

end Builder

end Decaf.IR
