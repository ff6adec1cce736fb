import Decaf.Proofs.Building.Coherence
import Decaf.Proofs.Building.Locality
import Decaf.Proofs.Generation.Parallels

/-!
# Generating code into a builder in use

Code can be generated into a builder that already holds functions, stands in the middle of one
of them, or has recorded issues. Whatever program is generated there, and wherever generating it
stops, what the builder held stays as it was: code goes to blocks of functions that were declared
on the way, and to nothing else.
-/

namespace Decaf

open IR

namespace IR

section Arrays

variable {α : Type} {xs ys : Array α} (h : xs.toList <+: ys.toList)

include h

theorem prefix_push (a : α) : xs.toList <+: (ys.push a).toList := by
  rw [Array.toList_push]
  exact h.trans (List.prefix_append _ _)

theorem prefix_modify {i : Nat} (far : xs.size ≤ i) (change : α → α) :
    xs.toList <+: (ys.modify i change).toList := by
  rw [List.prefix_iff_getElem?] at h ⊢
  intro j hj
  have apart : i ≠ j := by
    rw [Array.length_toList] at hj
    omega
  rw [← h j hj, Array.getElem?_toList, Array.getElem?_toList, Array.getElem?_modify, if_neg apart]

theorem prefix_setIfInBounds {i : Nat} (far : xs.size ≤ i) (a : α) :
    xs.toList <+: (ys.setIfInBounds i a).toList := by
  rw [List.prefix_iff_getElem?] at h ⊢
  intro j hj
  have apart : i ≠ j := by
    rw [Array.length_toList] at hj
    omega
  rw [← h j hj, Array.getElem?_toList, Array.getElem?_toList, Array.getElem?_setIfInBounds,
    if_neg apart]

end Arrays

namespace Builder

/-- Every function has a table of the names inside it. -/
def Aligned (b : Builder) : Prop :=
  b.locals.size = b.module.functions.size

namespace Aligned

variable {b : Builder} (h : b.Aligned)

include h

theorem localName (f : Option FunctionId) (hint : String) : (b.localName f hint).2.Aligned := by
  unfold Builder.localName
  split
  · exact Array.size_setIfInBounds.trans h
  · exact h

theorem extend (change : Block → Block) : (b.extend change).Aligned := by
  unfold Builder.extend
  split
  · exact h
  · split <;> exact h

theorem emit (ty : Ty) (hint : String) (inst : ValueId → Inst) :
    (b.emit ty hint inst).2.Aligned := by
  unfold Builder.emit
  exact extend (b := (pushValue _ _).2) (h.localName b.insertionFunction? hint) _

theorem alloca (ty : Ty) (hint : String) : (b.alloca ty hint).2.Aligned := by
  unfold Builder.alloca
  dsimp only
  split <;> exact h.localName b.insertionFunction? hint

theorem call (callee : FunctionId) (args : List ValueId) : (b.call callee args).2.Aligned := by
  unfold Builder.call
  dsimp only
  split
  · exact h.extend _
  · exact h.emit _ "call" fun dst => .call (some dst) callee args

theorem perform {r : Reply} (c : Command r) : (b.perform c).2.Aligned := by
  cases c with
  | declareFunction name ret params =>
    exact (Array.size_push _).trans ((congrArg (· + 1) h).trans (Array.size_push _).symm)
  | appendBlock f hint =>
    exact (h.localName (some f) hint).trans Array.size_modify.symm
  | alloca ty hint => exact h.alloca ty hint
  | call callee args => exact h.call callee args
  | terminate | store => exact h.extend _
  | load | elementPtr | binary | unary | zext | phi => exact h.emit _ _ _
  | _ => exact h

end Aligned

theorem Reachable.aligned {b : Builder} (h : b.Reachable) : b.Aligned := by
  induction h with
  | empty => rfl
  | perform c _ _ ih => exact ih.perform c

/-- All that `b` holds stands unchanged in `b'`, before what is new there. -/
structure Conserves (b b' : Builder) : Prop where
  functions : b.module.functions.toList <+: b'.module.functions.toList
  blocks : b.module.blocks.toList <+: b'.module.blocks.toList
  values : b.module.values.toList <+: b'.module.values.toList
  globals : b.module.globals.toList <+: b'.module.globals.toList
  issues : b.module.issues.toList <+: b'.module.issues.toList
  /-- The names that were handed out inside functions, and those of the symbols. -/
  locals : b.locals.toList <+: b'.locals.toList
  symbols : b.symbols.used <:+ b'.symbols.used

/-- Moreover what is new concerns new functions only. -/
structure Beside (b b' : Builder) : Prop extends b.Conserves b' where
  aligned : b.Aligned
  owners : ∀ c f, b.module.blocks.size ≤ c.index → b'.module.functionOf? c = some f →
    b.module.functions.size ≤ f.index
  bodies : ∀ f F, b.module.functions.size ≤ f.index → b'.module.function? f = some F →
    ∀ c ∈ F.blocks, b.module.blocks.size ≤ c.index
  complaints : ∀ i ∈ b'.module.issues.toList.drop b.module.issues.size, ∀ f, i.1 = some f →
    b.module.functions.size ≤ f.index

/-- And the builder stands in a block that is new. -/
structure Within (b b' : Builder) : Prop extends b.Beside b' where
  here : ∃ c, b'.insertion = some c ∧ b.module.blocks.size ≤ c.index

variable {b t t' : Builder}

theorem beside_refl (aligned : b.Aligned) : b.Beside b where
  functions := List.prefix_refl _
  blocks := List.prefix_refl _
  values := List.prefix_refl _
  globals := List.prefix_refl _
  issues := List.prefix_refl _
  locals := List.prefix_refl _
  symbols := List.suffix_refl _
  aligned := aligned
  owners c f far owned := by
    have := Module.index_lt_of_functionOf? owned
    omega
  bodies f F far there := by
    have := (Array.getElem?_eq_some_iff.1 there).1
    omega
  complaints i hi := by
    have none : b.module.issues.toList.drop b.module.issues.size = [] :=
      List.drop_eq_nil_of_le (Nat.le_of_eq Array.length_toList)
    rw [none] at hi
    cases hi

namespace Beside

variable (h : b.Beside t)

include h

/-- Values, globals and names may be added. -/
theorem alike (same : t.Alike t') (values : t.module.values.toList <+: t'.module.values.toList)
    (globals : t.module.globals.toList <+: t'.module.globals.toList)
    (locals : b.locals.toList <+: t'.locals.toList) (symbols : t.symbols.used <:+ t'.symbols.used) :
    b.Beside t' where
  functions := same.functions.symm ▸ h.functions
  blocks := same.blocks.symm ▸ h.blocks
  values := h.values.trans values
  globals := h.globals.trans globals
  issues := same.issues.symm ▸ h.issues
  locals := locals
  symbols := h.symbols.trans symbols
  aligned := h.aligned
  owners c f far owned := by
    rw [Module.functionOf?, same.block?] at owned
    exact h.owners c f far owned
  bodies f F far there := by
    rw [Module.function?, same.functions] at there
    exact h.bodies f F far there
  complaints := same.issues.symm ▸ h.complaints

theorem pushValue (info : ValueInfo) : b.Beside (t.pushValue info).2 :=
  h.alike ⟨rfl, rfl, rfl, rfl⟩ (prefix_push (List.prefix_refl _) info) (List.prefix_refl _) h.locals
    (List.suffix_refl _)

theorem localName {f : Option FunctionId}
    (far : ∀ g, f = some g → b.module.functions.size ≤ g.index) (hint : String) :
    b.Beside (t.localName f hint).2 := by
  have same := module_localName t f hint
  have locals : b.locals.toList <+: (t.localName f hint).2.locals.toList ∧
      (t.localName f hint).2.symbols = t.symbols := by
    unfold Builder.localName
    split
    · rename_i g names found
      obtain ⟨f', rfl, there⟩ := Option.bind_eq_some_iff.1 found
      obtain ⟨table, -, both⟩ := Option.map_eq_some_iff.1 there
      obtain rfl : f' = g := congrArg Prod.fst both
      exact ⟨prefix_setIfInBounds h.locals (Nat.le_trans (Nat.le_of_eq h.aligned) (far f' rfl)) _, rfl⟩
    · exact ⟨h.locals, rfl⟩
  exact h.alike (t.alike_localName f hint) (same.symm ▸ List.prefix_refl _)
    (same.symm ▸ List.prefix_refl _) locals.1 (locals.2.symm ▸ List.suffix_refl _)

theorem modifyBlock {c : BlockId} (far : b.module.blocks.size ≤ c.index) {change : Block → Block}
    (keeps : ∀ d, (change d).function = d.function) : b.Beside (t.modifyBlock c change) :=
  { h with
    blocks := prefix_modify h.blocks far change
    owners := fun d f hd owned => by
      rw [functionOf?_modify (m := t.module) rfl keeps] at owned
      exact h.owners d f hd owned }

theorem record (far : ∀ f, t.insertionFunction? = some f → b.module.functions.size ≤ f.index)
    (issue : EmitIssue) : b.Beside (t.record issue) :=
  { h with
    issues := prefix_push h.issues _
    complaints := fun i hi f owned => by
      have held := h.issues.length_le
      rw [Array.length_toList] at held
      simp only [Builder.record, Array.toList_push] at hi
      rw [List.drop_append_of_le_length held] at hi
      rcases List.mem_append.1 hi with old | new
      · exact h.complaints i old f owned
      · rw [List.mem_singleton.1 new] at owned
        exact far f owned }

theorem pushGlobal (hint : String) (kind : GlobalKind) : b.Beside (t.pushGlobal hint kind).2 :=
  h.alike ⟨rfl, rfl, rfl, rfl⟩ (prefix_push (List.prefix_refl _) _)
    (prefix_push (List.prefix_refl _) _) h.locals
    ((NameTable.used_unique t.symbols hint).symm ▸ List.suffix_cons _ _)

theorem declareFunction (name : String) (ret : Ty) (params : List (Option String × Ty)) :
    b.Beside (t.declareFunction name ret params).2 where
  functions := prefix_push h.functions _
  blocks := h.blocks
  values := by
    simp only [Builder.declareFunction, Array.toList_appendList]
    exact h.values.trans (List.prefix_append _ _)
  globals := h.globals
  issues := h.issues
  locals := prefix_push h.locals _
  symbols := h.symbols.trans ((NameTable.used_unique t.symbols name).symm ▸ List.suffix_cons _ _)
  aligned := h.aligned
  owners := h.owners
  bodies f F far there c hc := by
    have pushed : (t.declareFunction name ret params).2.module.function? f =
        (t.module.functions.push _)[f.index]? := rfl
    rw [pushed, Array.getElem?_push] at there
    split at there
    · cases there
      exact absurd hc (Array.not_mem_empty c)
    · exact h.bodies f F far there c hc
  complaints := h.complaints

theorem appendBlock {f : FunctionId} (far : b.module.functions.size ≤ f.index) (hint : String) :
    b.Beside (t.appendBlock f hint).2 := by
  have named := h.localName (f := some f) (fun g hg => by cases hg; exact far) hint
  have same := module_localName t (some f) hint
  have size : b.module.blocks.size ≤ (t.localName (some f) hint).2.module.blocks.size :=
    Module.size_le_of_start named.blocks
  refine { named with
    functions := prefix_modify named.functions far _
    blocks := prefix_push named.blocks _
    owners := fun c g hc owned => ?_
    bodies := fun g F hg there c hc => ?_ }
  · have pushed : (t.appendBlock f hint).2.module.block? c =
        ((t.localName (some f) hint).2.module.blocks.push _)[c.index]? := rfl
    rw [Module.functionOf?, pushed, Array.getElem?_push] at owned
    split at owned
    · cases owned
      exact far
    · exact named.owners c g hc owned
  · have changed : (t.appendBlock f hint).2.module.function? g =
        ((t.localName (some f) hint).2.module.functions.modify f.index _)[g.index]? := rfl
    rw [changed, Array.getElem?_modify] at there
    split at there
    · obtain ⟨G, hG, rfl⟩ := Option.map_eq_some_iff.1 there
      rcases Array.mem_push.1 hc with old | rfl
      · exact named.bodies g G hg hG c old
      · exact same ▸ size
    · exact named.bodies g F hg there c hc

end Beside

namespace Within

variable (h : b.Within t)

include h

theorem owner {f : FunctionId} (hf : t.insertionFunction? = some f) :
    b.module.functions.size ≤ f.index := by
  obtain ⟨c, here, far⟩ := h.here
  rw [insertionFunction?, here] at hf
  exact h.owners c f far hf

/-- Where the builder stands is kept. -/
theorem stay (beside : b.Beside t') (insertion : t'.insertion = t.insertion) : b.Within t' :=
  { beside with here := insertion.symm ▸ h.here }

theorem extend {change : Block → Block} (keeps : ∀ d, (change d).function = d.function) :
    b.Within (t.extend change) := by
  refine h.stay ?_ (insertion_extend t change)
  obtain ⟨c, here, far⟩ := h.here
  simp only [Builder.extend, here]
  split
  · exact h.toBeside.record (fun _ => h.owner) _
  · exact h.toBeside.modifyBlock far keeps

theorem named (hint : String) (info : Option String → ValueInfo) :
    b.Within ((t.localName t.insertionFunction? hint).2.pushValue
      (info (t.localName t.insertionFunction? hint).1)).2 :=
  h.stay ((h.toBeside.localName (fun _ => h.owner) hint).pushValue _)
    (insertion_localName t t.insertionFunction? hint)

theorem emit (ty : Ty) (hint : String) (inst : ValueId → Inst) :
    b.Within (t.emit ty hint inst).2 :=
  (h.named hint fun name => ⟨ty, .inst _, name⟩).extend fun _ => rfl

theorem alloca (ty : Ty) (hint : String) : b.Within (t.alloca ty hint).2 := by
  have named := h.named hint fun name =>
    ⟨.ptr, .inst ((t.insertionFunction?.bind t.module.function?).bind Function.entry?), name⟩
  cases entry : (t.insertionFunction?.bind t.module.function?).bind Function.entry? with
  | none =>
    rw [entry] at named
    simp only [Builder.alloca, entry]
    exact named.stay (named.toBeside.record (fun _ => named.owner) _) rfl
  | some c =>
    obtain ⟨F, there, first⟩ := Option.bind_eq_some_iff.1 entry
    obtain ⟨f, owner, hF⟩ := Option.bind_eq_some_iff.1 there
    have far := h.bodies f F (h.owner owner) hF c (Array.mem_of_getElem? first)
    rw [entry] at named
    simp only [Builder.alloca, entry]
    exact named.stay (named.toBeside.modifyBlock far fun _ => rfl) rfl

theorem call (callee : FunctionId) (args : List ValueId) :
    b.Within (t.call callee args).2 := by
  unfold Builder.call
  dsimp only
  split
  · exact h.extend fun _ => rfl
  · exact h.emit _ "call" fun dst => .call (some dst) callee args

end Within

end Builder

end IR

namespace Matching

/-- Every id stands for itself. Only blocks and functions that `b` does not hold are built. -/
def beyond (b : Builder) : Matching where
  line := Eq
  value := Eq
  block c c' := c' = c ∧ b.module.blocks.size ≤ c.index
  function f f' := f' = f ∧ b.module.functions.size ≤ f.index
  body f f' := f' = f ∧ b.module.functions.size ≤ f.index
  given := ([], [])

theorem beyond_diagonal (b : Builder) : (beyond b).Diagonal :=
  ⟨Eq.symm, And.left, And.left, And.left⟩

end Matching

section

variable {b t t' : Builder}

/-- What a body is built by stays within blocks that are new. -/
theorem IR.Builder.Within.perform (h : b.Within t) {r : Reply} {c c' : Command r}
    (related : (Matching.beyond b).command c c') :
    (Matching.beyond b).reply r (t.perform c).1 (t.perform c).1 ∧ b.Within (t.perform c).2 := by
  cases related with
  | appendBlock hint function =>
    refine ⟨⟨rfl, ?_⟩, h.stay (h.toBeside.appendBlock function.2 hint) (insertion_localName ..)⟩
    exact Module.size_le_of_start h.blocks
  | positionAtEnd block =>
    exact ⟨trivial, { h.toBeside.alike ⟨rfl, rfl, rfl, rfl⟩ (List.prefix_refl _) (List.prefix_refl _)
      h.locals (List.suffix_refl _) with here := ⟨_, rfl, block.2⟩ }⟩
  | terminate terminator => exact ⟨trivial, h.extend fun _ => rfl⟩
  | alloca ty hint => exact ⟨rfl, h.alloca ty hint⟩
  | store value address => exact ⟨trivial, h.extend fun _ => rfl⟩
  | call function values => exact ⟨optionRel_refl (fun _ => rfl) _, h.call _ _⟩
  | globalString contents => exact ⟨rfl, h.stay (h.toBeside.pushGlobal _ _) rfl⟩
  | const c => exact ⟨rfl, h.stay (h.toBeside.pushValue _) rfl⟩
  | load | elementPtr | binary | unary | zext | phi => exact ⟨rfl, h.emit _ _ _⟩

theorem simulates_beyond (b : Builder) : SimulatesPrograms (Matching.beyond b)
    (fun t t' => t' = t ∧ b.Beside t) (fun t t' => t' = t ∧ b.Within t) where
  inside := {
    perform := by
      rintro t _ r c c' ⟨rfl, within⟩ commands
      rw [(Matching.beyond_diagonal b).command commands]
      exact ⟨(within.perform commands).1, rfl, (within.perform commands).2⟩
    isTerminated := by
      rintro t _ ⟨rfl, -⟩
      rfl
    insertion := by
      rintro t _ ⟨rfl, within⟩
      obtain ⟨c, here, far⟩ := within.here
      show Option.Rel _ (Builder.insertion _) (Builder.insertion _)
      rw [here]
      exact .some ⟨rfl, far⟩
    typeOf := by
      rintro t _ v _ ⟨rfl, -⟩ rfl
      rfl
    parameter? := by
      rintro t _ f _ ⟨rfl, -⟩ ⟨rfl, -⟩ i
      exact optionRel_refl (fun _ => rfl) _
    checkFunction := by
      rintro t _ f _ ⟨rfl, -⟩ ⟨rfl, -⟩
      rfl }
  declares := by
    rintro t _ r c ⟨rfl, beside⟩ declaring
    cases declaring with
    | setModuleName name =>
      exact ⟨trivial, rfl, beside.alike ⟨rfl, rfl, rfl, rfl⟩ (List.prefix_refl _)
        (List.prefix_refl _) beside.locals (List.suffix_refl _)⟩
    | declareFunction name ret params =>
      exact ⟨⟨rfl, Module.size_le_of_start beside.functions⟩, rfl,
        beside.declareFunction name ret params⟩
    | globalScalar hint ty init => exact ⟨rfl, rfl, beside.pushGlobal _ _⟩
    | globalArray hint ty length => exact ⟨rfl, rfl, beside.pushGlobal _ _⟩
  bodies functions := functions
  enter := by
    rintro t _ f _ ⟨rfl, beside⟩ ⟨rfl, far⟩
    refine ⟨rfl, { (beside.appendBlock far "entry").alike ⟨rfl, rfl, rfl, rfl⟩ (List.prefix_refl _)
      (List.prefix_refl _) (beside.appendBlock far "entry").locals (List.suffix_refl _) with
      here := ⟨_, rfl, ?_⟩ }⟩
    exact Module.size_le_of_start beside.blocks
  leave := fun ⟨same, within⟩ => ⟨same, within.toBeside⟩

theorem generate_beside (aligned : b.Aligned) (o : Options) (P : Program) :
    b.Beside (generate o P b).2 := by
  cases package : P.package with
  | none =>
    simp only [generate, package]
    exact Builder.beside_refl aligned
  | some p =>
    rw [generate_eq_map package]
    obtain ⟨-, after⟩ := (simulates_beyond b).program o
      (forall₂_refl (ExternDecl.like_refl fun _ => rfl) P.externs) (p.like_refl fun _ => rfl)
      (.start b) (.start b)
      ⟨⟨rfl, Builder.beside_refl aligned⟩, ⟨Matching.bindings_nil, .nil⟩, .nil, [], [], rfl, rfl, .nil⟩
    exact after.target.2

end

namespace IR.Module

variable {m : Module}

theorem HasInst.hasValue {i : Inst} (h : m.HasInst i) {v : ValueId} (hv : v ∈ i.operands) :
    m.HasValue v := by
  cases i with
  | alloca dst ty => cases hv
  | load dst ty address =>
    obtain rfl : v = address := by simpa [Inst.operands] using hv
    exact h.2
  | store value address =>
    rcases (by simpa [Inst.operands] using hv : v = value ∨ v = address) with rfl | rfl
    · exact h.1
    · exact h.2
  | elementPtr dst ty base index =>
    rcases (by simpa [Inst.operands] using hv : v = base ∨ v = index) with rfl | rfl
    · exact h.2.1
    · exact h.2.2
  | binary dst op lhs rhs =>
    rcases (by simpa [Inst.operands] using hv : v = lhs ∨ v = rhs) with rfl | rfl
    · exact h.2.1
    · exact h.2.2
  | unary dst op operand =>
    obtain rfl : v = operand := by simpa [Inst.operands] using hv
    exact h.2
  | zext dst value ty =>
    obtain rfl : v = value := by simpa [Inst.operands] using hv
    exact h.2
  | phi dst ty incoming =>
    obtain ⟨i, hi, rfl⟩ := List.mem_map.1 hv
    exact (h.2 i hi).1
  | call dst callee args => exact h.2.2 v hv

theorem HasTerminator.hasValue {t : Terminator} (h : m.HasTerminator t) {v : ValueId}
    (hv : v ∈ t.operands) : m.HasValue v := by
  cases t with
  | br target => cases hv
  | condBr cond thenBlock elseBlock =>
    obtain rfl : v = cond := by simpa [Terminator.operands] using hv
    exact h.1
  | ret value => exact h v (by simpa [Terminator.operands] using hv)
  | unreachable => cases hv

end IR.Module

namespace IR.Builder

variable {b t : Builder} (coherent : b.module.Coherent) (h : b.Beside t)

include h

theorem Beside.functionOf?_of_held {c : BlockId} (held : b.module.HasBlock c) :
    t.module.functionOf? c = b.module.functionOf? c := by
  have there : b.module.block? c = some b.module.blocks[c.index] := Array.getElem?_eq_getElem held
  have there' : t.module.block? c = some b.module.blocks[c.index] :=
    Module.getElem?_of_prefix h.blocks there
  rw [Module.functionOf?, there', Module.functionOf?, there]

theorem Beside.labelOf_of_held {c : BlockId} (held : b.module.HasBlock c) :
    t.module.labelOf c = b.module.labelOf c := by
  have there : b.module.block? c = some b.module.blocks[c.index] := Array.getElem?_eq_getElem held
  have there' : t.module.block? c = some b.module.blocks[c.index] :=
    Module.getElem?_of_prefix h.blocks there
  rw [Module.labelOf, there', Module.labelOf, there]

include coherent

theorem Beside.checkedType_of_held {v : ValueId} (held : b.module.HasValue v) (f : FunctionId) :
    t.module.checkedType f v = b.module.checkedType f v := by
  have there : b.module.value? v = some b.module.values[v.index] := Array.getElem?_eq_getElem held
  have there' : t.module.value? v = some b.module.values[v.index] :=
    Module.getElem?_of_prefix h.values there
  have origin := coherent.origins _ (Array.mem_toList_iff.2 (Array.mem_of_getElem? there))
  have owner : t.module.owner? v = b.module.owner? v := by
    rw [Module.owner?, there', Module.owner?, there]
    revert origin
    generalize b.module.values[v.index] = info
    obtain ⟨ty, origin, name⟩ := info
    intro inRange
    cases origin with
    | inst block =>
      cases block with
      | none => rfl
      | some c => exact h.functionOf?_of_held (inRange c rfl)
    | _ => rfl
  have type : t.module.typeOf v = b.module.typeOf v := by
    rw [Module.typeOf, there', Module.typeOf, there]
  rw [Module.checkedType, owner, type, Module.checkedType]

/-- The first issue inside a function that was there is still the first, as all later ones are
about new functions. -/
theorem Beside.checkIssues_of_held {f : FunctionId} (held : b.HasFunction f) :
    t.module.checkIssues f = b.module.checkIssues f := by
  have first : t.module.issueOf? f = b.module.issueOf? f := by
    have split := List.take_append_drop b.module.issues.size t.module.issues.toList
    have before : t.module.issues.toList.take b.module.issues.size = b.module.issues.toList := by
      obtain ⟨more, all⟩ := h.issues
      rw [← all, List.take_left' Array.length_toList]
    have none : (t.module.issues.toList.drop b.module.issues.size).find? (·.1 = some f) = none := by
      refine List.find?_eq_none.2 fun i hi same => ?_
      have far := h.complaints i hi f (of_decide_eq_true same)
      have : f.index < b.module.functions.size := held
      omega
    rw [before] at split
    rw [Module.issueOf?, ← Array.find?_toList, ← split, List.find?_append, none, Option.or_none,
      Module.issueOf?, ← Array.find?_toList]
  unfold Module.checkIssues
  rw [first]
  cases found : b.module.issueOf? f with
  | none => rfl
  | some issue =>
    cases issue with
    | noInsertionPoint => rfl
    | afterTerminator c =>
      obtain ⟨i, hi, same⟩ := Option.map_eq_some_iff.1 found
      have inRange := coherent.issues i (Array.mem_toList_iff.2 (Array.mem_of_find?_eq_some hi))
      simp only [h.labelOf_of_held (inRange.2 c same)]

/-- All that the check of a function reads was there and is unchanged. -/
theorem Beside.agrees {f : FunctionId} (held : b.HasFunction f) :
    b.module.Agrees t.module f := by
  have there : b.module.function? f = some b.module.functions[f.index] :=
    Array.getElem?_eq_getElem held
  have block {c : BlockId} (hc : c ∈ b.module.blocksOf f) : ∃ d, b.module.block? c = some d ∧
      t.module.block? c = some d ∧ b.module.Houses d := by
    simp only [Module.blocksOf, there] at hc
    have inRange := coherent.lists _ (Array.mem_toList_iff.2 (Array.mem_of_getElem? there)) c hc
    have found : b.module.block? c = some b.module.blocks[c.index] :=
      Array.getElem?_eq_getElem inRange
    exact ⟨_, found, Module.getElem?_of_prefix h.blocks found,
      coherent.houses _ (Array.mem_toList_iff.2 (Array.mem_of_getElem? found))⟩
  have inst {c : BlockId} (hc : c ∈ b.module.blocksOf f) {i : Inst}
      (hi : i ∈ b.module.instsOf c) : b.module.HasInst i := by
    obtain ⟨d, found, -, houses⟩ := block hc
    simp only [Module.instsOf, found, Option.map_some, Option.getD_some] at hi
    exact houses.insts i hi
  constructor
  case function => rw [there, Module.function?, Module.getElem?_of_prefix h.functions there]
  case issues => exact h.checkIssues_of_held coherent held
  case owner =>
    intro c
    by_cases inRange : c.index < b.module.blocks.size
    · rw [h.functionOf?_of_held inRange]
    · have none : b.module.functionOf? c ≠ some f := fun owned =>
        inRange (Module.index_lt_of_functionOf? owned)
      refine iff_of_false (fun owned => ?_) none
      have far := h.owners c f (Nat.le_of_not_lt inRange) owned
      have : f.index < b.module.functions.size := held
      omega
  case block =>
    intro c hc
    obtain ⟨d, found, found', -⟩ := block hc
    rw [found, found']
  case operand =>
    intro c hc i hi v hv
    exact h.checkedType_of_held coherent (Module.HasInst.hasValue (inst hc hi) hv) f
  case exit =>
    intro c hc u hu v hv
    obtain ⟨d, found, -, houses⟩ := block hc
    simp only [Module.terminator?, found, Option.bind_some] at hu
    exact h.checkedType_of_held coherent (Module.HasTerminator.hasValue (houses.terminator u hu) hv) f
  case source =>
    intro c hc dst ty incoming hi i hj
    exact h.labelOf_of_held ((inst hc hi).2 i hj).2
  case callee =>
    intro c hc dst g args hi
    have callee : g.index < b.module.functions.size := (inst hc hi).2.1
    have found : b.module.function? g = some b.module.functions[g.index] :=
      Array.getElem?_eq_getElem callee
    rw [found, Module.function?, Module.getElem?_of_prefix h.functions found]

end IR.Builder

/-- Generating a program into a builder in use leaves all that the builder holds as it was,
whatever comes of it, and the check of every function that was there as well. A program that is
accepted leaves no new issue behind. -/
theorem generate_conserves {b : Builder} (reachable : b.Reachable) (o : Options) (P : Program) :
    b.Conserves (generate o P b).2 ∧
    (∀ warnings, (generate o P b).1 = .ok warnings →
      (generate o P b).2.module.issues = b.module.issues) ∧
    ∀ f, b.HasFunction f →
      (generate o P b).2.module.checkFunction f = b.module.checkFunction f := by
  have beside := generate_beside reachable.aligned o P
  refine ⟨beside.toConserves, fun warnings accepted => ?_, fun f held => ?_⟩
  · exact ((generate_sound reachable o P).1 warnings _ (Prod.ext accepted rfl)).1
  · exact (beside.agrees reachable.coherent held).checkFunction

/-- The builder stands in an open block of a function that has an issue, and has to return to it. -/
theorem hoisting_conserved :
    let b := Builder.empty.performAll (Builder.hoisting.take 11)
    b.Reachable ∧ b.isTerminated = false ∧ b.module.issues.size = 1 ∧ b.HasFunction ⟨0⟩ ∧
      b.Conserves (generate {} countdown b).2 ∧
      (generate {} countdown b).2.module.issues = b.module.issues ∧
      (generate {} countdown b).2.module.checkFunction ⟨0⟩ = b.module.checkFunction ⟨0⟩ := by
  have known : Builder.empty.KnowsAll (Builder.hoisting.take 11) := by decide
  have reachable := Builder.reachable_performAll .empty known
  have held : (Builder.empty.performAll (Builder.hoisting.take 11)).HasFunction ⟨0⟩ := by decide
  have accepted : (generate {} countdown (Builder.empty.performAll
      (Builder.hoisting.take 11))).1.toOption = some [] := by decide +kernel
  obtain ⟨conserves, clean, checks⟩ := generate_conserves reachable {} countdown
  exact ⟨reachable, by decide, by decide, held, conserves, clean [] (ok_of_toOption accepted),
    checks ⟨0⟩ held⟩

end Decaf
