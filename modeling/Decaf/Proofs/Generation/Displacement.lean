import Decaf.Proofs.Generation.Parallels
import Decaf.Proofs.Generation.Separation

/-!
# The same function at two places

Two builders build a function each, from different beginnings: what they hold already differs,
and so do the ids that they hand out. As long as they are asked for the same things what the one
has added and what the other has added correspond entry by entry, shifted by the distance of the
beginnings.
-/

namespace Decaf

open IR

section Arrays

variable {α β : Type} {R : α → β → Prop}

/-- Two arrays have grown by as many entries, which correspond. -/
def Keeping (R : α → β → Prop) (xs : Array α) (ys : Array β) (xs' : Array α) (ys' : Array β) :
    Prop :=
  ∃ new new', xs'.toList = xs.toList ++ new ∧ ys'.toList = ys.toList ++ new' ∧
    List.Forall₂ R new new'

namespace Keeping

variable {xs xs' : Array α} {ys ys' : Array β}

theorem refl (xs : Array α) (ys : Array β) : Keeping R xs ys xs ys :=
  ⟨[], [], (List.append_nil _).symm, (List.append_nil _).symm, .nil⟩

variable (h : Keeping R xs ys xs' ys')

include h

theorem push {a : α} {b : β} (related : R a b) : Keeping R xs ys (xs'.push a) (ys'.push b) := by
  obtain ⟨new, new', left, right, all⟩ := h
  refine ⟨new ++ [a], new' ++ [b], ?_, ?_, List.rel_append all (.cons related .nil)⟩
  · rw [Array.toList_push, left, List.append_assoc]
  · rw [Array.toList_push, right, List.append_assoc]

theorem sizes : ∃ n, xs'.size = xs.size + n ∧ ys'.size = ys.size + n := by
  obtain ⟨new, new', left, right, all⟩ := h
  refine ⟨new.length, ?_, ?_⟩
  · rw [← Array.length_toList, left, List.length_append, Array.length_toList]
  · rw [← Array.length_toList, right, List.length_append, Array.length_toList, all.length_eq]

/-- What comes after the beginnings corresponds. -/
theorem getElem? (n : Nat) : Option.Rel R xs'[xs.size + n]? ys'[ys.size + n]? := by
  obtain ⟨new, new', left, right, all⟩ := h
  rw [← Array.getElem?_toList, ← Array.getElem?_toList, left, right,
    List.getElem?_append_right (by simp), List.getElem?_append_right (by simp)]
  simpa using optionRel_getElem? all n

theorem left_prefix : xs.toList <+: xs'.toList := by
  obtain ⟨new, -, left, -⟩ := h
  exact ⟨new, left.symm⟩

theorem right_prefix : ys.toList <+: ys'.toList := by
  obtain ⟨-, new', -, right, -⟩ := h
  exact ⟨new', right.symm⟩

theorem modify (n : Nat) {f : α → α} {g : β → β} (change : ∀ a b, R a b → R (f a) (g b)) :
    Keeping R xs ys (xs'.modify (xs.size + n) f) (ys'.modify (ys.size + n) g) := by
  obtain ⟨new, new', left, right, all⟩ := h
  refine ⟨new.modify n f, new'.modify n g, ?_, ?_, forall₂_modify all change n⟩
  · rw [Array.toList_modify, left, List.modify, ← Array.length_toList, List.modifyTailIdx_add]
    rfl
  · rw [Array.toList_modify, right, List.modify, ← Array.length_toList, List.modifyTailIdx_add]
    rfl

end Keeping

end Arrays

namespace Matching

variable (k : Matching)

/-- The same instruction about ids that stand for each other. -/
inductive inst : Inst → Inst → Prop where
  | alloca {v v' : ValueId} (ty : IR.Ty) : k.value v v' → inst (.alloca v ty) (.alloca v' ty)
  | load {v v' a a' : ValueId} (ty : IR.Ty) : k.value v v' → k.value a a' →
      inst (.load v ty a) (.load v' ty a')
  | store {v v' a a' : ValueId} : k.value v v' → k.value a a' → inst (.store v a) (.store v' a')
  | elementPtr {v v' a a' i i' : ValueId} (ty : IR.Ty) : k.value v v' → k.value a a' →
      k.value i i' → inst (.elementPtr v ty a i) (.elementPtr v' ty a' i')
  | binary {v v' l l' r r' : ValueId} (op : BinOp) : k.value v v' → k.value l l' → k.value r r' →
      inst (.binary v op l r) (.binary v' op l' r')
  | unary {v v' a a' : ValueId} (op : UnOp) : k.value v v' → k.value a a' →
      inst (.unary v op a) (.unary v' op a')
  | zext {v v' a a' : ValueId} (ty : IR.Ty) : k.value v v' → k.value a a' →
      inst (.zext v a ty) (.zext v' a' ty)
  | phi {v v' : ValueId} (ty : IR.Ty) {is is' : List (ValueId × BlockId)} : k.value v v' →
      List.Forall₂ k.incoming is is' → inst (.phi v ty is) (.phi v' ty is')
  | call {v v' : Option ValueId} {f f' : FunctionId} {vs vs' : List ValueId} :
      Option.Rel k.value v v' → k.function f f' → List.Forall₂ k.value vs vs' →
      inst (.call v f vs) (.call v' f' vs')

theorem isAlloca_of_inst {k : Matching} {i i' : Inst} (h : k.inst i i') :
    i'.isAlloca = i.isAlloca := by
  cases h <;> rfl

/-- Blocks with the same label and the same contents. -/
structure content (d d' : IR.Block) : Prop where
  owner : k.body d.function d'.function
  label : d'.label = d.label
  insts : List.Forall₂ k.inst d.insts.toList d'.insts.toList
  terminator : Option.Rel k.terminator d.terminator d'.terminator

/-- Functions that look the same from outside, with corresponding parameters and blocks. -/
structure frame (F F' : Function) : Prop where
  name : F'.name = F.name
  ret : F'.ret = F.ret
  params : List.Forall₂ (fun q q' => q'.ty = q.ty ∧ k.value q.value q'.value) F.params F'.params
  blocks : List.Forall₂ k.block F.blocks.toList F'.blocks.toList

theorem frame.isDeclaration {k : Matching} {F F' : Function} (h : k.frame F F') :
    F'.isDeclaration = F.isDeclaration := by
  have size := h.blocks.length_eq
  simp only [Array.length_toList] at size
  simp [Function.isDeclaration, Array.isEmpty, size]

inductive issue : EmitIssue → EmitIssue → Prop where
  | afterTerminator {c c' : BlockId} : k.block c c' →
      issue (.afterTerminator c) (.afterTerminator c')
  | noInsertionPoint : issue .noInsertionPoint .noInsertionPoint

variable {k : Matching}

theorem content_push {i i' : Inst} (insts : k.inst i i') {d d' : IR.Block} (h : k.content d d') :
    k.content (d.push i) (d'.push i') :=
  { h with
    insts := by
      simp only [IR.Block.push, Array.toList_push]
      exact List.rel_append h.insts (.cons insts .nil) }

theorem content_close {u u' : Terminator} (terminators : k.terminator u u') {d d' : IR.Block}
    (h : k.content d d') : k.content (d.close u) (d'.close u') :=
  { h with terminator := .some terminators }

theorem content_hoist {i i' : Inst} (insts : k.inst i i') {d d' : IR.Block} (h : k.content d d') :
    k.content (d.hoist i) (d'.hoist i') := by
  have slots : ∀ j j', k.inst j j' → j'.isAlloca = j.isAlloca := fun _ _ => isAlloca_of_inst
  exact {
    h with
    insts := List.rel_append (forall₂_takeWhile h.insts slots)
      (.cons insts (forall₂_dropWhile h.insts slots)) }

end Matching

namespace IR

/-- A block that is appended is the last of its function. -/
theorem Builder.function?_appendBlock (b : Builder) (f g : FunctionId) (hint : String) :
    (b.appendBlock f hint).2.module.function? g =
      if g = f then (b.module.function? g).map fun function =>
        { function with blocks := function.blocks.push ⟨b.module.blocks.size⟩ }
      else b.module.function? g := by
  simp only [appendBlock, module_localName, Module.function?, Array.getElem?_modify]
  by_cases same : g = f
  · simp [same]
  · have apart : f.index ≠ g.index := fun eq => same (by rw [FunctionId.mk.injEq, eq])
    simp [same, apart]

/-- An issue counts for the function in which the builder stands, if it is the first there. -/
theorem Builder.issueOf?_record (b : Builder) (issue : EmitIssue) (f : FunctionId) :
    (b.record issue).module.issueOf? f =
      (b.module.issueOf? f).or (if b.insertionFunction? = some f then some issue else none) := by
  have pushed : (b.record issue).module.issues =
      b.module.issues.push (b.insertionFunction?, issue) := rfl
  rw [Module.issueOf?, pushed, ← Array.find?_toList, Array.toList_push, List.find?_append,
    Array.find?_toList, Module.issueOf?]
  cases b.module.issues.find? (·.1 = some f) with
  | some i => rfl
  | none =>
    by_cases here : b.insertionFunction? = some f
    · simp [here]
    · simp [here]

/-- What callers see of a function. -/
def Function.signature (F : Function) : Signature :=
  ⟨F.name, F.ret, F.params.map (·.ty)⟩

theorem Builder.signature_appendBlock (b : Builder) (f g : FunctionId) (hint : String) :
    ((b.appendBlock f hint).2.module.function? g).map Function.signature =
      (b.module.function? g).map Function.signature := by
  rw [function?_appendBlock]
  split
  · rw [Option.map_map]
    rfl
  · rfl

end IR

/-- Two functions that two builders are about to build, and what of all that the builders hold
stands for each other: functions that can be called, and fields. -/
structure Displacement where
  start : Builder
  start' : Builder
  function : FunctionId
  function' : FunctionId
  callee : FunctionId → FunctionId → Prop
  field : GlobalId → GlobalId → Prop
  given : List Warning × List Warning

namespace Displacement

variable (d : Displacement)

/-- New blocks correspond by their distance from the first new one. -/
def block (c c' : BlockId) : Prop :=
  ∃ n, c = ⟨d.start.module.blocks.size + n⟩ ∧ c' = ⟨d.start'.module.blocks.size + n⟩

def global (g g' : GlobalId) : Prop :=
  d.field g g' ∨
    ∃ n, g = ⟨d.start.module.globals.size + n⟩ ∧ g' = ⟨d.start'.module.globals.size + n⟩

inductive info : ValueInfo → ValueInfo → Prop where
  | const (c : Const) : info ⟨c.ty, .const c, none⟩ ⟨c.ty, .const c, none⟩
  | param (ty : IR.Ty) (i : Nat) (name : String) :
      info ⟨ty, .param d.function i, some name⟩ ⟨ty, .param d.function' i, some name⟩
  | inst (ty : IR.Ty) {c c' : Option BlockId} (name : Option String) : Option.Rel d.block c c' →
      info ⟨ty, .inst c, name⟩ ⟨ty, .inst c', name⟩
  | global {g g' : GlobalId} (name name' : Option String) : d.global g g' →
      info ⟨.ptr, .global g, name⟩ ⟨.ptr, .global g', name'⟩

/-- Old values correspond if they are the same thing, and no results of instructions; new ones by
their distance from the first new one. -/
def value (v v' : ValueId) : Prop :=
  (∃ i i', d.start.module.value? v = some i ∧ d.start'.module.value? v' = some i' ∧ d.info i i' ∧
      ∀ c, i.origin ≠ .inst c) ∨
    ∃ n, v = ⟨d.start.module.values.size + n⟩ ∧ v' = ⟨d.start'.module.values.size + n⟩

def matching : Matching where
  line := Eq
  value := d.value
  block := d.block
  function := d.callee
  body f f' := f = d.function ∧ f' = d.function'
  given := d.given

/-- Strings with the same contents. -/
def text (G G' : Global) : Prop :=
  ∃ bytes, G.kind = .string bytes ∧ G'.kind = .string bytes

/-- What both builders have added corresponds, and so does what they hold of the two functions
and of those that can be called. -/
structure Abreast (t t' : Builder) : Prop where
  values : Keeping d.info d.start.module.values d.start'.module.values t.module.values
    t'.module.values
  blocks : Keeping d.matching.content d.start.module.blocks d.start'.module.blocks t.module.blocks
    t'.module.blocks
  globals : Keeping text d.start.module.globals d.start'.module.globals t.module.globals
    t'.module.globals
  function : Option.Rel d.matching.frame (t.module.function? d.function)
    (t'.module.function? d.function')
  callees : ∀ {g g'}, d.callee g g' → (t'.module.function? g').map Function.signature =
    (t.module.function? g).map Function.signature
  locals : t'.locals[d.function'.index]? = t.locals[d.function.index]?
  issues : Option.Rel d.matching.issue (t.module.issueOf? d.function)
    (t'.module.issueOf? d.function')

/-- And they stand at corresponding blocks. -/
structure Twins (t t' : Builder) : Prop extends d.Abreast t t' where
  insertion : Option.Rel d.block t.insertion t'.insertion

variable {d} {t t' : Builder}

namespace Abreast

section

variable (h : d.Abreast t t')

include h

theorem value? {v v' : ValueId} (values : d.value v v') :
    Option.Rel d.info (t.module.value? v) (t'.module.value? v') := by
  rcases values with ⟨i, i', old, old', related, -⟩ | ⟨n, rfl, rfl⟩
  · rw [Module.value?, Module.getElem?_of_prefix h.values.left_prefix old, Module.value?,
      Module.getElem?_of_prefix h.values.right_prefix old']
    exact .some related
  · exact h.values.getElem? n

theorem typeOf {v v' : ValueId} (values : d.value v v') :
    t'.module.typeOf v' = t.module.typeOf v := by
  unfold Module.typeOf
  rcases optionRel_cases (h.value? values) with ⟨none, none'⟩ | ⟨i, i', some, some', related⟩
  · rw [none, none']
  · rw [some, some']
    cases related <;> rfl

theorem block? {c c' : BlockId} (blocks : d.block c c') :
    Option.Rel d.matching.content (t.module.block? c) (t'.module.block? c') := by
  obtain ⟨n, rfl, rfl⟩ := blocks
  exact h.blocks.getElem? n

theorem functionOf? {c c' : BlockId} (blocks : d.block c c') :
    Option.Rel d.matching.body (t.module.functionOf? c) (t'.module.functionOf? c') :=
  optionRel_map (h.block? blocks) fun _ _ related => related.owner

theorem isClosed {c c' : BlockId} (blocks : d.block c c') : t'.isClosed c' = t.isClosed c := by
  unfold Builder.isClosed
  rcases optionRel_cases (h.block? blocks) with ⟨none, none'⟩ | ⟨e, e', some, some', related⟩
  · rw [none, none']
  · rw [some, some']
    exact optionRel_isSome related.terminator

theorem pushValue {i i' : ValueInfo} (related : d.info i i') :
    d.value (t.pushValue i).1 (t'.pushValue i').1 ∧
      d.Abreast (t.pushValue i).2 (t'.pushValue i').2 := by
  obtain ⟨n, size, size'⟩ := h.values.sizes
  refine ⟨.inr ⟨n, congrArg ValueId.mk size, congrArg ValueId.mk size'⟩, ?_⟩
  exact { h with values := h.values.push related }

theorem localName {f f' : Option FunctionId} (owners : Option.Rel d.matching.body f f')
    (hint : String) : (t'.localName f' hint).1 = (t.localName f hint).1 ∧
      d.Abreast (t.localName f hint).2 (t'.localName f' hint).2 := by
  cases owners with
  | none => exact ⟨rfl, h⟩
  | some same =>
    obtain ⟨rfl, rfl⟩ := same
    have names := h.locals
    simp only [Builder.localName, Option.bind_some, names]
    cases found : t.locals[d.function.index]? with
    | none => exact ⟨rfl, h⟩
    | some table =>
      rw [found] at names
      refine ⟨rfl, { h with locals := ?_ }⟩
      have held := (Array.getElem?_eq_some_iff.1 found).1
      have held' := (Array.getElem?_eq_some_iff.1 names).1
      show (t'.locals.setIfInBounds _ _)[_]? = (t.locals.setIfInBounds _ _)[_]?
      rw [Array.getElem?_setIfInBounds_self_of_lt held', Array.getElem?_setIfInBounds_self_of_lt held]

theorem modifyBlock {c c' : BlockId} (blocks : d.block c c') {change change' : IR.Block → IR.Block}
    (changes : ∀ e e', d.matching.content e e' → d.matching.content (change e) (change' e')) :
    d.Abreast (t.modifyBlock c change) (t'.modifyBlock c' change') := by
  obtain ⟨n, rfl, rfl⟩ := blocks
  exact { h with blocks := h.blocks.modify n changes }

theorem pushString (hint hint' : String) (bytes : List UInt8) :
    d.value (t.pushGlobal hint (.string bytes)).1 (t'.pushGlobal hint' (.string bytes)).1 ∧
      d.Abreast (t.pushGlobal hint (.string bytes)).2 (t'.pushGlobal hint' (.string bytes)).2 := by
  obtain ⟨n, size, size'⟩ := h.globals.sizes
  have new : d.global ⟨t.module.globals.size⟩ ⟨t'.module.globals.size⟩ :=
    .inr ⟨n, congrArg GlobalId.mk size, congrArg GlobalId.mk size'⟩
  have named : d.Abreast { t with symbols := (t.symbols.unique hint).2 }
      { t' with symbols := (t'.symbols.unique hint').2 } := { h with }
  obtain ⟨values, after⟩ := named.pushValue (.global (some (t.symbols.unique hint).1)
    (some (t'.symbols.unique hint').1) new)
  exact ⟨values, { after with globals := h.globals.push ⟨bytes, rfl, rfl⟩ }⟩

theorem appendBlock (hint : String) :
    d.block (t.appendBlock d.function hint).1 (t'.appendBlock d.function' hint).1 ∧
      d.Abreast (t.appendBlock d.function hint).2 (t'.appendBlock d.function' hint).2 := by
  obtain ⟨names, after⟩ := h.localName (.some ⟨rfl, rfl⟩) hint
  obtain ⟨n, size, size'⟩ := h.blocks.sizes
  have blocks : d.block ⟨t.module.blocks.size⟩ ⟨t'.module.blocks.size⟩ :=
    ⟨n, congrArg BlockId.mk size, congrArg BlockId.mk size'⟩
  refine ⟨blocks, { after with blocks := ?_, function := ?_, callees := ?_ }⟩
  · have module : (t.appendBlock d.function hint).2.module.blocks = t.module.blocks.push _ :=
      congrArg (Array.push · _) (congrArg Module.blocks (Builder.module_localName ..))
    have module' : (t'.appendBlock d.function' hint).2.module.blocks = t'.module.blocks.push _ :=
      congrArg (Array.push · _) (congrArg Module.blocks (Builder.module_localName ..))
    rw [module, module']
    exact h.blocks.push ⟨⟨rfl, rfl⟩, congrArg (·.getD hint) names, .nil, .none⟩
  · rw [Builder.function?_appendBlock, Builder.function?_appendBlock, if_pos rfl, if_pos rfl]
    refine optionRel_map h.function fun F F' related => { related with blocks := ?_ }
    simp only [Array.toList_push]
    exact List.rel_append related.blocks (.cons blocks .nil)
  · intro g g' callees
    rw [Builder.signature_appendBlock, Builder.signature_appendBlock]
    exact h.callees callees

end

end Abreast

namespace Twins

section

variable (h : d.Twins t t')

include h

theorem owner : Option.Rel d.matching.body t.insertionFunction? t'.insertionFunction? :=
  optionRel_bind h.insertion fun _ _ => h.toAbreast.functionOf?

theorem isTerminated : t'.isTerminated = t.isTerminated := by
  unfold Builder.isTerminated
  rcases optionRel_cases h.insertion with ⟨none, none'⟩ | ⟨c, c', some, some', blocks⟩
  · rw [none, none']
  · rw [some, some']
    exact h.toAbreast.isClosed blocks

/-- Where the builders stand is kept. -/
theorem stay {u u' : Builder} (abreast : d.Abreast u u') (insertion : u.insertion = t.insertion)
    (insertion' : u'.insertion = t'.insertion) : d.Twins u u' :=
  ⟨abreast, by rw [insertion, insertion']; exact h.insertion⟩

theorem record {i i' : EmitIssue} (issues : d.matching.issue i i') :
    d.Twins (t.record i) (t'.record i') := by
  refine h.stay { h.toAbreast with issues := ?_ } rfl rfl
  rw [Builder.issueOf?_record, Builder.issueOf?_record]
  rcases optionRel_cases h.owner with ⟨none, none'⟩ | ⟨f, f', some, some', rfl, rfl⟩
  · rw [none, none', if_neg nofun, if_neg nofun, Option.or_none, Option.or_none]
    exact h.issues
  · rw [some, some', if_pos rfl, if_pos rfl]
    rcases optionRel_cases h.issues with ⟨none, none'⟩ | ⟨j, j', first, first', related⟩
    · rw [none, none']
      exact .some issues
    · rw [first, first']
      exact .some related

theorem extend {change change' : IR.Block → IR.Block}
    (changes : ∀ e e', d.matching.content e e' → d.matching.content (change e) (change' e')) :
    d.Twins (t.extend change) (t'.extend change') := by
  unfold Builder.extend
  rcases optionRel_cases h.insertion with ⟨none, none'⟩ | ⟨c, c', some, some', blocks⟩
  · rw [none, none']
    exact h.record .noInsertionPoint
  · rw [some, some']
    simp only [h.toAbreast.isClosed blocks]
    split
    · exact h.record (.afterTerminator blocks)
    · exact h.stay (h.toAbreast.modifyBlock blocks changes) rfl rfl

/-- A new value with a name of its own. -/
theorem named (hint : String) {i i' : Option String → ValueInfo}
    (related : ∀ name, d.info (i name) (i' name)) :
    d.value (((t.localName t.insertionFunction? hint).2.pushValue
        (i (t.localName t.insertionFunction? hint).1)).1)
      (((t'.localName t'.insertionFunction? hint).2.pushValue
        (i' (t'.localName t'.insertionFunction? hint).1)).1) ∧
    d.Twins (((t.localName t.insertionFunction? hint).2.pushValue
        (i (t.localName t.insertionFunction? hint).1)).2)
      (((t'.localName t'.insertionFunction? hint).2.pushValue
        (i' (t'.localName t'.insertionFunction? hint).1)).2) := by
  obtain ⟨names, after⟩ := h.toAbreast.localName h.owner hint
  rw [names]
  obtain ⟨values, pushed⟩ := after.pushValue (related (t.localName t.insertionFunction? hint).1)
  exact ⟨values, h.stay pushed (Builder.insertion_localName ..) (Builder.insertion_localName ..)⟩

theorem emit {ty ty' : IR.Ty} (types : ty' = ty) (hint : String) {inst inst' : ValueId → Inst}
    (insts : ∀ v v', d.value v v' → d.matching.inst (inst v) (inst' v')) :
    d.value (t.emit ty hint inst).1 (t'.emit ty' hint inst').1 ∧
      d.Twins (t.emit ty hint inst).2 (t'.emit ty' hint inst').2 := by
  subst types
  have block : (t.localName t.insertionFunction? hint).2.insertion = t.insertion :=
    Builder.insertion_localName ..
  have block' : (t'.localName t'.insertionFunction? hint).2.insertion = t'.insertion :=
    Builder.insertion_localName ..
  obtain ⟨values, pushed⟩ := h.named hint fun name => .inst ty' name h.insertion
  unfold Builder.emit
  dsimp only
  rw [block, block']
  exact ⟨values, pushed.extend fun _ _ => Matching.content_push (insts _ _ values)⟩

theorem alloca (ty : IR.Ty) (hint : String) :
    d.value (t.alloca ty hint).1 (t'.alloca ty hint).1 ∧
      d.Twins (t.alloca ty hint).2 (t'.alloca ty hint).2 := by
  have entries : Option.Rel d.block
      ((t.insertionFunction?.bind t.module.function?).bind Function.entry?)
      ((t'.insertionFunction?.bind t'.module.function?).bind Function.entry?) := by
    have functions : Option.Rel d.matching.frame (t.insertionFunction?.bind t.module.function?)
        (t'.insertionFunction?.bind t'.module.function?) := by
      refine optionRel_bind h.owner fun f f' same => ?_
      obtain ⟨rfl, rfl⟩ := same
      exact h.function
    refine optionRel_bind functions fun F F' related => ?_
    simp only [Function.entry?, ← Array.getElem?_toList]
    exact optionRel_getElem? related.blocks 0
  obtain ⟨values, pushed⟩ := h.named hint fun name => .inst .ptr name entries
  unfold Builder.alloca
  dsimp only
  rcases optionRel_cases entries with ⟨none, none'⟩ | ⟨c, c', some, some', blocks⟩
  · rw [none, none'] at values pushed ⊢
    exact ⟨values, pushed.record .noInsertionPoint⟩
  · rw [some, some'] at values pushed ⊢
    exact ⟨values, pushed.stay (pushed.toAbreast.modifyBlock blocks fun _ _ =>
      Matching.content_hoist (.alloca ty values)) rfl rfl⟩

theorem call {g g' : FunctionId} (callees : d.callee g g') {vs vs' : List ValueId}
    (args : List.Forall₂ d.value vs vs') :
    Option.Rel d.value (t.call g vs).1 (t'.call g' vs').1 ∧
      d.Twins (t.call g vs).2 (t'.call g' vs').2 := by
  have ret : (t'.module.function? g').map (·.ret) = (t.module.function? g).map (·.ret) := by
    have same := congrArg (Option.map Signature.ret) (h.callees callees)
    simpa [Function.signature, Function.comp_def] using same
  unfold Builder.call
  dsimp only
  rw [ret]
  split
  · exact ⟨.none, h.extend fun _ _ => Matching.content_push (.call .none callees args)⟩
  · have emitted (ty : IR.Ty) := h.emit (rfl : ty = ty) "call" fun v v' values =>
      (.call (.some values) callees args :
        d.matching.inst (.call (some v) g vs) (.call (some v') g' vs'))
    exact ⟨.some (emitted _).1, (emitted _).2⟩

/-- Corresponding commands keep the builders in step. -/
theorem perform {r : Reply} {c c' : Command r} (commands : d.matching.command c c') :
    d.matching.reply r (t.perform c).1 (t'.perform c').1 ∧
      d.Twins (t.perform c).2 (t'.perform c').2 := by
  cases commands with
  | appendBlock hint functions =>
    obtain ⟨rfl, rfl⟩ := functions
    obtain ⟨blocks, after⟩ := h.toAbreast.appendBlock hint
    exact ⟨blocks, h.stay after (Builder.insertion_localName ..) (Builder.insertion_localName ..)⟩
  | positionAtEnd blocks => exact ⟨trivial, { h.toAbreast with }, .some blocks⟩
  | terminate terminators =>
    exact ⟨trivial, h.extend fun _ _ => Matching.content_close terminators⟩
  | alloca ty hint => exact h.alloca ty hint
  | load ty hint address => exact h.emit rfl hint fun _ _ dst => .load ty dst address
  | store value address =>
    exact ⟨trivial, h.extend fun _ _ => Matching.content_push (.store value address)⟩
  | elementPtr ty base index =>
    exact h.emit rfl "elem" fun _ _ dst => .elementPtr ty dst base index
  | binary op hint lhs rhs =>
    exact h.emit (congrArg op.resultTy (h.toAbreast.typeOf lhs)) hint fun _ _ dst =>
      .binary op dst lhs rhs
  | unary op hint operand =>
    exact h.emit (h.toAbreast.typeOf operand) hint fun _ _ dst => .unary op dst operand
  | zext ty value => exact h.emit rfl "zext" fun _ _ dst => .zext ty dst value
  | phi ty hint incoming => exact h.emit rfl hint fun _ _ dst => .phi ty dst incoming
  | call callees args => exact h.call callees args
  | globalString contents =>
    obtain ⟨values, after⟩ := h.toAbreast.pushString ".str" ".str" contents.toUTF8.toList
    exact ⟨values, h.stay after rfl rfl⟩
  | const c =>
    obtain ⟨values, after⟩ := h.toAbreast.pushValue (.const c)
    exact ⟨values, h.stay after rfl rfl⟩

end

end Twins

end Displacement

end Decaf
