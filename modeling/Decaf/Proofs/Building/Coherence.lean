import Decaf.Proofs.Building.Arenas

/-!
# Coherence

The arrays of every builder with a history agree with each other, also after commands for which
there was no place. Every id is in range, so nothing that is looked up by id is ever missing.
-/

namespace Decaf.IR

namespace Module

/-- The module is arranged, and every value that an instruction defines is recorded with the
type the instruction gives it and defined nowhere else. -/
structure Coherent (m : Module) : Prop extends m.Arranged where
  lists : ∀ F ∈ m.functions.toList, ∀ c ∈ F.blocks.toList, m.HasBlock c
  types : ∀ d ∈ m.blocks.toList, ∀ i ∈ d.insts.toList, m.Records i
  once : ∀ (c c' : Nat) (d d' : Block) (k k' : Nat) (i i' : Inst) (v : ValueId),
    m.blocks[c]? = some d → d.insts[k]? = some i → i.defined? = some v →
    m.blocks[c']? = some d' → d'.insts[k']? = some i' → i'.defined? = some v →
    c = c' ∧ k = k'

end Module

namespace Builder

/-- The module is arranged, and the insertion point is in one of its blocks. -/
structure Arranged (b : Builder) : Prop where
  module : b.module.Arranged
  here : ∀ c, b.insertion = some c → b.HasBlock c

namespace Arranged

variable {b : Builder}

theorem owner (h : b.Arranged) {f : FunctionId} (hf : b.insertionFunction? = some f) :
    b.HasFunction f := by
  obtain ⟨c, -, owned⟩ := Option.bind_eq_some_iff.1 hf
  obtain ⟨d, there, rfl⟩ := Module.functionOf?_eq_some.1 owned
  have mem : d ∈ b.module.blocks.toList := Array.mem_toList_iff.2 (Array.mem_of_getElem? there)
  exact (h.module.houses d mem).owner

theorem record (h : b.Arranged) {issue : EmitIssue}
    (has : ∀ c, issue = .afterTerminator c → b.HasBlock c) : (b.record issue).Arranged :=
  ⟨h.module.record ⟨fun _ => h.owner, has⟩, h.here⟩

theorem localName (h : b.Arranged) (f : Option FunctionId) (hint : String) :
    (b.localName f hint).2.Arranged where
  module := (module_localName b f hint).symm ▸ h.module
  here c hc := by
    rw [insertion_localName] at hc
    rw [HasBlock, module_localName]
    exact h.here c hc

theorem modifyBlock (h : b.Arranged) (c : BlockId) {change : Block → Block}
    (id : ∀ d, (change d).id = d.id) (function : ∀ d, (change d).function = d.function)
    (houses : ∀ d, b.module.block? c = some d → b.module.Houses (change d)) :
    (b.modifyBlock c change).Arranged where
  module := h.module.modify c id function houses
  here e he := by
    rw [HasBlock, Builder.modifyBlock, Array.size_modify]
    exact h.here e he

/-- Code goes to the block at the insertion point, if anywhere. -/
theorem extend (h : b.Arranged) {change : Block → Block} (id : ∀ d, (change d).id = d.id)
    (function : ∀ d, (change d).function = d.function)
    (houses : ∀ c d, b.insertion = some c → b.module.block? c = some d →
      b.module.Houses (change d)) : (b.extend change).Arranged := by
  rw [Builder.extend]
  split
  · exact h.record (by simp)
  · rename_i c here
    split
    · refine h.record fun e he => ?_
      cases he
      exact h.here c here
    · exact h.modifyBlock c id function fun d there => houses c d here there

theorem houses (h : b.Arranged) {c : BlockId} {d : Block} (there : b.module.block? c = some d) :
    b.module.Houses d ∧ d.id = c :=
  ⟨h.module.houses d (Array.mem_toList_iff.2 (Array.mem_of_getElem? there)),
    h.module.blockIds c.index d there⟩

/-- A store or a call without a value. -/
theorem push (h : b.Arranged) {i : Inst} (has : b.module.HasInst i)
    (plain : i.isAlloca = false) (void : i.defined? = none) :
    (b.extend (Block.push i)).Arranged := by
  refine h.extend (fun _ => rfl) (fun _ => rfl) fun c d _ there => ?_
  exact (h.houses there).1.push has plain fun v hv => by rw [void] at hv; cases hv

/-- A value is added after it has got a name, which leaves the module as it is. -/
theorem named (h : b.Arranged) (f : Option FunctionId) (hint : String) (ty : Ty)
    (origin : Origin) (has : b.module.HasOrigin origin) : ∃ name b',
      (b.localName f hint).2.pushValue ⟨ty, origin, (b.localName f hint).1⟩ =
        (⟨b.module.values.size⟩, b') ∧ b'.Arranged ∧ b.module.Widens b'.module ∧
      b'.module.value? ⟨b.module.values.size⟩ = some ⟨ty, origin, name⟩ ∧
      b.Alike b' := by
  obtain ⟨name, b', pushed, alike, values⟩ := b.alike_named f hint ty origin
  obtain ⟨wide, arranged⟩ := (h.localName f hint).module.pushValue
    ⟨ty, origin, (b.localName f hint).1⟩ (by rwa [module_localName])
  have same : b'.module = { (b.localName f hint).2.module with
      values := (b.localName f hint).2.module.values.push
        ⟨ty, origin, (b.localName f hint).1⟩ } := by
    rw [pushValue] at pushed
    rw [← (Prod.mk.inj pushed).2]
  refine ⟨name, b', pushed, ⟨same ▸ arranged, fun c hc => ?_⟩, ?_, ?_, alike⟩
  · rw [HasBlock, alike.blocks]
    exact h.here c (alike.insertion ▸ hc)
  · rw [same]
    simpa only [module_localName] using wide
  · rw [Module.value?, values]
    exact Array.getElem?_push_size

/-- An instruction with a new value. -/
theorem emit (h : b.Arranged) (ty : Ty) (hint : String) (inst : ValueId → Inst)
    (has : ∀ m v, b.module.Widens m → m.HasValue v → m.HasInst (inst v))
    (plain : ∀ v, (inst v).isAlloca = false) (dst : ∀ v, (inst v).defined? = some v) :
    (b.emit ty hint inst).2.Arranged := by
  have insertion := insertion_localName b b.insertionFunction? hint
  obtain ⟨name, b', pushed, arranged, wide, value, alike⟩ :=
    h.named b.insertionFunction? hint ty (.inst b.insertion) h.here
  simp only [Builder.emit, insertion, pushed]
  refine arranged.extend (fun _ => rfl) (fun _ => rfl) fun c d here there => ?_
  obtain ⟨house, id⟩ := arranged.houses there
  refine house.push (has _ _ wide (Array.getElem?_eq_some_iff.1 value).1) (plain _)
    fun v hv => ?_
  rw [dst] at hv
  cases hv
  rw [alike.insertion] at here
  refine ⟨⟨ty, name, by rw [value, here, id]⟩, fun u hu => ?_⟩
  rw [alike.block?] at there
  exact (h.houses there).1.lt_size hu

theorem alloca (h : b.Arranged) (ty : Ty) (hint : String) : (b.alloca ty hint).2.Arranged := by
  cases entry : (b.insertionFunction?.bind b.module.function?).bind Function.entry? with
  | none =>
    obtain ⟨name, b', pushed, arranged, -⟩ :=
      h.named b.insertionFunction? hint .ptr (.inst none) fun _ none => by cases none
    simp only [Builder.alloca, entry, pushed]
    exact arranged.record (by simp)
  | some c =>
    obtain ⟨F, there, first⟩ := Option.bind_eq_some_iff.1 entry
    obtain ⟨f, -, hF⟩ := Option.bind_eq_some_iff.1 there
    have position : F.id = f := h.module.functionIds f.index F hF
    -- the entry is among the blocks that name the function as their owner
    have listed : c ∈ F.blocks.toList := Array.mem_toList_iff.2 (Array.mem_of_getElem? first)
    rw [h.module.listed F (Array.mem_toList_iff.2 (Array.mem_of_getElem? hF))] at listed
    obtain ⟨e, he, rfl⟩ := List.mem_map.1 listed
    obtain ⟨held, owner⟩ := List.mem_filter.1 he
    obtain ⟨i, hi⟩ := List.mem_iff_getElem?.1 held
    rw [Array.getElem?_toList] at hi
    have index := h.module.blockIds i e hi
    have has : b.HasBlock e.id := by
      rw [HasBlock, index]
      exact (Array.getElem?_eq_some_iff.1 hi).1
    obtain ⟨name, b', pushed, arranged, wide, value, alike⟩ :=
      h.named b.insertionFunction? hint .ptr (.inst (some e.id))
        fun c hc => Option.some.inj hc ▸ has
    simp only [Builder.alloca, entry, pushed]
    refine arranged.modifyBlock e.id (fun _ => rfl) (fun _ => rfl) fun d there => ?_
    obtain ⟨house, id⟩ := arranged.houses there
    rw [alike.block?] at there
    obtain rfl : e = d := by
      rw [Module.block?, index, hi] at there
      exact Option.some.inj there
    refine house.hoist value (fun u hu => (h.houses there).1.lt_size hu) (wide.entries _ _ ?_)
    have function : e.function = f := by simpa [position] using owner
    rw [Module.entryOf?, function, hF]
    exact first

theorem call (h : b.Arranged) {callee : FunctionId} {args : List ValueId}
    (known : b.HasFunction callee ∧ ∀ v ∈ args, b.HasValue v) :
    (b.call callee args).2.Arranged := by
  have emitted := h.emit (((b.module.function? callee).map (·.ret)).getD .void) "call"
    (fun dst => .call (some dst) callee args)
    (fun m v w hv => ⟨fun u hu => Option.some.inj hu ▸ hv, w.function known.1,
      fun u hu => w.value (known.2 u hu)⟩) (fun _ => rfl) fun _ => rfl
  rw [Builder.call]
  split
  · exact h.push ⟨by simp, known⟩ rfl rfl
  · exact emitted

theorem declareFunction (h : b.Arranged) (name : String) (ret : Ty)
    (params : List (Option String × Ty)) : (b.declareFunction name ret params).2.Arranged := by
  have names := NameTable.length_uniqueAll .empty (params.map fun p => p.1.getD "")
  refine ⟨h.module.declare rfl rfl (fun q hq => ?_) fun info hi => ?_, h.here⟩
  · obtain ⟨i, hi, rfl⟩ := List.mem_mapIdx.1 hq
    simp only [List.length_mapIdx, List.length_zip, names, List.length_map, Nat.min_self]
    omega
  · obtain ⟨i, hi, rfl⟩ := List.mem_mapIdx.1 hi
    exact ⟨i, rfl⟩

theorem appendBlock (h : b.Arranged) {f : FunctionId} (known : b.HasFunction f)
    (hint : String) : (b.appendBlock f hint).2.Arranged := by
  have same := module_localName b (some f) hint
  have arranged := (h.localName (some f) hint).module.append (f := f)
    (by rwa [Module.HasFunction, same]) ((b.localName (some f) hint).1.getD hint)
  rw [same] at arranged
  refine ⟨by simpa only [Builder.appendBlock, same] using arranged, fun c hc => ?_⟩
  have here := h.here c ((insertion_localName ..).symm.trans hc)
  have size : (b.appendBlock f hint).2.module.blocks.size = b.module.blocks.size + 1 := by
    simp [Builder.appendBlock, same]
  rw [HasBlock, size]
  exact Nat.lt_succ_of_lt here

theorem pushGlobal (h : b.Arranged) (hint : String) (kind : GlobalKind) :
    (b.pushGlobal hint kind).2.Arranged :=
  ⟨h.module.pushGlobal _ kind, h.here⟩

/-- Every command keeps the arrangement, whether or not there is a place for what it emits. -/
theorem perform (h : b.Arranged) {r : Reply} {c : Command r} (known : b.Knows c) :
    (b.perform c).2.Arranged := by
  cases c with
  | setModuleName name => exact ⟨h.module.rename name, h.here⟩
  | declareFunction name ret params => exact h.declareFunction name ret params
  | appendBlock f hint => exact h.appendBlock known hint
  | positionAtEnd block =>
    refine ⟨h.module, fun c hc => ?_⟩
    cases hc
    exact known
  | terminate t =>
    refine h.extend (fun _ => rfl) (fun _ => rfl) fun c d _ there => (h.houses there).1.close ?_
    cases t with
    | br target => exact known
    | condBr cond thenBlock elseBlock => exact known
    | ret value =>
      intro v hv
      subst hv
      exact known
    | unreachable => trivial
  | alloca ty hint => exact h.alloca ty hint
  | load ty address hint =>
    exact h.emit _ _ _ (fun m v w hv => ⟨hv, w.value known⟩) (fun _ => rfl) fun _ => rfl
  | store value address => exact h.push known rfl rfl
  | elementPtr ty base index =>
    exact h.emit _ _ _ (fun m v w hv => ⟨hv, w.value known.1, w.value known.2⟩) (fun _ => rfl)
      fun _ => rfl
  | binary op lhs rhs hint =>
    exact h.emit _ _ _ (fun m v w hv => ⟨hv, w.value known.1, w.value known.2⟩) (fun _ => rfl)
      fun _ => rfl
  | unary op operand hint =>
    exact h.emit _ _ _ (fun m v w hv => ⟨hv, w.value known⟩) (fun _ => rfl) fun _ => rfl
  | zext value ty =>
    exact h.emit _ _ _ (fun m v w hv => ⟨hv, w.value known⟩) (fun _ => rfl) fun _ => rfl
  | phi ty incoming hint =>
    exact h.emit _ _ _ (fun m v w hv => ⟨hv, fun i hi =>
      ⟨w.value (known i hi).1, w.block (known i hi).2⟩⟩) (fun _ => rfl) fun _ => rfl
  | call callee args => exact h.call known
  | globalScalar hint ty init => exact h.pushGlobal _ _
  | globalArray hint ty length => exact h.pushGlobal _ _
  | globalString contents => exact h.pushGlobal _ _
  | const c => exact ⟨(h.module.pushValue ⟨c.ty, .const c, none⟩ trivial).2, h.here⟩

end Arranged

theorem Reachable.arranged {b : Builder} (h : b.Reachable) : b.Arranged := by
  induction h with
  | empty =>
    refine ⟨⟨?_, ?_, ?_, ?_, ?_, ?_, ?_, ?_, ?_⟩, fun _ none => by cases none⟩ <;>
      simp [Builder.empty, Module.empty]
  | perform c _ known ih => exact ih.perform known

/-- Two instructions of one block that define the same value are one. -/
theorem position_unique {insts : Array Inst} (nodup : (defined insts.toList).Nodup) {k k' : Nat}
    {i i' : Inst} {v : ValueId} (hi : insts[k]? = some i) (dst : i.defined? = some v)
    (hi' : insts[k']? = some i') (dst' : i'.defined? = some v) : k = k' := by
  have apart : insts.toList.Pairwise fun i j =>
      ∀ v, i.defined? = some v → ∀ u, j.defined? = some u → v ≠ u :=
    List.pairwise_filterMap.1 nodup
  have order {k k' : Nat} {i i' : Inst} (hi : insts[k]? = some i) (dst : i.defined? = some v)
      (hi' : insts[k']? = some i') (dst' : i'.defined? = some v) (lt : k < k') : False := by
    obtain ⟨hk, rfl⟩ := Array.getElem?_eq_some_iff.1 hi
    obtain ⟨hk', rfl⟩ := Array.getElem?_eq_some_iff.1 hi'
    exact List.pairwise_iff_getElem.1 apart k k' hk hk' lt v dst v dst' rfl
  rcases Nat.lt_trichotomy k k' with lt | same | gt
  · exact (order hi dst hi' dst' lt).elim
  · exact same
  · exact (order hi' dst' hi dst gt).elim

/-- The arrays of every builder with a history agree with each other. -/
theorem Reachable.coherent {b : Builder} (h : b.Reachable) : b.module.Coherent := by
  have arranged := h.arranged.module
  refine ⟨arranged, ?lists, ?types, ?once⟩
  case lists =>
    intro F hF c hc
    rw [arranged.listed F hF] at hc
    obtain ⟨d, hd, rfl⟩ := List.mem_map.1 hc
    obtain ⟨i, hi⟩ := List.mem_iff_getElem?.1 (List.mem_filter.1 hd).1
    rw [Array.getElem?_toList] at hi
    rw [Module.HasBlock, arranged.blockIds i d hi]
    exact (Array.getElem?_eq_some_iff.1 hi).1
  case types =>
    intro d hd i hi
    obtain ⟨k, there⟩ := List.mem_iff_getElem?.1 hd
    rw [Array.getElem?_toList] at there
    exact h.recorded.insts ⟨k⟩ d there i hi
  case once =>
    intro c c' d d' k k' i i' v hd hi dst hd' hi' dst'
    have place {c : Nat} {d : Block} {k : Nat} {i : Inst} (hd : b.module.blocks[c]? = some d)
        (hi : d.insts[k]? = some i) (dst : i.defined? = some v) :
        b.module.Houses d ∧ ∃ ty name, b.module.value? v = some ⟨ty, .inst (some ⟨c⟩), name⟩ := by
      obtain ⟨house, id⟩ := h.arranged.houses (c := ⟨c⟩) hd
      refine ⟨house, id ▸ house.placed v (List.mem_filterMap.2 ⟨i, ?_, dst⟩)⟩
      exact Array.mem_toList_iff.2 (Array.mem_of_getElem? hi)
    obtain ⟨house, ty, name, value⟩ := place hd hi dst
    obtain ⟨-, ty', name', value'⟩ := place hd' hi' dst'
    rw [value] at value'
    obtain rfl : c = c' := by simpa using (congrArg ValueInfo.origin (Option.some.inj value'))
    rw [hd] at hd'
    cases hd'
    exact ⟨rfl, position_unique house.nodup hi dst hi' dst'⟩

/-- A function with two blocks; a slot is asked for in the second one and again when the first
one is closed, and a return is dropped. -/
def hoisting : List AnyCommand :=
  [⟨_, .declareFunction "f" .i32 [(some "x", .i32)]⟩, ⟨_, .appendBlock ⟨0⟩ "entry"⟩,
    ⟨_, .appendBlock ⟨0⟩ "next"⟩, ⟨_, .positionAtEnd ⟨0⟩⟩, ⟨_, .terminate (.br ⟨1⟩)⟩,
    ⟨_, .terminate (.ret none)⟩, ⟨_, .alloca .i32 "a"⟩, ⟨_, .positionAtEnd ⟨1⟩⟩,
    ⟨_, .binary .add ⟨0⟩ ⟨0⟩ "sum"⟩, ⟨_, .alloca .i1 "b"⟩, ⟨_, .store ⟨2⟩ ⟨1⟩⟩,
    ⟨_, .terminate (.ret (some ⟨2⟩))⟩]

theorem hoisting_coherent : Builder.empty.KnowsAll hoisting ∧
    (Builder.empty.performAll hoisting).module.Coherent := by
  have known : Builder.empty.KnowsAll hoisting := by decide
  exact ⟨known, (reachable_performAll .empty known).coherent⟩

end Builder

end Decaf.IR
