import Decaf.IR.Builder

/-!
# The layout of blocks

A block reserves stack slots first and then does its work, so its instructions split into
slots and code. A module is read here by functions from positions: the slots, the code and
the terminator of a block, and the blocks to which it leads. An edit is a change of at most
one block together with new values and globals; an extension is whatever keeps all of them.
-/

namespace Decaf.IR

/-- The value and the type of a slot, if that is what the instruction reserves. -/
def Inst.slot? : Inst → Option (ValueId × Ty)
  | alloca dst ty => some (dst, ty)
  | _ => none

theorem Inst.slot?_eq_none {i : Inst} (plain : i.isAlloca = false) : i.slot? = none := by
  cases i <;> first | rfl | cases plain

/-- The values that a list of instructions defines. -/
def defined (insts : List Inst) : List ValueId :=
  insts.filterMap Inst.defined?

@[simp] theorem defined_nil : defined [] = [] := rfl

@[simp] theorem defined_append (l r : List Inst) : defined (l ++ r) = defined l ++ defined r :=
  List.filterMap_append

namespace Block

def slots (b : Block) : List (ValueId × Ty) :=
  b.insts.toList.filterMap Inst.slot?

/-- The instructions that reserve no slot. -/
def code (b : Block) : List Inst :=
  b.insts.toList.filter (!·.isAlloca)

/-- The slots come before the code. -/
def Ordered (b : Block) : Prop :=
  b.insts.toList = b.slots.map (fun s => .alloca s.1 s.2) ++ b.code

@[simp] theorem slots_push {b : Block} {i : Inst} (plain : i.isAlloca = false) :
    (b.push i).slots = b.slots := by
  simp [slots, push, Inst.slot?_eq_none plain]

@[simp] theorem code_push {b : Block} {i : Inst} (plain : i.isAlloca = false) :
    (b.push i).code = b.code ++ [i] := by
  simp [code, push, plain]

theorem Ordered.push {b : Block} {i : Inst} (h : b.Ordered) (plain : i.isAlloca = false) :
    (b.push i).Ordered := by
  unfold Ordered at h ⊢
  rw [slots_push plain, code_push plain]
  simp only [Block.push, Array.toList_push, h, List.append_assoc]

theorem takeWhile_isAlloca {b : Block} (h : b.Ordered) :
    b.insts.toList.takeWhile Inst.isAlloca = b.slots.map fun s => .alloca s.1 s.2 := by
  have all : ∀ i ∈ b.slots.map (fun s => Inst.alloca s.1 s.2), i.isAlloca = true := by
    rintro i hi
    obtain ⟨s, -, rfl⟩ := List.mem_map.1 hi
    rfl
  rw [h, List.takeWhile_append_of_pos all]
  cases hc : b.code with
  | nil => simp
  | cons i rest =>
    have : i ∈ b.code := by simp [hc]
    have plain : i.isAlloca = false := by simpa [code] using (List.mem_filter.1 this).2
    simp [plain]

theorem dropWhile_isAlloca {b : Block} (h : b.Ordered) :
    b.insts.toList.dropWhile Inst.isAlloca = b.code := by
  have split := List.takeWhile_append_dropWhile (p := Inst.isAlloca) (l := b.insts.toList)
  rw [takeWhile_isAlloca h] at split
  exact List.append_cancel_left (split.trans h)

theorem insts_hoist {b : Block} (h : b.Ordered) (dst : ValueId) (ty : Ty) :
    (b.hoist (.alloca dst ty)).insts.toList =
      (b.slots ++ [(dst, ty)]).map (fun s => .alloca s.1 s.2) ++ b.code := by
  simp [hoist, takeWhile_isAlloca h, dropWhile_isAlloca h]

theorem slots_of_layout {b : Block} {slots : List (ValueId × Ty)} {code : List Inst}
    (plain : ∀ i ∈ code, i.isAlloca = false)
    (h : b.insts.toList = slots.map (fun s => .alloca s.1 s.2) ++ code) : b.slots = slots := by
  have none : code.filterMap Inst.slot? = [] := by
    rw [List.filterMap_eq_nil_iff]
    exact fun i hi => Inst.slot?_eq_none (plain i hi)
  simp [Block.slots, h, none, List.filterMap_map, Function.comp_def, Inst.slot?]

theorem code_of_layout {b : Block} {slots : List (ValueId × Ty)} {code : List Inst}
    (plain : ∀ i ∈ code, i.isAlloca = false)
    (h : b.insts.toList = slots.map (fun s => .alloca s.1 s.2) ++ code) : b.code = code := by
  have none : (slots.map fun s => Inst.alloca s.1 s.2).filter (!·.isAlloca) = [] := by
    rw [List.filter_eq_nil_iff]
    rintro i hi
    obtain ⟨s, -, rfl⟩ := List.mem_map.1 hi
    simp [Inst.isAlloca]
  have all : code.filter (!·.isAlloca) = code := by
    rw [List.filter_eq_self]
    simpa using plain
  rw [Block.code, h, List.filter_append, none, all, List.nil_append]

theorem isAlloca_of_mem_code {b : Block} {i : Inst} (h : i ∈ b.code) : i.isAlloca = false := by
  simpa [code] using (List.mem_filter.1 h).2

theorem slots_hoist {b : Block} (h : b.Ordered) (dst : ValueId) (ty : Ty) :
    (b.hoist (.alloca dst ty)).slots = b.slots ++ [(dst, ty)] :=
  slots_of_layout (fun _ => isAlloca_of_mem_code) (insts_hoist h dst ty)

theorem code_hoist {b : Block} (h : b.Ordered) (dst : ValueId) (ty : Ty) :
    (b.hoist (.alloca dst ty)).code = b.code :=
  code_of_layout (fun _ => isAlloca_of_mem_code) (insts_hoist h dst ty)

theorem Ordered.hoist {b : Block} (h : b.Ordered) (dst : ValueId) (ty : Ty) :
    (b.hoist (.alloca dst ty)).Ordered := by
  rw [Ordered, insts_hoist h, slots_hoist h, code_hoist h]

end Block

namespace Module

def slotsOf (m : Module) (b : BlockId) : List (ValueId × Ty) :=
  ((m.block? b).map Block.slots).getD []

def codeOf (m : Module) (b : BlockId) : List Inst :=
  ((m.block? b).map Block.code).getD []

def terminator? (m : Module) (b : BlockId) : Option Terminator :=
  (m.block? b).bind (·.terminator)

/-- The block has slots before code; so does a position that holds no block. -/
def OrderedAt (m : Module) (b : BlockId) : Prop :=
  ∀ data, m.block? b = some data → data.Ordered

theorem successorsOf_eq (m : Module) (b : BlockId) :
    m.successorsOf b = ((m.terminator? b).map Terminator.successors).getD [] := by
  unfold successorsOf terminator?
  cases (m.block? b).bind (·.terminator) <;> rfl

theorem mem_successorsOf {m : Module} {b s : BlockId} :
    s ∈ m.successorsOf b ↔ ∃ t, m.terminator? b = some t ∧ s ∈ t.successors := by
  rw [successorsOf_eq]
  cases m.terminator? b <;> simp

theorem typeOf_of_value? {m : Module} {v : ValueId} {info : ValueInfo}
    (h : m.value? v = some info) : m.typeOf v = info.ty := by
  simp [typeOf, h]

theorem functionOf?_eq_some {m : Module} {b : BlockId} {f : FunctionId} :
    m.functionOf? b = some f ↔ ∃ data, m.block? b = some data ∧ data.function = f := by
  simp [functionOf?]

theorem owner_of_mem_successorsOf {m : Module} {b s : BlockId} (h : s ∈ m.successorsOf b) :
    ∃ f, m.functionOf? b = some f := by
  unfold successorsOf at h
  cases hb : m.block? b with
  | none => simp [hb] at h
  | some data => exact ⟨data.function, by simp [functionOf?, hb]⟩

theorem isAlloca_of_mem_codeOf {m : Module} {b : BlockId} {i : Inst} (h : i ∈ m.codeOf b) :
    i.isAlloca = false := by
  unfold codeOf at h
  cases hb : m.block? b with
  | none => simp [hb] at h
  | some data =>
    rw [hb] at h
    exact Block.isAlloca_of_mem_code h

/-- The first module is a part of the second: what was there keeps its place and its type,
and slots are only added, for values that are new. -/
structure Extends (m m' : Module) : Prop where
  values : m.values.toList <+: m'.values.toList
  globals : m.globals.toList <+: m'.globals.toList
  functions : ∀ f F, m.function? f = some F → ∃ F', m'.function? f = some F' ∧
    (F'.id = F.id ∧ F'.name = F.name) ∧ F'.ret = F.ret ∧ F'.params = F.params
  blocks : ∀ b f, m.functionOf? b = some f → m'.functionOf? b = some f
  slots : ∀ b, m.functionOf? b ≠ none → ∃ more, m'.slotsOf b = m.slotsOf b ++ more ∧
    ∀ s ∈ more, m.values.size ≤ s.1.index

theorem getElem?_of_prefix {α : Type} {xs ys : Array α} (h : xs.toList <+: ys.toList) {i : Nat}
    {a : α} (at_ : xs[i]? = some a) : ys[i]? = some a := by
  rw [← Array.getElem?_toList] at at_ ⊢
  obtain ⟨rest, h⟩ := h
  rw [← h, List.getElem?_append_left (List.getElem?_eq_some_iff.1 at_).1, at_]

/-- Every global that the first module does not have is a string. -/
def StringsAfter (m m' : Module) : Prop :=
  ∀ (i : Nat) G, m'.globals[i]? = some G → m.globals[i]? = some G ∨ ∃ bytes, G.kind = .string bytes

theorem StringsAfter.of_eq {m m' : Module} (h : m'.globals = m.globals) : m.StringsAfter m' :=
  fun _ _ hG => .inl (by rwa [h] at hG)

theorem StringsAfter.trans {m m' m'' : Module} (h : m.StringsAfter m')
    (k : m'.StringsAfter m'') : m.StringsAfter m'' :=
  fun i G hG => (k i G hG).elim (h i G) .inr

theorem size_le_of_start {α : Type} {xs ys : Array α} (h : xs.toList <+: ys.toList) :
    xs.size ≤ ys.size := by
  simpa using h.length_le

namespace Extends

variable {m m' m'' : Module}

theorem refl (m : Module) : m.Extends m :=
  ⟨List.prefix_refl _, List.prefix_refl _, fun _ F h => ⟨F, h, ⟨rfl, rfl⟩, rfl, rfl⟩,
    fun _ _ h => h, fun _ _ => ⟨[], by simp, by simp⟩⟩

theorem value? (h : m.Extends m') {v : ValueId} {info : ValueInfo}
    (hv : m.value? v = some info) : m'.value? v = some info :=
  getElem?_of_prefix h.values hv

theorem typeOf (h : m.Extends m') {v : ValueId} {info : ValueInfo}
    (hv : m.value? v = some info) : m'.typeOf v = m.typeOf v := by
  rw [typeOf_of_value? hv, typeOf_of_value? (h.value? hv)]

theorem size_le (h : m.Extends m') : m.values.size ≤ m'.values.size :=
  size_le_of_start h.values

theorem trans (h : m.Extends m') (k : m'.Extends m'') : m.Extends m'' where
  values := h.values.trans k.values
  globals := h.globals.trans k.globals
  functions f F hF := by
    obtain ⟨F', hF', name, ret, params⟩ := h.functions f F hF
    obtain ⟨F'', hF'', name', ret', params'⟩ := k.functions f F' hF'
    exact ⟨F'', hF'', ⟨name'.1.trans name.1, name'.2.trans name.2⟩, ret'.trans ret, params'.trans params⟩
  blocks b f hb := k.blocks b f (h.blocks b f hb)
  slots b hb := by
    obtain ⟨f, hf⟩ := Option.ne_none_iff_exists'.1 hb
    obtain ⟨more, eq, new⟩ := h.slots b hb
    obtain ⟨more', eq', new'⟩ := k.slots b (by simp [h.blocks b f hf])
    refine ⟨more ++ more', by rw [eq', eq, List.append_assoc], fun s hs => ?_⟩
    rcases List.mem_append.1 hs with hs | hs
    · exact new s hs
    · exact Nat.le_trans h.size_le (new' s hs)

theorem mem_slotsOf (h : m.Extends m') {b : BlockId} {s : ValueId × Ty}
    (hs : s ∈ m.slotsOf b) : s ∈ m'.slotsOf b := by
  have there : m.functionOf? b ≠ none := by
    intro gone
    have : m.block? b = none := by simpa [functionOf?] using gone
    simp [slotsOf, this] at hs
  obtain ⟨more, eq, -⟩ := h.slots b there
  rw [eq]
  exact List.mem_append_left _ hs

end Extends

end Module

end Decaf.IR
