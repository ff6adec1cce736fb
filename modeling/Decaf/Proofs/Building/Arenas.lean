import Decaf.Proofs.Building.Records

/-!
# Arenas

A module is arranged if its arrays agree with each other. Positions are ids, and every id
that is stored anywhere is in range. A block is listed by its owner alone, in the order of
creation. An instruction that defines a value stands in the block that the value names. Slots
are reserved at the head of entry blocks, in the order of creation. Each way of changing the
arrays that a builder has keeps this up.
-/

namespace Decaf.IR

namespace Module

def HasValue (m : Module) (v : ValueId) : Prop := v.index < m.values.size

def HasBlock (m : Module) (c : BlockId) : Prop := c.index < m.blocks.size

def HasFunction (m : Module) (f : FunctionId) : Prop := f.index < m.functions.size

def HasGlobal (m : Module) (g : GlobalId) : Prop := g.index < m.globals.size

/-- Everything that an instruction mentions is in range. -/
def HasInst (m : Module) : Inst → Prop
  | .alloca dst _ => m.HasValue dst
  | .load dst _ address => m.HasValue dst ∧ m.HasValue address
  | .store value address => m.HasValue value ∧ m.HasValue address
  | .elementPtr dst _ base index => m.HasValue dst ∧ m.HasValue base ∧ m.HasValue index
  | .binary dst _ lhs rhs => m.HasValue dst ∧ m.HasValue lhs ∧ m.HasValue rhs
  | .unary dst _ operand => m.HasValue dst ∧ m.HasValue operand
  | .zext dst value _ => m.HasValue dst ∧ m.HasValue value
  | .phi dst _ incoming =>
    m.HasValue dst ∧ ∀ i ∈ incoming, m.HasValue i.1 ∧ m.HasBlock i.2
  | .call dst callee args =>
    (∀ v, dst = some v → m.HasValue v) ∧ m.HasFunction callee ∧ ∀ v ∈ args, m.HasValue v

def HasTerminator (m : Module) : Terminator → Prop
  | .br target => m.HasBlock target
  | .condBr cond thenBlock elseBlock =>
    m.HasValue cond ∧ m.HasBlock thenBlock ∧ m.HasBlock elseBlock
  | .ret value => ∀ v, value = some v → m.HasValue v
  | .unreachable => True

def HasOrigin (m : Module) : Origin → Prop
  | .const _ => True
  | .param f _ => m.HasFunction f
  | .inst block => ∀ c, block = some c → m.HasBlock c
  | .global g => m.HasGlobal g

def HasIssue (m : Module) (i : Option FunctionId × EmitIssue) : Prop :=
  (∀ f, i.1 = some f → m.HasFunction f) ∧ ∀ c, i.2 = .afterTerminator c → m.HasBlock c

/-- The block at which control enters a function. -/
def entryOf? (m : Module) (f : FunctionId) : Option BlockId :=
  (m.function? f).bind Function.entry?

/-- What a block holds is in range, defines each of its values once and begins with the slots,
which only the entry of a function has. -/
structure Houses (m : Module) (d : Block) : Prop where
  owner : m.HasFunction d.function
  insts : ∀ i ∈ d.insts.toList, m.HasInst i
  terminator : ∀ t, d.terminator = some t → m.HasTerminator t
  placed : ∀ v ∈ defined d.insts.toList, ∃ ty name,
    m.value? v = some ⟨ty, .inst (some d.id), name⟩
  nodup : (defined d.insts.toList).Nodup
  ordered : d.Ordered
  increasing : (d.slots.map (·.1.index)).Pairwise (· < ·)
  entry : d.slots ≠ [] → m.entryOf? d.function = some d.id

/-- The arrays agree with each other about ids, owners and origins. -/
structure Arranged (m : Module) : Prop where
  functionIds : ∀ (i : Nat) (F : Function), m.functions[i]? = some F → F.id = ⟨i⟩
  blockIds : ∀ (i : Nat) (d : Block), m.blocks[i]? = some d → d.id = ⟨i⟩
  globalIds : ∀ (i : Nat) (G : Global), m.globals[i]? = some G → G.id = ⟨i⟩
  origins : ∀ info ∈ m.values.toList, m.HasOrigin info.origin
  params : ∀ F ∈ m.functions.toList, ∀ q ∈ F.params, m.HasValue q.value
  addresses : ∀ G ∈ m.globals.toList, m.HasValue G.value
  issues : ∀ i ∈ m.issues.toList, m.HasIssue i
  listed : ∀ F ∈ m.functions.toList,
    F.blocks.toList = (m.blocks.toList.filter (·.function = F.id)).map (·.id)
  houses : ∀ d ∈ m.blocks.toList, m.Houses d

/-- The second module has room for all that the first has, and functions keep their entries. -/
structure Widens (m m' : Module) : Prop where
  values : m.values.toList <+: m'.values.toList
  globals : m.globals.size ≤ m'.globals.size
  functions : m.functions.size ≤ m'.functions.size
  blocks : m.blocks.size ≤ m'.blocks.size
  entries : ∀ f c, m.entryOf? f = some c → m'.entryOf? f = some c

section

variable {α ι : Type} {xs : Array α} {x : α}

theorem forall_mem_toList_push {P : α → Prop} (old : ∀ y ∈ xs.toList, P y) (new : P x) :
    ∀ y ∈ (xs.push x).toList, P y := by
  intro y hy
  rw [Array.toList_push, List.mem_append, List.mem_singleton] at hy
  rcases hy with hy | rfl
  · exact old y hy
  · exact new

/-- Positions stay ids if what is pushed has the next one. -/
theorem ids_push {id : α → ι} {number : Nat → ι} (old : ∀ i y, xs[i]? = some y → id y = number i)
    (new : id x = number xs.size) : ∀ i y, (xs.push x)[i]? = some y → id y = number i := by
  intro i y hy
  rw [Array.getElem?_push] at hy
  split at hy
  · rename_i same
    obtain rfl := Option.some.inj hy
    rw [new, same]
  · exact old i y hy

end

section

variable {m m' : Module} {d : Block}

namespace Widens

variable (w : m.Widens m')

include w

theorem value {v : ValueId} (h : m.HasValue v) : m'.HasValue v :=
  Nat.lt_of_lt_of_le h (size_le_of_start w.values)

theorem block {c : BlockId} (h : m.HasBlock c) : m'.HasBlock c :=
  Nat.lt_of_lt_of_le h w.blocks

theorem function {f : FunctionId} (h : m.HasFunction f) : m'.HasFunction f :=
  Nat.lt_of_lt_of_le h w.functions

theorem inst {i : Inst} (h : m.HasInst i) : m'.HasInst i := by
  cases i with
  | alloca dst ty => exact w.value h
  | load dst ty address => exact ⟨w.value h.1, w.value h.2⟩
  | store value address => exact ⟨w.value h.1, w.value h.2⟩
  | elementPtr dst ty base index => exact ⟨w.value h.1, w.value h.2.1, w.value h.2.2⟩
  | binary dst op lhs rhs => exact ⟨w.value h.1, w.value h.2.1, w.value h.2.2⟩
  | unary dst op operand => exact ⟨w.value h.1, w.value h.2⟩
  | zext dst value ty => exact ⟨w.value h.1, w.value h.2⟩
  | phi dst ty incoming =>
    exact ⟨w.value h.1, fun i hi => ⟨w.value (h.2 i hi).1, w.block (h.2 i hi).2⟩⟩
  | call dst callee args =>
    exact ⟨fun v hv => w.value (h.1 v hv), w.function h.2.1, fun v hv => w.value (h.2.2 v hv)⟩

theorem terminator {t : Terminator} (h : m.HasTerminator t) : m'.HasTerminator t := by
  cases t with
  | br target => exact w.block h
  | condBr cond thenBlock elseBlock => exact ⟨w.value h.1, w.block h.2.1, w.block h.2.2⟩
  | ret value => exact fun v hv => w.value (h v hv)
  | unreachable => trivial

theorem origin {o : Origin} (h : m.HasOrigin o) : m'.HasOrigin o := by
  cases o with
  | const c => trivial
  | param f index => exact w.function h
  | inst block => exact fun c hc => w.block (h c hc)
  | global g => exact Nat.lt_of_lt_of_le h w.globals

theorem issue {i : Option FunctionId × EmitIssue} (h : m.HasIssue i) : m'.HasIssue i :=
  ⟨fun f hf => w.function (h.1 f hf), fun c hc => w.block (h.2 c hc)⟩

theorem houses (h : m.Houses d) : m'.Houses d where
  owner := w.function h.owner
  insts i hi := w.inst (h.insts i hi)
  terminator t ht := w.terminator (h.terminator t ht)
  placed v hv := by
    obtain ⟨ty, name, value⟩ := h.placed v hv
    exact ⟨ty, name, getElem?_of_prefix w.values value⟩
  nodup := h.nodup
  ordered := h.ordered
  increasing := h.increasing
  entry hd := w.entries _ _ (h.entry hd)

end Widens

namespace Houses

/-- An instruction that reserves no slot is put at the end. The value it defines is later than
all others. -/
theorem push (h : m.Houses d) {i : Inst} (has : m.HasInst i) (plain : i.isAlloca = false)
    (new : ∀ v, i.defined? = some v →
      (∃ ty name, m.value? v = some ⟨ty, .inst (some d.id), name⟩) ∧
        ∀ u ∈ defined d.insts.toList, u.index < v.index) : m.Houses (d.push i) := by
  have split : defined (d.push i).insts.toList =
      defined d.insts.toList ++ i.defined?.toList := by
    cases hi : i.defined? <;> simp [Block.push, defined, hi]
  constructor
  case owner => exact h.owner
  case insts => exact forall_mem_toList_push h.insts has
  case terminator => exact h.terminator
  case placed =>
    intro v hv
    rw [split, List.mem_append] at hv
    rcases hv with hv | hv
    · exact h.placed v hv
    · exact (new v (Option.mem_toList.1 hv)).1
  case nodup =>
    rw [split]
    refine List.nodup_append.2 ⟨h.nodup, by cases i.defined? <;> simp, fun u old v hv same => ?_⟩
    subst same
    exact Nat.lt_irrefl _ ((new u (Option.mem_toList.1 hv)).2 u old)
  case ordered => exact h.ordered.push plain
  case increasing =>
    rw [Block.slots_push plain]
    exact h.increasing
  case entry =>
    rw [Block.slots_push plain]
    exact h.entry

theorem mem_defined_of_slot {s : ValueId × Ty} (hs : s ∈ d.slots) :
    s.1 ∈ defined d.insts.toList := by
  obtain ⟨i, hi, slot⟩ := List.mem_filterMap.1 hs
  refine List.mem_filterMap.2 ⟨i, hi, ?_⟩
  cases i <;> cases slot
  rfl

/-- A slot is reserved after those that the entry begins with. -/
theorem hoist (h : m.Houses d) {v : ValueId} {ty : Ty} {name : Option String}
    (value : m.value? v = some ⟨.ptr, .inst (some d.id), name⟩)
    (later : ∀ u ∈ defined d.insts.toList, u.index < v.index)
    (entry : m.entryOf? d.function = some d.id) : m.Houses (d.hoist (.alloca v ty)) := by
  have gains := (d.gains_hoist (.alloca v ty)).insts
  have values : (defined (d.hoist (.alloca v ty)).insts.toList).Perm
      (v :: defined d.insts.toList) := gains.filterMap Inst.defined?
  have slots := Block.slots_hoist h.ordered v ty
  constructor
  case owner => exact h.owner
  case insts =>
    intro i hi
    rcases List.mem_cons.1 (gains.subset hi) with rfl | hi
    · exact (Array.getElem?_eq_some_iff.1 value).1
    · exact h.insts i hi
  case terminator => exact h.terminator
  case placed =>
    intro u hu
    rcases List.mem_cons.1 (values.subset hu) with rfl | hu
    · exact ⟨.ptr, name, value⟩
    · exact h.placed u hu
  case nodup =>
    refine values.nodup_iff.2 (List.nodup_cons.2 ⟨fun old => ?_, h.nodup⟩)
    exact Nat.lt_irrefl _ (later v old)
  case ordered => exact h.ordered.hoist v ty
  case increasing =>
    rw [slots, List.map_append, List.pairwise_append]
    refine ⟨h.increasing, List.pairwise_singleton .., fun n hn k hk => ?_⟩
    obtain ⟨s, hs, rfl⟩ := List.mem_map.1 hn
    obtain rfl : k = v.index := by simpa using hk
    exact later s.1 (mem_defined_of_slot hs)
  case entry => exact fun _ => entry

theorem close (h : m.Houses d) {t : Terminator} (has : m.HasTerminator t) :
    m.Houses (d.close t) where
  owner := h.owner
  insts := h.insts
  terminator u hu := by
    obtain rfl : t = u := by simpa [Block.close] using hu
    exact has
  placed := h.placed
  nodup := h.nodup
  ordered := h.ordered
  increasing := h.increasing
  entry := h.entry

/-- Every value that a block defines was there before the values that are added now. -/
theorem lt_size (h : m.Houses d) {v : ValueId} (hv : v ∈ defined d.insts.toList) :
    v.index < m.values.size := by
  obtain ⟨ty, name, value⟩ := h.placed v hv
  exact (Array.getElem?_eq_some_iff.1 value).1

end Houses

end

/-- A block is appended to the blocks and listed at the end of its function. -/
theorem widens_append (m : Module) (f : FunctionId) (d : Block) :
    m.Widens { m with
      blocks := m.blocks.push d
      functions := m.functions.modify f.index fun F =>
        { F with blocks := F.blocks.push d.id } } := by
  refine ⟨List.prefix_refl _, Nat.le_refl _, by simp, by simp, fun g c hc => ?_⟩
  obtain ⟨G, there, first⟩ := Option.bind_eq_some_iff.1 hc
  rw [Module.function?] at there
  rw [entryOf?, Module.function?, Array.getElem?_modify]
  split
  · have held := (Array.getElem?_eq_some_iff.1 first).1
    rw [there, Option.map_some, Option.bind_some, Function.entry?, Array.getElem?_push_lt held,
      ← Array.getElem?_eq_getElem held]
    exact first
  · rw [there, Option.bind_some]
    exact first

namespace Arranged

variable {m : Module}

theorem rename (h : m.Arranged) (name : String) : Arranged { m with name } := by
  have w : m.Widens { m with name } :=
    ⟨List.prefix_refl _, Nat.le_refl _, Nat.le_refl _, Nat.le_refl _, fun _ _ h => h⟩
  exact ⟨h.functionIds, h.blockIds, h.globalIds, fun info hi => w.origin (h.origins info hi),
    h.params, h.addresses, fun i hi => w.issue (h.issues i hi), h.listed,
    fun d hd => w.houses (h.houses d hd)⟩

theorem record (h : m.Arranged) {i : Option FunctionId × EmitIssue} (has : m.HasIssue i) :
    Arranged { m with issues := m.issues.push i } := by
  have w : m.Widens { m with issues := m.issues.push i } :=
    ⟨List.prefix_refl _, Nat.le_refl _, Nat.le_refl _, Nat.le_refl _, fun _ _ h => h⟩
  exact ⟨h.functionIds, h.blockIds, h.globalIds, fun info hi => w.origin (h.origins info hi),
    h.params, h.addresses, fun j hj => w.issue (forall_mem_toList_push h.issues has j hj),
    h.listed, fun d hd => w.houses (h.houses d hd)⟩

theorem pushValue (h : m.Arranged) (info : ValueInfo) (has : m.HasOrigin info.origin) :
    m.Widens { m with values := m.values.push info } ∧
      Arranged { m with values := m.values.push info } := by
  have w : m.Widens { m with values := m.values.push info } :=
    ⟨by simp, Nat.le_refl _, Nat.le_refl _, Nat.le_refl _, fun _ _ h => h⟩
  exact ⟨w, h.functionIds, h.blockIds, h.globalIds,
    fun other ho => w.origin (forall_mem_toList_push h.origins has other ho),
    fun F hF q hq => w.value (h.params F hF q hq), fun G hG => w.value (h.addresses G hG),
    fun i hi => w.issue (h.issues i hi), h.listed, fun d hd => w.houses (h.houses d hd)⟩

theorem pushGlobal (h : m.Arranged) (name : String) (kind : GlobalKind) :
    Arranged { m with
      values := m.values.push ⟨.ptr, .global ⟨m.globals.size⟩, some name⟩
      globals := m.globals.push ⟨⟨m.globals.size⟩, name, kind, ⟨m.values.size⟩⟩ } := by
  have w : m.Widens { m with
      values := m.values.push ⟨.ptr, .global ⟨m.globals.size⟩, some name⟩
      globals := m.globals.push ⟨⟨m.globals.size⟩, name, kind, ⟨m.values.size⟩⟩ } :=
    ⟨by simp, by simp, Nat.le_refl _, Nat.le_refl _, fun _ _ h => h⟩
  constructor
  case functionIds => exact h.functionIds
  case blockIds => exact h.blockIds
  case globalIds => exact ids_push h.globalIds rfl
  case origins =>
    exact forall_mem_toList_push (fun info hi => w.origin (h.origins info hi))
      (by simp [HasOrigin, HasGlobal])
  case params => exact fun F hF q hq => w.value (h.params F hF q hq)
  case addresses =>
    exact forall_mem_toList_push (fun G hG => w.value (h.addresses G hG)) (by simp [HasValue])
  case issues => exact fun i hi => w.issue (h.issues i hi)
  case listed => exact h.listed
  case houses => exact fun d hd => w.houses (h.houses d hd)

/-- A block is changed in what it holds. -/
theorem modify (h : m.Arranged) (c : BlockId) {change : Block → Block}
    (id : ∀ d, (change d).id = d.id) (function : ∀ d, (change d).function = d.function)
    (houses : ∀ d, m.block? c = some d → m.Houses (change d)) :
    Arranged { m with blocks := m.blocks.modify c.index change } := by
  have w : m.Widens { m with blocks := m.blocks.modify c.index change } :=
    ⟨List.prefix_refl _, Nat.le_refl _, Nat.le_refl _, by simp, fun _ _ h => h⟩
  constructor
  case functionIds => exact h.functionIds
  case blockIds =>
    intro i d hd
    rw [Array.getElem?_modify] at hd
    split at hd
    · obtain ⟨old, there, rfl⟩ := Option.map_eq_some_iff.1 hd
      exact (id old).trans (h.blockIds i old there)
    · exact h.blockIds i d hd
  case globalIds => exact h.globalIds
  case origins => exact fun info hi => w.origin (h.origins info hi)
  case params => exact h.params
  case addresses => exact h.addresses
  case issues => exact fun i hi => w.issue (h.issues i hi)
  case listed =>
    intro F hF
    rw [h.listed F hF]
    -- both lists are read off the blocks by their owners and ids, which stay
    have same (p : Block → Bool × BlockId) (keeps : ∀ d, p (change d) = p d) :
        (m.blocks.modify c.index change).toList.map p = m.blocks.toList.map p := by
      refine List.ext_getElem? fun i => ?_
      rw [List.getElem?_map, List.getElem?_map, Array.getElem?_toList, Array.getElem?_modify,
        Array.getElem?_toList]
      split
      · cases m.blocks[i]? <;> simp [keeps]
      · rfl
    have byOwner (blocks : List Block) : (blocks.filter (·.function = F.id)).map (·.id) =
        ((blocks.map fun d => (decide (d.function = F.id), d.id)).filter (·.1)).map (·.2) := by
      rw [List.filter_map, List.map_map]
      rfl
    rw [byOwner, byOwner, same _ fun d => by rw [function, id]]
  case houses =>
    intro d hd
    obtain ⟨i, hi⟩ := List.mem_iff_getElem?.1 hd
    rw [Array.getElem?_toList, Array.getElem?_modify] at hi
    refine w.houses ?_
    split at hi
    · rename_i same
      obtain ⟨old, there, rfl⟩ := Option.map_eq_some_iff.1 hi
      exact houses old (by rw [Module.block?, same, there])
    · exact h.houses d (List.mem_iff_getElem?.2 ⟨i, by rwa [Array.getElem?_toList]⟩)

/-- A function is declared, with values for its parameters. -/
theorem declare (h : m.Arranged) {F : Function} {infos : List ValueInfo}
    (id : F.id = ⟨m.functions.size⟩) (bodiless : F.blocks = #[])
    (params : ∀ q ∈ F.params, q.value.index < m.values.size + infos.length)
    (origins : ∀ info ∈ infos, ∃ i, info.origin = .param F.id i) :
    Arranged { m with
      values := m.values ++ infos
      functions := m.functions.push F } := by
  have w : m.Widens { m with values := m.values ++ infos, functions := m.functions.push F } := by
    refine ⟨by simp, Nat.le_refl _, by simp, Nat.le_refl _, fun f c hc => ?_⟩
    obtain ⟨G, there, first⟩ := Option.bind_eq_some_iff.1 hc
    have old := (Array.getElem?_eq_some_iff.1 there).1
    rw [Module.entryOf?, Module.function?, Array.getElem?_push_lt old,
      ← Array.getElem?_eq_getElem old]
    exact hc
  constructor
  case functionIds => exact ids_push h.functionIds id
  case blockIds => exact h.blockIds
  case globalIds => exact h.globalIds
  case origins =>
    intro info hi
    rw [Array.toList_appendList, List.mem_append] at hi
    rcases hi with hi | hi
    · exact w.origin (h.origins info hi)
    · obtain ⟨i, origin⟩ := origins info hi
      simp [origin, HasOrigin, HasFunction, id]
  case params =>
    refine forall_mem_toList_push (fun G hG q hq => w.value (h.params G hG q hq)) fun q hq => ?_
    have := params q hq
    rw [HasValue, ← Array.length_toList, Array.toList_appendList, List.length_append,
      Array.length_toList]
    exact this
  case addresses => exact fun G hG => w.value (h.addresses G hG)
  case issues => exact fun i hi => w.issue (h.issues i hi)
  case listed =>
    refine forall_mem_toList_push h.listed ?_
    -- no block names a function that was not there before
    have none : m.blocks.toList.filter (·.function = F.id) = [] := by
      rw [List.filter_eq_nil_iff]
      intro d hd same
      have owner := (h.houses d hd).owner
      simp only [decide_eq_true_eq] at same
      rw [HasFunction, same, id] at owner
      exact Nat.lt_irrefl _ owner
    simp [none, bodiless]
  case houses => exact fun d hd => w.houses (h.houses d hd)

/-- After a block was appended a function is an old one at its place, with one more block if it
is the owner. -/
theorem mem_append (h : m.Arranged) {f : FunctionId} {c : BlockId} {G : Function}
    (hG : G ∈ (m.functions.modify f.index fun F =>
      { F with blocks := F.blocks.push c }).toList) :
    ∃ F ∈ m.functions.toList, G.id = F.id ∧ G.params = F.params ∧ G.blocks.toList =
      F.blocks.toList ++ if f = F.id then [c] else [] := by
  obtain ⟨i, hi⟩ := List.mem_iff_getElem?.1 hG
  rw [Array.getElem?_toList, Array.getElem?_modify] at hi
  split at hi
  · rename_i same
    obtain ⟨F, there, rfl⟩ := Option.map_eq_some_iff.1 hi
    refine ⟨F, List.mem_iff_getElem?.2 ⟨i, by rwa [Array.getElem?_toList]⟩, rfl, rfl, ?_⟩
    have here : f = F.id := by rw [h.functionIds i F there, ← same]
    rw [if_pos here, Array.toList_push]
  · rename_i other
    refine ⟨G, List.mem_iff_getElem?.2 ⟨i, by rwa [Array.getElem?_toList]⟩, rfl, rfl, ?_⟩
    have away : f ≠ G.id := fun same => other (by rw [same, h.functionIds i G hi])
    rw [if_neg away, List.append_nil]

/-- A block is appended to a function. -/
theorem append (h : m.Arranged) {f : FunctionId} (known : m.HasFunction f) (label : String) :
    Arranged { m with
      blocks := m.blocks.push ⟨⟨m.blocks.size⟩, f, label, #[], none⟩
      functions := m.functions.modify f.index fun F =>
        { F with blocks := F.blocks.push ⟨m.blocks.size⟩ } } := by
  have w := m.widens_append f ⟨⟨m.blocks.size⟩, f, label, #[], none⟩
  constructor
  case functionIds =>
    intro i G hG
    rw [Array.getElem?_modify] at hG
    split at hG
    · obtain ⟨F, there, rfl⟩ := Option.map_eq_some_iff.1 hG
      exact h.functionIds i F there
    · exact h.functionIds i G hG
  case blockIds => exact ids_push h.blockIds rfl
  case globalIds => exact h.globalIds
  case origins => exact fun info hi => w.origin (h.origins info hi)
  case params =>
    intro G hG q hq
    obtain ⟨F, there, -, params, -⟩ := h.mem_append hG
    exact h.params F there q (params ▸ hq)
  case addresses => exact h.addresses
  case issues => exact fun i hi => w.issue (h.issues i hi)
  case listed =>
    intro G hG
    obtain ⟨F, there, id, -, blocks⟩ := h.mem_append hG
    rw [blocks, h.listed F there, Array.toList_push, List.filter_append, List.map_append, id]
    by_cases here : f = F.id <;> simp [here]
  case houses =>
    refine forall_mem_toList_push (fun d hd => w.houses (h.houses d hd)) ?_
    exact ⟨w.function known, by simp, by simp, by simp, by simp, rfl, by simp [Block.slots],
      by simp [Block.slots]⟩

end Arranged

end Module

end Decaf.IR
