import Decaf.IR.Check
import Decaf.Proofs.Generation.Layout

/-!
# Bodies

What is known about the body of a function while it is being built. A plan names its entry
and says of each block which values are there whenever control enters it; an operand is
either fixed or among those and the ones defined before it. Stores and loads go to slots, to
scalar globals, or to an element whose address was computed by the instruction before. With
`typed` the operands also have the types that their instructions need.
-/

namespace Decaf.IR

/-- The function that is being built, its entry, and the values on which each of its blocks
can rely. -/
structure Plan where
  function : FunctionId
  ret : Ty
  entry : BlockId
  avail : BlockId → List ValueId

/-- The plan in which a further block relies on the given values. -/
def Plan.rely (p : Plan) (b : BlockId) (there : List ValueId) : Plan :=
  { p with avail := fun c => if c = b then there else p.avail c }

namespace Module

variable (typed : Prop) (m : Module) (p : Plan)

/-- A constant or the address of a global. -/
def Fixed (v : ValueId) : Prop :=
  ∃ info, m.value? v = some info ∧
    ((∃ c, info.origin = .const c ∧ info.ty = c.ty) ∨
      ∃ g, info.origin = .global g ∧ info.ty = .ptr)

/-- The address of a global of the given kind. -/
def IsGlobal (v : ValueId) (kind : GlobalKind) : Prop :=
  ∃ g name G, m.value? v = some ⟨.ptr, .global g, name⟩ ∧ m.globals[g.index]? = some G ∧
    G.kind = kind

/-- An operand where the values `there` are defined. -/
def Usable (there : List ValueId) (v : ValueId) : Prop :=
  m.Fixed v ∨ v ∈ there ∧ m.owner? v = some p.function

/-- The address of a slot or of a scalar global. -/
def IsSlot (a : ValueId) (ty : Ty) : Prop :=
  (a, ty) ∈ m.slotsOf p.entry ∨ ∃ c, c.ty = ty ∧ m.IsGlobal a (.scalar ty c)

/-- An address of values of type `ty`, after the instructions `pre` of a block. -/
def IsAddress (pre : List Inst) (a : ValueId) (ty : Ty) : Prop :=
  m.IsSlot p a ty ∨ ∃ base index, pre.getLast? = some (.elementPtr a ty base index)

/-- The value is defined in the block, and is not a slot. -/
def Defines (b : BlockId) (dst : ValueId) (ty : Ty) : Prop :=
  (∃ name, m.value? dst = some ⟨ty, .inst (some b), name⟩) ∧
    ∀ slotTy, (dst, slotTy) ∉ m.slotsOf p.entry

/-- An instruction other than an alloca and a phi, after the instructions `pre` of a block. -/
def InstOk (b : BlockId) (pre : List Inst) : Inst → Prop
  | .alloca _ _ => False
  | .load dst ty a => m.Defines p b dst ty ∧ m.IsAddress p pre a ty
  | .store v a => m.Usable p (p.avail b ++ defined pre) v ∧
    ∃ ty, m.IsAddress p pre a ty ∧ (typed → m.typeOf v = ty)
  | .elementPtr dst ty base i => m.Defines p b dst .ptr ∧ i ≠ dst ∧
    (∃ length, m.IsGlobal base (.array ty length)) ∧
    m.Usable p (p.avail b ++ defined pre) i ∧ (typed → m.typeOf i = .i32)
  | .binary dst op l r => m.Defines p b dst (op.resultTy (m.typeOf l)) ∧
    m.Usable p (p.avail b ++ defined pre) l ∧ m.Usable p (p.avail b ++ defined pre) r ∧
    (typed → m.typeOf l = m.typeOf r ∧
      (m.typeOf l = .i32 ∨ m.typeOf l = .i1 ∧ (op = .eq ∨ op = .ne)))
  | .unary dst op v => m.Defines p b dst (m.typeOf v) ∧
    m.Usable p (p.avail b ++ defined pre) v ∧
    (typed → m.typeOf v = .i32 ∨ m.typeOf v = .i1 ∧ op = .not)
  | .zext dst v ty => m.Defines p b dst ty ∧
    m.Usable p (p.avail b ++ defined pre) v ∧ m.typeOf v = .i1 ∧ ty = .i32
  | .phi _ _ _ => False
  | .call dst g args => ∃ F, m.function? g = some F ∧ F.params.length = args.length ∧
    (∀ v ∈ args, m.Usable p (p.avail b ++ defined pre) v) ∧
    (∀ d, dst = some d → F.ret ≠ .void ∧ m.Defines p b d F.ret) ∧
    (dst = none → F.ret = .void) ∧
    (typed → args.map m.typeOf = F.params.map (·.ty))

/-- A phi at the start of a block: it names each predecessor once. -/
def PhiOk (b : BlockId) (pre : List Inst) (i : Inst) : Prop :=
  ∃ dst incoming, i = .phi dst .i1 incoming ∧ pre = [] ∧ b ≠ p.entry ∧
    m.Defines p b dst .i1 ∧ (incoming.map Prod.snd).Nodup ∧
    (∀ q, q ∈ incoming.map Prod.snd ↔ m.functionOf? q = some p.function ∧
      b ∈ m.successorsOf q) ∧
    ∀ i ∈ incoming, m.Usable p (p.avail i.2 ++ defined (m.codeOf i.2)) i.1 ∧
      (typed → m.typeOf i.1 = .i1)

/-- Control may go to the block from where the values `there` are defined. -/
def Leads (there : List ValueId) (s : BlockId) : Prop :=
  m.functionOf? s = some p.function ∧ s ≠ p.entry ∧ p.avail s ⊆ there

def TermOk (there : List ValueId) : Terminator → Prop
  | .br s => m.Leads p there s
  | .condBr c s t => m.Usable p there c ∧ (typed → m.typeOf c = .i1) ∧
    m.Leads p there s ∧ m.Leads p there t
  | .ret none => p.ret = .void
  | .ret (some v) => p.ret ≠ .void ∧ m.Usable p there v ∧ (typed → m.typeOf v = p.ret)
  | .unreachable => True

/-- The function that is being built has its entry and can rely on its parameters there. -/
def Declared (F : Function) : Prop :=
  m.function? p.function = some F ∧ F.ret = p.ret ∧ F.entry? = some p.entry ∧
    F.blocks.toList.Nodup ∧ p.avail p.entry = F.params.map (·.value) ∧
    ∀ q ∈ F.params, ∃ i name, m.value? q.value = some ⟨q.ty, .param p.function i, name⟩

variable {m p} in
theorem Declared.isDeclaration {F : Function} (h : m.Declared p F) : F.isDeclaration = false := by
  have held := (Array.getElem?_eq_some_iff.1 h.2.2.1).1
  simp only [Function.isDeclaration, Array.isEmpty]
  exact decide_eq_false (by omega)

structure Body : Prop where
  declared : ∃ F, m.Declared p F
  owned : ∀ b, b ∈ m.blocksOf p.function ↔ m.functionOf? b = some p.function
  order : ∀ b, m.functionOf? b = some p.function → m.OrderedAt b
  noSlots : ∀ b, m.functionOf? b = some p.function → b ≠ p.entry → m.slotsOf b = []
  slots : ∀ s ∈ m.slotsOf p.entry, (typed → s.2 ≠ .void) ∧ ∃ name,
    m.value? s.1 = some ⟨.ptr, .inst (some p.entry), name⟩
  slotIds : ((m.slotsOf p.entry).map Prod.fst).Nodup
  insts : ∀ b, m.functionOf? b = some p.function → ∀ pre i post,
    m.codeOf b = pre ++ i :: post → m.InstOk typed p b pre i ∨ m.PhiOk typed p b pre i
  terms : ∀ b, m.functionOf? b = some p.function → ∀ t, m.terminator? b = some t →
    m.TermOk typed p (p.avail b ++ defined (m.codeOf b)) t
  /-- A block that ends in `unreachable` is not reached. -/
  dead : ∀ b, m.terminator? b = some .unreachable → b ≠ p.entry ∧
    ∀ q, m.functionOf? q = some p.function → b ∉ m.successorsOf q
  avail : ∀ b, m.functionOf? b = some p.function → ∀ v ∈ p.avail b,
    m.owner? v = some p.function

section Extension

variable {typed} {m} {p} {m' : Module}

theorem Fixed.mono (ext : m.Extends m') {v : ValueId} (h : m.Fixed v) : m'.Fixed v := by
  obtain ⟨info, hv, h⟩ := h
  exact ⟨info, ext.value? hv, h⟩

theorem IsGlobal.mono (ext : m.Extends m') {v : ValueId} {kind : GlobalKind}
    (h : m.IsGlobal v kind) : m'.IsGlobal v kind := by
  obtain ⟨g, name, G, hv, hG, hk⟩ := h
  exact ⟨g, name, G, ext.value? hv, getElem?_of_prefix ext.globals hG, hk⟩

theorem owner?_mono (ext : m.Extends m') {v : ValueId} {f : FunctionId}
    (h : m.owner? v = some f) : m'.owner? v = some f := by
  unfold owner? at h ⊢
  cases hv : m.value? v with
  | none => simp [hv] at h
  | some info =>
    rw [hv] at h
    rw [ext.value? hv]
    obtain ⟨ty, origin, name⟩ := info
    cases origin with
    | const c => cases h
    | global g => cases h
    | param g i => exact h
    | inst block =>
      cases block with
      | none => cases h
      | some b => exact ext.blocks b f h

theorem value?_of_owner? {v : ValueId} {f : FunctionId} (h : m.owner? v = some f) :
    ∃ info, m.value? v = some info := by
  unfold owner? at h
  cases hv : m.value? v with
  | none => simp [hv] at h
  | some info => exact ⟨info, rfl⟩

namespace Usable

variable {there more : List ValueId} {v : ValueId}

theorem value? (h : m.Usable p there v) : ∃ info, m.value? v = some info := by
  rcases h with ⟨info, hv, -⟩ | ⟨-, owner⟩
  · exact ⟨info, hv⟩
  · exact value?_of_owner? owner

theorem ne_of_new (h : m.Usable p there v) {w : ValueId} (new : m.value? w = none) : v ≠ w := by
  rintro rfl
  obtain ⟨info, hv⟩ := h.value?
  rw [new] at hv
  cases hv

theorem mono (ext : m.Extends m') (sub : there ⊆ more) (h : m.Usable p there v) :
    m'.Usable p more v :=
  h.imp (·.mono ext) fun ⟨mem, owner⟩ => ⟨sub mem, owner?_mono ext owner⟩

theorem typeOf (ext : m.Extends m') (h : m.Usable p there v) : m'.typeOf v = m.typeOf v := by
  obtain ⟨info, hv⟩ := h.value?
  exact ext.typeOf hv

/-- A fixed value has no owner, and any other operand belongs to the function. -/
theorem checkedType (h : m.Usable p there v) :
    m.checkedType p.function v = .ok (m.typeOf v) := by
  unfold Module.checkedType
  rcases h with ⟨info, hv, origin⟩ | ⟨-, owner⟩
  · obtain ⟨ty, _, name⟩ := info
    rcases origin with ⟨c, rfl, -⟩ | ⟨g, rfl, -⟩ <;> simp [owner?, hv]
  · simp [owner]

end Usable

theorem IsSlot.mono (ext : m.Extends m') {a : ValueId} {ty : Ty} (h : m.IsSlot p a ty) :
    m'.IsSlot p a ty :=
  h.imp ext.mem_slotsOf fun ⟨c, hc, isGlobal⟩ => ⟨c, hc, isGlobal.mono ext⟩

theorem IsAddress.mono (ext : m.Extends m') {pre : List Inst} {a : ValueId} {ty : Ty}
    (h : m.IsAddress p pre a ty) : m'.IsAddress p pre a ty :=
  h.imp (·.mono ext) id

theorem Defines.mono (ext : m.Extends m') (entry : m.functionOf? p.entry ≠ none)
    {b : BlockId} {dst : ValueId} {ty : Ty} (h : m.Defines p b dst ty) :
    m'.Defines p b dst ty := by
  obtain ⟨⟨name, hv⟩, apart⟩ := h
  refine ⟨⟨name, ext.value? hv⟩, fun slotTy mem => ?_⟩
  obtain ⟨more, eq, new⟩ := ext.slots p.entry entry
  rw [eq] at mem
  rcases List.mem_append.1 mem with old | added
  · exact apart slotTy old
  · have bound : m.values.size ≤ dst.index := new _ added
    have held := (Array.getElem?_eq_some_iff.1 hv).1
    omega

/-- What is right stays right when the module grows. -/
theorem InstOk.mono (ext : m.Extends m') (entry : m.functionOf? p.entry ≠ none) {b : BlockId}
    {pre : List Inst} {i : Inst} (h : m.InstOk typed p b pre i) :
    m'.InstOk typed p b pre i := by
  have keep {v : ValueId} (u : m.Usable p (p.avail b ++ defined pre) v) :
      m'.Usable p (p.avail b ++ defined pre) v := u.mono ext fun _ mem => mem
  cases i with
  | alloca => exact h
  | phi => exact h
  | load dst ty a => exact ⟨h.1.mono ext entry, h.2.mono ext⟩
  | store v a =>
    obtain ⟨usable, ty, address, type⟩ := h
    exact ⟨keep usable, ty, address.mono ext, fun t => (usable.typeOf ext).trans (type t)⟩
  | elementPtr dst ty base i =>
    obtain ⟨defines, apart, ⟨length, isGlobal⟩, usable, type⟩ := h
    exact ⟨defines.mono ext entry, apart, ⟨length, isGlobal.mono ext⟩, keep usable,
      fun t => (usable.typeOf ext).trans (type t)⟩
  | binary dst op l r =>
    obtain ⟨defines, left, right, type⟩ := h
    simp only [InstOk, left.typeOf ext, right.typeOf ext]
    exact ⟨defines.mono ext entry, keep left, keep right, type⟩
  | unary dst op v =>
    obtain ⟨defines, usable, type⟩ := h
    simp only [InstOk, usable.typeOf ext]
    exact ⟨defines.mono ext entry, keep usable, type⟩
  | zext dst v ty =>
    obtain ⟨defines, usable, type⟩ := h
    simp only [InstOk, usable.typeOf ext]
    exact ⟨defines.mono ext entry, keep usable, type⟩
  | call dst g args =>
    obtain ⟨F, hF, arity, usable, defines, noResult, type⟩ := h
    obtain ⟨F', hF', -, ret, params⟩ := ext.functions g F hF
    refine ⟨F', hF', by rw [params, arity], fun v hv => keep (usable v hv),
      fun d hd => ?_, fun none => ret.trans (noResult none), fun t => ?_⟩
    · rw [ret]
      exact ⟨(defines d hd).1, (defines d hd).2.mono ext entry⟩
    · rw [params, ← type t]
      exact List.map_congr_left fun v hv => (usable v hv).typeOf ext

theorem Leads.mono (ext : m.Extends m') {there more : List ValueId} (sub : there ⊆ more)
    {s : BlockId} (h : m.Leads p there s) : m'.Leads p more s :=
  ⟨ext.blocks _ _ h.1, h.2.1, fun _ mem => sub (h.2.2 mem)⟩

theorem TermOk.mono (ext : m.Extends m') {there more : List ValueId} (sub : there ⊆ more)
    {t : Terminator} (h : m.TermOk typed p there t) : m'.TermOk typed p more t := by
  cases t with
  | br s => exact Leads.mono ext sub h
  | condBr c s t =>
    obtain ⟨usable, type, first, second⟩ := h
    exact ⟨usable.mono ext sub, fun t => (usable.typeOf ext).trans (type t),
      first.mono ext sub, second.mono ext sub⟩
  | ret v =>
    cases v with
    | none => exact h
    | some v =>
      obtain ⟨value, usable, type⟩ := h
      exact ⟨value, usable.mono ext sub, fun t => (usable.typeOf ext).trans (type t)⟩
  | unreachable => trivial

end Extension

section Plans

/-- The two plans say the same of the blocks that the module has. -/
structure Agree (q : Plan) : Prop where
  function : q.function = p.function
  ret : q.ret = p.ret
  entry : q.entry = p.entry
  avail : ∀ b, m.functionOf? b = some p.function → q.avail b = p.avail b

variable {typed} {m} {p} {q : Plan}

theorem agree_rely {b : BlockId} (fresh : m.functionOf? b = none) (there : List ValueId) :
    m.Agree p (p.rely b there) where
  function := rfl
  ret := rfl
  entry := rfl
  avail c hc := if_neg fun same => by simp [same, fresh] at hc

theorem Usable.congr (function : q.function = p.function) {there : List ValueId} {v : ValueId} :
    m.Usable q there v ↔ m.Usable p there v := by
  rw [Usable, Usable, function]

theorem InstOk.congr (a : m.Agree p q) {b : BlockId} (owned : m.functionOf? b = some p.function)
    {pre : List Inst} {i : Inst} : m.InstOk typed q b pre i ↔ m.InstOk typed p b pre i := by
  cases i <;> simp only [InstOk, IsAddress, IsSlot, Defines, Usable.congr a.function, a.entry,
    a.avail b owned]

theorem PhiOk.congr (a : m.Agree p q) {b : BlockId} {pre : List Inst} {i : Inst}
    (h : m.PhiOk typed p b pre i) : m.PhiOk typed q b pre i := by
  obtain ⟨dst, incoming, rfl, start, inner, defines, once, sources, usable⟩ := h
  refine ⟨dst, incoming, rfl, start, by rwa [a.entry], by rwa [Defines, a.entry], once,
    fun c => by rw [a.function, sources], fun i hi => ?_⟩
  have owned := ((sources i.2).1 (List.mem_map_of_mem hi)).1
  rw [Usable.congr a.function, a.avail i.2 owned]
  exact usable i hi

theorem Leads.congr (a : m.Agree p q) {there : List ValueId} {s : BlockId}
    (h : m.Leads p there s) : m.Leads q there s :=
  ⟨by rw [a.function, h.1], by rw [a.entry]; exact h.2.1, by rw [a.avail s h.1]; exact h.2.2⟩

theorem TermOk.congr (a : m.Agree p q) {there : List ValueId} {t : Terminator}
    (h : m.TermOk typed p there t) : m.TermOk typed q there t := by
  cases t with
  | br s => exact Leads.congr a h
  | condBr c s t =>
    exact ⟨(Usable.congr a.function).2 h.1, h.2.1, h.2.2.1.congr a, h.2.2.2.congr a⟩
  | ret v =>
    cases v with
    | none => exact a.ret.trans h
    | some v =>
      exact ⟨by rw [a.ret]; exact h.1, (Usable.congr a.function).2 h.2.1,
        fun t => (h.2.2 t).trans a.ret.symm⟩
  | unreachable => trivial

theorem Body.entry_owned (body : m.Body typed p) :
    m.functionOf? p.entry = some p.function := by
  obtain ⟨F, hF, -, entry, -⟩ := body.declared
  rw [← body.owned]
  have : p.entry ∈ F.blocks.toList := by
    rw [Function.entry?] at entry
    exact Array.mem_toList_iff.2 (Array.mem_of_getElem? entry)
  simpa [blocksOf, hF] using this

theorem Body.congr (a : m.Agree p q) (body : m.Body typed p) : m.Body typed q := by
  constructor
  case declared =>
    obtain ⟨F, hF, ret, entry, nodup, avail, params⟩ := body.declared
    refine ⟨F, by rwa [a.function], by rwa [a.ret], by rwa [a.entry], nodup, ?_,
      by rwa [a.function]⟩
    rw [a.entry, a.avail _ body.entry_owned, avail]
  case owned => rw [a.function]; exact body.owned
  case order => rw [a.function]; exact body.order
  case noSlots => rw [a.function, a.entry]; exact body.noSlots
  case slots => rw [a.entry]; exact body.slots
  case slotIds => rw [a.entry]; exact body.slotIds
  case insts =>
    intro b hb pre i post code
    rw [a.function] at hb
    exact (body.insts b hb pre i post code).imp (InstOk.congr a hb).2 (·.congr a)
  case terms =>
    intro b hb t ht
    rw [a.function] at hb
    rw [a.avail b hb]
    exact (body.terms b hb t ht).congr a
  case dead => rw [a.function, a.entry]; exact body.dead
  case avail =>
    intro b hb v hv
    rw [a.function] at hb ⊢
    exact body.avail b hb v (by rwa [← a.avail b hb])

end Plans

end Module

end Decaf.IR
