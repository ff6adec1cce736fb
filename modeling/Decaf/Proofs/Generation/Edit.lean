import Decaf.Proofs.Generation.Body

/-!
# Edits of a body

Building goes on by small changes: slots, instructions or a terminator are added to one
block, a block is appended, or a phi is put into a block that is still empty. Each of them
keeps what is known about the body, provided that what is added is right and that control
is only sent to blocks that can be joined from anywhere.
-/

namespace Decaf.IR.Module

/-- The module changes by what is added to the block `b`, and by new values and globals. -/
structure Edit (m m' : Module) (b : BlockId) (slots : List (ValueId × Ty)) (code : List Inst)
    (terminator : Option Terminator) : Prop where
  ext : m.Extends m'
  functions : m'.functions = m.functions
  strings : m.StringsAfter m'
  issues : m'.issues = m.issues
  size : m'.blocks.size = m.blocks.size
  owners : ∀ c, m'.functionOf? c = m.functionOf? c
  slots : ∀ c, m'.slotsOf c = m.slotsOf c ++ if c = b then slots else []
  code : ∀ c, m'.codeOf c = m.codeOf c ++ if c = b then code else []
  terms : ∀ c, m'.terminator? c = if c = b then terminator.or (m.terminator? c)
    else m.terminator? c
  order : ∀ c, m.OrderedAt c → m'.OrderedAt c
  others : ∀ c, c ≠ b → m'.block? c = m.block? c

/-- Control can be sent to the block from anywhere that defines the values `there`. -/
structure Joinable (m : Module) (p : Plan) (there : List ValueId) (s : BlockId) : Prop where
  leads : m.Leads p there s
  noPhi : ∀ i ∈ m.codeOf s, i.isPhi = false
  alive : m.terminator? s ≠ some .unreachable

/-- What a terminator that closes the block `b` has to respect. -/
structure Closes (typed : Prop) (m : Module) (p : Plan) (b : BlockId) (there : List ValueId)
    (t : Terminator) : Prop where
  ok : m.TermOk typed p there t
  joins : ∀ s ∈ t.successors, m.Joinable p there s
  dead : t = .unreachable → b ≠ p.entry ∧
    ∀ q, m.functionOf? q = some p.function → b ∉ m.successorsOf q

variable {typed : Prop} {m m' : Module} {p : Plan} {b : BlockId}

theorem split_append {xs ys pre post : List Inst} {i : Inst} (h : xs ++ ys = pre ++ i :: post) :
    (∃ post', xs = pre ++ i :: post') ∨ ∃ pre', ys = pre' ++ i :: post ∧ pre = xs ++ pre' := by
  rcases List.append_eq_append_iff.1 h with ⟨mid, hpre, hys⟩ | ⟨mid, hxs, hmid⟩
  · exact .inr ⟨mid, hys, hpre⟩
  · cases mid with
    | nil => exact .inr ⟨[], by simpa using hmid.symm, by simpa using hxs.symm⟩
    | cons j mid =>
      obtain ⟨rfl, -⟩ := List.cons.inj hmid
      exact .inl ⟨mid, hxs⟩

theorem PhiOk.noPhi {pre : List Inst} {i : Inst} (h : m.PhiOk typed p b pre i) :
    i.isPhi = true := by
  obtain ⟨dst, incoming, rfl, -⟩ := h
  rfl

theorem PhiOk.mono (ext : m.Extends m') (entry : m.functionOf? p.entry ≠ none)
    (edges : ∀ q, (m'.functionOf? q = some p.function ∧ b ∈ m'.successorsOf q) ↔
      m.functionOf? q = some p.function ∧ b ∈ m.successorsOf q)
    (code : ∀ q, m.codeOf q <+: m'.codeOf q)
    {pre : List Inst} {i : Inst} (h : m.PhiOk typed p b pre i) : m'.PhiOk typed p b pre i := by
  obtain ⟨dst, incoming, rfl, start, inner, defines, once, sources, usable⟩ := h
  refine ⟨dst, incoming, rfl, start, inner, defines.mono ext entry, once, fun q => ?_,
    fun i hi => ?_⟩
  · rw [edges, sources]
  · obtain ⟨use, type⟩ := usable i hi
    refine ⟨use.mono ext fun v hv => ?_, fun t => (use.typeOf ext).trans (type t)⟩
    obtain ⟨more, eq⟩ := code i.2
    rw [← eq, defined_append, ← List.append_assoc]
    exact List.mem_append_left _ hv

namespace Edit

variable {slots : List (ValueId × Ty)} {code : List Inst} {terminator : Option Terminator}

theorem codeOf_prefix (e : m.Edit m' b slots code terminator) (c : BlockId) :
    m.codeOf c <+: m'.codeOf c :=
  ⟨_, (e.code c).symm⟩

theorem blocksOf (e : m.Edit m' b slots code terminator) (f : FunctionId) :
    m'.blocksOf f = m.blocksOf f := by
  simp [Module.blocksOf, function?, e.functions]

theorem defined_sub (e : m.Edit m' b slots code terminator) (c : BlockId) :
    p.avail c ++ defined (m.codeOf c) ⊆ p.avail c ++ defined (m'.codeOf c) := by
  intro v hv
  rw [e.code, defined_append, ← List.append_assoc]
  exact List.mem_append_left _ hv

theorem mem_slotsOf (e : m.Edit m' b slots code terminator) {c : BlockId} {s : ValueId × Ty}
    (h : s ∈ m'.slotsOf c) : s ∈ m.slotsOf c ∨ s ∈ slots := by
  rw [e.slots] at h
  rcases List.mem_append.1 h with old | new
  · exact .inl old
  · split at new
    · exact .inr new
    · cases new

/-- Where slots are added to the entry only, no other block gets one. -/
theorem slotsOf_inner (e : m.Edit m' b slots code terminator) {entry c : BlockId}
    (only : ∀ s ∈ slots, b = entry) (inner : c ≠ entry) : m'.slotsOf c = m.slotsOf c := by
  rw [e.slots]
  split
  · rename_i same
    subst same
    have none : slots = [] := List.eq_nil_iff_forall_not_mem.2 fun s hs => inner (only s hs)
    rw [none, List.append_nil]
  · exact List.append_nil _

/-- A piece of code that is there stood there before or is part of what is added. -/
theorem code_cases (e : m.Edit m' b slots code terminator) {c : BlockId} {pre post : List Inst}
    {i : Inst} (h : m'.codeOf c = pre ++ i :: post) :
    (∃ post', m.codeOf c = pre ++ i :: post') ∨
      c = b ∧ ∃ pre', code = pre' ++ i :: post ∧ pre = m.codeOf c ++ pre' := by
  rw [e.code] at h
  rcases split_append h with old | ⟨pre', new, eq⟩
  · exact .inl old
  · split at new
    · exact .inr ⟨‹_›, pre', new, eq⟩
    · simp at new

/-- A terminator that was not there before is the one that is added. -/
theorem terminator?_cases (e : m.Edit m' b slots code terminator) {c : BlockId} {t : Terminator}
    (h : m'.terminator? c = some t) :
    m.terminator? c = some t ∨ c = b ∧ terminator = some t := by
  rw [e.terms] at h
  split at h
  · rename_i same
    cases terminator with
    | none => exact .inl h
    | some u => exact .inr ⟨same, h⟩
  · exact .inl h

/-- Edges that were not there before come from the terminator that is added. -/
theorem successorsOf (e : m.Edit m' b slots code terminator)
    (isOpen : terminator ≠ none → m.terminator? b = none) {c q : BlockId} :
    c ∈ m'.successorsOf q ↔
      c ∈ m.successorsOf q ∨ q = b ∧ ∃ t, terminator = some t ∧ c ∈ t.successors := by
  rw [mem_successorsOf, mem_successorsOf, e.terms]
  by_cases hq : q = b
  · subst hq
    cases terminator with
    | none => simp
    | some t => simp [isOpen (by simp)]
  · simp [hq]

/-- A block with a phi is joined from where it was before. -/
theorem successorsOf_of_phi (e : m.Edit m' b slots code terminator)
    (isOpen : terminator ≠ none → m.terminator? b = none)
    (joins : ∀ t, terminator = some t → ∀ c ∈ t.successors, ∀ i ∈ m.codeOf c, i.isPhi = false)
    {c q : BlockId} {i : Inst} (mem : i ∈ m.codeOf c) (phi : i.isPhi = true) :
    c ∈ m'.successorsOf q ↔ c ∈ m.successorsOf q := by
  rw [e.successorsOf isOpen]
  refine ⟨?_, .inl⟩
  rintro (old | ⟨-, t, ht, leads⟩)
  · exact old
  · rw [joins t ht c leads i mem] at phi
    cases phi

end Edit

theorem Declared.mono (ext : m.Extends m') (same : m'.function? p.function = m.function? p.function)
    {F : Function} (h : m.Declared p F) : m'.Declared p F := by
  obtain ⟨hF, ret, entry, nodup, avail, params⟩ := h
  refine ⟨same.trans hF, ret, entry, nodup, avail, fun q hq => ?_⟩
  obtain ⟨i, name, hv⟩ := params q hq
  exact ⟨i, name, ext.value? hv⟩

section Change

variable {slots : List (ValueId × Ty)} {code : List Inst} {terminator : Option Terminator}

theorem Body.slotIds_edit (body : m.Body typed p) (e : m.Edit m' b slots code terminator)
    (new : ∀ s ∈ slots, m.values.size ≤ s.1.index) (nodup : (slots.map Prod.fst).Nodup) :
    ((m'.slotsOf p.entry).map Prod.fst).Nodup := by
  rw [e.slots, List.map_append, List.nodup_append]
  refine ⟨body.slotIds, ?_, ?_⟩
  · split
    · exact nodup
    · exact List.nodup_nil
  · intro v hv w hw same
    obtain ⟨s, hs, rfl⟩ := List.mem_map.1 hv
    obtain ⟨r, hr, rfl⟩ := List.mem_map.1 hw
    obtain ⟨-, name, held⟩ := body.slots s hs
    have bound := (Array.getElem?_eq_some_iff.1 held).1
    split at hr
    · have late := new r hr
      rw [← same] at late
      omega
    · cases hr

section Closing

variable (body : m.Body typed p) (e : m.Edit m' b slots code terminator)
  (isOpen : terminator ≠ none → m.terminator? b = none)
  (newTerm : ∀ t, terminator = some t →
    m.Closes typed p b (p.avail b ++ defined (m.codeOf b)) t)

include body e isOpen newTerm

/-- An edit does not touch what is known of the instructions before it. -/
theorem Body.insts_edit {c : BlockId} (owned : m.functionOf? c = some p.function)
    {pre post : List Inst} {i : Inst} (old : m.codeOf c = pre ++ i :: post) :
    m'.InstOk typed p c pre i ∨ m'.PhiOk typed p c pre i := by
  have entry : m.functionOf? p.entry ≠ none := by simp [body.entry_owned]
  refine (body.insts c owned pre i post old).imp (·.mono e.ext entry) fun phi =>
    phi.mono e.ext entry (fun q => ?_) e.codeOf_prefix
  rw [e.owners, e.successorsOf_of_phi isOpen (fun t ht s hs => ((newTerm t ht).joins s hs).noPhi)
    (by simp [old]) phi.noPhi]

theorem Body.terms_edit {c : BlockId} (owned : m.functionOf? c = some p.function)
    {t : Terminator} (ends : m'.terminator? c = some t) :
    m'.TermOk typed p (p.avail c ++ defined (m'.codeOf c)) t := by
  rcases e.terminator?_cases ends with old | ⟨rfl, new⟩
  · exact (body.terms c owned t old).mono e.ext (e.defined_sub c)
  · exact (newTerm t new).ok.mono e.ext (e.defined_sub c)

/-- No edge comes to lead to a block that ends in `unreachable`. -/
theorem Body.dead_edit {c : BlockId} (dead : m'.terminator? c = some .unreachable) :
    c ≠ p.entry ∧ ∀ q, m.functionOf? q = some p.function → c ∉ m'.successorsOf q := by
  have before : c ≠ p.entry ∧ ∀ q, m.functionOf? q = some p.function → c ∉ m.successorsOf q := by
    rcases e.terminator?_cases dead with old | ⟨rfl, new⟩
    · exact body.dead c old
    · exact (newTerm _ new).dead rfl
  refine ⟨before.1, fun q owned edge => ?_⟩
  rcases (e.successorsOf isOpen).1 edge with old | ⟨-, t, ht, leads⟩
  · exact before.2 q owned old
  · rcases e.terminator?_cases dead with old | ⟨rfl, new⟩
    · exact ((newTerm t ht).joins c leads).alive old
    · rw [ht] at new
      cases new
      cases leads

end Closing

/-- An edit keeps what is known if what it adds is right. -/
theorem Body.edit (body : m.Body typed p) (e : m.Edit m' b slots code terminator)
    (isOpen : code ≠ [] ∨ terminator ≠ none → m.terminator? b = none)
    (newSlots : ∀ s ∈ slots, b = p.entry ∧ m.values.size ≤ s.1.index ∧
      (typed → s.2 ≠ .void) ∧ ∃ name, m'.value? s.1 = some ⟨.ptr, .inst (some p.entry), name⟩)
    (nodup : (slots.map Prod.fst).Nodup)
    (newCode : ∀ pre i post, code = pre ++ i :: post →
      m'.InstOk typed p b (m.codeOf b ++ pre) i ∨ m'.PhiOk typed p b (m.codeOf b ++ pre) i)
    (newTerm : ∀ t, terminator = some t →
      m.Closes typed p b (p.avail b ++ defined (m.codeOf b)) t) : m'.Body typed p := by
  have openBefore : terminator ≠ none → m.terminator? b = none := fun h => isOpen (.inr h)
  constructor
  case declared =>
    obtain ⟨F, hF⟩ := body.declared
    exact ⟨F, hF.mono e.ext (by rw [function?, e.functions, function?])⟩
  case owned =>
    intro c
    rw [e.blocksOf, e.owners, body.owned]
  case order =>
    intro c hc
    rw [e.owners] at hc
    exact e.order c (body.order c hc)
  case noSlots =>
    intro c hc inner
    rw [e.owners] at hc
    rw [e.slotsOf_inner (fun s hs => (newSlots s hs).1) inner, body.noSlots c hc inner]
  case slots =>
    intro s hs
    rcases e.mem_slotsOf hs with old | new
    · obtain ⟨type, name, hv⟩ := body.slots s old
      exact ⟨type, name, e.ext.value? hv⟩
    · exact (newSlots s new).2.2
  case slotIds => exact body.slotIds_edit e (fun s hs => (newSlots s hs).2.1) nodup
  case insts =>
    intro c hc pre i post hcode
    rw [e.owners] at hc
    rcases e.code_cases hcode with ⟨post', old⟩ | ⟨rfl, pre', new, rfl⟩
    · exact body.insts_edit e openBefore newTerm hc old
    · exact newCode pre' i post new
  case terms =>
    intro c hc t ht
    rw [e.owners] at hc
    exact body.terms_edit e openBefore newTerm hc ht
  case dead =>
    intro c hc
    obtain ⟨inner, apart⟩ := body.dead_edit e openBefore newTerm hc
    refine ⟨inner, fun q hq => apart q ?_⟩
    rwa [e.owners] at hq
  case avail =>
    intro c hc v hv
    rw [e.owners] at hc
    exact owner?_mono e.ext (body.avail c hc v hv)

theorem TermOk.leads_of_mem {there : List ValueId} {t : Terminator} {s : BlockId}
    (h : m.TermOk typed p there t) (mem : s ∈ t.successors) : m.Leads p there s := by
  cases t with
  | br target =>
    obtain rfl := List.mem_singleton.1 mem
    exact h
  | condBr c first second =>
    rcases List.mem_cons.1 mem with rfl | mem
    · exact h.2.2.1
    · obtain rfl := List.mem_singleton.1 mem
      exact h.2.2.2
  | ret v => cases mem
  | unreachable => cases mem

theorem Body.leads (body : m.Body typed p) {q c : BlockId}
    (owned : m.functionOf? q = some p.function) (edge : c ∈ m.successorsOf q) :
    m.Leads p (p.avail q ++ defined (m.codeOf q)) c := by
  obtain ⟨t, ht, hc⟩ := mem_successorsOf.1 edge
  exact (body.terms q owned t ht).leads_of_mem hc

theorem Body.successor_owned (body : m.Body typed p) {q c : BlockId}
    (owned : m.functionOf? q = some p.function) (edge : c ∈ m.successorsOf q) :
    m.functionOf? c = some p.function :=
  (body.leads owned edge).1

/-- A new value is not among the slots. -/
theorem Body.defines_new (body : m.Body typed p) (e : m.Edit m' b [] code terminator) {ty : Ty}
    {name : Option String}
    (value : m'.value? ⟨m.values.size⟩ = some ⟨ty, .inst (some b), name⟩) :
    m'.Defines p b ⟨m.values.size⟩ ty := by
  refine ⟨⟨name, value⟩, fun slotTy mem => ?_⟩
  rw [e.slots] at mem
  have old : ((⟨m.values.size⟩ : ValueId), slotTy) ∈ m.slotsOf p.entry := by simpa using mem
  obtain ⟨-, other, held⟩ := body.slots _ old
  exact Nat.lt_irrefl _ (Array.getElem?_eq_some_iff.1 held).1

end Change

/-- The module changes by an empty block `b` at the end of the function `f`. -/
structure Append (m m' : Module) (f : FunctionId) (b : BlockId) : Prop where
  ext : m.Extends m'
  globals : m'.globals = m.globals
  issues : m'.issues = m.issues
  position : b.index = m.blocks.size
  size : m'.blocks.size = m.blocks.size + 1
  block : ∃ label, m'.block? b = some ⟨b, f, label, #[], none⟩
  others : ∀ c, c ≠ b → m'.block? c = m.block? c
  function : ∀ F, m.function? f = some F →
    m'.function? f = some { F with blocks := F.blocks.push b }
  functions : ∀ g, g ≠ f → m'.function? g = m.function? g

namespace Append

variable {f : FunctionId} (a : m.Append m' f b)

include a

theorem fresh : m.block? b = none := by
  simp [block?, a.position]

theorem functionOf? : m'.functionOf? b = some f := by
  obtain ⟨label, hb⟩ := a.block
  simp [Module.functionOf?, hb]

theorem not_owned : m.functionOf? b = none := by
  simp [Module.functionOf?, a.fresh]

theorem functionOf?_of_ne {c : BlockId} (h : c ≠ b) : m'.functionOf? c = m.functionOf? c := by
  simp [Module.functionOf?, a.others c h]

theorem codeOf (c : BlockId) : m'.codeOf c = m.codeOf c := by
  by_cases h : c = b
  · obtain ⟨label, hb⟩ := a.block
    subst h
    simp [Module.codeOf, hb, a.fresh, Block.code]
  · simp [Module.codeOf, a.others c h]

theorem slotsOf (c : BlockId) : m'.slotsOf c = m.slotsOf c := by
  by_cases h : c = b
  · obtain ⟨label, hb⟩ := a.block
    subst h
    simp [Module.slotsOf, hb, a.fresh, Block.slots]
  · simp [Module.slotsOf, a.others c h]

theorem terminator? (c : BlockId) : m'.terminator? c = m.terminator? c := by
  by_cases h : c = b
  · obtain ⟨label, hb⟩ := a.block
    subst h
    simp [Module.terminator?, hb, a.fresh]
  · simp [Module.terminator?, a.others c h]

theorem successorsOf (c : BlockId) : m'.successorsOf c = m.successorsOf c := by
  rw [successorsOf_eq, successorsOf_eq, a.terminator?]

/-- Nothing is in the new block, and it leads nowhere. -/
theorem codeOf_self : m'.codeOf b = [] := by
  rw [a.codeOf]
  simp [Module.codeOf, a.fresh]

theorem slotsOf_self : m'.slotsOf b = [] := by
  rw [a.slotsOf]
  simp [Module.slotsOf, a.fresh]

theorem terminator?_self : m'.terminator? b = none := by
  rw [a.terminator?]
  simp [Module.terminator?, a.fresh]

theorem successorsOf_self : m'.successorsOf b = [] := by
  rw [successorsOf_eq, a.terminator?_self]
  rfl

theorem orderedAt_self : m'.OrderedAt b := by
  intro data hdata
  obtain ⟨label, hb⟩ := a.block
  rw [hb] at hdata
  cases hdata
  rfl

theorem owned_iff {c : BlockId} :
    m'.functionOf? c = some f ↔ m.functionOf? c = some f ∨ c = b := by
  by_cases h : c = b
  · subst h
    simp [a.functionOf?]
  · simp [h, a.functionOf?_of_ne h]

theorem mem_blocksOf {F : Function} (hF : m.function? f = some F) {c : BlockId} :
    c ∈ m'.blocksOf f ↔ c ∈ m.blocksOf f ∨ c = b := by
  simp only [Module.blocksOf, hF, a.function F hF, Array.toList_push, List.mem_append,
    List.mem_singleton]

end Append

/-- The module changes by empty blocks at the end of the function `f`, one after the other. -/
inductive Appends (m : Module) (f : FunctionId) : Module → Prop where
  | refl : m.Appends f m
  | append {m₁ m₂ : Module} {b : BlockId} :
    m.Appends f m₁ → m₁.Append m₂ f b → m.Appends f m₂

namespace Appends

variable {f : FunctionId}

theorem codeOf (h : m.Appends f m') (c : BlockId) : m'.codeOf c = m.codeOf c := by
  induction h with
  | refl => rfl
  | append _ a ih => rw [a.codeOf, ih]

theorem terminator? (h : m.Appends f m') (c : BlockId) : m'.terminator? c = m.terminator? c := by
  induction h with
  | refl => rfl
  | append _ a ih => rw [a.terminator?, ih]

theorem ext (h : m.Appends f m') : m.Extends m' := by
  induction h with
  | refl => exact .refl m
  | append _ a ih => exact ih.trans a.ext

end Appends

/-- The function has one block more, which is not its entry. -/
theorem Declared.append {F : Function} (h : m.Declared p F) (a : m.Append m' p.function b)
    (notIn : b ∉ F.blocks.toList) : m'.Declared p { F with blocks := F.blocks.push b } := by
  obtain ⟨hF, ret, first, nodup, avail, params⟩ := h
  refine ⟨a.function F hF, ret, ?_, ?_, avail, fun q hq => ?_⟩
  · rw [Function.entry?] at first ⊢
    rw [Array.getElem?_push, if_neg, first]
    exact Nat.ne_of_lt (Array.getElem?_eq_some_iff.1 first).1
  · rw [Array.toList_push, List.nodup_append]
    refine ⟨nodup, List.pairwise_singleton _ _, fun c hc d hd same => notIn ?_⟩
    obtain rfl := List.mem_singleton.1 hd
    exact same ▸ hc
  · obtain ⟨i, name, hv⟩ := params q hq
    exact ⟨i, name, a.ext.value? hv⟩

/-- Code elsewhere is as good as it was, since nothing leads from the new block. -/
theorem Body.insts_append (body : m.Body typed p) (a : m.Append m' p.function b) {c : BlockId}
    (owned : m.functionOf? c = some p.function) {pre post : List Inst} {i : Inst}
    (code : m.codeOf c = pre ++ i :: post) :
    m'.InstOk typed p c pre i ∨ m'.PhiOk typed p c pre i := by
  have entry : m.functionOf? p.entry ≠ none := by simp [body.entry_owned]
  refine (body.insts c owned pre i post code).imp (·.mono a.ext entry) fun phi =>
    phi.mono a.ext entry (fun q => ?_) fun q => by simp only [a.codeOf, List.prefix_refl]
  rw [← a.successorsOf, a.owned_iff, or_and_right, or_iff_left]
  rintro ⟨rfl, edge⟩
  rw [a.successorsOf_self] at edge
  cases edge

/-- An empty block keeps what is known. -/
theorem Body.append (body : m.Body typed p) (a : m.Append m' p.function b)
    (avail : ∀ v ∈ p.avail b, m.owner? v = some p.function) : m'.Body typed p := by
  obtain ⟨F, hF⟩ := body.declared
  have notIn : b ∉ F.blocks.toList := by
    intro mem
    have owned := (body.owned b).1 (by simpa [blocksOf, hF.1] using mem)
    rw [a.not_owned] at owned
    cases owned
  constructor
  case declared => exact ⟨_, hF.append a notIn⟩
  case owned =>
    intro c
    rw [a.mem_blocksOf hF.1, a.owned_iff, body.owned]
  case order =>
    intro c hc
    by_cases h : c = b
    · subst h
      exact a.orderedAt_self
    · rw [a.functionOf?_of_ne h] at hc
      intro data hdata
      rw [a.others c h] at hdata
      exact body.order c hc data hdata
  case noSlots =>
    intro c hc inner
    rcases a.owned_iff.1 hc with old | rfl
    · rw [a.slotsOf]
      exact body.noSlots c old inner
    · exact a.slotsOf_self
  case slots =>
    intro s hs
    rw [a.slotsOf] at hs
    obtain ⟨type, name, hv⟩ := body.slots s hs
    exact ⟨type, name, a.ext.value? hv⟩
  case slotIds =>
    rw [a.slotsOf]
    exact body.slotIds
  case insts =>
    intro c hc pre i post code
    rcases a.owned_iff.1 hc with old | rfl
    · rw [a.codeOf] at code
      exact body.insts_append a old code
    · rw [a.codeOf_self] at code
      simp at code
  case terms =>
    intro c hc t ht
    rcases a.owned_iff.1 hc with old | rfl
    · rw [a.terminator?] at ht
      rw [a.codeOf]
      exact (body.terms c old t ht).mono a.ext fun _ mem => mem
    · rw [a.terminator?_self] at ht
      cases ht
  case dead =>
    intro c hc
    rw [a.terminator?] at hc
    refine ⟨(body.dead c hc).1, fun q hq => ?_⟩
    rcases a.owned_iff.1 hq with old | rfl
    · rw [a.successorsOf]
      exact (body.dead c hc).2 q old
    · rw [a.successorsOf_self]
      exact List.not_mem_nil
  case avail =>
    intro c hc v hv
    rcases a.owned_iff.1 hc with old | rfl
    · exact owner?_mono a.ext (body.avail c old v hv)
    · exact owner?_mono a.ext (avail v hv)

end Decaf.IR.Module
