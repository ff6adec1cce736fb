import Decaf.Proofs.Generation.Checking
import Decaf.Proofs.Generation.Growth

/-!
# Functions beside each other

While one function is built, the blocks of all others stay as they are, and so does what is
known about them. What is known about a function begins with its empty entry.
-/

namespace Decaf.IR

/-- What the declaration of a function says. -/
structure Signature where
  name : String
  ret : Ty
  params : List Ty

namespace Module

/-- Of the functions and their blocks only those of `f` change. -/
structure Outside (m m' : Module) (f : FunctionId) : Prop where
  ext : m.Extends m'
  strings : m.StringsAfter m'
  issues : m'.issues = m.issues
  functions : ∀ g, g ≠ f → m'.function? g = m.function? g
  blocks : ∀ c g, g ≠ f → m.functionOf? c = some g ∨ m'.functionOf? c = some g →
    m'.block? c = m.block? c

section

variable {m m₁ m' : Module} {f : FunctionId} {b : BlockId}

theorem Append.outside (a : m.Append m' f b) : m.Outside m' f where
  ext := a.ext
  strings := .of_eq a.globals
  issues := a.issues
  functions := a.functions
  blocks c g other owned := by
    refine a.others c ?_
    rintro rfl
    rw [a.not_owned, a.functionOf?] at owned
    rcases owned with h | h
    · cases h
    · exact other (Option.some.inj h).symm

theorem Grown.outside {loops pending : List BlockId} (g : m.Grown f loops b m' pending) :
    m.Outside m' f where
  ext := g.ext
  strings := g.strings
  issues := g.issues
  functions := g.functions
  blocks c h other owned := by
    rcases owned with old | new
    · exact g.others c h old other
    · have held := index_lt_of_functionOf? new
      by_cases before : c.index < m.blocks.size
      · obtain ⟨k, hk⟩ := Option.ne_none_iff_exists'.1 (functionOf?_ne_none before)
        have same := g.ext.blocks c k hk
        rw [new] at same
        cases same
        exact g.others c h hk other
      · rw [g.new c (by omega) held] at new
        exact absurd (Option.some.inj new).symm other

namespace Outside

theorem trans (h : m.Outside m₁ f) (k : m₁.Outside m' f) : m.Outside m' f where
  ext := h.ext.trans k.ext
  strings := h.strings.trans k.strings
  issues := k.issues.trans h.issues
  functions g other := (k.functions g other).trans (h.functions g other)
  blocks c g other owned := by
    have second : m'.block? c = m₁.block? c :=
      k.blocks c g other (owned.imp (h.ext.blocks c g) id)
    refine second.trans (h.blocks c g other (owned.imp id fun late => ?_))
    rwa [functionOf?, second] at late

variable (o : m.Outside m' f) {g : FunctionId} (other : g ≠ f) {c : BlockId}

include o other

theorem functionOf?_iff : m'.functionOf? c = some g ↔ m.functionOf? c = some g := by
  refine ⟨fun late => ?_, o.ext.blocks c g⟩
  rwa [functionOf?, o.blocks c g other (.inr late)] at late

theorem block? (owned : m.functionOf? c = some g) : m'.block? c = m.block? c :=
  o.blocks c g other (.inl owned)

theorem codeOf (owned : m.functionOf? c = some g) : m'.codeOf c = m.codeOf c := by
  rw [Module.codeOf, o.block? other owned, Module.codeOf]

theorem slotsOf (owned : m.functionOf? c = some g) : m'.slotsOf c = m.slotsOf c := by
  rw [Module.slotsOf, o.block? other owned, Module.slotsOf]

theorem terminator? (owned : m.functionOf? c = some g) :
    m'.terminator? c = m.terminator? c := by
  rw [Module.terminator?, o.block? other owned, Module.terminator?]

theorem successorsOf (owned : m.functionOf? c = some g) :
    m'.successorsOf c = m.successorsOf c := by
  rw [successorsOf_eq, successorsOf_eq, o.terminator? other owned]

theorem blocksOf : m'.blocksOf g = m.blocksOf g := by
  rw [Module.blocksOf, o.functions g other, Module.blocksOf]

end Outside

end

section

variable {typed : Prop} {m m' : Module} {p : Plan} {f : FunctionId}

theorem owner_of_terminator? {b : BlockId} {t : Terminator} (h : m.terminator? b = some t) :
    ∃ g, m.functionOf? b = some g := by
  obtain ⟨data, hdata, -⟩ := Option.bind_eq_some_iff.1 h
  exact ⟨data.function, by simp [functionOf?, hdata]⟩

theorem PhiOk.outside {b : BlockId} {pre : List Inst} {i : Inst} (h : m.PhiOk typed p b pre i)
    (o : m.Outside m' f) (other : p.function ≠ f) (entry : m.functionOf? p.entry ≠ none) :
    m'.PhiOk typed p b pre i := by
  obtain ⟨dst, incoming, rfl, start, inner, defines, once, sources, usable⟩ := h
  refine ⟨dst, incoming, rfl, start, inner, defines.mono o.ext entry, once, fun q => ?_,
    fun i hi => ?_⟩
  · rw [sources, o.functionOf?_iff other]
    exact and_congr_right fun hq => by rw [o.successorsOf other hq]
  · obtain ⟨use, type⟩ := usable i hi
    rw [o.codeOf other ((sources i.2).1 (List.mem_map_of_mem hi)).1]
    exact ⟨use.mono o.ext fun _ mem => mem, fun t => (use.typeOf o.ext).trans (type t)⟩

/-- A block that cannot be reached stays so. Control stays inside the function, so a block of
another one is not joined. -/
theorem Body.dead_outside (body : m.Body typed p) (o : m.Outside m' f) (other : p.function ≠ f)
    {c : BlockId} (hc : m'.terminator? c = some .unreachable) :
    c ≠ p.entry ∧ ∀ q, m'.functionOf? q = some p.function → c ∉ m'.successorsOf q := by
  have owned {q : BlockId} (hq : m'.functionOf? q = some p.function) :
      m.functionOf? q = some p.function := (o.functionOf?_iff other).1 hq
  obtain ⟨g, hg⟩ := owner_of_terminator? hc
  by_cases same : g = p.function
  · subst same
    rw [o.terminator? other (owned hg)] at hc
    refine ⟨(body.dead c hc).1, fun q hq => ?_⟩
    rw [o.successorsOf other (owned hq)]
    exact (body.dead c hc).2 q (owned hq)
  · have apart : m'.functionOf? c ≠ some p.function := by
      rw [hg]
      exact fun h => same (Option.some.inj h)
    refine ⟨?_, fun q hq edge => ?_⟩
    · rintro rfl
      exact apart (o.ext.blocks _ _ body.entry_owned)
    · rw [o.successorsOf other (owned hq)] at edge
      exact apart (o.ext.blocks _ _ (body.successor_owned (owned hq) edge))

/-- What is known about a body stays known while another function is built. -/
theorem Body.outside (body : m.Body typed p) (o : m.Outside m' f) (other : p.function ≠ f) :
    m'.Body typed p := by
  have entry : m.functionOf? p.entry ≠ none := by simp [body.entry_owned]
  have owned {c : BlockId} (hc : m'.functionOf? c = some p.function) :
      m.functionOf? c = some p.function := (o.functionOf?_iff other).1 hc
  constructor
  case declared =>
    obtain ⟨F, hF⟩ := body.declared
    exact ⟨F, hF.mono o.ext (o.functions _ other)⟩
  case owned =>
    intro c
    rw [o.blocksOf other, body.owned, o.functionOf?_iff other]
  case order =>
    intro c hc data hdata
    rw [o.block? other (owned hc)] at hdata
    exact body.order c (owned hc) data hdata
  case noSlots =>
    intro c hc inner
    rw [o.slotsOf other (owned hc)]
    exact body.noSlots c (owned hc) inner
  case slots =>
    intro s hs
    rw [o.slotsOf other body.entry_owned] at hs
    obtain ⟨type, name, hv⟩ := body.slots s hs
    exact ⟨type, name, o.ext.value? hv⟩
  case slotIds =>
    rw [o.slotsOf other body.entry_owned]
    exact body.slotIds
  case insts =>
    intro c hc pre i post code
    rw [o.codeOf other (owned hc)] at code
    exact (body.insts c (owned hc) pre i post code).imp (·.mono o.ext entry)
      (·.outside o other entry)
  case terms =>
    intro c hc t ht
    rw [o.terminator? other (owned hc)] at ht
    rw [o.codeOf other (owned hc)]
    exact (body.terms c (owned hc) t ht).mono o.ext fun _ mem => mem
  case dead => exact fun c hc => body.dead_outside o other hc
  case avail =>
    intro c hc v hv
    exact owner?_mono o.ext (body.avail c (owned hc) v hv)

theorem Finished.outside (h : m.Finished typed p) (o : m.Outside m' f)
    (other : p.function ≠ f) : m'.Finished typed p where
  body := h.body.outside o other
  closed b owned := by
    have before := (o.functionOf?_iff other).1 owned
    rw [o.terminator? other before]
    exact h.closed b before

/-- The function was declared and nothing of its body is there yet. -/
structure Bodiless (m : Module) (f : FunctionId) (sig : Signature) : Prop where
  function : ∃ F, m.function? f = some F ∧ (F.id = f ∧ F.name = sig.name) ∧
    F.ret = sig.ret ∧ F.blocks = #[] ∧ F.params.map (·.ty) = sig.params ∧
    ∀ q ∈ F.params, ∃ i name, m.value? q.value = some ⟨q.ty, .param f i, name⟩
  unowned : ∀ c, m.functionOf? c ≠ some f

theorem Bodiless.found {sig : Signature} (h : m.Bodiless f sig) {F : Function}
    (there : m.function? f = some F) : (F.id = f ∧ F.name = sig.name) ∧
      F.ret = sig.ret ∧ F.blocks = #[] ∧ F.params.map (·.ty) = sig.params ∧
      ∀ q ∈ F.params, ∃ i name, m.value? q.value = some ⟨q.ty, .param f i, name⟩ := by
  obtain ⟨G, hG, holds⟩ := h.function
  obtain rfl : F = G := Option.some.inj (there.symm.trans hG)
  exact holds

theorem Bodiless.entry?_eq_none {sig : Signature} (h : m.Bodiless f sig) {F : Function}
    (there : m.function? f = some F) : F.entry? = none := by
  simp [Function.entry?, (h.found there).2.2.1]

theorem Bodiless.mono {sig : Signature} (h : m.Bodiless f sig) (ext : m.Extends m')
    (same : m'.function? f = m.function? f)
    (owned : ∀ c, m'.functionOf? c = some f → m.functionOf? c = some f) :
    m'.Bodiless f sig where
  function := by
    obtain ⟨F, hF, name, ret, blocks, types, values⟩ := h.function
    refine ⟨F, same.trans hF, name, ret, blocks, types, fun q hq => ?_⟩
    obtain ⟨i, name, hv⟩ := values q hq
    exact ⟨i, name, ext.value? hv⟩
  unowned c late := h.unowned c (owned c late)

theorem Bodiless.outside {g : FunctionId} {sig : Signature} (h : m.Bodiless g sig)
    (o : m.Outside m' f) (other : g ≠ f) : m'.Bodiless g sig :=
  h.mono o.ext (o.functions g other) fun _ => (o.functionOf?_iff other).1

/-- What is known when a function has an empty entry and no other block. -/
theorem Body.start (typed : Prop) {b : BlockId} {sig : Signature} (h : m.Bodiless f sig)
    (a : m.Append m' f b) :
    ∃ p, m'.Body typed p ∧ p.function = f ∧ p.ret = sig.ret ∧ p.entry = b := by
  obtain ⟨F, hF, -, hret, blocks, -, values⟩ := h.function
  have only (c : BlockId) : m'.functionOf? c = some f ↔ c = b := by
    refine ⟨fun owned => Decidable.byContradiction fun apart => ?_, ?_⟩
    · rw [a.functionOf?_of_ne apart] at owned
      exact h.unowned c owned
    · rintro rfl
      exact a.functionOf?
  have owner {q : Param} (hq : q ∈ F.params) : m'.owner? q.value = some f := by
    obtain ⟨i, name, hv⟩ := values q hq
    simp [owner?, a.ext.value? hv]
  have hF' := a.function F hF
  rw [blocks] at hF'
  have noEdge (q : BlockId) (hq : m'.functionOf? q = some f) : m'.successorsOf q = [] := by
    rw [(only q).1 hq, a.successorsOf_self]
  refine ⟨⟨f, sig.ret, b, fun _ => F.params.map (·.value)⟩, ?_, rfl, rfl, rfl⟩
  constructor
  case declared =>
    refine ⟨_, hF', hret, rfl, by simp, rfl, fun q hq => ?_⟩
    obtain ⟨i, name, hv⟩ := values q hq
    exact ⟨i, name, a.ext.value? hv⟩
  case owned =>
    intro c
    rw [only, Module.blocksOf, hF']
    simp
  case order =>
    intro c hc
    rw [(only c).1 hc]
    exact a.orderedAt_self
  case noSlots => exact fun c hc inner => absurd ((only c).1 hc) inner
  case slots => simp [a.slotsOf_self]
  case slotIds => simp [a.slotsOf_self]
  case insts =>
    intro c hc pre i post code
    rw [(only c).1 hc, a.codeOf_self] at code
    simp at code
  case terms =>
    intro c hc t ht
    rw [(only c).1 hc, a.terminator?_self] at ht
    cases ht
  case dead =>
    intro c hc
    refine ⟨?_, fun q hq => by simp [noEdge q hq]⟩
    rintro rfl
    rw [a.terminator?_self] at hc
    cases hc
  case avail =>
    intro c hc v hv
    obtain ⟨q, hq, rfl⟩ := List.mem_map.1 hv
    exact owner hq

end

end Module

end Decaf.IR
