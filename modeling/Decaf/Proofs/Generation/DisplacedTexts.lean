import Decaf.IR.Text
import Decaf.Proofs.Building.Naming
import Decaf.Proofs.Generation.Displacement
import Decaf.Proofs.Generation.Mentions

/-!
# The text of a function at two places

The text of a function shows names, labels and types, and no ids. Functions that were built
alike at two places have one text, as soon as the strings that they mention go by the same names.
-/

namespace Decaf

open IR

namespace IR

def GlobalKind.isString : GlobalKind → Bool
  | .string _ => true
  | _ => false

/-- Strings get other names, fields keep theirs. -/
def Global.rename (ρ : String → String) (G : Global) : Global :=
  if G.kind.isString then { G with name := ρ G.name } else G

namespace Module

/-- An address shows the name of what it is the address of. -/
def renameAddress (m : Module) (ρ : String → String) (info : ValueInfo) : ValueInfo :=
  match info.origin with
  | .global g =>
    if (m.globals[g.index]?).any (·.kind.isString) then { info with name := info.name.map ρ }
    else info
  | _ => info

/-- The module in which strings have other names. -/
def renameStrings (m : Module) (ρ : String → String) : Module :=
  { m with
    globals := m.globals.map (·.rename ρ)
    values := m.values.map (m.renameAddress ρ) }

/-- How a parameter is shown. -/
def paramText (m : Module) (q : Param) : String :=
  s!"{q.ty.name} {m.operandText q.value}"

section Renaming

variable (m : Module) (ρ : String → String)

theorem value?_renameStrings (v : ValueId) :
    (m.renameStrings ρ).value? v = (m.value? v).map (m.renameAddress ρ) :=
  Array.getElem?_map

theorem block?_renameStrings (c : BlockId) : (m.renameStrings ρ).block? c = m.block? c := rfl

theorem ty_renameAddress (info : ValueInfo) : (m.renameAddress ρ info).ty = info.ty := by
  unfold renameAddress
  split
  · split <;> rfl
  · rfl

theorem typeOf_renameStrings (v : ValueId) : (m.renameStrings ρ).typeOf v = m.typeOf v := by
  unfold typeOf
  rw [value?_renameStrings]
  cases m.value? v with
  | none => rfl
  | some info => exact m.ty_renameAddress ρ info

end Renaming

/-- A later module keeps what there is of a function. -/
structure Keeps (m : Module) (f : FunctionId) (m' : Module) : Prop where
  ext : m.Extends m'
  function : m'.function? f = m.function? f
  blocks : ∀ c, m.functionOf? c = some f → m'.block? c = m.block? c

theorem Keeps.refl (m : Module) (f : FunctionId) : m.Keeps f m :=
  ⟨.refl m, rfl, fun _ _ => rfl⟩

theorem Keeps.outside {m m₁ m' : Module} {f g : FunctionId} (h : m.Keeps f m₁)
    (o : m₁.Outside m' g) (other : f ≠ g) : m.Keeps f m' where
  ext := h.ext.trans o.ext
  function := (o.functions f other).trans h.function
  blocks c owned := (o.blocks c f other (.inl (h.ext.blocks c f owned))).trans (h.blocks c owned)

end Module

end IR

namespace Displacement

/-- Two modules that have come of the two builders. The first function is finished, and what its
text shows besides is known. -/
structure Shown (d : Displacement) (ρ : String → String) (t t' : Builder) (m m' : Module) :
    Prop where
  abreast : d.Abreast t t'
  keeps : t.module.Keeps d.function m
  keeps' : t'.module.Keeps d.function' m'
  labelled : t.Labelled
  labelled' : t'.Labelled
  finished : ∃ p, p.function = d.function ∧ t.module.Finished False p
  named : ∀ v info c, d.start.module.values.size ≤ v.index → t.module.value? v = some info →
    info.origin = .inst c → info.name ≠ none
  renamed : ∀ g g' G G', d.global g g' → t.module.globals[g.index]? = some G →
    t'.module.globals[g'.index]? = some G' → G'.name = (G.rename ρ).name

namespace Shown

variable {d : Displacement} {ρ : String → String} {t t' : Builder} {m m' : Module}
  (h : d.Shown ρ t t' m m')

include h

theorem value {v v' : ValueId} (values : d.value v v') (held : t.module.HasValue v) :
    ∃ i i', t.module.value? v = some i ∧ t'.module.value? v' = some i' ∧ d.info i i' := by
  have there : t.module.value? v = some t.module.values[v.index] := Array.getElem?_eq_getElem held
  rcases optionRel_cases (h.abreast.value? values) with ⟨none, -⟩ | ⟨i, i', some, some', related⟩
  · rw [there] at none
    cases none
  · exact ⟨i, i', some, some', related⟩

theorem block {c c' : BlockId} (blocks : d.block c c') (held : t.module.HasBlock c) :
    ∃ e e', m.block? c = some e ∧ m'.block? c' = some e' ∧ d.matching.content e e' ∧
      t.module.block? c = some e := by
  have there : t.module.block? c = some t.module.blocks[c.index] := Array.getElem?_eq_getElem held
  rcases optionRel_cases (h.abreast.block? blocks) with ⟨none, -⟩ | ⟨e, e', some, some', related⟩
  · rw [there] at none
    cases none
  · obtain ⟨owner, owner'⟩ := related.owner
    refine ⟨e, e', ?_, ?_, related, some⟩
    · rw [h.keeps.blocks c (by rw [Module.functionOf?, some, Option.map_some, owner]), some]
    · rw [h.keeps'.blocks c' (by rw [Module.functionOf?, some', Option.map_some, owner']), some']

theorem typeOf {v v' : ValueId} (values : d.value v v') (held : t.module.HasValue v) :
    m'.typeOf v' = (m.renameStrings ρ).typeOf v := by
  obtain ⟨i, i', there, there', -⟩ := h.value values held
  rw [h.keeps'.ext.typeOf there', h.abreast.typeOf values, Module.typeOf_renameStrings,
    h.keeps.ext.typeOf there]

/-- What an instruction defines has one name at both places. -/
theorem name {v v' : ValueId} (values : d.value v v') {ty : IR.Ty} {c : Option BlockId}
    {name : Option String} (there : t.module.value? v = some ⟨ty, .inst c, name⟩) :
    ∃ n, name = some n := by
  refine Option.ne_none_iff_exists'.1 ?_
  rcases values with ⟨i, -, old, -, -, other⟩ | ⟨n, rfl, -⟩
  · have now := Module.getElem?_of_prefix h.abreast.values.left_prefix old
    rw [← Module.value?, there] at now
    cases now
    exact absurd rfl (other c)
  · exact h.named _ _ c (Nat.le_add_right ..) there rfl

theorem operandText {v v' : ValueId} (values : d.value v v') (held : t.module.HasValue v) :
    m'.operandText v' = (m.renameStrings ρ).operandText v := by
  obtain ⟨i, i', there, there', related⟩ := h.value values held
  have late := h.keeps.ext.value? there
  have late' := h.keeps'.ext.value? there'
  rw [Module.operandText, late', Module.operandText, Module.value?_renameStrings, late]
  cases related with
  | const c => rfl
  | param ty i name => rfl
  | inst ty name blocks =>
    obtain ⟨n, rfl⟩ := h.name values there
    rfl
  | @global g g' name name' globals =>
    obtain ⟨G, hG, rfl⟩ := h.labelled.shown v _ g there rfl
    obtain ⟨G', hG', rfl⟩ := h.labelled'.shown v' _ g' there' rfl
    have lateG := Module.getElem?_of_prefix h.keeps.ext.globals hG
    have renamed := h.renamed g g' G G' globals hG hG'
    rw [Global.rename] at renamed
    simp only [Option.map_some, Module.renameAddress, lateG, Option.any_some]
    split at renamed <;> simp_all

theorem typedText {v v' : ValueId} (values : d.value v v') (held : t.module.HasValue v) :
    m'.typedText v' = (m.renameStrings ρ).typedText v := by
  rw [Module.typedText, h.typeOf values held, h.operandText values held, Module.typedText]

theorem labelOf {c c' : BlockId} (blocks : d.block c c') (held : t.module.HasBlock c) :
    m'.labelOf c' = (m.renameStrings ρ).labelOf c := by
  obtain ⟨e, e', there, there', related, -⟩ := h.block blocks held
  rw [Module.labelOf, there', Module.labelOf, Module.block?_renameStrings, there]
  exact related.label

theorem labelText {c c' : BlockId} (blocks : d.block c c') (held : t.module.HasBlock c) :
    m'.labelText c' = (m.renameStrings ρ).labelText c := by
  rw [Module.labelText, h.labelOf blocks held, Module.labelText]

theorem callText {g g' : FunctionId} (callees : d.callee g g') {vs vs' : List ValueId}
    (args : List.Forall₂ d.value vs vs') (held : t.module.HasFunction g)
    (values : ∀ v ∈ vs, t.module.HasValue v) :
    m'.callText g' vs' = (m.renameStrings ρ).callText g vs := by
  have there : t.module.function? g = some t.module.functions[g.index] :=
    Array.getElem?_eq_getElem held
  have same := h.abreast.callees callees
  rw [there, Option.map_some, Option.map_eq_some_iff] at same
  obtain ⟨G', there', signature⟩ := same
  obtain ⟨H, late, ⟨-, name⟩, ret, -⟩ := h.keeps.ext.functions g _ there
  obtain ⟨H', late', ⟨-, name'⟩, ret', -⟩ := h.keeps'.ext.functions g' _ there'
  obtain ⟨sameName, sameRet, -⟩ := Signature.mk.inj signature
  have texts := map_eq_of_forall₂ args fun v hv v' related =>
    h.typedText related (values v hv)
  have late : (m.renameStrings ρ).function? g = some H := late
  simp only [Module.callText, late, late', name, name', ret, ret', sameName, sameRet, texts]

theorem instText {i i' : Inst} (insts : d.matching.inst i i') (held : t.module.HasInst i) :
    m'.instText i' = (m.renameStrings ρ).instText i := by
  have operand {v v' : ValueId} (values : d.value v v') (held : t.module.HasValue v) :=
    h.operandText values held
  cases insts with
  | alloca ty dst => simp only [Module.instText, Module.definition, operand dst held]
  | load ty dst address =>
    simp only [Module.instText, Module.definition, operand dst held.1, operand address held.2]
  | store value address =>
    simp only [Module.instText, h.typedText value held.1, operand address held.2]
  | elementPtr ty dst base index =>
    simp only [Module.instText, Module.definition, operand dst held.1, operand base held.2.1,
      h.typedText index held.2.2]
  | binary op dst lhs rhs =>
    simp only [Module.instText, Module.definition, operand dst held.1, h.typedText lhs held.2.1,
      operand rhs held.2.2]
  | unary op dst value =>
    cases op with
    | not =>
      simp only [Module.instText, Module.definition, operand dst held.1, h.typedText value held.2,
        h.typeOf value held.2]
    | neg =>
      simp only [Module.instText, Module.definition, operand dst held.1, operand value held.2,
        h.typeOf value held.2]
  | zext ty dst value =>
    simp only [Module.instText, Module.definition, operand dst held.1, h.typedText value held.2]
  | phi ty dst incoming =>
    have texts := map_eq_of_forall₂ (f := (m.renameStrings ρ).incomingText) (g := m'.incomingText)
      incoming fun x hx x' related => by
        obtain ⟨value, source⟩ := held.2 x hx
        rw [Module.incomingText, operand related.1 value, h.labelOf related.2 source,
          Module.incomingText]
    simp only [Module.instText, Module.definition, operand dst held.1, texts]
  | call dst callees args =>
    obtain ⟨defined, callee, values⟩ := held
    have text := h.callText callees args callee values
    cases dst with
    | none => exact text
    | some dst => simp only [Module.instText, Module.definition, operand dst (defined _ rfl), text]

theorem terminatorText {u u' : Terminator} (ends : d.matching.terminator u u')
    (held : t.module.HasTerminator u) :
    m'.terminatorText u' = (m.renameStrings ρ).terminatorText u := by
  cases ends with
  | br target => simp only [Module.terminatorText, h.labelText target held]
  | condBr cond thenBlock elseBlock =>
    simp only [Module.terminatorText, h.typedText cond held.1, h.labelText thenBlock held.2.1,
      h.labelText elseBlock held.2.2]
  | ret value =>
    cases value with
    | none => rfl
    | some value => simp only [Module.terminatorText, h.typedText value (held _ rfl)]
  | unreachable => rfl

/-- A block of the function has one text at both places. -/
theorem blockText {c c' : BlockId} (blocks : d.block c c')
    (inside : c ∈ t.module.blocksOf d.function) :
    m'.blockText c' = (m.renameStrings ρ).blockText c := by
  obtain ⟨p, function, finished⟩ := h.finished
  rw [← function] at inside
  have owned := (finished.body.owned c).1 inside
  obtain ⟨e, e', there, there', related, before⟩ :=
    h.block blocks (Module.index_lt_of_functionOf? owned)
  have insts := map_eq_of_forall₂ related.insts fun i hi i' both =>
    h.instText both (finished.hasInst inside (by simpa [Module.instsOf, before] using hi))
  have ends : e'.terminator.map m'.terminatorText =
      e.terminator.map (m.renameStrings ρ).terminatorText := by
    rcases optionRel_cases related.terminator with ⟨none, none'⟩ | ⟨u, u', some, some', both⟩
    · rw [none, none']
      rfl
    · have held : t.module.HasTerminator u :=
        finished.hasTerminator inside (by rw [Module.terminator?, before]; exact some)
      rw [some, some', Option.map_some, Option.map_some, h.terminatorText both held]
  rw [Module.blockText, there', Module.blockText, Module.block?_renameStrings, there]
  simp only [related.label, insts, ends]

/-- The function has one text at both places. -/
theorem functionText {F F' : Function} (hF : t.module.function? d.function = some F)
    (hF' : t'.module.function? d.function' = some F') :
    m'.functionText F' = (m.renameStrings ρ).functionText F := by
  have frames := h.abreast.function
  rw [hF, hF'] at frames
  obtain ⟨p, function, finished⟩ := h.finished
  cases frames with
  | some related =>
    have blocks := map_eq_of_forall₂ related.blocks fun c hc c' both =>
      h.blockText both (by rw [Module.blocksOf, hF]; exact hc)
    have types := map_eq_of_forall₂ (f := fun q : Param => q.ty.name)
      (g := fun q : Param => q.ty.name) related.params fun q hq q' both => by rw [both.1]
    have params := map_eq_of_forall₂
      (f := (m.renameStrings ρ).paramText) (g := m'.paramText)
      related.params fun q hq q' both => by
        obtain ⟨G, hG, -, -, -, -, values⟩ := finished.body.declared
        rw [function, hF] at hG
        cases hG
        obtain ⟨i, name, there⟩ := values q hq
        rw [Module.paramText, both.1, h.operandText both.2 (Module.hasValue_of_value? there),
          Module.paramText]
    unfold Module.paramText at params
    simp only [Module.functionText, related.isDeclaration, related.name, related.ret, types, params,
      blocks]

end Shown

end Displacement

end Decaf
