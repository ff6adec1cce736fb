import Decaf.Proofs.Generation.Displacement

/-!
# The check of a function at two places

The check of a function reads labels, types and names, and compares ids only with each other. So
it says the same of a function wherever it was built.
-/

namespace Decaf

open IR

namespace Displacement

variable {d : Displacement} {t t' : Builder}

theorem block_inj {b b' c c' : BlockId} (h : d.block b b') (k : d.block c c') :
    b = c ↔ b' = c' := by
  obtain ⟨n, rfl, rfl⟩ := h
  obtain ⟨l, rfl, rfl⟩ := k
  simp

theorem successors {u u' : Terminator} (h : d.matching.terminator u u') :
    List.Forall₂ d.block u.successors u'.successors := by
  cases h with
  | br target => exact .cons target .nil
  | condBr _ thenBlock elseBlock => exact .cons thenBlock (.cons elseBlock .nil)
  | ret | unreachable => exact .nil

namespace Abreast

variable (h : d.Abreast t t')

include h

theorem labelOf {c c' : BlockId} (blocks : d.block c c') :
    t'.module.labelOf c' = t.module.labelOf c := by
  unfold Module.labelOf
  rcases optionRel_cases (h.block? blocks) with ⟨none, none'⟩ | ⟨e, e', some, some', related⟩
  · rw [none, none']
  · rw [some, some']
    exact related.label

theorem successorsOf {c c' : BlockId} (blocks : d.block c c') :
    List.Forall₂ d.block (t.module.successorsOf c) (t'.module.successorsOf c') := by
  have ends : Option.Rel d.matching.terminator ((t.module.block? c).bind (·.terminator))
      ((t'.module.block? c').bind (·.terminator)) :=
    optionRel_bind (h.block? blocks) fun _ _ related => related.terminator
  unfold Module.successorsOf
  rcases optionRel_cases ends with ⟨none, none'⟩ | ⟨u, u', some, some', related⟩
  · rw [none, none']
    exact .nil
  · rw [some, some']
    exact successors related

theorem blocksOf :
    List.Forall₂ d.block (t.module.blocksOf d.function) (t'.module.blocksOf d.function') := by
  unfold Module.blocksOf
  rcases optionRel_cases h.function with ⟨none, none'⟩ | ⟨F, F', some, some', related⟩
  · rw [none, none']
    exact .nil
  · rw [some, some']
    exact related.blocks

theorem predecessors {c c' : BlockId} (blocks : d.block c c') :
    List.Forall₂ d.block (t.module.predecessors d.function c)
      (t'.module.predecessors d.function' c') :=
  forall₂_filter h.blocksOf fun _ _ before => decide_eq_decide.2
    (forall₂_mem_iff (h.successorsOf before) fun related => block_inj related blocks).symm

theorem owner? {v v' : ValueId} (values : d.value v v') :
    Option.Rel d.matching.body (t.module.owner? v) (t'.module.owner? v') := by
  unfold Module.owner?
  rcases optionRel_cases (h.value? values) with ⟨none, none'⟩ | ⟨i, i', some, some', related⟩
  · rw [none, none']
    exact .none
  · rw [some, some']
    cases related with
    | const | global => exact .none
    | param => exact .some ⟨rfl, rfl⟩
    | inst _ _ blocks => exact optionRel_bind blocks fun _ _ => h.functionOf?

theorem checkedType {v v' : ValueId} (values : d.value v v') :
    t'.module.checkedType d.function' v' = t.module.checkedType d.function v := by
  unfold Module.checkedType
  rw [h.typeOf values]
  rcases optionRel_cases (h.owner? values) with ⟨none, none'⟩ | ⟨f, f', some, some', rfl, rfl⟩
  · rw [none, none']
  · rw [some, some']
    simp only [if_true]

theorem expectType {v v' : ValueId} (values : d.value v v') (expected : IR.Ty) (role : String) :
    t'.module.expectType d.function' v' expected role =
      t.module.expectType d.function v expected role := by
  rw [Module.expectType, h.checkedType values, Module.expectType]

theorem checkValue {v v' : ValueId} (values : d.value v v') :
    t'.module.checkValue d.function' v' = t.module.checkValue d.function v := by
  rw [Module.checkValue, h.checkedType values, Module.checkValue]

theorem checkIncoming {c c' : BlockId} (blocks : d.block c c') {is is' : List (ValueId × BlockId)}
    (incoming : List.Forall₂ d.matching.incoming is is') :
    t'.module.checkIncoming d.function' c' is' = t.module.checkIncoming d.function c is := by
  induction incoming with
  | nil => rfl
  | @cons i i' _ _ first _ ih =>
    obtain ⟨v, s⟩ := i
    obtain ⟨v', s'⟩ := i'
    obtain ⟨values, sources⟩ := first
    have before := forall₂_mem_iff (h.predecessors blocks) fun related =>
      block_inj related sources
    simp only [Module.checkIncoming, h.checkValue values, ih, h.labelOf blocks, h.labelOf sources,
      before]

theorem checkArgs {callee : String} {params params' : List Param}
    (types : params'.map (·.ty) = params.map (·.ty)) {vs vs' : List ValueId}
    (args : List.Forall₂ d.value vs vs') :
    t'.module.checkArgs d.function' callee params' vs' =
      t.module.checkArgs d.function callee params vs := by
  induction params generalizing params' vs vs' with
  | nil =>
    obtain rfl := List.map_eq_nil_iff.1 types
    cases args <;> rfl
  | cons param params ih =>
    obtain ⟨param', params', rfl, type, types⟩ := List.map_eq_cons_iff.1 types
    cases args with
    | nil => rfl
    | cons values args =>
      simp only [Module.checkArgs, h.checkedType values, type, ih types args]

theorem checkCall {g g' : FunctionId} (callees : d.callee g g') {vs vs' : List ValueId}
    (args : List.Forall₂ d.value vs vs') :
    t'.module.checkCall d.function' g' vs' = t.module.checkCall d.function g vs := by
  have same := h.callees callees
  unfold Module.checkCall
  cases there : t.module.function? g with
  | none =>
    rw [there, Option.map_none, Option.map_eq_none_iff] at same
    rw [same]
  | some G =>
    rw [there, Option.map_some, Option.map_eq_some_iff] at same
    obtain ⟨G', there', signature⟩ := same
    obtain ⟨name, -, types⟩ := Signature.mk.inj signature
    have arity : G'.params.length = G.params.length := by
      simpa using congrArg List.length types
    simp only [there', name, arity, args.length_eq, h.checkArgs types args]

theorem checkOperands {i i' : Inst} (insts : d.matching.inst i i') :
    t'.module.checkOperands d.function' i' = t.module.checkOperands d.function i := by
  cases insts with
  | alloca | phi => rfl
  | load ty _ address => exact h.expectType address ..
  | store value address =>
    rw [Module.checkOperands, h.checkValue value, h.expectType address, Module.checkOperands]
  | elementPtr ty _ base index =>
    rw [Module.checkOperands, h.expectType base, h.expectType index, Module.checkOperands]
  | binary op _ lhs rhs =>
    rw [Module.checkOperands, h.checkedType lhs, h.checkedType rhs, Module.checkOperands]
  | unary op _ operand => exact h.checkValue operand
  | zext ty _ value => rw [Module.checkOperands, h.checkedType value, Module.checkOperands]
  | call _ callees args => exact h.checkCall callees args

theorem checkInsts {c c' : BlockId} (blocks : d.block c c') {is is' : List Inst}
    (insts : List.Forall₂ d.matching.inst is is') (started : Bool) :
    t'.module.checkInsts d.function' c' started is' =
      t.module.checkInsts d.function c started is := by
  induction insts generalizing started with
  | nil => rfl
  | @cons i i' _ _ first _ ih =>
    have operands := h.checkOperands first
    cases first with
    | phi ty _ incoming =>
      simp only [Module.checkInsts, h.checkIncoming blocks incoming, h.labelOf blocks, ih]
    | _ => simp only [Module.checkInsts, operands, ih]

theorem checkTerminator (ret : IR.Ty) {u u' : Terminator} (ends : d.matching.terminator u u') :
    t'.module.checkTerminator d.function' ret u' = t.module.checkTerminator d.function ret u := by
  cases ends with
  | br | unreachable => rfl
  | condBr cond => exact h.expectType cond ..
  | ret value =>
    cases value with
    | none => rfl
    | some values => rw [Module.checkTerminator, h.checkedType values, Module.checkTerminator]

theorem checkBlock (ret : IR.Ty) {c c' : BlockId} (blocks : d.block c c') :
    t'.module.checkBlock d.function' ret c' = t.module.checkBlock d.function ret c := by
  unfold Module.checkBlock
  rcases optionRel_cases (h.block? blocks) with ⟨none, none'⟩ | ⟨e, e', some, some', related⟩
  · rw [none, none']
  · rw [some, some']
    dsimp only
    rcases optionRel_cases related.terminator with ⟨open₁, open₂⟩ | ⟨u, u', end₁, end₂, ends⟩
    · rw [open₁, open₂, related.label]
    · have inside : (u'.successors.all fun s => t'.module.functionOf? s = .some d.function') =
          u.successors.all fun s => t.module.functionOf? s = .some d.function := by
        refine forall₂_all (successors ends) fun s s' both => decide_eq_decide.2 ?_
        rcases optionRel_cases (h.functionOf? both) with ⟨none, none'⟩ | ⟨f, f', some, some', rfl, rfl⟩
        · rw [none, none']
          simp
        · rw [some, some']
          simp
      rw [end₁, end₂]
      simp only [h.checkInsts blocks related.insts, inside, h.checkTerminator ret ends,
        related.label]

theorem checkIssues : t'.module.checkIssues d.function' = t.module.checkIssues d.function := by
  unfold Module.checkIssues
  rcases optionRel_cases h.issues with ⟨none, none'⟩ | ⟨i, i', some, some', related⟩
  · rw [none, none']
  · rw [some, some']
    cases related with
    | afterTerminator blocks => simp only [h.labelOf blocks]
    | noInsertionPoint => rfl

/-- The check says the same at both places. -/
theorem checkFunction :
    t'.module.checkFunction d.function' = t.module.checkFunction d.function := by
  unfold Module.checkFunction
  rcases optionRel_cases h.function with ⟨none, none'⟩ | ⟨F, F', some, some', related⟩
  · rw [none, none']
  · have blocks := forM_forall₂ related.blocks fun _ _ => h.checkBlock F.ret
    rw [some, some']
    simp only [Module.checkBody, related.isDeclaration, h.checkIssues, related.ret, blocks, related.name]

end Abreast

/-- The builders enter the two bodies. -/
theorem Abreast.enter (h : d.Abreast t t') :
    d.Twins (enterBody t d.function) (enterBody t' d.function') := by
  obtain ⟨blocks, after⟩ := h.appendBlock "entry"
  exact ⟨{ after with }, .some blocks⟩

theorem Twins.parameter? (h : d.Twins t t') (i : Nat) :
    Option.Rel d.value (t.parameter? d.function i) (t'.parameter? d.function' i) := by
  refine optionRel_bind h.function fun F F' related => ?_
  exact optionRel_bind (optionRel_getElem? related.params i) fun q q' both => .some both.2

/-- Builders that build the same function at two places simulate each other. -/
theorem simulates_twins (d : Displacement) : Simulates d.matching d.Twins where
  perform h commands := h.perform commands
  isTerminated h := h.isTerminated
  insertion h := h.insertion
  typeOf h values := h.toAbreast.typeOf values
  parameter? := by
    rintro t t' f f' h ⟨rfl, rfl⟩ i
    exact h.parameter? i
  checkFunction := by
    rintro t t' f f' h ⟨rfl, rfl⟩
    exact h.toAbreast.checkFunction

end Displacement

end Decaf
