import Decaf.Proofs.Generation.Outcome
import Decaf.Proofs.Generation.Resolution

/-!
# Checking finished functions

A function of which every block has its terminator and about whose body all is known passes
the check if it is typed; otherwise the check can only complain about types.
-/

namespace Decaf

open IR

/-- The body is known and has no open block left. -/
structure IR.Module.Finished (typed : Prop) (m : Module) (p : Plan) : Prop where
  body : m.Body typed p
  closed : ∀ b, m.functionOf? b = some p.function → m.terminator? b ≠ none

/-- A check that fails does so for want of types. -/
abbrev Verdict {α : Type} (typed : Prop) (x : Except Defect α) (value : α → Prop) : Prop :=
  Judged x value fun d => ¬ typed ∧ d.IsTyping

namespace IR.Module

variable {typed : Prop} {m : Module} {p : Plan} {b : BlockId} {there : List ValueId}
  {v : ValueId}

theorem verdict_expectType (usable : m.Usable p there v) {expected : Ty} (role : String)
    (type : typed → m.typeOf v = expected) :
    Verdict typed (m.expectType p.function v expected role) fun _ => True := by
  rw [expectType, usable.checkedType]
  show Verdict typed (if m.typeOf v = expected then _ else _) _
  split
  · trivial
  · rename_i other
    exact ⟨fun t => other (type t), trivial⟩

theorem verdict_checkValue (usable : m.Usable p there v) :
    Verdict typed (m.checkValue p.function v) fun _ => True := by
  rw [checkValue, usable.checkedType]
  trivial

/-- The address of a slot or a global belongs to the function or to none. -/
theorem IsSlot.usable {a : ValueId} {ty : Ty} (body : m.Body typed p) (h : m.IsSlot p a ty) :
    m.Usable p [a] a ∧ m.typeOf a = .ptr := by
  rcases h with slot | ⟨c, -, g, name, G, value, -⟩
  · obtain ⟨-, name, value⟩ := body.slots _ slot
    refine ⟨.inr ⟨by simp, ?_⟩, typeOf_of_value? value⟩
    simp only [owner?, value]
    exact body.entry_owned
  · exact ⟨.inl ⟨_, value, .inr ⟨g, rfl, rfl⟩⟩, typeOf_of_value? value⟩

theorem Defines.usable {a : ValueId} {ty : Ty} (owned : m.functionOf? b = some p.function)
    (h : m.Defines p b a ty) : m.Usable p [a] a ∧ m.typeOf a = ty := by
  obtain ⟨⟨name, value⟩, -⟩ := h
  exact ⟨.inr ⟨by simp, by simp [owner?, value, owned]⟩, typeOf_of_value? value⟩

/-- An address that an instruction of the block uses is a pointer of the function. -/
theorem Body.address (body : m.Body typed p) (owned : m.functionOf? b = some p.function)
    {pre post : List Inst} {a : ValueId} {ty : Ty} (code : m.codeOf b = pre ++ post)
    (h : m.IsAddress p pre a ty) : m.Usable p [a] a ∧ m.typeOf a = .ptr := by
  rcases h with slot | ⟨base, index, last⟩
  · exact slot.usable body
  · obtain ⟨before, rfl⟩ := List.getLast?_eq_some_iff.1 last
    rcases body.insts b owned before _ post (by simpa using code) with ok | phi
    · exact ok.1.usable owned
    · obtain ⟨dst, incoming, other, -⟩ := phi
      cases other

theorem verdict_checkArgs (callee : String) : ∀ (params : List Param) (args : List ValueId),
    (∀ v ∈ args, m.Usable p there v) → params.length = args.length →
    (typed → args.map m.typeOf = params.map (·.ty)) →
    Verdict typed (m.checkArgs p.function callee params args) fun _ => True
  | [], [], _, _, _ => trivial
  | param :: params, arg :: args, usable, arity, type => by
    rw [checkArgs, (usable arg (by simp)).checkedType]
    show Verdict typed (if m.typeOf arg = param.ty then _ else _) _
    split
    · refine verdict_checkArgs callee params args (fun v hv => usable v (by simp [hv]))
        (by simpa using arity) fun t => ?_
      exact (List.cons.inj (type t)).2
    · rename_i other
      exact ⟨fun t => other (List.cons.inj (type t)).1, trivial⟩

theorem verdict_checkOperands (body : m.Body typed p)
    (owned : m.functionOf? b = some p.function) {pre post : List Inst} {i : Inst}
    (code : m.codeOf b = pre ++ post) (ok : m.InstOk typed p b pre i) :
    Verdict typed (m.checkOperands p.function i) fun _ => True := by
  cases i with
  | alloca => cases ok
  | phi => cases ok
  | load dst ty a =>
    obtain ⟨usable, pointer⟩ := body.address owned code ok.2
    exact verdict_expectType usable _ fun _ => pointer
  | store v a =>
    obtain ⟨value, ty, address, -⟩ := ok
    obtain ⟨usable, pointer⟩ := body.address owned code address
    exact judged_bind (verdict_checkValue value) fun _ _ =>
      verdict_expectType usable _ fun _ => pointer
  | elementPtr dst ty base i =>
    obtain ⟨-, -, ⟨length, g, name, G, value, -⟩, index, type⟩ := ok
    have usable : m.Usable p [] base := .inl ⟨_, value, .inr ⟨g, rfl, rfl⟩⟩
    exact judged_bind (verdict_expectType usable _ fun _ => typeOf_of_value? value)
      fun _ _ => verdict_expectType index _ type
  | binary dst op l r =>
    obtain ⟨-, left, right, type⟩ := ok
    rw [checkOperands, left.checkedType, right.checkedType]
    show Verdict typed (if m.typeOf l = m.typeOf r ∧ m.typeOf l ≠ .void then _ else _) _
    split
    · trivial
    · rename_i other
      refine ⟨fun t => other ⟨(type t).1, ?_⟩, trivial⟩
      rcases (type t).2 with int | ⟨bool, -⟩
      · simp [int]
      · simp [bool]
  | unary dst op v => exact verdict_checkValue ok.2.1
  | zext dst v ty =>
    obtain ⟨-, value, source, rfl⟩ := ok
    rw [checkOperands, value.checkedType]
    show Verdict typed (if m.typeOf v = .i1 ∧ Ty.i32 = .i32 then _ else _) _
    rw [if_pos ⟨source, rfl⟩]
    trivial
  | call dst g args =>
    obtain ⟨F, hF, arity, usable, -, -, type⟩ := ok
    rw [checkOperands, checkCall, hF]
    show Verdict typed (if F.params.length = args.length then _ else _) _
    rw [if_pos arity]
    exact verdict_checkArgs _ _ _ usable arity type

theorem verdict_checkIncoming (owned : ∀ q, m.functionOf? q = some p.function →
      q ∈ m.blocksOf p.function) : ∀ (incoming : List (ValueId × BlockId)),
    (∀ i ∈ incoming, (∃ there, m.Usable p there i.1) ∧
      m.functionOf? i.2 = some p.function ∧ b ∈ m.successorsOf i.2) →
    Verdict typed (m.checkIncoming p.function b incoming) fun _ => True
  | [], _ => trivial
  | (v, source) :: rest, h => by
    obtain ⟨⟨there, usable⟩, inside, edge⟩ := h (v, source) (by simp)
    rw [checkIncoming]
    refine judged_bind (verdict_checkValue usable) fun _ _ => ?_
    rw [if_pos (mem_predecessors.2 ⟨owned source inside, edge⟩)]
    exact verdict_checkIncoming owned rest fun i hi => h i (by simp [hi])

/-- The code of a block, from some instruction on. -/
theorem verdict_checkInsts (body : m.Body typed p)
    (owned : m.functionOf? b = some p.function) : ∀ (post pre : List Inst) (started : Bool),
    m.codeOf b = pre ++ post → (started = true → pre ≠ [] ∨ b = p.entry) →
    Verdict typed (m.checkInsts p.function b started post) fun _ => True
  | [], _, _, _, _ => by
    rw [checkInsts]
    trivial
  | i :: post, pre, started, code, begun => by
    have rest : m.codeOf b = (pre ++ [i]) ++ post := by simp [code]
    rcases body.insts b owned pre i post code with ok | phi
    · have plain : checkInsts m p.function b started (i :: post) = (do
          m.checkOperands p.function i
          m.checkInsts p.function b true post) := by
        cases i <;> first | rfl | cases ok
      rw [plain]
      exact judged_bind (verdict_checkOperands body owned code ok) fun _ _ =>
        verdict_checkInsts body owned post (pre ++ [i]) true rest fun _ => .inl (by simp)
    · obtain ⟨dst, incoming, rfl, rfl, inner, -, -, sources, usable⟩ := phi
      have first : started = false := by
        cases started with
        | false => rfl
        | true => exact (begun rfl).elim (fun h => absurd rfl h) fun h => absurd h inner
      subst first
      rw [checkInsts]
      refine judged_bind (verdict_checkIncoming (fun q => (body.owned q).2) incoming
        fun i hi => ?_) fun _ _ =>
          verdict_checkInsts body owned post _ false rest fun same => by cases same
      obtain ⟨inside, edge⟩ := (sources i.2).1 (List.mem_map_of_mem hi)
      exact ⟨⟨_, (usable i hi).1⟩, inside, edge⟩

theorem checkInsts_slots (f : FunctionId) (code : List Inst) :
    ∀ (slots : List (ValueId × Ty)) (started : Bool),
    m.checkInsts f b started (slots.map (fun s => .alloca s.1 s.2) ++ code) =
      m.checkInsts f b (started || !slots.isEmpty) code
  | [], started => by simp
  | s :: slots, started => by
    have := checkInsts_slots f code slots true
    rw [Bool.true_or] at this
    rw [List.isEmpty_cons, Bool.not_false, Bool.or_true, ← this]
    rfl

theorem verdict_checkTerminator (ok : m.TermOk typed p there t) :
    Verdict typed (m.checkTerminator p.function p.ret t) fun _ => True := by
  cases t with
  | br s => trivial
  | condBr c s t => exact verdict_expectType ok.1 _ ok.2.1
  | unreachable => trivial
  | ret v =>
    cases v with
    | none =>
      show Verdict typed (if Ty.void = p.ret then _ else _) _
      rw [if_pos (Eq.symm ok)]
      trivial
    | some v =>
      obtain ⟨-, usable, type⟩ := ok
      rw [checkTerminator, usable.checkedType]
      show Verdict typed (if m.typeOf v = p.ret then _ else _) _
      split
      · trivial
      · rename_i other
        exact ⟨fun t => other (type t), trivial⟩

theorem verdict_checkBlock (finished : m.Finished typed p)
    (owned : m.functionOf? b = some p.function) :
    Verdict typed (m.checkBlock p.function p.ret b) fun _ => True := by
  have body := finished.body
  obtain ⟨data, hdata, -⟩ := functionOf?_eq_some.1 owned
  obtain ⟨t, ht⟩ := Option.ne_none_iff_exists'.1 (finished.closed b owned)
  have terminator := terminator?_of_block? hdata
  rw [ht] at terminator
  have order := body.order b owned data hdata
  have code : m.codeOf b = data.code := by simp [codeOf, hdata]
  have slots : m.slotsOf b = data.slots := by simp [slotsOf, hdata]
  rw [checkBlock, hdata]
  simp only [← terminator]
  refine judged_bind (P := fun _ => True) ?_ fun _ _ => ?_
  · rw [order, checkInsts_slots, ← code, ← slots, Bool.false_or]
    refine verdict_checkInsts body owned _ [] _ rfl fun started => .inr ?_
    refine Decidable.byContradiction fun inner => ?_
    rw [body.noSlots b owned inner] at started
    cases started
  · have inside : (t.successors.all fun s => m.functionOf? s = some p.function) = true := by
      rw [List.all_eq_true]
      intro s hs
      exact decide_eq_true ((body.terms b owned t ht).leads_of_mem hs).1
    rw [if_pos inside]
    exact verdict_checkTerminator (body.terms b owned t ht)

theorem verdict_forM {α : Type} {f : α → Except Defect Unit} : ∀ (as : List α),
    (∀ a ∈ as, Verdict typed (f a) fun _ => True) →
    Verdict typed (as.forM f) fun _ => True
  | [], _ => trivial
  | a :: as, h => judged_bind (h a (by simp)) fun _ _ =>
      verdict_forM as fun a' h' => h a' (by simp [h'])

theorem checkIssues_of_clean {g : FunctionId} (clean : ∀ i ∈ m.issues, i.1 ≠ some g) :
    m.checkIssues g = .ok () := by
  have none : m.issues.find? (·.1 = some g) = none := by
    rw [Array.find?_eq_none]
    intro i hi same
    exact clean i hi (by simpa using same)
  simp [checkIssues, issueOf?, none]

/-- The check of a finished function fails at most for want of types. -/
theorem Finished.check (finished : m.Finished typed p)
    (clean : ∀ i ∈ m.issues, i.1 ≠ some p.function) :
    match m.checkFunction p.function with
    | .ok _ => True
    | .error e => ¬ typed ∧ e.defect.IsTyping := by
  obtain ⟨F, declared⟩ := finished.body.declared
  have body := declared.isDeclaration
  obtain ⟨hF, ret, entry, -⟩ := declared
  have issues := checkIssues_of_clean clean
  have blocks : Verdict typed (m.checkBody p.function F) fun _ => True := by
    rw [checkBody, body, issues]
    refine judged_bind (P := fun _ => True) trivial fun _ _ => ?_
    rw [ret]
    refine verdict_forM _ fun b hb => verdict_checkBlock finished ?_
    rw [← finished.body.owned]
    simpa [blocksOf, hF] using hb
  rw [checkFunction, hF]
  show match Except.mapError (fun d => (⟨F.name, d⟩ : CheckError)) (m.checkBody p.function F) with
    | .ok _ => True
    | .error e => ¬ typed ∧ e.defect.IsTyping
  revert blocks
  cases m.checkBody p.function F with
  | ok _ => exact fun _ => trivial
  | error d => exact fun h => h

end IR.Module

end Decaf
