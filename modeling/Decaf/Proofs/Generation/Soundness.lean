import Decaf.Proofs.Generation.Grounding

/-!
# Sound functions

The structure that every generated function has, stated about its instructions as they
stand in the module: all blocks are closed, control and values stay inside the function,
phis begin their blocks and name each predecessor once, and calls pass as many arguments
as there are parameters.
-/

namespace Decaf

open IR

namespace IR

/-- The values that an instruction uses. -/
def Inst.operands : Inst → List ValueId
  | alloca _ _ => []
  | load _ _ address => [address]
  | store value address => [value, address]
  | elementPtr _ _ base index => [base, index]
  | binary _ _ lhs rhs => [lhs, rhs]
  | unary _ _ operand => [operand]
  | zext _ value _ => [value]
  | phi _ _ incoming => incoming.map Prod.fst
  | call _ _ args => args

def Terminator.operands : Terminator → List ValueId
  | br _ => []
  | condBr cond _ _ => [cond]
  | ret value => value.toList
  | unreachable => []

namespace Module

/-- The instructions of a block. -/
def instsOf (m : Module) (b : BlockId) : List Inst :=
  ((m.block? b).map (·.insts.toList)).getD []

/-- The value belongs to the function, or is a constant or the address of a global. -/
def Local (m : Module) (f : FunctionId) (v : ValueId) : Prop :=
  m.owner? v = some f ∨ ∃ info, m.value? v = some info ∧
    ((∃ c, info.origin = .const c) ∨ ∃ g, info.origin = .global g)

structure Sound (m : Module) (f : FunctionId) : Prop where
  entry : ∃ F entry, m.function? f = some F ∧ F.entry? = some entry ∧
    m.predecessors f entry = []
  closed : ∀ b ∈ m.blocksOf f, m.terminator? b ≠ none
  targets : ∀ b ∈ m.blocksOf f, ∀ s ∈ m.successorsOf b, m.functionOf? s = some f
  operands : ∀ b ∈ m.blocksOf f, ∀ i ∈ m.instsOf b, ∀ v ∈ i.operands, m.Local f v
  exits : ∀ b ∈ m.blocksOf f, ∀ t, m.terminator? b = some t → ∀ v ∈ t.operands, m.Local f v
  /-- A phi stands first and names each predecessor exactly once. -/
  phis : ∀ b ∈ m.blocksOf f, ∀ before dst ty incoming after,
    m.instsOf b = before ++ .phi dst ty incoming :: after →
      before = [] ∧ (incoming.map Prod.snd).Nodup ∧
        ∀ q, q ∈ incoming.map Prod.snd ↔ q ∈ m.predecessors f b
  arity : ∀ b ∈ m.blocksOf f, ∀ dst g args, .call dst g args ∈ m.instsOf b →
    ∃ G, m.function? g = some G ∧ G.params.length = args.length

section

variable {typed : Prop} {m : Module} {p : Plan} {b : BlockId}

theorem Usable.isLocal {there : List ValueId} {v : ValueId} (h : m.Usable p there v) :
    m.Local p.function v := by
  rcases h with ⟨info, hv, fixed⟩ | ⟨-, owner⟩
  · exact .inr ⟨info, hv, fixed.imp (fun ⟨c, hc, _⟩ => ⟨c, hc⟩) fun ⟨g, hg, _⟩ => ⟨g, hg⟩⟩
  · exact .inl owner

theorem instsOf_eq (order : m.OrderedAt b) :
    m.instsOf b = (m.slotsOf b).map (fun s => .alloca s.1 s.2) ++ m.codeOf b := by
  cases h : m.block? b with
  | none => simp [instsOf, slotsOf, codeOf, h]
  | some data =>
    have ordered := order data h
    rw [Block.Ordered] at ordered
    simpa [instsOf, slotsOf, codeOf, h] using ordered

/-- A code instruction uses only values of its function. -/
theorem InstOk.operand_local (body : m.Body typed p) (owned : m.functionOf? b = some p.function)
    {pre post : List Inst} {i : Inst} (code : m.codeOf b = pre ++ post)
    (ok : m.InstOk typed p b pre i) {v : ValueId} (hv : v ∈ i.operands) :
    m.Local p.function v := by
  cases i with
  | alloca => cases hv
  | phi => cases ok
  | load dst ty a =>
    obtain rfl : v = a := by simpa [Inst.operands] using hv
    exact (body.address owned code ok.2).1.isLocal
  | store w a =>
    obtain ⟨value, ty, address, -⟩ := ok
    rcases (by simpa [Inst.operands] using hv : v = w ∨ v = a) with rfl | rfl
    · exact value.isLocal
    · exact (body.address owned code address).1.isLocal
  | elementPtr dst ty base i =>
    obtain ⟨-, -, ⟨length, g, name, G, value, -⟩, index, -⟩ := ok
    rcases (by simpa [Inst.operands] using hv : v = base ∨ v = i) with rfl | rfl
    · exact .inr ⟨_, value, .inr ⟨g, rfl⟩⟩
    · exact index.isLocal
  | binary dst op l r =>
    obtain ⟨-, left, right, -⟩ := ok
    rcases (by simpa [Inst.operands] using hv : v = l ∨ v = r) with rfl | rfl
    · exact left.isLocal
    · exact right.isLocal
  | unary dst op w =>
    obtain rfl : v = w := by simpa [Inst.operands] using hv
    exact ok.2.1.isLocal
  | zext dst w ty =>
    obtain rfl : v = w := by simpa [Inst.operands] using hv
    exact ok.2.1.isLocal
  | call dst g args =>
    obtain ⟨F, -, -, usable, -⟩ := ok
    exact (usable v hv).isLocal

theorem TermOk.operand_local {there : List ValueId} {t : Terminator}
    (ok : m.TermOk typed p there t) {v : ValueId} (hv : v ∈ t.operands) :
    m.Local p.function v := by
  cases t with
  | br s => cases hv
  | condBr c s t =>
    obtain rfl : v = c := by simpa [Terminator.operands] using hv
    exact ok.1.isLocal
  | ret w =>
    cases w with
    | none => cases hv
    | some w =>
      obtain rfl : v = w := by simpa [Terminator.operands] using hv
      exact ok.2.1.isLocal
  | unreachable => cases hv

theorem Body.no_predecessor (body : m.Body typed p) : m.predecessors p.function p.entry = [] := by
  rw [List.eq_nil_iff_forall_not_mem]
  intro q hq
  obtain ⟨inside, edge⟩ := mem_predecessors.1 hq
  exact (body.leads ((body.owned q).1 inside) edge).2.1 rfl

/-- What is known about the body of a finished function makes the function sound. -/
theorem Finished.sound (h : m.Finished typed p) : m.Sound p.function := by
  have body := h.body
  have owned {b : BlockId} (hb : b ∈ m.blocksOf p.function) :
      m.functionOf? b = some p.function := (body.owned b).1 hb
  have layout {b : BlockId} (hb : b ∈ m.blocksOf p.function) :=
    instsOf_eq (body.order b (owned hb))
  constructor
  case entry =>
    obtain ⟨F, hF, -, entry, -⟩ := body.declared
    exact ⟨F, p.entry, hF, entry, body.no_predecessor⟩
  case closed => exact fun b hb => h.closed b (owned hb)
  case targets => exact fun b hb s hs => body.successor_owned (owned hb) hs
  case operands =>
    intro b hb i hi v hv
    rw [layout hb] at hi
    rcases List.mem_append.1 hi with slot | code
    · obtain ⟨s, -, rfl⟩ := List.mem_map.1 slot
      cases hv
    · obtain ⟨pre, post, eq⟩ := List.append_of_mem code
      rcases body.insts b (owned hb) pre i post eq with ok | phi
      · exact ok.operand_local body (owned hb) eq hv
      · obtain ⟨dst, incoming, rfl, -, -, -, -, -, usable⟩ := phi
        obtain ⟨x, hx, rfl⟩ := List.mem_map.1 hv
        exact (usable x hx).1.isLocal
  case exits => exact fun b hb t ht v hv => (body.terms b (owned hb) t ht).operand_local hv
  case phis =>
    intro b hb before dst ty incoming after eq
    rw [layout hb] at eq
    rcases split_append eq with ⟨rest, slots⟩ | ⟨pre, code, rfl⟩
    · -- the slots are allocas
      have mem : Inst.phi dst ty incoming ∈
          (m.slotsOf b).map fun s => Inst.alloca s.1 s.2 := by simp [slots]
      obtain ⟨s, -, other⟩ := List.mem_map.1 mem
      cases other
    · rcases body.insts b (owned hb) pre _ after code with ok | phi
      · cases ok
      · obtain ⟨_, _, same, rfl, inner, -, once, sources, -⟩ := phi
        cases same
        refine ⟨by rw [body.noSlots b (owned hb) inner]; rfl, once, fun q => ?_⟩
        rw [sources, mem_predecessors, body.owned]
  case arity =>
    intro b hb dst g args hi
    rw [layout hb] at hi
    rcases List.mem_append.1 hi with slot | code
    · obtain ⟨s, -, other⟩ := List.mem_map.1 slot
      cases other
    · obtain ⟨pre, post, eq⟩ := List.append_of_mem code
      rcases body.insts b (owned hb) pre _ post eq with ok | phi
      · obtain ⟨F, hF, arity, -⟩ := ok
        exact ⟨F, hF, arity⟩
      · obtain ⟨_, _, other, -⟩ := phi
        cases other

end

end Module

end IR

/-- What generating a program comes to: a module with all its functions, or an error. -/
theorem generate_cases (typed : Prop) {b : Builder} (grounded : b.Grounded) (options : Options)
    (program : Program) (package : typed → program.package ≠ none)
    (lenient : typed → options.missingReturn = .synthesize)
    (type : typed → ∀ p, program.package = some p → ∃ Γ, p.context? program.externs = some Γ ∧
      (∀ d ∈ p.methods, d.wellTyped Γ = true) ∧
      ∀ d ∈ p.methods, d.body.jumpsInside false = true) :
    match generate options program b with
    | (.ok _, b') => ∃ p, program.package = some p ∧
      Generated typed b.module program.externs p b'.module
    | (.error e, _) => Refusal typed e := by
  rw [generate]
  cases hp : program.package with
  | none => exact ⟨fun t => package t hp, trivial⟩
  | some p =>
    have ends : Gen.Ends (Gen.program options program.externs p) (.start b)
        (fun _ s' => Generated typed b.module program.externs p s'.target.module)
        (Refusal typed) :=
      Gen.ends_program grounded.blocks grounded.issues lenient fun t => type t p hp
    rw [Gen.Ends] at ends
    dsimp only
    revert ends
    rcases (Gen.program options program.externs p).run.run (.start b) with ⟨e | a, s⟩
    · exact id
    · exact fun generated => ⟨p, rfl, generated⟩

/-- Every method of a program is generated as a sound function, and no command that was
given went astray; if a generated method is refused, the program is ill-typed. -/
theorem generate_sound {b : Builder} (reachable : b.Reachable) (options : Options)
    (program : Program) :
    (∀ warnings b', generate options program b = (.ok warnings, b') →
      b'.module.issues = b.module.issues ∧ ∃ package, program.package = some package ∧
        ∀ i d, package.methods[i]? = some d →
          (∃ F, b'.module.function? ⟨b.module.functions.size + program.externs.length + i⟩ =
            some F ∧ F.name = d.name) ∧
          b'.module.Sound ⟨b.module.functions.size + program.externs.length + i⟩) ∧
    ∀ method cause b', generate options program b = (.error (.malformed method cause), b') →
      ∃ e, cause = .check e ∧ e.defect.IsTyping := by
  have cases := generate_cases False reachable.grounded options program False.elim False.elim
    False.elim
  refine ⟨fun warnings b' result => ?_, fun method cause b' result => ?_⟩
  · rw [result] at cases
    obtain ⟨p, hp, generated⟩ := cases
    refine ⟨generated.issues, p, hp, fun i d hd => ?_⟩
    obtain ⟨⟨F, hF, -, name, -⟩, plan, function, finished⟩ := generated.methods i d hd
    exact ⟨⟨F, hF, name⟩, function ▸ finished.sound⟩
  · rw [result] at cases
    obtain ⟨-, acceptable⟩ := cases
    cases cause with
    | check e => exact ⟨e, rfl, acceptable⟩
    | noInsertionPoint => cases acceptable

/-- A method that counts its argument down while an extern agrees. -/
def countdown : Program where
  externs := [⟨"more", .bool, [⟨some "n", .int, 1⟩], 1⟩]
  package := some {
    name := "P"
    fields := []
    line := 2
    methods := [{
      name := "down"
      ret := .int
      params := [⟨some "n", .int, 3⟩]
      line := 3
      body := .mk [] [
        .while (.binary .and (.binary .gt (.var "n" 4) (.constant ⟨.int 0, "0", 4⟩) 4)
            (.call "more" [.var "n" 4] 4) 4)
          (.mk [] [.assign
            (.scalar "n" (.binary .sub (.var "n" 5) (.constant ⟨.int 1, "1", 5⟩) 5) 5)])
          4,
        .return (some (.var "n" 6)) 6] }] }

theorem ok_of_toOption {ε α : Type} {x : Except ε α} {a : α} (h : x.toOption = some a) :
    x = .ok a := by
  cases x <;> cases h
  rfl

theorem countdown_sound : Builder.empty.Reachable ∧ ∃ b',
    generate {} countdown Builder.empty = (.ok [], b') ∧ b'.module.issues = #[] ∧
      b'.module.Sound ⟨1⟩ := by
  have accepted : (generate {} countdown Builder.empty).1.toOption = some [] := by
    decide +kernel
  refine ⟨.empty, (generate {} countdown Builder.empty).2, ?_⟩
  have result := ok_of_toOption accepted
  revert result
  generalize h : generate {} countdown Builder.empty = outcome
  obtain ⟨result, b'⟩ := outcome
  rintro rfl
  obtain ⟨issues, p, hp, methods⟩ := (generate_sound .empty {} countdown).1 _ _ h
  cases hp
  exact ⟨rfl, issues, (methods 0 _ rfl).2⟩

end Decaf
