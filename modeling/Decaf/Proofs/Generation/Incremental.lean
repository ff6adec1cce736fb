import Decaf.Proofs.Building.Locality
import Decaf.Proofs.Building.Verified
import Decaf.Proofs.Execution.Compiled

/-!
# Checking methods one by one

A method can be checked as soon as its body is there, or with all others once the program is
done. The two come to the same: code does not depend on whether it will be checked, and what is
built after a method changes nothing that the check of the method reads.
-/

namespace Decaf

open IR

/-- The same method, with or without a check of what is generated for it. -/
def MethodContext.checking (m : MethodContext) (check : Bool) : MethodContext :=
  { m with options := { m.options with check } }

namespace Gen

section

variable {τ : Type} [Target τ] (m : MethodContext) (check : Bool)

mutual

theorem expr_checking : ∀ e : Expr, (expr (m.checking check) e : Gen τ _) = expr m e
  | .binary op lhs rhs line => by
    simp only [expr, expr_checking lhs, expr_checking rhs]
    rfl
  | .unary op operand line => by
    simp only [expr, expr_checking operand]
  | .var name line => rfl
  | .element array index line => by
    simp only [expr, expr_checking index]
  | .call callee args line => by
    simp only [expr, arguments_checking args]
  | .constant c => rfl

theorem arguments_checking : ∀ (es : List Expr) (tys : List Decaf.Ty),
    (arguments (m.checking check) es tys : Gen τ _) = arguments m es tys
  | [], _ => by simp only [arguments]
  | _ :: _, [] => by simp only [arguments]
  | e :: es, ty :: tys => by
    simp only [arguments, expr_checking e, arguments_checking es]

end

theorem value_checking (e : Expr) : (value (m.checking check) e : Gen τ _) = value m e := by
  rw [value, expr_checking, value]

theorem assignment_checking (a : Assignment) :
    (assignment (m.checking check) a : Gen τ _) = assignment m a := by
  cases a <;> simp only [assignment, value_checking]

theorem assignments_checking (as : List Assignment) :
    (assignments (m.checking check) as : Gen τ _) = assignments m as := by
  induction as with
  | nil => rfl
  | cons a as ih => simp only [assignments, assignment_checking, ih]

theorem returnStmt_checking (result : Option Expr) (line : Nat) :
    (returnStmt (m.checking check) result line : Gen τ _) = returnStmt m result line := by
  cases result with
  | none => rfl
  | some e =>
    simp only [returnStmt, value_checking]
    rfl

mutual

theorem stmt_checking : ∀ s : Stmt, (stmt (m.checking check) s : Gen τ _) = stmt m s
  | .block body => by
    simp only [stmt, block_checking body]
  | .ifElse cond thenBlock elseBlock line => by
    simp only [stmt, block_checking thenBlock, optionalBlock_checking elseBlock, conditional,
      value_checking]
    rfl
  | .while cond body line => by
    simp only [stmt, block_checking body, whileLoop, value_checking]
    rfl
  | .for init cond step body line => by
    simp only [stmt, block_checking body, forLoop, value_checking, assignments_checking]
    rfl
  | .return result line => returnStmt_checking m check result line
  | .jump kind line => rfl
  | .assign a => assignment_checking m check a
  | .call callee args line => by
    simp only [stmt, expr_checking]

theorem stmts_checking : ∀ ss : List Stmt, (stmts (m.checking check) ss : Gen τ _) = stmts m ss
  | [] => rfl
  | s :: ss => by
    simp only [stmts, stmt_checking s, stmts_checking ss]

theorem block_checking : ∀ b : Block, (block (m.checking check) b : Gen τ _) = block m b
  | .mk vars body => by
    simp only [block, stmts_checking body]

theorem optionalBlock_checking : ∀ b : Option Block,
    (optionalBlock (m.checking check) b : Gen τ _) = optionalBlock m b
  | none => rfl
  | some b => by
    simp only [optionalBlock, block_checking b]

end

theorem bindParams_checking (params : List VarDecl) (index : Nat) :
    (bindParams (m.checking check) index params : Gen τ _) = bindParams m index params := by
  induction params generalizing index with
  | nil => rfl
  | cons param params ih =>
    simp only [bindParams, ih]
    rfl

/-- The code of a method does not depend on whether it will be checked. -/
theorem methodBody_checking (d : Method) :
    (methodBody (m.checking check) d : Gen τ _) = methodBody m d := by
  simp only [methodBody, bindParams_checking, stmts_checking]
  rfl

/-- With the check a method is generated as without, and then checked. -/
theorem defineMethod_check (o : Options) (d : Method) (f : FunctionId) :
    (defineMethod { o with check := true } d f : Gen τ _) = (do
      defineMethod { o with check := false } d f
      checkMethod ⟨f, d.name, d.ret, o⟩) := by
  have on := methodBody_checking (τ := τ) ⟨f, d.name, d.ret, o⟩ true d
  have off := methodBody_checking (τ := τ) ⟨f, d.name, d.ret, o⟩ false d
  simp only [MethodContext.checking] at on off
  simp only [defineMethod, on, off]
  simp only [bind_assoc, if_true, Bool.false_eq_true, if_false, pure_bind]
  rfl

end

theorem yields_bind_iff {τ α β : Type} {x : Gen τ α} {f : α → Gen τ β} {s s' : GenState τ}
    {b : β} : Yields (x >>= f) s b s' ↔ ∃ a s₁, Yields x s a s₁ ∧ Yields (f a) s₁ b s' := by
  unfold Yields
  rw [run_bind]
  rcases x.run.run s with ⟨e | a, s₁⟩
  · refine ⟨fun h => ?_, fun ⟨a, s₂, h, _⟩ => ?_⟩ <;> cases h
  · refine ⟨fun h => ⟨a, s₁, rfl, h⟩, fun ⟨a', s₂, same, h⟩ => ?_⟩
    cases same
    exact h

/-- The check of a method leaves everything as it is. -/
theorem yields_checkMethod_iff {m : MethodContext} {s s' : GenState Builder} {u : Unit} :
    Yields (checkMethod m) s u s' ↔
      s' = s ∧ s.target.module.checkFunction m.function = .ok () := by
  have check : Target.checkFunction s.target m.function =
      s.target.module.checkFunction m.function := rfl
  rw [Yields, run_checkMethod, check]
  cases s.target.module.checkFunction m.function with
  | ok u =>
    constructor
    · intro h
      cases h
      exact ⟨rfl, rfl⟩
    · rintro ⟨rfl, -⟩
      rfl
  | error e =>
    constructor
    · intro h
      cases h
    · rintro ⟨-, h⟩
      cases h

end Gen

namespace IR.Module

variable {typed : Prop} {m m' : Module} {p : Plan} {f : FunctionId}

/-- What is built for another function changes nothing that the check reads. -/
theorem Finished.agrees (h : m.Finished typed p) (clean : ∀ i ∈ m.issues, i.1 ≠ some p.function)
    (o : m.Outside m' f) (other : p.function ≠ f) : m.Agrees m' p.function := by
  have sound := h.sound
  have owned {c : BlockId} (listed : c ∈ m.blocksOf p.function) :
      m.functionOf? c = some p.function := (h.body.owned c).1 listed
  have type {v : ValueId} (uses : m.Local p.function v) :
      m'.checkedType p.function v = m.checkedType p.function v := by
    rcases uses with inside | ⟨info, there, fixed⟩
    · obtain ⟨info, there⟩ := value?_of_owner? inside
      rw [checkedType, checkedType, inside, owner?_mono o.ext inside, o.ext.typeOf there]
    · have none (n : Module) (held : n.value? v = some info) : n.owner? v = none := by
        obtain ⟨ty, origin, name⟩ := info
        rcases fixed with ⟨c, rfl⟩ | ⟨g, rfl⟩ <;> simp [owner?, held]
      rw [checkedType, checkedType, none m there, none m' (o.ext.value? there),
        o.ext.typeOf there]
  constructor
  case function => exact o.functions _ other
  case issues =>
    rw [checkIssues_of_clean clean, checkIssues_of_clean (by rwa [o.issues])]
  case owner => exact fun c => o.functionOf?_iff other
  case block => exact fun c listed => o.block? other (owned listed)
  case operand => exact fun c listed i hi v hv => type (sound.operands c listed i hi v hv)
  case exit => exact fun c listed t ht v hv => type (sound.exits c listed t ht v hv)
  case source =>
    intro c listed dst ty incoming mem i hi
    obtain ⟨before, after, code⟩ := List.append_of_mem mem
    obtain ⟨-, -, sources⟩ := sound.phis c listed before dst ty incoming after code
    have inside := (mem_predecessors.1 ((sources i.2).1 (List.mem_map_of_mem hi))).1
    rw [labelOf, o.block? other (owned inside), labelOf]
  case callee =>
    intro c listed dst g args mem
    obtain ⟨G, there, -⟩ := sound.arity c listed dst g args mem
    obtain ⟨G', there', ⟨-, name⟩, -, params⟩ := o.ext.functions g G there
    simp [there, there', name, params]

end IR.Module

section

variable {Γ : Context} {o : Options} {n : Nat} {ds : List Method} {s s' : GenState Builder}

/-- The bodies of methods, one after the other. -/
def Gen.defineMethods (o : Options) (n : Nat) (ds : List Method) : Gen Builder Unit :=
  (ds.zip ((List.range' n ds.length).map FunctionId.mk)).forM
    fun x => defineMethod o x.1 x.2

theorem Gen.defineMethods_cons (o : Options) (n : Nat) (d : Method) (ds : List Method) :
    defineMethods o n (d :: ds) = (do
      defineMethod o d ⟨n⟩
      defineMethods o (n + 1) ds) := by
  unfold defineMethods
  rw [List.length_cons, List.range'_succ, List.map_cons, List.zip_cons_cons]
  rfl

/-- The bodies that follow leave the check of a finished function as it was. -/
theorem Pending.checkFunction (pending : Pending False Γ n ds s)
    (built : Gen.Yields (Gen.defineMethods o n ds) s () s') {p : Plan}
    (before : p.function.index < n) (finished : s.target.module.Finished False p)
    (clean : ∀ i ∈ s.target.module.issues, i.1 ≠ some p.function) :
    s'.target.module.checkFunction p.function = s.target.module.checkFunction p.function := by
  induction ds generalizing n s with
  | nil =>
    cases built
    rfl
  | cons d ds ih =>
    rw [Gen.defineMethods_cons, Gen.yields_bind_iff] at built
    obtain ⟨⟨⟩, s₁, first, rest⟩ := built
    have defined := (pending.ends False.elim).of_yields first
    have other : p.function ≠ ⟨n⟩ := by
      rintro same
      rw [same] at before
      exact Nat.lt_irrefl n before
    have agrees := finished.agrees clean defined.outside other
    rw [ih (pending.next defined) rest (by omega) (finished.outside defined.outside other)
      (by rwa [defined.outside.issues]), agrees.checkFunction]

/-- Methods are generated with checks exactly if they are without, and all of them pass the
check in the module that comes out. -/
theorem Pending.yields_check_iff (pending : Pending False Γ n ds s) :
    Gen.Yields (Gen.defineMethods { o with check := true } n ds) s () s' ↔
      Gen.Yields (Gen.defineMethods { o with check := false } n ds) s () s' ∧
        ∀ i, i < ds.length → s'.target.module.checkFunction ⟨n + i⟩ = .ok () := by
  induction ds generalizing n s with
  | nil => exact ⟨fun h => ⟨h, nofun⟩, fun h => h.1⟩
  | cons d ds ih =>
    have later {s₁ : GenState Builder}
        (first : Gen.Yields (Gen.defineMethod { o with check := false } d ⟨n⟩) s () s₁)
        (rest : Gen.Yields (Gen.defineMethods { o with check := false } (n + 1) ds) s₁ () s') :
        Pending False Γ (n + 1) ds s₁ ∧ s'.target.module.checkFunction ⟨n⟩ =
          s₁.target.module.checkFunction ⟨n⟩ := by
      have defined := (pending.ends False.elim).of_yields first
      have next := pending.next defined
      obtain ⟨p, same, finished⟩ := defined.finished
      have stays := next.checkFunction rest (p := p) (by rw [same]; exact Nat.lt_succ_self n)
        finished fun i hi owner => by
          rw [defined.outside.issues] at hi
          have := pending.clean i hi _ owner
          rw [same] at this
          exact Nat.lt_irrefl n this
      rw [same] at stays
      exact ⟨next, stays⟩
    rw [Gen.defineMethods_cons, Gen.defineMethods_cons, Gen.defineMethod_check, bind_assoc]
    simp only [Gen.yields_bind_iff, Gen.yields_checkMethod_iff]
    constructor
    · rintro ⟨⟨⟩, s₁, first, ⟨⟩, s₂, ⟨rfl, checked⟩, rest⟩
      have next := pending.next ((pending.ends False.elim).of_yields first)
      obtain ⟨plain, all⟩ := (ih next).1 rest
      refine ⟨⟨(), s₂, first, plain⟩, fun i hi => ?_⟩
      cases i with
      | zero => exact (later first plain).2.trans checked
      | succ i =>
        rw [show n + (i + 1) = n + 1 + i by omega]
        exact all i (by simpa using hi)
    · rintro ⟨⟨⟨⟩, s₁, first, plain⟩, all⟩
      obtain ⟨next, stays⟩ := later first plain
      refine ⟨(), s₁, first, (), s₁, ⟨rfl, ?_⟩, (ih next).2 ⟨plain, fun i hi => ?_⟩⟩
      · exact stays.symm.trans (all 0 (by simp))
      · rw [show n + 1 + i = n + (i + 1) by omega]
        exact all (i + 1) (by simpa using hi)

/-- A compilation is a run of the generator from the empty builder. -/
theorem compile_eq_ok_iff {o : Options} {P : Program} {m : Module} {warnings : List Warning} :
    compile o P = .ok (m, warnings) ↔ ∃ p, P.package = some p ∧ ∃ s,
      Gen.Yields (Gen.program o P.externs p) (.start Builder.empty) () s ∧
      s.target.module = m ∧ s.warnings = warnings := by
  unfold compile generate Gen.Yields
  cases P.package with
  | none => simp [Except.map]
  | some p =>
    simp only [Option.some.injEq, exists_eq_left']
    generalize (Gen.program o P.externs p).run.run (.start Builder.empty) = outcome
    obtain ⟨e | u, s⟩ := outcome
    · refine ⟨fun h => ?_, fun ⟨_, h, _⟩ => ?_⟩ <;> cases h
    · constructor
      · intro h
        cases h
        exact ⟨s, rfl, rfl, rfl⟩
      · rintro ⟨s', run, rfl, rfl⟩
        cases run
        rfl

/-- A generated module passes the check if all its methods do. -/
theorem Generated.check_iff {es : List ExternDecl} {p : Package} {m : Module}
    (h : Generated False Module.empty es p m) :
    m.check = .ok () ↔
      ∀ i, i < p.methods.length → m.checkFunction ⟨es.length + i⟩ = .ok () := by
  have methods (i : Nat) (hi : i < p.methods.length) :
      ∃ F, m.function? ⟨es.length + i⟩ = some F ∧ F.id = ⟨es.length + i⟩ ∧
        F.isDeclaration = false := by
    have implements := h.method (List.getElem?_eq_getElem hi)
    obtain ⟨F, hF, id, -⟩ := implements.header
    exact ⟨F, hF, id, implements.isDeclaration hF⟩
  unfold Module.check
  rw [Module.forM_eq_ok]
  constructor
  · intro all i hi
    obtain ⟨F, hF, id, body⟩ := methods i hi
    have checked := all F (Array.mem_toList_iff.2 (Array.mem_of_getElem? hF))
    simpa [body, id] using checked
  · intro all F hF
    obtain ⟨k, held⟩ := Array.mem_iff_getElem?.1 (Array.mem_toList_iff.1 hF)
    rcases h.function_cases (f := ⟨k⟩) held with ⟨e, -, bodiless⟩ | ⟨i, d, place, hd, -⟩
    · obtain ⟨-, -, blocks, -⟩ := bodiless.found held
      rw [if_pos (by rw [Function.isDeclaration, blocks]; rfl)]
    · have hi := (List.getElem?_eq_some_iff.1 hd).1
      obtain ⟨G, hG, id, body⟩ := methods i hi
      have here : (⟨k⟩ : FunctionId) = ⟨es.length + i⟩ := congrArg FunctionId.mk place
      rw [← here] at hG id
      have same : F = G := Option.some.inj (held.symm.trans hG)
      rw [same, if_neg (by simp [body]), id, here]
      exact all i hi

/-- A program is generated with checks exactly if it is without, and its module passes the
check. -/
theorem yields_program_check_iff {es : List ExternDecl} {p : Package} :
    Gen.Yields (Gen.program { o with check := true } es p) (.start .empty) () s ↔
      Gen.Yields (Gen.program { o with check := false } es p) (.start .empty) () s ∧
        s.target.module.check = .ok () := by
  have start : Builder.empty.module.functions.size + es.length = es.length := Nat.zero_add _
  have reachable := Builder.Reachable.empty.grounded
  -- the two differ only after the declarations
  have after {ids : List FunctionId} {s₁ : GenState Builder}
      (declared : Gen.Yields (Gen.declarations es p) (.start .empty) ids s₁) :
      (∀ o : Options, ((p.methods.zip ids).forM fun x => Gen.defineMethod o x.1 x.2) =
        Gen.defineMethods o es.length p.methods) ∧
      Pending False [[]] es.length p.methods s₁ ∧
      ∀ (o : Options) (s : GenState Builder),
        Gen.Yields (Gen.defineMethods o es.length p.methods) s₁ () s →
          Generated False Module.empty es p s.target.module := by
    have declares := @Gen.ends_declarations False [[]] [[]] [[]] .empty es p reachable.blocks
      False.elim False.elim False.elim
    obtain ⟨rfl, preamble⟩ := declares.of_yields declared
    have pending := preamble.pending reachable.issues False.elim
    rw [start] at pending ⊢
    refine ⟨fun o => rfl, pending, fun o s built => ?_⟩
    have builds := @Gen.ends_defineMethods False o [[]] False.elim p.methods _ _ pending
    have bodies := builds.of_yields built
    rw [← start] at bodies
    exact preamble.generated bodies
  rw [Gen.program_eq, Gen.program_eq]
  simp only [Gen.yields_bind_iff]
  constructor
  · rintro ⟨ids, s₁, declared, built⟩
    obtain ⟨same, pending, generated⟩ := after declared
    rw [same] at built
    obtain ⟨plain, all⟩ := pending.yields_check_iff.1 built
    exact ⟨⟨ids, s₁, declared, by rwa [same]⟩, (generated _ s plain).check_iff.2 all⟩
  · rintro ⟨⟨ids, s₁, declared, plain⟩, checked⟩
    obtain ⟨same, pending, generated⟩ := after declared
    rw [same] at plain
    refine ⟨ids, s₁, declared, ?_⟩
    rw [same]
    exact pending.yields_check_iff.2 ⟨plain, (generated _ s plain).check_iff.1 checked⟩

/-- Checking each method when it is there comes to the same as checking the module that was
generated without checks. -/
theorem compile_check_iff (o : Options) (P : Program) (m : Module) (warnings : List Warning) :
    compile { o with check := true } P = .ok (m, warnings) ↔
      compile { o with check := false } P = .ok (m, warnings) ∧ m.check = .ok () := by
  simp only [compile_eq_ok_iff, yields_program_check_iff]
  constructor
  · rintro ⟨p, hp, s, ⟨built, checked⟩, rfl, rfl⟩
    exact ⟨⟨p, hp, s, built, rfl, rfl⟩, checked⟩
  · rintro ⟨⟨p, hp, s, built, rfl, rfl⟩, checked⟩
    exact ⟨p, hp, s, ⟨built, checked⟩, rfl, rfl⟩

end

end Decaf
