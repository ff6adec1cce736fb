import Decaf.Proofs.Generation.Congruence

/-!
# Policies

The policies on missing returns and stray jumps only decide between a warning and an error. A
computation under the lenient policies is compared with the same one under the strict ones:
they do the same up to the first warning, and there the strict one stops with the error that
says the same. Neither the target nor the check has any influence on this.
-/

namespace Decaf

open IR

namespace Options

/-- Whatever may be wrong with the flow of control is an error. -/
def strict (check : Bool) : Options := ⟨.error, .error, check⟩

/-- Whatever may be wrong with the flow of control is mended with a warning. -/
def lenient (check : Bool) : Options := ⟨.synthesize, .ignore, check⟩

end Options

/-- The error that takes the place of a warning. -/
def Warning.refusal : Warning → CompileError
  | synthesizedReturn method _ => .missingReturn method
  | ignoredJump kind line => .jumpOutsideLoop kind line

namespace Gen

variable {τ α β : Type}

/-- The second computation does what the first one does as long as that gives no warning, and
at the first warning it stops with the error that takes its place. -/
def Lockstep (x y : Gen τ α) : Prop :=
  ∀ s : GenState τ, ∃ warnings, (x.run.run s).2.warnings = s.warnings ++ warnings ∧
    match warnings with
    | [] => y.run.run s = x.run.run s
    | w :: _ => (y.run.run s).1 = .error w.refusal

section Rules

variable {x y : Gen τ α} {f g : α → Gen τ β}

theorem Lockstep.of_quiet (quiet : ∀ s, (x.run.run s).2.warnings = s.warnings) :
    Lockstep x x :=
  fun s => ⟨[], by rw [quiet, List.append_nil], rfl⟩

theorem Lockstep.bind (first : Lockstep x y) (rest : ∀ a, Lockstep (f a) (g a)) :
    Lockstep (x >>= f) (y >>= g) := by
  intro s
  obtain ⟨ws, warned, same⟩ := first s
  rw [run_bind, run_bind]
  rcases hx : x.run.run s with ⟨e | a, s'⟩ <;> rw [hx] at warned same
  · -- the first part has stopped, and nothing comes after it
    refine ⟨ws, warned, ?_⟩
    cases ws with
    | nil => rw [same]
    | cons w ws =>
      rcases hy : y.run.run s with ⟨e' | b, t⟩ <;> rw [hy] at same <;> cases same
      rfl
  · obtain ⟨more, warned', same'⟩ := rest a s'
    refine ⟨ws ++ more, by rw [warned', warned, List.append_assoc], ?_⟩
    cases ws with
    | nil =>
      rw [same]
      exact same'
    | cons w ws =>
      rcases hy : y.run.run s with ⟨e' | b, t⟩ <;> rw [hy] at same <;> cases same
      rfl

theorem Lockstep.inScope (h : Lockstep x y) : Lockstep (inScope x) (inScope y) := by
  intro s
  obtain ⟨ws, warned, same⟩ := h { s with scopes := s.scopes.push }
  refine ⟨ws, warned, ?_⟩
  cases ws with
  | nil => rw [run_inScope, run_inScope, same]
  | cons w ws => rw [run_inScope, same]

theorem Lockstep.inLoop (h : Lockstep x y) (targets : LoopTargets) :
    Lockstep (inLoop targets x) (inLoop targets y) := by
  intro s
  obtain ⟨ws, warned, same⟩ := h { s with loops := s.loops.push targets }
  refine ⟨ws, warned, ?_⟩
  cases ws with
  | nil => rw [run_inLoop, run_inLoop, same]
  | cons w ws => rw [run_inLoop, same]

/-- Where the one goes on with a warning the other stops. -/
theorem lockstep_warn (w : Warning) : Lockstep (warn w : Gen τ Unit) (throw w.refusal) :=
  fun _ => ⟨[w], rfl, rfl⟩

theorem lockstep_warn_bind (w : Warning) {x : Gen τ α} (h : Lockstep x x) :
    Lockstep (warn w >>= fun _ => x) (throw w.refusal) := by
  intro s
  obtain ⟨ws, warned, -⟩ := h { s with warnings := s.warnings ++ [w] }
  exact ⟨w :: ws, warned.trans (List.append_assoc ..), rfl⟩

end Rules

variable [Target τ]

/-- The policies decide about a return without the value that is owed, and about a jump with no
loop around it. -/
theorem lockstep_congruence (check : Bool) :
    Congruence (τ := τ) Lockstep (.lenient check) (.strict check) where
  reads reads := .of_quiet fun s => by rw [reads]
  bind first rest := first.bind rest
  emit c := .of_quiet fun _ => rfl
  bindName name d := by
    refine .of_quiet fun s => ?_
    rw [bindName, run_bind, run_fromScopes]
    cases s.scopes.bind name d <;> rfl
  inScope related := related.inScope
  inLoop targets related := related.inLoop targets
  returnDefault m line value := lockstep_warn_bind (.synthesizedReturn m.name line) value
  jumpStmt m kind line := by
    refine Lockstep.bind (x := innermostLoop?) (.of_quiet fun _ => rfl) fun r => ?_
    cases r with
    | some targets => exact .of_quiet fun _ => rfl
    | none => exact lockstep_warn (.ignoredJump kind line)

end Gen

/-- What compiles without a warning compiles to the same module under either policy; what
compiles with one is refused under the strict policies, with the error that takes the place of
the first warning. -/
theorem compile_policies (check : Bool) (P : Program) :
    (∀ M ws, compile (.strict check) P = .ok (M, ws) →
      ws = [] ∧ compile (.lenient check) P = .ok (M, [])) ∧
    (∀ M, compile (.lenient check) P = .ok (M, []) → compile (.strict check) P = .ok (M, [])) ∧
    ∀ M w ws, compile (.lenient check) P = .ok (M, w :: ws) →
      compile (.strict check) P = .error w.refusal := by
  cases package : P.package with
  | none =>
    simp only [compile_eq_missing package]
    refine ⟨fun _ _ h => ?_, fun _ h => ?_, fun _ _ _ h => ?_⟩ <;> cases h
  | some p =>
    have lockstep : Gen.Lockstep (Gen.program (.lenient check) P.externs p : Gen Builder Unit)
      (Gen.program (.strict check) P.externs p) :=
      (Gen.lockstep_congruence check).program rfl P.externs p
    obtain ⟨warnings, warned, same⟩ := lockstep (.start Builder.empty)
    rw [show (GenState.start Builder.empty).warnings = [] from rfl, List.nil_append] at warned
    rw [compile_eq_map package, compile_eq_map package]
    cases warnings with
    | nil =>
      -- the two runs are the same
      dsimp only at same
      rw [same, warned]
      cases ((Gen.program (.lenient check) P.externs p : Gen Builder Unit).run.run
        (.start Builder.empty)).1 with
      | error e => refine ⟨fun _ _ h => ?_, fun _ h => ?_, fun _ _ _ h => ?_⟩ <;> cases h
      | ok u =>
        refine ⟨fun _ _ h => ?_, fun _ h => h, fun _ _ _ h => ?_⟩ <;> cases h
        exact ⟨rfl, rfl⟩
    | cons first rest =>
      dsimp only at same
      rw [same, warned]
      cases ((Gen.program (.lenient check) P.externs p : Gen Builder Unit).run.run
        (.start Builder.empty)).1 with
      | error e => refine ⟨fun _ _ h => ?_, fun _ h => ?_, fun _ _ _ h => ?_⟩ <;> cases h
      | ok u =>
        refine ⟨fun _ _ h => ?_, fun _ h => ?_, fun _ _ _ h => ?_⟩ <;> cases h
        rfl

/-- The only statement is a jump with no loop around it. -/
def strayBreak : Program where
  externs := []
  package := some {
    name := "P"
    fields := []
    line := 1
    methods := [{
      name := "stray"
      ret := .void
      params := []
      line := 2
      body := .mk [] [.jump .break 3] }] }

theorem strayBreak_policies : ∃ M,
    compile (.lenient true) strayBreak = .ok (M, [.ignoredJump .break 3]) ∧
      compile (.strict true) strayBreak = .error (.jumpOutsideLoop .break 3) := by
  have warned : (compile (.lenient true) strayBreak).toOption.map (·.2) =
      some [.ignoredJump .break 3] := by
    decide +kernel
  cases compiled : compile (.lenient true) strayBreak with
  | error e => simp [compiled, Except.toOption] at warned
  | ok result =>
    obtain ⟨M, warnings⟩ := result
    rw [compiled] at warned
    obtain rfl : warnings = [.ignoredJump .break 3] := Option.some.inj warned
    exact ⟨M, rfl, (compile_policies true strayBreak).2.2 M _ _ compiled⟩

end Decaf
