import Decaf.Compile.Program

/-!
# Outcomes of generating computations

A generating computation started in a state either leaves a value and a new state or stops
with an error. `Ends` states what is true in the one case and in the other, and comes with
one rule for each way in which computations are put together. `Yields` names the value and
the state.
-/

namespace Decaf

/-- A result is as the first condition says, an error as the second one says. -/
def Judged {ε α : Type} (x : Except ε α) (value : α → Prop) (error : ε → Prop) : Prop :=
  match x with
  | .ok a => value a
  | .error e => error e

theorem judged_bind {ε α β : Type} {x : Except ε α} {f : α → Except ε β} {P : α → Prop}
    {Q : β → Prop} {E : ε → Prop} (first : Judged x P E) (rest : ∀ a, P a → Judged (f a) Q E) :
    Judged (x >>= f) Q E := by
  cases x with
  | error e => exact first
  | ok a => exact rest a first

theorem Judged.mono {ε α : Type} {x : Except ε α} {P Q : α → Prop} {E F : ε → Prop}
    (h : Judged x P E) (value : ∀ a, P a → Q a) (error : ∀ e, E e → F e) : Judged x Q F := by
  cases x with
  | error e => exact error e h
  | ok a => exact value a h

namespace Gen

open IR

variable {τ α β : Type}

/-- If the computation leaves a value, the value and the new state are as the first condition
says; if it stops, the error is as the second one says. -/
def Ends (x : Gen τ α) (s : GenState τ) (value : α → GenState τ → Prop)
    (error : CompileError → Prop) : Prop :=
  match x.run.run s with
  | (.ok a, s') => value a s'
  | (.error e, _) => error e

def Yields (x : Gen τ α) (s : GenState τ) (a : α) (s' : GenState τ) : Prop :=
  x.run.run s = (.ok a, s')

section Rules

variable {s s' : GenState τ} {P Q : α → GenState τ → Prop} {R : β → GenState τ → Prop}
  {E F : CompileError → Prop}

theorem Ends.of_yields {x : Gen τ α} {a : α} (h : Ends x s P E) (y : Yields x s a s') :
    P a s' := by
  simpa only [Ends, show x.run.run s = (.ok a, s') from y] using h

theorem Ends.mono {x : Gen τ α} (h : Ends x s P E) (value : ∀ a s', P a s' → Q a s')
    (error : ∀ e, E e → F e) : Ends x s Q F := by
  unfold Ends at h ⊢
  split <;> simp_all only

theorem run_bind (x : Gen τ α) (f : α → Gen τ β) (s : GenState τ) :
    (x >>= f).run.run s = match x.run.run s with
      | (.ok a, s') => (f a).run.run s'
      | (.error e, s') => (.error e, s') := by
  simp only [ExceptT.run_bind, StateT.run_bind]
  show (let p := x.run.run s; _) = _
  rcases x.run.run s with ⟨r | r, s'⟩ <;> rfl

theorem ends_pure {a : α} (h : P a s) : Ends (pure a) s P E := h

theorem ends_throw {e : CompileError} (h : E e) : Ends (throw e) s P E := h

theorem ends_bind {x : Gen τ α} {f : α → Gen τ β} (first : Ends x s P E)
    (rest : ∀ a s', P a s' → Ends (f a) s' R E) : Ends (x >>= f) s R E := by
  unfold Ends at first rest ⊢
  rw [run_bind]
  rcases hx : x.run.run s with ⟨e | a, s'⟩
  · simpa only [hx] using first
  · rw [hx] at first
    exact rest a s' first

theorem ends_map {x : Gen τ α} {f : α → β} (h : Ends x s (fun a s' => R (f a) s') E) :
    Ends (f <$> x) s R E := by
  rw [map_eq_pure_bind]
  exact ends_bind h fun _ _ holds => ends_pure holds

theorem ends_get {f : GenState τ → Gen τ β} (h : Ends (f s) s R E) :
    Ends (get >>= f) s R E :=
  ends_bind (P := fun a s' => a = s ∧ s' = s) ⟨rfl, rfl⟩ fun _ _ ⟨ha, hs⟩ => ha ▸ hs ▸ h

theorem run_fromScopes (query : ScopeStack → Except CompileError α) (s : GenState τ) :
    (fromScopes query : Gen τ α).run.run s = (query s.scopes, s) := by
  have got : (get : Gen τ (GenState τ)).run.run s = (.ok s, s) := rfl
  rw [fromScopes, run_bind, got]
  dsimp only
  cases query s.scopes <;> rfl

theorem ends_fromScopes {query : ScopeStack → Except CompileError α}
    (value : ∀ a, query s.scopes = .ok a → P a s)
    (error : ∀ e, query s.scopes = .error e → E e) : Ends (fromScopes query) s P E := by
  apply ends_get
  cases h : query s.scopes with
  | ok a => exact value a h
  | error e => exact error e h

theorem ends_bindName {name : String} {d : Descriptor} {P : Unit → GenState τ → Prop}
    (value : s.scopes.innermost.lookup name = none →
      P () { s with scopes := s.scopes.add name d })
    (error : ∀ previous, s.scopes.innermost.lookup name = some previous →
      E (.duplicateDefinition name d.line previous.line)) :
    Ends (bindName name d) s P E := by
  refine ends_bind
    (P := fun scopes s' => s' = s ∧ scopes = s.scopes.add name d ∧
      s.scopes.innermost.lookup name = none)
    (ends_fromScopes (fun scopes h => ?_) fun e h => ?_) ?_
  · obtain ⟨free, rfl⟩ := ScopeStack.bind_eq_ok_iff.1 h
    exact ⟨rfl, rfl, free⟩
  · obtain ⟨previous, bound, rfl⟩ := ScopeStack.bind_eq_error_iff.1 h
    exact error previous bound
  · rintro _ _ ⟨rfl, rfl, free⟩
    exact value free

theorem ends_warn {w : Warning} {P : Unit → GenState τ → Prop}
    (h : P () { s with warnings := s.warnings ++ [w] }) : Ends (warn w) s P E := h

theorem ends_innermostLoop? {f : Option LoopTargets → Gen τ β}
    (h : Ends (f s.loops.innermost?) s R E) : Ends (innermostLoop? >>= f) s R E := h

theorem run_inScope (x : Gen τ α) (s : GenState τ) :
    (inScope x).run.run s =
      ((x.run.run { s with scopes := s.scopes.push }).1,
        { (x.run.run { s with scopes := s.scopes.push }).2 with
          scopes := (x.run.run { s with scopes := s.scopes.push }).2.scopes.pop }) := rfl

theorem ends_inScope {x : Gen τ α}
    (h : Ends x { s with scopes := s.scopes.push }
      (fun a s' => P a { s' with scopes := s'.scopes.pop }) E) :
    Ends (inScope x) s P E := by
  unfold Ends at h ⊢
  rw [run_inScope]
  rcases hx : x.run.run { s with scopes := s.scopes.push } with ⟨e | a, s'⟩ <;>
    simpa only [hx] using h

theorem run_inLoop (targets : LoopTargets) (x : Gen τ α) (s : GenState τ) :
    (inLoop targets x).run.run s =
      ((x.run.run { s with loops := s.loops.push targets }).1,
        { (x.run.run { s with loops := s.loops.push targets }).2 with
          loops := (x.run.run { s with loops := s.loops.push targets }).2.loops.pop }) := rfl

theorem ends_inLoop {x : Gen τ α} {targets : LoopTargets}
    (h : Ends x { s with loops := s.loops.push targets }
      (fun a s' => P a { s' with loops := s'.loops.pop }) E) :
    Ends (inLoop targets x) s P E := by
  unfold Ends at h ⊢
  rw [run_inLoop]
  rcases hx : x.run.run { s with loops := s.loops.push targets } with ⟨e | a, s'⟩ <;>
    simpa only [hx] using h

/-- A list of computations one after the other, each with a condition on what is left to do. -/
theorem ends_forM {γ : Type} {x : γ → Gen τ Unit} {I : List γ → GenState τ → Prop}
    (each : ∀ c cs s, I (c :: cs) s → Ends (x c) s (fun _ s' => I cs s') E) :
    ∀ (cs : List γ) (s : GenState τ), I cs s → Ends (cs.forM x) s (fun _ s' => I [] s') E
  | [], _, h => ends_pure h
  | c :: cs, s, h => ends_bind (each c cs s h) fun _ s' => ends_forM each cs s'

end Rules

section Targets

variable [Target τ] {s : GenState τ} {R : β → GenState τ → Prop} {E : CompileError → Prop}

theorem ends_emit {r : Reply} {c : Command r} {P : r.Carrier → GenState τ → Prop}
    (h : P (Target.perform s.target c).1 { s with target := (Target.perform s.target c).2 }) :
    Ends (emit c) s P E := h

theorem ends_isTerminated {f : Bool → Gen τ β}
    (h : Ends (f (Target.isTerminated s.target)) s R E) : Ends (isTerminated >>= f) s R E := h

theorem ends_typeOf {v : ValueId} {f : IR.Ty → Gen τ β}
    (h : Ends (f (Target.typeOf s.target v)) s R E) : Ends (typeOf v >>= f) s R E := h

theorem ends_parameter? {function : FunctionId} {i : Nat} {f : Option ValueId → Gen τ β}
    (h : Ends (f (Target.parameter? s.target function i)) s R E) :
    Ends (parameter? function i >>= f) s R E := h

theorem ends_insertionBlock {m : MethodContext} {block : BlockId} {f : BlockId → Gen τ β}
    (here : Target.insertion? s.target = some block) (h : Ends (f block) s R E) :
    Ends (insertionBlock m >>= f) s R E := by
  refine ends_bind (P := fun a s' => a = block ∧ s' = s) (ends_get ?_) ?_
  · rw [here]
    exact ends_pure ⟨rfl, rfl⟩
  · rintro _ _ ⟨rfl, rfl⟩
    exact h

theorem run_checkMethod (m : MethodContext) (s : GenState τ) :
    (checkMethod m : Gen τ Unit).run.run s =
      ((Target.checkFunction s.target m.function).mapError fun e => .malformed m.name (.check e),
        s) := by
  have got : (get : Gen τ (GenState τ)).run.run s = (.ok s, s) := rfl
  rw [checkMethod, run_bind, got]
  dsimp only
  cases Target.checkFunction s.target m.function <;> rfl

end Targets

end Gen

theorem compile_eq_missing {o : Options} {P : Program} (missing : P.package = none) :
    compile o P = .error .missingPackage := by
  simp only [compile, generate, missing]
  rfl

/-- The module and the warnings are those of the state that is left in the end. -/
theorem compile_eq_map {o : Options} {P : Program} {p : Package} (package : P.package = some p) :
    compile o P =
      ((Gen.program o P.externs p : Gen IR.Builder Unit).run.run (.start .empty)).1.map fun _ =>
        (((Gen.program o P.externs p : Gen IR.Builder Unit).run.run (.start .empty)).2.target.module,
          ((Gen.program o P.externs p : Gen IR.Builder Unit).run.run (.start .empty)).2.warnings) := by
  simp only [compile, generate, package]
  rcases (Gen.program o P.externs p : Gen IR.Builder Unit).run.run (.start .empty) with ⟨e | u, s⟩ <;>
    rfl

end Decaf
