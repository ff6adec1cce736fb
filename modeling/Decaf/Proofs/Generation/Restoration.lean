import Mathlib.Order.Defs.Unbundled
import Decaf.Proofs.Generation.Congruence

/-!
# Scopes and loops are restored

A name is bound in the scope that is open, and a scope or a loop is closed again however the code
inside of it ends. So whatever is compiled, and if it stops at an error with some of the names of a
block bound and the others not, finds the scopes and the loops as they were before it. A method body
binds its names in a scope of its own, so nothing of one method can be seen in another.
-/

namespace Decaf

open IR

/-- The scopes, with all bindings in them, and the loops are the same. -/
def SameFrames {τ : Type} (s s' : GenState τ) : Prop :=
  s'.scopes = s.scopes ∧ s'.loops = s.loops

/-- Names may have been bound in the innermost scope, unless it is that of the package. The scopes
around it and the loops are the same. -/
def SameAround {τ : Type} (s s' : GenState τ) : Prop :=
  s.scopes.inner ≠ [] →
    s'.scopes.inner ≠ [] ∧ s'.scopes.pop = s.scopes.pop ∧ s'.loops = s.loops

namespace Gen

section Keeping

variable {τ α β : Type}

/-- However the computation ends, the state is then as the relation says of the one before. -/
def Keeps (r : GenState τ → GenState τ → Prop) (x : Gen τ α) : Prop :=
  ∀ s, r s (x.run.run s).2

variable {r : GenState τ → GenState τ → Prop}

theorem Keeps.bind [IsTrans (GenState τ) r] {x : Gen τ α} {f : α → Gen τ β} (first : Keeps r x)
    (rest : ∀ a, Keeps r (f a)) : Keeps r (x >>= f) := by
  intro s
  have before := first s
  rw [run_bind]
  rcases hx : x.run.run s with ⟨e | a, s'⟩ <;> rw [hx] at before
  · exact before
  · exact trans_of r before (rest a s')

/-- Code that binds no names and opens no scope keeps what depends on the scopes and the loops
only, and outlasts a loop. -/
theorem keeps_plain [Target τ] [IsTrans (GenState τ) r] (o : Options)
    (same : ∀ {s t}, SameFrames s t → r s t)
    (loop : ∀ {s t} targets, r { s with loops := s.loops.push targets } t →
      r s { t with loops := t.loops.pop }) :
    PlainCongruence (τ := τ) (fun x _ => Keeps r x) o o := by
  refine .of_same o (fun {_ x} reads s => ?_) Keeps.bind
    (fun _ s => same ⟨rfl, rfl⟩) (fun {x _} targets kept s => ?_) fun w s => same ⟨rfl, rfl⟩
  · rw [reads]
    exact same ⟨rfl, rfl⟩
  · rw [run_inLoop]
    exact loop targets (kept _)

end Keeping

section Frames

variable {τ α : Type}

instance : IsTrans (GenState τ) SameFrames where
  trans _ _ _ first second := ⟨second.1.trans first.1, second.2.trans first.2⟩

instance : IsTrans (GenState τ) SameAround where
  trans s t u first second inside := by
    obtain ⟨inside', around, loops⟩ := first inside
    obtain ⟨inside'', around', loops'⟩ := second inside'
    exact ⟨inside'', around'.trans around, loops'.trans loops⟩

theorem SameFrames.around {s t : GenState τ} (h : SameFrames s t) : SameAround s t :=
  fun inside => ⟨h.1 ▸ inside, by rw [h.1], h.2⟩

/-- A scope of its own takes with it what is bound in it. -/
theorem Keeps.inScope {x : Gen τ α} (h : Keeps SameAround x) : Keeps SameFrames (inScope x) := by
  intro s
  obtain ⟨-, around, loops⟩ := h { s with scopes := s.scopes.push } (List.cons_ne_nil _ _)
  exact ⟨around.trans s.scopes.pop_push, loops⟩

theorem keeps_bindName (name : String) (d : Descriptor) :
    Keeps SameAround (bindName name d : Gen τ Unit) := by
  intro s inside
  rw [bindName, run_bind, run_fromScopes]
  cases outcome : s.scopes.bind name d with
  | error e => exact ⟨inside, rfl, rfl⟩
  | ok scopes =>
    obtain ⟨-, rfl⟩ := ScopeStack.bind_eq_ok_iff.1 outcome
    obtain ⟨around, inside'⟩ := ScopeStack.pop_add inside name d
    exact ⟨inside', around, rfl⟩

variable [Target τ]

theorem keeps_around (o : Options) : Congruence (τ := τ) (fun x _ => Keeps SameAround x) o o where
  toPlainCongruence := by
    refine keeps_plain o SameFrames.around fun targets kept inside => ?_
    obtain ⟨inside', around, loops⟩ := kept inside
    exact ⟨inside', around, congrArg LoopStack.pop loops⟩
  bindName := keeps_bindName
  inScope kept s := SameFrames.around (kept.inScope s)

theorem keeps_frames (o : Options) :
    BlockCongruence (τ := τ) (fun x _ => Keeps SameFrames x) o o where
  toPlainCongruence :=
    keeps_plain o id fun _ kept => ⟨kept.1, congrArg LoopStack.pop kept.2⟩
  inBlock vars _ _ kept :=
    Keeps.inScope (((keeps_around o).declareLocals vars).bind fun _ s =>
      SameFrames.around (kept s))

theorem keeps_defineMethod (o : Options) (d : Method) (f : FunctionId) :
    Keeps SameFrames (defineMethod o d f : Gen τ Unit) := by
  let m : MethodContext := ⟨f, d.name, d.ret, o⟩
  refine (keeps_frames o).defineMethod_of_body rfl d f (Keeps.inScope ?_)
  have around := keeps_around (τ := τ) o
  refine (around.bindParams (m := m) d.params 0).bind fun _ => ?_
  refine (around.declareLocals d.body.vars).bind fun _ => ?_
  refine (around.blockwise.stmts (m := m) d.body.stmts).bind fun _ => ?_
  exact around.finishBody (m := m) d.line

theorem keeps_methods (o : Options) (ms : List (Method × FunctionId)) :
    Keeps SameFrames (ms.forM fun x => defineMethod o x.1 x.2 : Gen τ Unit) :=
  (keeps_frames o).forM (y := fun x => defineMethod o x.1 x.2) fun x _ =>
    keeps_defineMethod o x.1 x.2

end Frames

/-- Compiling a statement or an expression, whether or not it succeeds, leaves the scopes with all
their bindings and the loops as they were. So does compiling a method. After any methods that were
compiled, the last of them perhaps not to its end, where only the scope of the package was open and
there was no loop, the next one sees the names of the package and no others, and has no loop to
jump out of. -/
theorem frames_restored {τ : Type} [Target τ] :
    (∀ (m : MethodContext) (st : Stmt) (s : GenState τ), SameFrames s ((stmt m st).run.run s).2) ∧
    (∀ (m : MethodContext) (e : Expr) (s : GenState τ), SameFrames s ((expr m e).run.run s).2) ∧
    ∀ (o : Options) (s : GenState τ), s.scopes.inner = [] → s.loops = .empty →
      (∀ d f, ((defineMethod o d f).run.run s).2.scopes = s.scopes ∧
        ((defineMethod o d f).run.run s).2.loops = .empty) ∧
      ∀ earlier : List (Method × FunctionId),
        let s' := ((earlier.forM fun x => defineMethod o x.1 x.2).run.run s).2
        (∀ name, s'.scopes.lookup name = s.scopes.package.lookup name) ∧
          s'.loops.innermost? = none := by
  refine ⟨fun m st => (keeps_frames m.options).stmt (m := m) st,
    fun m e => (keeps_frames m.options).expr (m := m) e, fun o s package noLoop =>
      ⟨fun d f => ?_, fun earlier => ?_⟩⟩
  · obtain ⟨scopes, loops⟩ := keeps_defineMethod o d f s
    exact ⟨scopes, loops.trans noLoop⟩
  · obtain ⟨scopes, loops⟩ := keeps_methods o earlier s
    refine ⟨fun name => ?_, ?_⟩
    · rw [scopes, ScopeStack.lookup, ScopeStack.scopes, package]
      simp
    · rw [loops, noLoop]
      rfl

/-- In the loop of the method a block declares a variable twice. -/
def redeclaring : Method where
  name := "f"
  ret := .void
  params := [⟨some "a", .bool, 1⟩]
  line := 1
  body := .mk [⟨some "b", .int, 2⟩] [
    .while (.var "a" 3) (.mk [⟨some "x", .int, 4⟩, ⟨some "x", .int, 5⟩] []) 3]

/-- The method is declared and nothing else. -/
def redeclaringDeclared : GenState Builder where
  target := (Builder.empty.perform (.declareFunction "f" .void [(some "a", .i1)])).2
  scopes := ⟨[("f", .function .void ⟨0⟩ redeclaring.params 1)], []⟩
  loops := .empty
  warnings := []

/-- Compiling stops with the loop and two scopes open, and one name bound in the inner one. Neither
this name nor the parameter is known afterwards. -/
theorem redeclaring_restores :
    ((defineMethod {} redeclaring ⟨0⟩).run.run redeclaringDeclared).1.toOption.isNone = true ∧
    ((defineMethod {} redeclaring ⟨0⟩).run.run redeclaringDeclared).2.scopes =
      redeclaringDeclared.scopes ∧
    ((defineMethod {} redeclaring ⟨0⟩).run.run redeclaringDeclared).2.loops = .empty ∧
    ∀ name ∈ ["x", "a"], (([(redeclaring, ⟨0⟩)].forM fun x => defineMethod {} x.1 x.2).run.run
      redeclaringDeclared).2.scopes.lookup name = none := by
  obtain ⟨-, -, method⟩ := frames_restored (τ := Builder)
  obtain ⟨alone, after⟩ := method {} redeclaringDeclared rfl rfl
  have unbound : ∀ name ∈ ["x", "a"], redeclaringDeclared.scopes.package.lookup name = none := by
    decide
  refine ⟨by decide +kernel, (alone redeclaring ⟨0⟩).1, (alone redeclaring ⟨0⟩).2, ?_⟩
  intro name bound
  exact ((after [(redeclaring, ⟨0⟩)]).1 name).trans (unbound name bound)

end Gen

end Decaf
