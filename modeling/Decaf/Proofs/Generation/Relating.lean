import Decaf.Proofs.Generation.Outcome
import Decaf.Proofs.Language.Likeness

/-!
# Two runs of code generation

Two generating computations are run from states that correspond: what one run knows by an id
the other knows by an id that stands for it. The computations are related if both leave values
that correspond or both stop with the same error, and the states still correspond. Which ids
stand for each other is left open, and so is how the two targets correspond.
-/

namespace Decaf

open IR

/-- Which lines, values, blocks and functions of two runs stand for each other. A function may
be called, or it is one whose body is being built. -/
structure Matching where
  line : Nat → Nat → Prop
  value : ValueId → ValueId → Prop
  block : BlockId → BlockId → Prop
  function : FunctionId → FunctionId → Prop
  body : FunctionId → FunctionId → Prop
  /-- The warnings that one run had given before, and those of the other. -/
  given : List Warning × List Warning

namespace Matching

variable (k : Matching)

def reply : (r : Reply) → r.Carrier → r.Carrier → Prop
  | .nothing => fun _ _ => True
  | .value => k.value
  | .optionalValue => Option.Rel k.value
  | .function => k.function
  | .block => k.block

def incoming (i i' : ValueId × BlockId) : Prop :=
  k.value i.1 i'.1 ∧ k.block i.2 i'.2

inductive terminator : Terminator → Terminator → Prop where
  | br {b b' : BlockId} : k.block b b' → terminator (.br b) (.br b')
  | condBr {c c' : ValueId} {b b' e e' : BlockId} : k.value c c' → k.block b b' → k.block e e' →
      terminator (.condBr c b e) (.condBr c' b' e')
  | ret {v v' : Option ValueId} : Option.Rel k.value v v' → terminator (.ret v) (.ret v')
  | unreachable : terminator .unreachable .unreachable

/-- The same command about ids that stand for each other. Only commands that build a body are
compared. -/
inductive command : {r : Reply} → Command r → Command r → Prop where
  | appendBlock {f f' : FunctionId} (hint : String) : k.body f f' →
      command (.appendBlock f hint) (.appendBlock f' hint)
  | positionAtEnd {b b' : BlockId} : k.block b b' → command (.positionAtEnd b) (.positionAtEnd b')
  | terminate {t t' : Terminator} : k.terminator t t' → command (.terminate t) (.terminate t')
  | alloca (ty : IR.Ty) (hint : String) : command (.alloca ty hint) (.alloca ty hint)
  | load (ty : IR.Ty) {a a' : ValueId} (hint : String) : k.value a a' →
      command (.load ty a hint) (.load ty a' hint)
  | store {v v' a a' : ValueId} : k.value v v' → k.value a a' →
      command (.store v a) (.store v' a')
  | elementPtr (ty : IR.Ty) {a a' i i' : ValueId} : k.value a a' → k.value i i' →
      command (.elementPtr ty a i) (.elementPtr ty a' i')
  | binary (op : BinOp) {l l' r r' : ValueId} (hint : String) : k.value l l' → k.value r r' →
      command (.binary op l r hint) (.binary op l' r' hint)
  | unary (op : UnOp) {v v' : ValueId} (hint : String) : k.value v v' →
      command (.unary op v hint) (.unary op v' hint)
  | zext {v v' : ValueId} (ty : IR.Ty) : k.value v v' → command (.zext v ty) (.zext v' ty)
  | phi (ty : IR.Ty) {is is' : List (ValueId × BlockId)} (hint : String) :
      List.Forall₂ k.incoming is is' → command (.phi ty is hint) (.phi ty is' hint)
  | call {f f' : FunctionId} {vs vs' : List ValueId} : k.function f f' →
      List.Forall₂ k.value vs vs' → command (.call f vs) (.call f' vs')
  | globalString (contents : String) : command (.globalString contents) (.globalString contents)
  | const (c : Const) : command (.const c) (.const c)

inductive handle : Handle → Handle → Prop where
  | slot {v v' : ValueId} : k.value v v' → handle (.slot v) (.slot v')
  | array {v v' : ValueId} (length : Nat) : k.value v v' →
      handle (.array v length) (.array v' length)
  | function {f f' : FunctionId} (params : List (Option String × Ty)) : k.function f f' →
      handle (.function f params) (.function f' params)

structure descriptor (d d' : Descriptor) : Prop where
  kind : d'.kind = d.kind
  ty : d'.ty = d.ty
  line : k.line d.line d'.line
  handle : k.handle d.handle d'.handle

/-- The same names are bound, to descriptors that correspond. -/
def bindings (b b' : Bindings) : Prop :=
  ∀ name, Option.Rel k.descriptor (b.lookup name) (b'.lookup name)

structure scopes (s s' : ScopeStack) : Prop where
  package : k.bindings s.package s'.package
  inner : List.Forall₂ k.bindings s.inner s'.inner

structure targets (t t' : LoopTargets) : Prop where
  onContinue : k.block t.onContinue t'.onContinue
  onBreak : k.block t.onBreak t'.onBreak

def warnings (now now' : List Warning) : Prop :=
  ∃ new new', now = k.given.1 ++ new ∧ now' = k.given.2 ++ new' ∧
    List.Forall₂ (Warning.Like k.line) new new'

structure method (m m' : MethodContext) : Prop where
  function : k.body m.function m'.function
  name : m'.name = m.name
  ret : m'.ret = m.ret
  options : m'.options = m.options

end Matching

/-- Both sides hold results that correspond, or both hold errors that do. -/
inductive Parallel {ε α β : Type} (E : ε → ε → Prop) (V : α → β → Prop) :
    Except ε α → Except ε β → Prop where
  | ok {a : α} {b : β} : V a b → Parallel E V (.ok a) (.ok b)
  | error {e e' : ε} : E e e' → Parallel E V (.error e) (.error e')

/-- The states correspond if their targets do as `T` says, and all that was kept about names,
loops and warnings does. -/
structure GenState.Corresponds {τ τ' : Type} (k : Matching) (T : τ → τ' → Prop) (s : GenState τ)
    (s' : GenState τ') : Prop where
  target : T s.target s'.target
  scopes : k.scopes s.scopes s'.scopes
  loops : List.Forall₂ k.targets s.loops.loops s'.loops.loops
  warnings : k.warnings s.warnings s'.warnings

theorem GenState.Corresponds.retarget {τ τ' : Type} {k : Matching} {T U : τ → τ' → Prop}
    {s : GenState τ} {s' : GenState τ'} (h : s.Corresponds k T s') {t : τ} {t' : τ'}
    (related : U t t') : GenState.Corresponds k U { s with target := t } { s' with target := t' } :=
  ⟨related, h.scopes, h.loops, h.warnings⟩

namespace Matching

variable {k : Matching}

theorem descriptor_scalar (kind : EntityKind) (ty : Ty) {v v' : ValueId} {n n' : Nat}
    (values : k.value v v') (line : k.line n n') :
    k.descriptor (.scalar kind ty v n) (.scalar kind ty v' n') :=
  ⟨rfl, rfl, line, .slot values⟩

theorem descriptor_array (ty : Ty) (length : Nat) {v v' : ValueId} {n n' : Nat}
    (values : k.value v v') (line : k.line n n') :
    k.descriptor (.array ty v length n) (.array ty v' length n') :=
  ⟨rfl, rfl, line, .array length values⟩

theorem descriptor_function (ret : Ty) {f f' : FunctionId} {params params' : List VarDecl}
    {n n' : Nat} (functions : k.function f f')
    (alike : List.Forall₂ (VarDecl.Like k.line) params params') (line : k.line n n') :
    k.descriptor (.function ret f params n) (.function ret f' params' n') := by
  rw [Descriptor.function, Descriptor.function, signature_eq alike]
  exact ⟨rfl, rfl, line, .function _ functions⟩

theorem bindings_cons {b b' : Bindings} {d d' : Descriptor} (h : k.bindings b b') (name : String)
    (related : k.descriptor d d') : k.bindings ((name, d) :: b) ((name, d') :: b') := by
  intro other
  by_cases same : other = name
  · subst same
    simpa using Option.Rel.some related
  · have differ : (other == name) = false := beq_false_of_ne same
    simpa only [List.lookup_cons, differ] using h other

theorem bindings_nil : k.bindings [] [] :=
  fun _ => .none

/-- Descriptors and scopes stand for themselves, if all ids in them do. -/
theorem scopes_refl (line : ∀ n, k.line n n) (value : ∀ v, k.value v v)
    (function : ∀ g, k.function g g) (scopes : ScopeStack) : k.scopes scopes scopes := by
  have descriptor (d : Descriptor) : k.descriptor d d := by
    obtain ⟨kind, ty, n, handle⟩ := d
    refine ⟨rfl, rfl, line n, ?_⟩
    cases handle with
    | slot v => exact .slot (value v)
    | array v length => exact .array length (value v)
    | function g params => exact .function params (function g)
  have bindings (bs : Bindings) : k.bindings bs bs := fun name => optionRel_refl descriptor _
  exact ⟨bindings _, forall₂_refl bindings _⟩

section Scopes

variable {s s' : ScopeStack} (h : k.scopes s s')

include h

theorem scopes_push : k.scopes s.push s'.push :=
  ⟨h.package, .cons bindings_nil h.inner⟩

theorem scopes_pop : k.scopes s.pop s'.pop := by
  obtain ⟨package, inner⟩ := s
  obtain ⟨package', inner'⟩ := s'
  cases h.inner with
  | nil => exact h
  | cons _ outer => exact ⟨h.package, outer⟩

theorem scopes_innermost : k.bindings s.innermost s'.innermost := by
  obtain ⟨package, inner⟩ := s
  obtain ⟨package', inner'⟩ := s'
  cases h.inner with
  | nil => exact h.package
  | cons first _ => exact first

theorem scopes_add (name : String) {d d' : Descriptor} (related : k.descriptor d d') :
    k.scopes (s.add name d) (s'.add name d') := by
  obtain ⟨package, inner⟩ := s
  obtain ⟨package', inner'⟩ := s'
  cases h.inner with
  | nil => exact ⟨bindings_cons h.package name related, .nil⟩
  | cons first outer => exact ⟨h.package, .cons (bindings_cons first name related) outer⟩

theorem scopes_lookup (name : String) :
    Option.Rel k.descriptor (s.lookup name) (s'.lookup name) := by
  have all : List.Forall₂ k.bindings s.scopes s'.scopes :=
    List.rel_append h.inner (.cons h.package .nil)
  unfold ScopeStack.lookup
  generalize s.scopes = bs at all
  generalize s'.scopes = bs' at all
  induction all with
  | nil => exact .none
  | @cons b b' _ _ first _ ih =>
    have here := first name
    rw [List.findSome?_cons, List.findSome?_cons]
    revert here
    generalize b.lookup name = d
    generalize b'.lookup name = d'
    intro here
    cases here with
    | none => exact ih
    | some related => exact .some related

variable {n n' : Nat} (line : k.line n n')

include line

theorem scopes_resolve (name : String) :
    Parallel (CompileError.Like k.line) k.descriptor (s.resolve name n) (s'.resolve name n') := by
  have found := scopes_lookup h name
  unfold ScopeStack.resolve
  revert found
  generalize s.lookup name = d
  generalize s'.lookup name = d'
  intro found
  cases found with
  | none => exact .error (.unresolvedIdentifier name line)
  | some related => exact .ok related

end Scopes

end Matching

section Results

variable {ε α β γ δ : Type} {E : ε → ε → Prop} {V : α → β → Prop} {W : γ → δ → Prop}

theorem Parallel.bind {x : Except ε α} {y : Except ε β} {f : α → Except ε γ} {g : β → Except ε δ}
    (first : Parallel E V x y) (rest : ∀ a b, V a b → Parallel E W (f a) (g b)) :
    Parallel E W (x >>= f) (y >>= g) := by
  cases first with
  | ok related => exact rest _ _ related
  | error same => exact .error same

theorem Parallel.map {x : Except ε α} {y : Except ε β} {f : α → γ} {g : β → δ}
    (h : Parallel E V x y) (related : ∀ a b, V a b → W (f a) (g b)) :
    Parallel E W (x.map f) (y.map g) := by
  cases h with
  | ok both => exact .ok (related _ _ both)
  | error same => exact .error same

end Results

namespace Matching

variable {k : Matching} {s s' : ScopeStack} (h : k.scopes s s') {n n' : Nat}
  (line : k.line n n') (name : String)

/-- An address and the type that is stored there. -/
def place (p p' : Ty × ValueId) : Prop :=
  p'.1 = p.1 ∧ k.value p.2 p'.2

def callable (p p' : FunctionId × List Ty) : Prop :=
  k.function p.1 p'.1 ∧ p'.2 = p.2

include h line

theorem scopes_resolveFunction : Parallel (CompileError.Like k.line) k.descriptor
    (s.resolveFunction name n) (s'.resolveFunction name n') := by
  refine (scopes_resolve h line name).bind fun d d' related => ?_
  rw [related.kind]
  split
  · exact .error (.notCallable name line)
  · exact .ok related

theorem scopes_resolveStorage : Parallel (CompileError.Like k.line) k.descriptor
    (s.resolveStorage name n) (s'.resolveStorage name n') := by
  refine (scopes_resolve h line name).bind fun d d' related => ?_
  rw [related.kind]
  split
  · exact .ok related
  · exact .error (.notAVariable name line)

theorem scopes_resolveScalar : Parallel (CompileError.Like k.line) k.place
    (s.resolveScalar name n) (s'.resolveScalar name n') := by
  refine (scopes_resolveStorage h line name).bind fun d d' related => ?_
  obtain ⟨kind, ty, n, handle⟩ := d
  obtain ⟨kind', ty', n', handle'⟩ := d'
  cases related.handle with
  | slot value => exact .ok ⟨related.ty, value⟩
  | _ => exact .error (.notAScalar name line)

theorem scopes_resolveArray : Parallel (CompileError.Like k.line) k.place
    (s.resolveArray name n) (s'.resolveArray name n') := by
  refine (scopes_resolveStorage h line name).bind fun d d' related => ?_
  obtain ⟨kind, ty, n, handle⟩ := d
  obtain ⟨kind', ty', n', handle'⟩ := d'
  cases related.handle with
  | array length value => exact .ok ⟨related.ty, value⟩
  | _ => exact .error (.notAnArray name line)

theorem scopes_resolveCall (args : Nat) : Parallel (CompileError.Like k.line) k.callable
    (s.resolveCall name args n) (s'.resolveCall name args n') := by
  refine (scopes_resolveFunction h line name).bind fun d d' related => ?_
  obtain ⟨kind, ty, n, handle⟩ := d
  obtain ⟨kind', ty', n', handle'⟩ := d'
  cases related.handle with
  | function params callee =>
    dsimp only
    split
    · exact .ok ⟨callee, rfl⟩
    · exact .error (.arityMismatch name _ args line)
  | _ => exact .error (.notCallable name line)

end Matching

namespace Matching

/-- Every id that stands for something stands for itself. -/
structure Diagonal (k : Matching) : Prop where
  value {v v' : ValueId} : k.value v v' → v' = v
  block {b b' : BlockId} : k.block b b' → b' = b
  function {f f' : FunctionId} : k.function f f' → f' = f
  body {f f' : FunctionId} : k.body f f' → f' = f

namespace Diagonal

variable {k : Matching} (h : k.Diagonal)

include h

theorem values {vs vs' : List ValueId} (related : List.Forall₂ k.value vs vs') : vs' = vs := by
  induction related with
  | nil => rfl
  | cons first _ ih => rw [h.value first, ih]

theorem incoming {is is' : List (ValueId × BlockId)} (related : List.Forall₂ k.incoming is is') :
    is' = is := by
  induction related with
  | nil => rfl
  | cons first _ ih => rw [ih, Prod.ext (h.value first.1) (h.block first.2)]

theorem terminator {t t' : Terminator} (related : k.terminator t t') : t' = t := by
  cases related with
  | br block => rw [h.block block]
  | condBr value first second => rw [h.value value, h.block first, h.block second]
  | ret value =>
    cases value with
    | none => rfl
    | some value => rw [h.value value]
  | unreachable => rfl

theorem command {r : Reply} {c c' : Command r} (related : k.command c c') : c' = c := by
  cases related with
  | appendBlock hint function => rw [h.body function]
  | positionAtEnd block => rw [h.block block]
  | terminate terminator => rw [h.terminator terminator]
  | load ty hint address => rw [h.value address]
  | store value address => rw [h.value value, h.value address]
  | elementPtr ty base index => rw [h.value base, h.value index]
  | binary op hint lhs rhs => rw [h.value lhs, h.value rhs]
  | unary op hint value => rw [h.value value]
  | zext ty value => rw [h.value value]
  | phi ty hint incoming => rw [h.incoming incoming]
  | call function values => rw [h.function function, h.values values]
  | alloca | globalString | const => rfl

end Diagonal

end Matching

namespace Gen

variable {τ τ' α β γ δ : Type} {k : Matching} {T : τ → τ' → Prop}

/-- From states that correspond both computations leave values related by `V`, or both stop
with the same error; the states in which they do so correspond again. -/
def Relates (k : Matching) (T : τ → τ' → Prop) (V : α → β → Prop) (x : Gen τ α) (y : Gen τ' β) :
    Prop :=
  ∀ s s', s.Corresponds k T s' →
    Parallel (CompileError.Like k.line) V (x.run.run s).1 (y.run.run s').1 ∧
      (x.run.run s).2.Corresponds k T (y.run.run s').2

/-- Both computations leave nothing. -/
abbrev Nothing : Unit → Unit → Prop :=
  fun _ _ => True

namespace Relates

variable {V : α → β → Prop} {W : γ → δ → Prop}

theorem pure {a : α} {b : β} (h : V a b) : Relates k T V (Pure.pure a) (Pure.pure b) :=
  fun _ _ states => ⟨.ok h, states⟩

theorem throw {e e' : CompileError} (h : e.Like k.line e') :
    Relates k T V (MonadExcept.throw e : Gen τ α) (MonadExcept.throw e' : Gen τ' β) :=
  fun _ _ states => ⟨.error h, states⟩

theorem bind {x : Gen τ α} {y : Gen τ' β} {f : α → Gen τ γ} {g : β → Gen τ' δ}
    (first : Relates k T V x y) (rest : ∀ a b, V a b → Relates k T W (f a) (g b)) :
    Relates k T W (x >>= f) (y >>= g) := by
  intro s s' states
  obtain ⟨results, after⟩ := first s s' states
  rw [run_bind, run_bind]
  revert results after
  rcases x.run.run s with ⟨r, t⟩
  rcases y.run.run s' with ⟨r', t'⟩
  intro results after
  cases results with
  | ok related => exact rest _ _ related t t' after
  | error same => exact ⟨.error same, after⟩

theorem map {x : Gen τ α} {y : Gen τ' β} {f : α → γ} {g : β → δ} (h : Relates k T V x y)
    (related : ∀ a b, V a b → W (f a) (g b)) : Relates k T W (f <$> x) (g <$> y) := by
  rw [map_eq_pure_bind, map_eq_pure_bind]
  exact h.bind fun a b hab => pure (related a b hab)

theorem ite {p : Prop} [Decidable p] {x x' : Gen τ α} {y y' : Gen τ' β} (pos : Relates k T V x y)
    (neg : Relates k T V x' y') : Relates k T V (if p then x else x') (if p then y else y') := by
  split
  · exact pos
  · exact neg

/-- What a computation only reads off its state. -/
theorem reads {x : Gen τ α} {y : Gen τ' β} {f : GenState τ → α} {g : GenState τ' → β}
    (left : ∀ s, x.run.run s = (.ok (f s), s)) (right : ∀ s, y.run.run s = (.ok (g s), s))
    (related : ∀ s s', s.Corresponds k T s' → V (f s) (g s')) : Relates k T V x y := by
  intro s s' states
  rw [left, right]
  exact ⟨.ok (related s s' states), states⟩

theorem fromScopes {query : ScopeStack → Except CompileError α}
    {query' : ScopeStack → Except CompileError β}
    (h : ∀ s s', k.scopes s s' → Parallel (CompileError.Like k.line) V (query s) (query' s')) :
    Relates k T V (Gen.fromScopes query) (Gen.fromScopes query') := by
  intro s s' states
  rw [run_fromScopes, run_fromScopes]
  exact ⟨h _ _ states.scopes, states⟩

theorem inScope {x : Gen τ α} {y : Gen τ' β} (h : Relates k T V x y) :
    Relates k T V (Gen.inScope x) (Gen.inScope y) := by
  intro s s' states
  obtain ⟨results, after⟩ := h { s with scopes := s.scopes.push } { s' with scopes := s'.scopes.push }
    ⟨states.target, Matching.scopes_push states.scopes, states.loops, states.warnings⟩
  rw [run_inScope, run_inScope]
  exact ⟨results, after.target, Matching.scopes_pop after.scopes, after.loops, after.warnings⟩

theorem inLoop {x : Gen τ α} {y : Gen τ' β} {t t' : LoopTargets} (targets : k.targets t t')
    (h : Relates k T V x y) : Relates k T V (Gen.inLoop t x) (Gen.inLoop t' y) := by
  intro s s' states
  obtain ⟨results, after⟩ := h { s with loops := s.loops.push t } { s' with loops := s'.loops.push t' }
    ⟨states.target, states.scopes, .cons targets states.loops, states.warnings⟩
  rw [run_inLoop, run_inLoop]
  refine ⟨results, after.target, after.scopes, ?_, after.warnings⟩
  exact forall₂_tail after.loops

theorem warn {w w' : Warning} (h : w.Like k.line w') :
    Relates k T Nothing (Gen.warn w) (Gen.warn w') := by
  intro s s' states
  refine ⟨.ok trivial, states.target, states.scopes, states.loops, ?_⟩
  obtain ⟨new, new', now, now', same⟩ := states.warnings
  exact ⟨new ++ [w], new' ++ [w'], (congrArg (· ++ [w]) now).trans (List.append_assoc ..),
    (congrArg (· ++ [w']) now').trans (List.append_assoc ..), List.rel_append same (.cons h .nil)⟩

theorem bindName (name : String) {d d' : Descriptor} (h : k.descriptor d d') :
    Relates k T Nothing (Gen.bindName name d) (Gen.bindName name d') := by
  refine bind (V := k.scopes) (fromScopes fun s s' scopes => ?_) fun scopes scopes' related => ?_
  · have taken := Matching.scopes_innermost scopes name
    unfold ScopeStack.bind
    revert taken
    generalize s.innermost.lookup name = previous
    generalize s'.innermost.lookup name = previous'
    intro taken
    cases taken with
    | none => exact .ok (Matching.scopes_add scopes name h)
    | some earlier => exact .error (.duplicateDefinition name h.line earlier.line)
  · exact fun s s' states => ⟨.ok trivial, states.target, related, states.loops, states.warnings⟩

theorem forM {γ δ : Type} {R : γ → δ → Prop} {x : γ → Gen τ Unit} {y : δ → Gen τ' Unit}
    {cs : List γ} {ds : List δ} (lists : List.Forall₂ R cs ds)
    (each : ∀ c d, R c d → Relates k T Nothing (x c) (y d)) :
    Relates k T Nothing (cs.forM x) (ds.forM y) := by
  induction lists with
  | nil => exact pure trivial
  | cons first _ ih => exact bind (each _ _ first) fun _ _ _ => ih

theorem mapM {γ δ : Type} {R : γ → δ → Prop} {x : γ → Gen τ α} {y : δ → Gen τ' β}
    {cs : List γ} {ds : List δ} (lists : List.Forall₂ R cs ds)
    (each : ∀ c d, R c d → Relates k T V (x c) (y d)) :
    Relates k T (List.Forall₂ V) (cs.mapM x) (ds.mapM y) := by
  induction lists with
  | nil => exact pure .nil
  | cons first _ ih =>
    rw [List.mapM_cons, List.mapM_cons]
    exact bind (each _ _ first) fun a b hab => bind ih fun as bs others => pure (.cons hab others)

end Relates

end Gen

end Decaf
