import Decaf.Proofs.Generation.Site
import Decaf.Proofs.Typing.Rules

/-!
# Resolving names

A name that resolves stands for something of the right kind in the module, and for the same
entity in the typing rules. A name that is refused has no entity of that kind.
-/

namespace Decaf

open IR

theorem ok_of_bind {ε α β : Type} {x : Except ε α} {f : α → Except ε β} {b : β}
    (h : x >>= f = .ok b) : ∃ a, x = .ok a ∧ f a = .ok b := by
  cases x with
  | error e => cases h
  | ok a => exact ⟨a, rfl, h⟩

theorem error_of_bind {ε α β : Type} {x : Except ε α} {f : α → Except ε β} {e : ε}
    (h : x >>= f = .error e) : x = .error e ∨ ∃ a, x = .ok a ∧ f a = .error e := by
  cases x with
  | error e' => exact .inl (by cases h; rfl)
  | ok a => exact .inr ⟨a, rfl, h⟩

def Descriptor.entity (d : Descriptor) : Entity :=
  match d.handle with
  | .slot _ => .variable d.ty
  | .array _ _ => .array d.ty
  | .function _ params => .function d.ty (params.map (·.2))

def ScopeStack.context (s : ScopeStack) : Context :=
  s.scopes.map fun bindings => bindings.map fun x => (x.1, x.2.entity)

theorem lookup_map_entity (bindings : Bindings) (name : String) :
    (bindings.map fun x => (x.1, x.2.entity)).lookup name =
      (bindings.lookup name).map Descriptor.entity := by
  induction bindings with
  | nil => rfl
  | cons x rest ih =>
    obtain ⟨other, d⟩ := x
    simp only [List.map_cons, List.lookup_cons, ih]
    split <;> rfl

theorem find?_context (s : ScopeStack) (name : String) :
    s.context.find? name = (s.lookup name).map Descriptor.entity := by
  unfold Context.find? ScopeStack.context ScopeStack.lookup
  induction s.scopes with
  | nil => rfl
  | cons bindings rest ih =>
    simp only [List.map_cons, List.findSome?_cons, lookup_map_entity]
    cases bindings.lookup name with
    | none => simpa using ih
    | some d => rfl

/-- The defects that stem from ill-typed operands, results or arguments. -/
def IR.Defect.IsTyping : Defect → Prop
  | .type _ | .returnType _ _ | .callSignature _ => True
  | _ => False

/-- The error is not about the structure of generated code. -/
def CompileError.Acceptable : CompileError → Prop
  | .malformed _ (.check e) => e.defect.IsTyping
  | .malformed _ .noInsertionPoint => False
  | _ => True

/-- An error that generating may end with. Where the typing rules are kept there is none. -/
def Refusal (typed : Prop) (e : CompileError) : Prop :=
  ¬ typed ∧ e.Acceptable

namespace ScopeStack.Fits

variable {m : Module} {p : Plan} {scopes : ScopeStack} (fits : scopes.Fits m p) {name : String}
  {line : Nat}

include fits

theorem resolve {d : Descriptor} (h : scopes.resolve name line = .ok d) :
    d.Fits m p ∧ scopes.context.find? name = some d.entity := by
  unfold ScopeStack.resolve at h
  cases hd : scopes.lookup name with
  | none => simp [hd] at h
  | some found =>
    obtain rfl : found = d := by simpa [hd] using h
    exact ⟨fits.lookup hd, by rw [find?_context, hd]; rfl⟩

omit fits in
theorem resolve_error {e : CompileError} (h : scopes.resolve name line = .error e) :
    e.Acceptable ∧ scopes.context.find? name = none := by
  unfold ScopeStack.resolve at h
  cases hd : scopes.lookup name with
  | none =>
    obtain rfl : CompileError.unresolvedIdentifier name line = e := by simpa [hd] using h
    exact ⟨trivial, by rw [find?_context, hd]; rfl⟩
  | some found => simp [hd] at h

theorem resolveStorage {d : Descriptor} (h : scopes.resolveStorage name line = .ok d) :
    d.Fits m p ∧ scopes.context.find? name = some d.entity := by
  unfold ScopeStack.resolveStorage at h
  obtain ⟨found, hd, h⟩ := ok_of_bind h
  split at h <;> cases h
  exact fits.resolve hd

/-- A name that is refused stands for no variable. -/
theorem resolveStorage_error {e : CompileError} (h : scopes.resolveStorage name line = .error e) :
    e.Acceptable ∧ (∀ ty, scopes.context.find? name ≠ some (.variable ty)) ∧
      ∀ ty, scopes.context.find? name ≠ some (.array ty) := by
  unfold ScopeStack.resolveStorage at h
  rcases error_of_bind h with hd | ⟨found, hd, h⟩
  · obtain ⟨acceptable, missing⟩ := resolve_error hd
    exact ⟨acceptable, by simp [missing], by simp [missing]⟩
  · obtain ⟨fit, entity⟩ := fits.resolve hd
    split at h <;> cases h
    rename_i other
    refine ⟨trivial, fun ty same => ?_, fun ty same => ?_⟩ <;>
      simp only [entity, Descriptor.entity, Option.some.injEq] at same <;>
      split at same <;> cases same <;> rename_i handle <;>
      simp only [Descriptor.Fits, handle] at fit <;>
      exact other fit.1

theorem resolveScalar_ok {ty : Decaf.Ty} {a : ValueId}
    (h : scopes.resolveScalar name line = .ok (ty, a)) :
    m.IsSlot p a ty.repr ∧ scopes.context.find? name = some (.variable ty) := by
  unfold ScopeStack.resolveScalar at h
  obtain ⟨d, hd, h⟩ := ok_of_bind h
  obtain ⟨fit, entity⟩ := fits.resolveStorage hd
  split at h <;> cases h
  rename_i handle
  simp only [Descriptor.Fits, handle] at fit
  exact ⟨fit.2, by rw [entity, Descriptor.entity, handle]⟩

theorem resolveScalar_error {e : CompileError} (h : scopes.resolveScalar name line = .error e) :
    e.Acceptable ∧ ∀ ty, scopes.context.find? name ≠ some (.variable ty) := by
  unfold ScopeStack.resolveScalar at h
  rcases error_of_bind h with hd | ⟨d, hd, h⟩
  · obtain ⟨acceptable, unfit, -⟩ := fits.resolveStorage_error hd
    exact ⟨acceptable, unfit⟩
  · obtain ⟨-, entity⟩ := fits.resolveStorage hd
    split at h <;> cases h
    rename_i other
    refine ⟨trivial, fun ty same => ?_⟩
    simp only [entity, Descriptor.entity, Option.some.injEq] at same
    split at same <;> cases same
    exact other _ ‹_›

theorem resolveArray_ok {ty : Decaf.Ty} {base : ValueId}
    (h : scopes.resolveArray name line = .ok (ty, base)) :
    (∃ length, m.IsGlobal base (.array ty.repr length)) ∧
      scopes.context.find? name = some (.array ty) := by
  unfold ScopeStack.resolveArray at h
  obtain ⟨d, hd, h⟩ := ok_of_bind h
  obtain ⟨fit, entity⟩ := fits.resolveStorage hd
  split at h <;> cases h
  rename_i handle
  simp only [Descriptor.Fits, handle] at fit
  exact ⟨fit.2, by rw [entity, Descriptor.entity, handle]⟩

theorem resolveArray_error {e : CompileError} (h : scopes.resolveArray name line = .error e) :
    e.Acceptable ∧ ∀ ty, scopes.context.find? name ≠ some (.array ty) := by
  unfold ScopeStack.resolveArray at h
  rcases error_of_bind h with hd | ⟨d, hd, h⟩
  · obtain ⟨acceptable, -, unfit⟩ := fits.resolveStorage_error hd
    exact ⟨acceptable, unfit⟩
  · obtain ⟨-, entity⟩ := fits.resolveStorage hd
    split at h <;> cases h
    rename_i other
    refine ⟨trivial, fun ty same => ?_⟩
    simp only [entity, Descriptor.entity, Option.some.injEq] at same
    split at same <;> cases same
    exact other _ _ ‹_›

theorem resolveFunction {d : Descriptor} (h : scopes.resolveFunction name line = .ok d) :
    d.Fits m p ∧ scopes.context.find? name = some d.entity := by
  unfold ScopeStack.resolveFunction at h
  obtain ⟨found, hd, h⟩ := ok_of_bind h
  split at h <;> cases h
  exact fits.resolve hd

/-- What a call resolves to is a function of the module with as many parameters. -/
theorem resolveCall_ok {args : Nat} {f : FunctionId} {params : List Decaf.Ty}
    (h : scopes.resolveCall name args line = .ok (f, params)) :
    ∃ F ret, m.function? f = some F ∧ F.ret = Decaf.Ty.repr ret ∧
      F.params.map (·.ty) = params.map Decaf.Ty.repr ∧ params.length = args ∧
      scopes.context.find? name = some (.function ret params) := by
  unfold ScopeStack.resolveCall at h
  obtain ⟨d, hd, h⟩ := ok_of_bind h
  obtain ⟨fit, entity⟩ := fits.resolveFunction hd
  split at h
  · rename_i handle
    simp only [Descriptor.Fits, handle] at fit
    obtain ⟨-, F, hF, ret, types⟩ := fit
    split at h <;> cases h
    rename_i arity
    refine ⟨F, d.ty, hF, ret, by simpa [List.map_map, Function.comp_def] using types, ?_, ?_⟩
    · simpa using arity
    · rw [entity, Descriptor.entity, handle]
  · cases h

theorem resolveCall_error {args : Nat} {e : CompileError}
    (h : scopes.resolveCall name args line = .error e) :
    e.Acceptable ∧ ∀ ret params, scopes.context.find? name = some (.function ret params) →
      params.length ≠ args := by
  unfold ScopeStack.resolveCall at h
  rcases error_of_bind h with hd | ⟨d, hd, h⟩
  · unfold ScopeStack.resolveFunction at hd
    rcases error_of_bind hd with hr | ⟨d, hr, hd⟩
    · obtain ⟨acceptable, missing⟩ := resolve_error hr
      exact ⟨acceptable, by simp [missing]⟩
    · obtain ⟨fit, entity⟩ := fits.resolve hr
      split at hd <;> cases hd
      rename_i storage
      refine ⟨trivial, fun ret params same => ?_⟩
      simp only [entity, Descriptor.entity, Option.some.injEq] at same
      split at same <;> cases same
      rename_i handle
      simp only [Descriptor.Fits, handle] at fit
      rw [fit.1] at storage
      cases storage
  · obtain ⟨-, entity⟩ := fits.resolveFunction hd
    split at h
    · rename_i handle
      split at h <;> cases h
      rename_i arity
      refine ⟨trivial, fun ret params same => ?_⟩
      rw [entity, Descriptor.entity, handle] at same
      cases same
      simpa using arity
    · rename_i other
      cases h
      refine ⟨trivial, fun ret params same => ?_⟩
      simp only [entity, Descriptor.entity, Option.some.injEq] at same
      split at same <;> cases same
      exact absurd ‹_› (other _ _)

end ScopeStack.Fits

end Decaf
