import Decaf.Proofs.Generation.Resolution
import Decaf.Proofs.Meaning.Activation

/-!
# Names in scope

What a name stands for in the generated code and in the evaluation: the same variable, field,
array, extern or method. Where a scalar is in memory, what is read there and what assigning to
it means is said once for variables and fields.
-/

namespace Decaf

open IR

namespace ScopeStack

variable {scopes : ScopeStack} {name : String} {line : Nat}

theorem lookup_of_resolve {d : Descriptor} (h : scopes.resolve name line = .ok d) :
    scopes.lookup name = some d := by
  rw [resolve] at h
  split at h
  · rename_i found
    rw [found, Except.ok.inj h]
  · cases h

theorem lookup_of_resolveStorage {d : Descriptor} (h : scopes.resolveStorage name line = .ok d) :
    scopes.lookup name = some d ∧ d.kind.isVariable = true := by
  obtain ⟨d', resolved, h⟩ := ok_of_bind h
  split at h
  · rename_i isVariable
    cases h
    exact ⟨lookup_of_resolve resolved, isVariable⟩
  · cases h

theorem lookup_of_resolveScalar {ty : Decaf.Ty} {a : ValueId}
    (h : scopes.resolveScalar name line = .ok (ty, a)) :
    ∃ d, scopes.lookup name = some d ∧ d.kind.isVariable = true ∧ d.ty = ty ∧
      d.handle = .slot a := by
  obtain ⟨d, resolved, h⟩ := ok_of_bind h
  obtain ⟨found, isVariable⟩ := lookup_of_resolveStorage resolved
  split at h
  · rename_i handle
    cases h
    exact ⟨d, found, isVariable, rfl, handle⟩
  · cases h

theorem lookup_of_resolveArray {ty : Decaf.Ty} {base : ValueId}
    (h : scopes.resolveArray name line = .ok (ty, base)) :
    ∃ d length, scopes.lookup name = some d ∧ d.kind.isVariable = true ∧ d.ty = ty ∧
      d.handle = .array base length := by
  obtain ⟨d, resolved, h⟩ := ok_of_bind h
  obtain ⟨found, isVariable⟩ := lookup_of_resolveStorage resolved
  split at h
  · rename_i length handle
    cases h
    exact ⟨d, length, found, isVariable, rfl, handle⟩
  · cases h

theorem lookup_of_resolveCall {args : Nat} {f : FunctionId} {tys : List Decaf.Ty}
    (h : scopes.resolveCall name args line = .ok (f, tys)) :
    ∃ d params, scopes.lookup name = some d ∧ d.kind.isVariable = false ∧
      d.handle = .function f params ∧ params.length = args ∧ tys = params.map (·.2) := by
  obtain ⟨d, resolved, h⟩ := ok_of_bind h
  obtain ⟨d', found, isFunction⟩ := ok_of_bind resolved
  split at isFunction
  · cases isFunction
  · rename_i notVariable
    cases isFunction
    split at h
    · rename_i params handle
      split at h
      · rename_i arity
        cases h
        exact ⟨d, params, lookup_of_resolve found, by simpa using notVariable, handle, arity, rfl⟩
      · cases h
    · cases h

/-- Names are looked up in the inner scopes first. -/
theorem lookup_eq (scopes : ScopeStack) (name : String) :
    scopes.lookup name = (scopes.inner.flatten.lookup name).or (scopes.package.lookup name) := by
  obtain ⟨package, inner⟩ := scopes
  simp only [lookup, ScopeStack.scopes]
  induction inner with
  | nil => simp
  | cons bindings inner ih =>
    rw [List.cons_append, List.findSome?_cons, List.flatten_cons, List.lookup_append, Option.or_assoc,
      ← ih]
    cases bindings.lookup name <;> rfl

end ScopeStack

/-- Where the function is in the module of the program. -/
def Meaning.Eval.Callee.At (S : Meaning.Source) (f : FunctionId) : Meaning.Eval.Callee → Prop
  | .foreign e => ∃ i : Nat, S.externs[i]? = some e ∧ f = ⟨i⟩
  | .method d => ∃ i : Nat, S.package.methods[i]? = some d ∧ f = ⟨S.externs.length + i⟩

namespace Meaning.Activation.Stands

open Execution

variable {X : Setting} {A : Activation X} {scopes : ScopeStack} {locals : Locals} {s : Situation}
  {a : Place} {c : Config (List HostCall)} {name : String} {line : Nat}

/-- A name stands for a variable or for a member of the program. -/
theorem named (h : A.Stands scopes locals s a c) {d : Descriptor}
    (found : scopes.lookup name = some d) : scopes.inner.flatten.lookup name = some d ∨
      locals.lookup name = none ∧ ∃ x, X.source.member? name = some x ∧ x.name = name ∧
        Denotes X.source X.module d x := by
  rw [ScopeStack.lookup_eq, h.package] at found
  cases inner : scopes.inner.flatten.lookup name with
  | some d' =>
    rw [inner] at found
    exact .inl found
  | none =>
    rw [inner] at found
    exact .inr ⟨lookup_eq_none_of_binds h.locals inner, X.linked.denotes name d found⟩

/-- A scalar in memory: where it is, what it holds, and what assigning to it means. -/
structure Scalar (A : Activation X) (scopes : ScopeStack) (locals : Locals) (s : Situation)
    (c : Config (List HostCall)) (name : String) (ty : Decaf.Ty) (address : ValueId) (region : Nat)
    (d : Datum) (v : Value) : Prop where
  address : operand X.module c.frame.values address = .ok (.pointer (.start region))
  apart : region < X.module.globals.size ∨ A.mark ≤ region
  cell : c.world.memory.regions[region]? = some #[v]
  represents : Represents X.module d v
  read : (Eval.readScalar X.source locals name).run.run s = (Eval.expect ty d).run.run s
  type : Eval.scalarTy X.source locals name = pure ty
  write : ∀ e v', Represents X.module e v' → ∃ locals' s',
    (Eval.writeScalar X.source locals name e).run.run s = (.ok locals', s') ∧
    X.Holds s' { c.world with memory := c.world.memory.set ⟨region, 0⟩ v' } ∧
    List.Forall₂ (Binds X.module A.plan.entry A.mark (c.world.memory.set ⟨region, 0⟩ v'))
      scopes.inner.flatten locals'

theorem scalar_of_local (h : A.Stands scopes locals s a c) {d : Descriptor}
    (found : scopes.inner.flatten.lookup name = some d) {address : ValueId}
    (handle : d.handle = .slot address) :
    ∃ region e v, Scalar A scopes locals s c name d.ty address region e v := by
  obtain ⟨y, slot, i, v, at_, ty, -, handle', there, cell, represents, assigned⟩ :=
    variable_of_binds h.locals h.distinct found
  rw [handle] at handle'
  cases handle'
  refine ⟨A.mark + i, y.value, v, h.operand_slot there, .inr (Nat.le_add_right ..), cell,
    represents, ?_, ?_, fun e v' value => ?_⟩
  · simp only [Eval.readScalar, at_, ty]
  · simp only [Eval.scalarTy, at_, ty]
  · refine ⟨locals.assign name e, s, ?_, ?_, assigned e v' value⟩
    · simp only [Eval.writeScalar, at_]
      rfl
    · refine h.holds.congr X.linked (fun r below => ?_) rfl
      have := A.above
      exact regions_set_of_ne (c := ⟨A.mark + i, 0⟩) (show r ≠ A.mark + i by omega)

theorem scalar_of_field (h : A.Stands scopes locals s a c) (free : locals.lookup name = none)
    {f : FieldDecl} (member : X.source.member? name = some (.field f)) (size : f.size = .scalar)
    {i : Nat} (hf : X.source.package.fields[i]? = some f) {address : ValueId}
    {label : Option String} (value : X.module.value? address = some ⟨.ptr, .global ⟨i⟩, label⟩) :
    ∃ e v, Scalar A scopes locals s c name f.ty address i e v := by
  obtain ⟨cells, there, length, each⟩ := h.holds.fields.elements i f hf
  have one : cells.size = 1 := by
    rw [length, FieldDecl.kind, size]
    rfl
  obtain ⟨v, rfl⟩ := Array.size_eq_one_iff.1 one
  refine ⟨s.fields f.name 0, v, operand_global value, .inl (X.linked.field_lt hf), there,
    each 0 v rfl, ?_, ?_, fun e v' represents => ?_⟩
  · simp only [Eval.readScalar, free, member, size]
    rfl
  · simp only [Eval.scalarTy, free, member, size]
  · refine ⟨locals,
      { s with fields := fun name j => if name = f.name ∧ j = 0 then e else s.fields name j },
      ?_, ⟨h.holds.fields.write X.linked hf represents, h.holds.requests⟩, ?_⟩
    · simp only [Eval.writeScalar, free, member]
      rfl
    · refine h.locals.imp fun x y binds => binds.congr fun r above => ?_
      have := A.above
      have := X.linked.field_lt hf
      exact regions_set_of_ne (c := ⟨i, 0⟩) (show r ≠ i by omega)

/-- What a name stands for that resolves to a scalar. -/
theorem scalar (h : A.Stands scopes locals s a c) {ty : Decaf.Ty} {address : ValueId}
    (resolved : scopes.resolveScalar name line = .ok (ty, address)) :
    ∃ region e v, Scalar A scopes locals s c name ty address region e v := by
  obtain ⟨d, found, isVariable, rfl, handle⟩ := ScopeStack.lookup_of_resolveScalar resolved
  rcases h.named found with inner | ⟨free, x, member, -, denotes⟩
  · exact h.scalar_of_local inner handle
  · cases x with
    | foreign e =>
      obtain ⟨i, -, rfl⟩ := denotes
      cases handle
    | method e =>
      obtain ⟨i, -, rfl⟩ := denotes
      cases handle
    | field f =>
      obtain ⟨i, base, label, hf, value, rfl⟩ := denotes
      cases size : f.size with
      | array length =>
        rw [size] at handle
        cases handle
      | scalar =>
        rw [size] at handle
        cases handle
        exact ⟨i, h.scalar_of_field free member size hf value⟩

/-- What a name stands for that resolves to an array. -/
theorem array (h : A.Stands scopes locals s a c) {ty : Decaf.Ty} {base : ValueId}
    (resolved : scopes.resolveArray name line = .ok (ty, base)) :
    ∃ i f length label, Eval.array X.source locals name = pure (f, length) ∧ f.ty = ty ∧
      f.size = .array length ∧ X.source.package.fields[i]? = some f ∧
      X.module.value? base = some ⟨.ptr, .global ⟨i⟩, label⟩ := by
  obtain ⟨d, length, found, isVariable, rfl, handle⟩ := ScopeStack.lookup_of_resolveArray resolved
  rcases h.named found with inner | ⟨free, x, member, -, denotes⟩
  · obtain ⟨y, slot, i, v, -, -, -, handle', -⟩ := variable_of_binds h.locals h.distinct inner
    rw [handle] at handle'
    cases handle'
  · cases x with
    | foreign e =>
      obtain ⟨i, -, rfl⟩ := denotes
      cases handle
    | method e =>
      obtain ⟨i, -, rfl⟩ := denotes
      cases handle
    | field f =>
      obtain ⟨i, base, label, hf, value, rfl⟩ := denotes
      cases size : f.size with
      | scalar =>
        rw [size] at handle
        cases handle
      | array length =>
        rw [size] at handle
        cases handle
        refine ⟨i, f, length, label, ?_, rfl, size, hf, value⟩
        simp only [Eval.array, free, member, size]

/-- What a name stands for that resolves to a function. -/
theorem callee (h : A.Stands scopes locals s a c) {args : Nat} {f : FunctionId}
    {tys : List Decaf.Ty} (resolved : scopes.resolveCall name args line = .ok (f, tys)) :
    ∃ callee : Eval.Callee, Eval.callee X.source locals name args = pure callee ∧
      callee.params = tys ∧ callee.At X.source f := by
  obtain ⟨d, params, found, isFunction, handle, arity, rfl⟩ :=
    ScopeStack.lookup_of_resolveCall resolved
  rcases h.named found with inner | ⟨free, x, member, -, denotes⟩
  · obtain ⟨y, slot, i, v, -, -, -, handle', -⟩ := variable_of_binds h.locals h.distinct inner
    rw [handle] at handle'
    cases handle'
  · cases x with
    | field f =>
      obtain ⟨i, base, label, hf, value, rfl⟩ := denotes
      cases size : f.size with
      | scalar =>
        rw [size] at handle
        cases handle
      | array length =>
        rw [size] at handle
        cases handle
    | foreign e =>
      obtain ⟨i, he, rfl⟩ := denotes
      cases handle
      rw [List.length_map] at arity
      refine ⟨.foreign e, ?_, ?_, i, he, rfl⟩
      · simp only [Eval.callee, free, member, arity, if_true]
      · simp [Eval.Callee.params]
    | method e =>
      obtain ⟨i, he, rfl⟩ := denotes
      cases handle
      rw [List.length_map] at arity
      refine ⟨.method e, ?_, ?_, i, he, rfl⟩
      · simp only [Eval.callee, free, member, arity, if_true]
      · simp [Eval.Callee.params]

end Meaning.Activation.Stands

end Decaf
