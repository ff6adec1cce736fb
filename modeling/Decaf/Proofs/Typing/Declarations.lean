import Decaf.Proofs.Typing.Rules

/-!
# Declarations of well-typed programs

The declarations of a well-typed program have distinct names, and each is valid by itself.
-/

namespace Decaf

namespace Context

/-- The names of the innermost scope, the latest first. -/
def names (Γ : Context) : List String :=
  (Γ.headD []).map Prod.fst

/-- The second context has further names in its innermost scope, all distinct. -/
structure Adds (Γ Γ' : Context) (names : List String) : Prop where
  names : Γ'.names = names.reverse ++ Γ.names
  nodup : Γ.names.Nodup → Γ'.names.Nodup

variable {Γ Γ₁ Γ' : Context} {names : List String}

theorem Adds.refl (Γ : Context) : Γ.Adds Γ [] :=
  ⟨rfl, id⟩

theorem Adds.cons {name : String} {e : Entity} (first : Γ.add? name e = some Γ₁)
    (rest : Γ₁.Adds Γ' names) : Γ.Adds Γ' (name :: names) := by
  cases Γ with
  | nil => cases first
  | cons frame outer =>
    rw [add?] at first
    split at first
    · cases first
    · rename_i free
      cases first
      refine ⟨by rw [rest.names, List.reverse_cons, List.append_assoc]; rfl, fun nodup => ?_⟩
      refine rest.nodup (List.nodup_cons.2 ⟨fun taken => free ?_, nodup⟩)
      obtain ⟨x, hx, same⟩ := List.mem_map.1 taken
      exact List.lookup_isSome_iff.2 ⟨x, hx, by simp [same]⟩

theorem adds_declareExterns : ∀ (es : List ExternDecl) {Γ : Context},
    Γ.declareExterns? es = some Γ' → Γ.Adds Γ' (es.map (·.name))
  | [], Γ, h => by
    cases h
    exact .refl _
  | e :: es, Γ, h => by
    rw [declareExterns?] at h
    split at h
    · obtain ⟨Γ₁, first, rest⟩ := Option.bind_eq_some_iff.1 h
      exact .cons first (adds_declareExterns es rest)
    · cases h

theorem adds_declareFields : ∀ (fs : List FieldDecl) {Γ : Context},
    Γ.declareFields? fs = some Γ' → Γ.Adds Γ' (fs.map (·.name)) ∧ ∀ f ∈ fs, f.valid = true
  | [], Γ, h => by
    cases h
    exact ⟨.refl _, fun _ h => by cases h⟩
  | f :: fs, Γ, h => by
    rw [declareFields?] at h
    split at h
    · rename_i valid
      obtain ⟨Γ₁, first, rest⟩ := Option.bind_eq_some_iff.1 h
      obtain ⟨adds, others⟩ := adds_declareFields fs rest
      exact ⟨.cons first adds, List.forall_mem_cons.2 ⟨valid, others⟩⟩
    · cases h

theorem adds_declareMethods : ∀ (ds : List Method) {Γ : Context},
    Γ.declareMethods? ds = some Γ' → Γ.Adds Γ' (ds.map (·.name))
  | [], Γ, h => by
    cases h
    exact .refl _
  | d :: ds, Γ, h => by
    rw [declareMethods?] at h
    obtain ⟨Γ₁, first, rest⟩ := Option.bind_eq_some_iff.1 h
    exact .cons first (adds_declareMethods ds rest)

end Context

/-- Fields are valid, and no two declarations have the same name. -/
theorem Package.declared_of_context? {es : List ExternDecl} {p : Package} {Γ : Context}
    (h : p.context? es = some Γ) :
    (∀ f ∈ p.fields, f.valid = true) ∧
      (es.map (·.name) ++ p.fields.map (·.name) ++ p.methods.map (·.name)).Nodup := by
  obtain ⟨Γ₁, first, h⟩ := Option.bind_eq_some_iff.1 h
  obtain ⟨Γ₂, second, third⟩ := Option.bind_eq_some_iff.1 h
  have externs := Context.adds_declareExterns es first
  obtain ⟨fields, valid⟩ := Context.adds_declareFields p.fields second
  have methods := Context.adds_declareMethods p.methods third
  refine ⟨valid, ?_⟩
  have nodup := methods.nodup (fields.nodup (externs.nodup .nil))
  rw [methods.names, fields.names, externs.names] at nodup
  have start : Context.names [[]] = [] := rfl
  rw [start, List.append_nil, ← List.reverse_append, ← List.reverse_append] at nodup
  exact (List.reverse_perm _).nodup_iff.1 nodup

/-- What a well-typed program consists of. -/
theorem Program.wellTyped_iff {P : Program} : P.wellTyped = true ↔
    ∃ p Γ, P.package = some p ∧ p.context? P.externs = some Γ ∧
      ∀ d ∈ p.methods, d.wellTyped Γ = true := by
  rw [Program.wellTyped]
  cases P.package with
  | none => simp
  | some p =>
    cases hΓ : p.context? P.externs with
    | none => simp [hΓ]
    | some Γ => simp [hΓ]

end Decaf
