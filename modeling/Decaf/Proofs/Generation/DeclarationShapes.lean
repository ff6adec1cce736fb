import Decaf.Proofs.Generation.Methods
import Decaf.Proofs.Generation.StatementShapes

/-!
# Shapes of declarations

A declaration reserves a slot, stores the first value there and binds the name to the slot.
-/

namespace Decaf

open IR

theorem Shape.Stays.trans {a b c : Place} (h : Shape.Stays a b) (k : Shape.Stays b c) :
    Shape.Stays a c :=
  ⟨k.block.trans h.block, k.before.trans h.before, Nat.le_trans h.values k.values⟩

theorem Shape.Constant.after {M : Module} {c : Const} {v : ValueId} {a b z : Place}
    (h : Shape.Stays a b) (k : Shape.Constant M c b v z) : Shape.Constant M c a v z :=
  ⟨h.trans k.toStays, k.value, k.held⟩

/-- Declarations one after the other. -/
theorem Shape.declareLocals_cons {M : Module} {entry : BlockId} {var : VarDecl}
    {vars : List VarDecl} {scopes scopes₁ scopes₂ : ScopeStack} {a b z : Place}
    (first : Shape.declareLocals M entry [var] scopes a scopes₁ b)
    (rest : Shape.declareLocals M entry vars scopes₁ b scopes₂ z) :
    Shape.declareLocals M entry (var :: vars) scopes a scopes₂ z := by
  obtain ⟨_ | name, ty, line⟩ := var
  · obtain ⟨rfl, rfl⟩ := first
    exact rest
  · obtain ⟨slot, c, zero, d, e, value, constant, declares, rfl, rfl⟩ := first
    exact ⟨slot, c, zero, d, _, value, constant, declares, rest⟩

theorem Shape.bindParams_cons {M : Module} {entry : BlockId} {params : List Param}
    {index : Nat} {param : VarDecl} {decls : List VarDecl} {scopes scopes₁ scopes₂ : ScopeStack}
    {a b z : Place} (first : Shape.bindParams M entry params index [param] scopes a scopes₁ b)
    (rest : Shape.bindParams M entry params (index + 1) decls scopes₁ b scopes₂ z) :
    Shape.bindParams M entry params index (param :: decls) scopes a scopes₂ z := by
  obtain ⟨_ | name, ty, line⟩ := param
  · obtain ⟨rfl, rfl⟩ := first
    exact rest
  · obtain ⟨slot, q, d, e, found, stays, declares, rfl, rfl⟩ := first
    exact ⟨slot, q, d, _, found, stays, declares, rest⟩

namespace IR.Module

/-- The address of a slot or of a scalar global is a value of the module. -/
theorem IsSlot.index_lt {m : Module} {p : Plan} {a : ValueId} {ty : Ty} {typed : Prop}
    (body : m.Body typed p) (h : m.IsSlot p a ty) : a.index < m.values.size := by
  rcases h with slot | ⟨c, -, g, name, G, value, -⟩
  · obtain ⟨-, name, value⟩ := body.slots _ slot
    exact (Array.getElem?_eq_some_iff.1 value).1
  · exact (Array.getElem?_eq_some_iff.1 value).1

end IR.Module

namespace Gen

section

variable {mc : MethodContext} {p : Plan} {s : GenState Builder} {b : BlockId}
  {E : CompileError → Prop}

theorem declareLocals_cons (var : VarDecl) (vars : List VarDecl) :
    (declareLocals (var :: vars) : Gen Builder Unit) =
      declareLocals [var] >>= fun _ => declareLocals vars := by
  obtain ⟨_ | name, ty, line⟩ := var <;> simp [declareLocals]

/-- No variable in scope has the slot that is reserved next. -/
theorem Site.fresh (site : Site False p s b) {slot : ValueId}
    (new : slot.index = s.target.module.values.size) :
    ∀ x ∈ s.scopes.inner.flatten, x.2.handle ≠ .slot slot := by
  intro x mem same
  obtain ⟨bindings, inner, mem⟩ := List.mem_flatten.1 mem
  have fits := site.scopes bindings (List.mem_append_left _ inner) x mem
  rw [Descriptor.Fits, same] at fits
  have := fits.2.index_lt site.body
  omega

/-- A slot is reserved without any code. -/
theorem ends_emit_alloca_shape (site : Site False p s b)
    (isOpen : s.target.module.terminator? b = none) (ty : IR.Ty) (hint : String) :
    Ends (emit (.alloca ty hint)) s (fun slot s' => slot.index = s.target.module.values.size ∧
      s'.target.StandsAt b p.function ∧ s'.scopes = s.scopes ∧
      (∀ f q, s.target.parameter? f q = s'.target.parameter? f q) ∧
      ∀ M, s'.target.module.Settles p.function b M → s.target.module.Settles p.function b M ∧
        (slot, ty) ∈ M.slotsOf p.entry ∧ Shape.Stays (s.place b) (s'.place b)) E := by
  apply ends_emit
  obtain ⟨F, hF, -, entry, -⟩ := site.body.declared
  have owned := site.body.entry_owned
  have at_ := site.stands isOpen
  obtain ⟨id, here, e, value⟩ := at_.alloca hF entry owned (site.body.order _ owned) ty hint
  have reserved : ((s.target.alloca ty hint).1, ty) ∈
      (s.target.alloca ty hint).2.module.slotsOf p.entry := by
    rw [id, e.slots, if_pos rfl]
    simp
  have code : (s.target.alloca ty hint).2.module.codeOf b = s.target.module.codeOf b := by
    rw [e.code]
    simp
  refine ⟨congrArg (·.index) id, ⟨here, (e.owners b).trans at_.owned, ?_⟩, rfl, fun f q => ?_,
    fun M h => ⟨h.edit e (by simp) (by simp), h.ext.mem_slotsOf reserved,
      ⟨rfl, code, e.ext.size_le⟩⟩⟩
  · exact (e.terms b).trans (by simp [at_.isOpen])
  · show s.target.parameter? f q = (s.target.alloca ty hint).2.parameter? f q
    simp only [Builder.parameter?, Module.function?, e.functions]

/-- The first value of a variable is stored, and the name bound. -/
theorem ends_store_bindName {f : FunctionId} (at_ : s.target.StandsAt b f) (v slot : ValueId)
    (name : String) (d : Descriptor) {g : Gen Builder Unit}
    {R : Unit → GenState Builder → Prop}
    (next : ∀ s', s'.scopes = s.scopes.add name d →
      (∀ M, s'.target.module.Settles f b M → s.target.module.Settles f b M ∧
        Shape.Does M (s.place b) (.store v slot) (s'.place b)) →
      Ends g s' R fun _ => True) :
    Ends (do
      emit (.store v slot)
      bindName name d
      g) s R fun _ => True := by
  refine ends_bind (puts_store at_ v slot) ?_
  intro _ s₁ puts
  refine ends_bind (P := fun _ s₂ => s₂ = { s₁ with scopes := s₁.scopes.add name d })
    (ends_bindName (fun _ => rfl) fun _ _ => trivial) ?_
  rintro _ _ rfl
  refine next _ ?_ fun M h => ⟨puts.settles M h, puts.does h⟩
  show s₁.scopes.add name d = s.scopes.add name d
  rw [puts.scopes]

theorem ends_declareLocal_shape (site : Site False p s b)
    (isOpen : s.target.module.terminator? b = none) (var : VarDecl) :
    Ends (declareLocals [var]) s (fun _ s' => ∀ M, s'.target.module.Settles p.function b M →
      Shape.declareLocals M p.entry [var] s.scopes (s.place b) s'.scopes (s'.place b))
      fun _ => True := by
  obtain ⟨_ | name, ty, line⟩ := var
  · exact ends_pure fun M h => ⟨rfl, rfl⟩
  rw [declareLocals]
  refine ends_bind (ends_emit_alloca_shape site isOpen ty.repr name) ?_
  rintro slot s₁ ⟨new, at₁, scopes₁, -, reserved⟩
  rw [zeroValue]
  cases value : Const.zero? ty.repr with
  | none => exact ends_bind (P := fun _ _ => False) (ends_throw trivial) fun _ _ => False.elim
  | some c =>
    refine ends_bind (ends_emit_constant at₁ c) ?_
    rintro zero s₂ ⟨at₂, scopes₂, -, constant⟩
    refine ends_store_bindName at₂ zero slot name _ ?_
    intro s₃ scopes₃ stores
    refine ends_pure fun M h => ?_
    obtain ⟨h₂, store⟩ := stores M h
    obtain ⟨h₁, isConstant⟩ := constant M h₂
    obtain ⟨-, reserves, stays⟩ := reserved M h₁
    rw [scopes₃, scopes₂, scopes₁]
    exact ⟨slot, c, zero, _, _, value, isConstant.after stays,
      ⟨rfl, reserves, Site.fresh site new, store⟩, rfl, rfl⟩

theorem ends_declareLocals_shape : ∀ (vars : List VarDecl) {s : GenState Builder},
    Site False p s b → s.target.module.terminator? b = none → s.scopes.inner ≠ [] →
    Ends (declareLocals vars) s (fun _ s' => Declares False p s b s' ∧
      ∀ M, s'.target.module.Settles p.function b M →
        Shape.declareLocals M p.entry vars s.scopes (s.place b) s'.scopes (s'.place b))
      fun _ => True
  | [], s, site, isOpen, inner => ends_pure ⟨.refl site isOpen inner, fun _ _ => ⟨rfl, rfl⟩⟩
  | var :: vars, s, site, isOpen, inner => by
    rw [declareLocals_cons]
    refine ends_bind ((ends_declareLocals [var] (Γ := []) site isOpen inner False.elim).and
      (ends_declareLocal_shape site isOpen var)).lax ?_
    rintro _ s₁ ⟨⟨d₁, -⟩, shape₁⟩
    refine (ends_declareLocals_shape vars d₁.site d₁.advances.isOpen d₁.inner).imp ?_
    rintro _ s₂ ⟨d₂, shape₂⟩
    refine ⟨d₁.next d₂, fun M h => Shape.declareLocals_cons (shape₁ M ?_) (shape₂ M h)⟩
    exact d₂.advances.reached.settles d₁.advances.isOpen rfl h

theorem ends_bindParam_declares (site : Site False p s p.entry)
    (isOpen : s.target.module.terminator? p.entry = none) (inner : s.scopes.inner ≠ [])
    (serves : mc.Serves p) {index : Nat} {param : VarDecl} {decls : List VarDecl}
    (types : s.target.module.Matches p.function index (param :: decls)) :
    Ends (bindParams mc index [param]) s (fun _ s' => Declares False p s p.entry s')
      fun _ => True := by
  obtain ⟨⟨F, q, hF, hq, fits⟩, -⟩ := types.cons
  obtain ⟨_ | name, ty, line⟩ := param
  · exact ends_pure (.refl site isOpen inner)
  · exact ((ends_bindParam (Γ := []) site isOpen inner serves hF hq fits False.elim).imp
      fun _ _ h => h.1).lax

theorem ends_bindParam_shape (site : Site False p s p.entry)
    (isOpen : s.target.module.terminator? p.entry = none) (serves : mc.Serves p) {index : Nat}
    {param : VarDecl} {decls : List VarDecl} {F : Function}
    (declared : s.target.module.function? p.function = some F)
    (types : s.target.module.Matches p.function index (param :: decls)) :
    Ends (bindParams mc index [param]) s (fun _ s' => ∀ M,
      s'.target.module.Settles p.function p.entry M →
        Shape.bindParams M p.entry F.params index [param] s.scopes (s.place p.entry) s'.scopes
          (s'.place p.entry)) fun _ => True := by
  obtain ⟨_ | name, ty, line⟩ := param
  · exact ends_pure fun M h => ⟨rfl, rfl⟩
  obtain ⟨⟨G, q, hG, hq, -⟩, -⟩ := types.cons
  obtain rfl : F = G := Option.some.inj (declared.symm.trans hG)
  obtain ⟨found, -⟩ := Site.parameter site hG hq
  rw [bindParams]
  refine ends_bind (ends_emit_alloca_shape site isOpen ty.repr (name ++ ".addr")) ?_
  rintro slot s₁ ⟨new, at₁, scopes₁, same, reserved⟩
  apply ends_parameter?
  have incoming : Target.parameter? s₁.target mc.function index = some q.value := by
    rw [← serves.function, ← found]
    exact (same p.function index).symm
  rw [incoming]
  refine ends_store_bindName at₁ q.value slot name _ ?_
  intro s₂ scopes₂ stores
  refine ends_pure fun M h => ?_
  obtain ⟨h₁, store⟩ := stores M h
  obtain ⟨-, reserves, stays⟩ := reserved M h₁
  rw [scopes₂, scopes₁]
  exact ⟨slot, q, _, _, hq, stays, ⟨rfl, reserves, Site.fresh site new, store⟩, rfl, rfl⟩

theorem ends_bindParams_shape : ∀ (decls : List VarDecl) {index : Nat} {s : GenState Builder}
    {F : Function}, Site False p s p.entry → s.target.module.terminator? p.entry = none →
    s.scopes.inner ≠ [] → mc.Serves p → s.target.module.function? p.function = some F →
    s.target.module.Matches p.function index decls →
    Ends (bindParams mc index decls) s (fun _ s' => Declares False p s p.entry s' ∧
      ∀ M, s'.target.module.Settles p.function p.entry M →
        Shape.bindParams M p.entry F.params index decls s.scopes (s.place p.entry) s'.scopes
          (s'.place p.entry)) fun _ => True
  | [], index, s, F, site, isOpen, inner, _, _, _ =>
    ends_pure ⟨.refl site isOpen inner, fun _ _ => ⟨rfl, rfl⟩⟩
  | param :: decls, index, s, F, site, isOpen, inner, serves, declared, types => by
    rw [bindParams_cons]
    refine ends_bind ((ends_bindParam_declares site isOpen inner serves types).and
      (ends_bindParam_shape site isOpen serves declared types)).lax ?_
    rintro _ s₁ ⟨d₁, shape₁⟩
    have ext := d₁.advances.reached.grown.ext
    obtain ⟨F₁, hF₁, -, -, params⟩ := ext.functions _ F declared
    refine (ends_bindParams_shape decls d₁.site d₁.advances.isOpen d₁.inner serves hF₁
      (types.mono ext).cons.2).imp ?_
    rintro _ s₂ ⟨d₂, shape₂⟩
    rw [params] at shape₂
    refine ⟨d₁.next d₂, fun M h => Shape.bindParams_cons (shape₁ M ?_) (shape₂ M h)⟩
    exact d₂.advances.reached.settles d₁.advances.isOpen rfl h

end

end Gen

end Decaf
