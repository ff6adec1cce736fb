import Decaf.Proofs.Generation.ControlFlow
import Decaf.Proofs.Generation.Separation

/-!
# Generating methods

The body of a method is built in an entry block that begins empty. When it is done every
block of the function has its terminator, and no other function has changed.
-/

namespace Decaf

open IR

def Method.signature (d : Method) : Signature :=
  ⟨d.name, d.ret.repr, d.params.map (·.ty.repr)⟩

/-- The parameters of the function have the types of the declarations from `index` on. -/
def IR.Module.Matches (m : Module) (f : FunctionId) (index : Nat) (decls : List VarDecl) : Prop :=
  ∃ F, m.function? f = some F ∧ (F.params.drop index).map (·.ty) = decls.map (·.ty.repr)

theorem IR.Module.Matches.mono {m m' : Module} {f : FunctionId} {index : Nat}
    {decls : List VarDecl} (ext : m.Extends m') (h : m.Matches f index decls) :
    m'.Matches f index decls := by
  obtain ⟨F, hF, types⟩ := h
  obtain ⟨F', hF', -, -, params⟩ := ext.functions f F hF
  exact ⟨F', hF', by rw [params, types]⟩

/-- The first of the remaining parameters, and the ones after it. -/
theorem IR.Module.Matches.cons {m : Module} {f : FunctionId} {index : Nat} {d : VarDecl}
    {decls : List VarDecl} (h : m.Matches f index (d :: decls)) :
    (∃ F q, m.function? f = some F ∧ F.params[index]? = some q ∧ q.ty = d.ty.repr) ∧
      m.Matches f (index + 1) decls := by
  obtain ⟨F, hF, types⟩ := h
  cases hq : F.params[index]? with
  | none =>
    rw [List.drop_eq_nil_of_le (List.getElem?_eq_none_iff.1 hq)] at types
    cases types
  | some q =>
    obtain ⟨held, same⟩ := List.getElem?_eq_some_iff.1 hq
    rw [List.drop_eq_getElem_cons held, same, List.map_cons, List.map_cons] at types
    obtain ⟨first, rest⟩ := List.cons.inj types
    exact ⟨⟨F, q, hF, hq, first⟩, F, hF, rest⟩

theorem IR.Module.Bodiless.types {m : Module} {f : FunctionId} {d : Method}
    (bodiless : m.Bodiless f d.signature) : m.Matches f 0 d.params := by
  obtain ⟨F, hF, -, -, -, params, -⟩ := bodiless.function
  exact ⟨F, hF, params⟩

namespace Gen

section

variable {typed : Prop} {mc : MethodContext}

/-- A parameter can be used in the entry. -/
theorem Site.parameter {p : Plan} {s : GenState Builder} (site : Site typed p s p.entry)
    {F : Function} {index : Nat} {q : Param} (hF : s.target.module.function? p.function = some F)
    (hq : F.params[index]? = some q) :
    Target.parameter? s.target p.function index = some q.value ∧
      Operand typed s.target.module p p.entry q.ty q.value := by
  have mem : q ∈ F.params := List.mem_of_getElem? hq
  obtain ⟨G, hG, -, -, -, avail, params⟩ := site.body.declared
  rw [hF] at hG
  cases hG
  obtain ⟨i, name, value⟩ := params q mem
  refine ⟨?_, .inr ⟨?_, ?_⟩, fun _ => Module.typeOf_of_value? value⟩
  · show s.target.parameter? p.function index = some q.value
    simp [Builder.parameter?, hF, hq]
  · rw [Module.there, avail]
    exact List.mem_append_left _ (List.mem_map_of_mem mem)
  · simp [Module.owner?, value]

theorem bindParams_cons (index : Nat) (param : VarDecl) (decls : List VarDecl) :
    (bindParams mc index (param :: decls) : Gen Builder Unit) =
      bindParams mc index [param] >>= fun _ => bindParams mc (index + 1) decls := by
  obtain ⟨_ | name, ty, line⟩ := param
  · simp [bindParams]
  · simp only [bindParams, bind_assoc]
    refine bind_congr fun slot => bind_congr fun incoming => ?_
    cases incoming <;> simp

/-- A named parameter is copied to a slot of its own. -/
theorem ends_bindParam {name : String} {ty : Ty} {line index : Nat} {p : Plan}
    {s : GenState Builder} {Γ : Context} {F : Function} {q : Param} (site : Site typed p s p.entry)
    (isOpen : s.target.module.terminator? p.entry = none) (inner : s.scopes.inner ≠ [])
    (serves : mc.Serves p) (hF : s.target.module.function? p.function = some F)
    (hq : F.params[index]? = some q) (fits : q.ty = ty.repr)
    (type : typed → ty ≠ .void ∧ s.scopes.context.add? name (.variable ty) = some Γ) :
    Ends (bindParams mc index [⟨some name, ty, line⟩]) s (fun _ s' =>
      Declares typed p s p.entry s' ∧ (typed → s'.scopes.context = Γ)) (Refusal typed) := by
  rw [bindParams]
  refine ends_bind (ends_emit_alloca site isOpen ty.repr (name ++ ".addr")
    fun t => Ty.repr_ne_void (type t).1) ?_
  rintro slot s₁ ⟨a₁, isSlot⟩
  obtain ⟨F₁, hF₁, -, -, params⟩ := a₁.reached.grown.ext.functions _ F hF
  rw [← params] at hq
  obtain ⟨found, operand⟩ := Site.parameter a₁.reached.site hF₁ hq
  rw [fits] at operand
  apply ends_parameter?
  rw [← serves.function, found]
  refine ends_bind (ends_emit_store a₁.reached.site a₁.isOpen operand (.inl isSlot)) ?_
  rintro _ s₂ a₂
  refine ends_bind (ends_bindName_declares (d := .scalar .parameter ty slot line) (a₁.next a₂)
    inner ⟨rfl, isSlot.mono a₂.reached.grown.ext⟩ fun t => (type t).2) ?_
  exact fun _ s₃ declares => ends_pure declares

/-- Each named parameter is copied to a slot of its own. -/
theorem ends_bindParams : ∀ (decls : List VarDecl) {index : Nat} {p : Plan}
    {s : GenState Builder} {Γ : Context}, Site typed p s p.entry →
    s.target.module.terminator? p.entry = none → s.scopes.inner ≠ [] → mc.Serves p →
    s.target.module.Matches p.function index decls →
    (typed → s.scopes.context.declare? decls = some Γ) →
    Ends (bindParams mc index decls) s (fun _ s' => Declares typed p s p.entry s' ∧
      (typed → s'.scopes.context = Γ)) (Refusal typed)
  | [], index, p, s, Γ, site, isOpen, inner, _, _, type => by
    refine ends_pure ⟨.refl site isOpen inner, fun t => ?_⟩
    have : some s.scopes.context = some Γ := type t
    exact Option.some.inj this
  | ⟨none, ty, line⟩ :: decls, index, p, s, Γ, site, isOpen, inner, serves, types, type =>
    ends_bindParams decls site isOpen inner serves types.cons.2
      fun t => (declare?_cons (type t)).2
  | ⟨some name, ty, line⟩ :: decls, index, p, s, Γ, site, isOpen, inner, serves, types, type => by
    obtain ⟨Γ₁, parts⟩ := exists_of_typed Γ fun t => (declare?_cons (type t)).2
    obtain ⟨⟨F, q, hF, hq, fits⟩, rest⟩ := types.cons
    rw [bindParams_cons]
    refine ends_bind (ends_bindParam site isOpen inner serves hF hq fits
      fun t => ⟨(declare?_cons (type t)).1, (parts t).1⟩) ?_
    rintro _ s₁ ⟨d, context⟩
    refine (ends_bindParams decls d.site d.advances.isOpen d.inner serves
      (rest.mono d.advances.reached.grown.ext)
      fun t => by rw [context t]; exact (parts t).2).mono ?_ fun _ h => h
    rintro _ s₂ ⟨d', context'⟩
    exact ⟨d.next d', context'⟩

/-- Afterwards the block where the builder stands is closed. -/
theorem ends_finishBody {p : Plan} {s : GenState Builder} {b : BlockId} (site : Site typed p s b)
    (serves : mc.Serves p) (line : Nat)
    (lenient : typed → mc.options.missingReturn = .synthesize) :
    Ends (finishBody mc line) s (fun _ s' => ∃ p' b', Reached typed p s b p' s' b' [] ∧
      s'.target.module.terminator? b' ≠ none) (Refusal typed) := by
  rw [finishBody]
  apply ends_isTerminated
  rw [show Target.isTerminated s.target = _ from site.isTerminated]
  cases isOpen : s.target.module.terminator? b with
  | some t => exact ends_pure ⟨p, b, .refl site, by simp [isOpen]⟩
  | none =>
    show Ends (if mc.ret = .void then _ else _) _ _ _
    split
    · rename_i void
      exact ends_ret site isOpen (by rw [Module.TermOk, serves.ret, void]; rfl)
    · rename_i value
      exact ends_returnDefault site isOpen serves line value lenient

/-- What the typing rules say of a method. -/
theorem wellTyped_method {Γ : Context} {d : Method} (h : d.wellTyped Γ = true) :
    ∃ Γ₁ Γ₂, Context.declare? ([] :: Γ) d.params = some Γ₁ ∧
      Γ₁.declare? d.body.vars = some Γ₂ ∧ Stmt.allWellTyped d.ret Γ₂ d.body.stmts = true := by
  rw [Method.wellTyped] at h
  split at h
  · rename_i inner found
    obtain ⟨Γ₁, first, second⟩ := Option.bind_eq_some_iff.1 found
    exact ⟨Γ₁, inner, first, second, h⟩
  · cases h

theorem allJumpsInside_body (loop : Bool) (body : Block) :
    Stmt.allJumpsInside loop body.stmts = body.jumpsInside loop := by
  cases body
  rfl

theorem ends_methodBody {d : Method} {p : Plan} {s : GenState Builder}
    (site : Site typed p s p.entry) (isOpen : s.target.module.terminator? p.entry = none)
    (serves : mc.Serves p) (ret : mc.ret = d.ret)
    (types : s.target.module.Matches p.function 0 d.params)
    (lenient : typed → mc.options.missingReturn = .synthesize)
    (type : typed → d.wellTyped s.scopes.context = true)
    (inside : typed → d.body.jumpsInside false = true) :
    Ends (methodBody mc d) s (fun _ s' => ∃ p' b', Reached typed p s p.entry p' s' b' [] ∧
      s'.target.module.terminator? b' ≠ none) (Refusal typed) := by
  obtain ⟨Γ₁, parts⟩ := exists_of_typed [] fun t => wellTyped_method (type t)
  obtain ⟨Γ₂, parts⟩ := exists_of_typed [] parts
  rw [methodBody]
  apply ends_inScope
  refine ends_bind (ends_bindParams d.params (Γ := Γ₁)
    (Site.rescope site site.scopes.push) isOpen (by simp [ScopeStack.push]) serves types
    fun t => (parts t).1) ?_
  rintro _ s₁ ⟨d₁, context₁⟩
  refine ends_bind (ends_declareLocals d.body.vars (Γ := Γ₂) d₁.site d₁.advances.isOpen
    d₁.inner fun t => by rw [context₁ t]; exact (parts t).2.1) ?_
  rintro _ s₂ ⟨d₂, context₂⟩
  refine ends_bind (completesFrom_stmts lenient d.body.stmts s₂.scopes false
    (fun t => by rw [ret, context₂ t]; exact (parts t).2.2)
    (fun t => by rw [allJumpsInside_body]; exact inside t) p s₂ p.entry d₂.site serves rfl
    fun same => by cases same) ?_
  rintro _ s₃ ⟨p₃, b₃, r₃⟩
  refine (ends_finishBody r₃.site (serves.refines r₃.plan) d.line lenient).mono ?_ fun _ h => h
  rintro _ s₄ ⟨p₄, b₄, r₄, closed⟩
  exact ⟨p₄, b₄, reached_scoped site (d₁.next d₂) (r₃.next r₄), closed⟩

theorem ends_checkMethod {p : Plan} {s : GenState Builder}
    (finished : s.target.module.Finished typed p) (function : p.function = mc.function)
    (clean : ∀ i ∈ s.target.module.issues, i.1 ≠ some p.function) :
    Ends (checkMethod mc) s (fun _ s' => s' = s) (Refusal typed) := by
  have verdict := finished.check clean
  rw [function] at verdict
  apply ends_get
  have check : Target.checkFunction s.target mc.function =
      s.target.module.checkFunction mc.function := rfl
  rw [check]
  cases h : s.target.module.checkFunction mc.function with
  | ok _ => exact ends_pure rfl
  | error e =>
    rw [h] at verdict
    exact ends_throw verdict

/-- The state after the body of one method was built. -/
structure Defined (typed : Prop) (f : FunctionId) (s s' : GenState Builder) : Prop where
  outside : s.target.module.Outside s'.target.module f
  finished : ∃ p, p.function = f ∧ s'.target.module.Finished typed p
  scopes : s'.scopes = s.scopes
  loops : s'.loops = s.loops

/-- The entry of a method is appended, and the builder moves there. -/
theorem ends_enterBody (typed : Prop) {β : Type} {f : FunctionId} {sig : Signature}
    {s : GenState Builder} {k : Gen Builder β} {R : β → GenState Builder → Prop} {E : CompileError → Prop}
    (function : mc.function = f) (bodiless : s.target.module.Bodiless f sig)
    (scopes : ∀ p, s.scopes.Fits s.target.module p) (loops : s.loops = .empty)
    (next : ∀ p s', Site typed p s' p.entry → s'.target.module.terminator? p.entry = none →
      s'.target.module.codeOf p.entry = [] → p.function = f → p.ret = sig.ret →
      s.target.module.Append s'.target.module f p.entry → s'.scopes = s.scopes →
      s'.loops = s.loops → Ends k s' R E) :
    Ends (do
      let entry ← appendBlock mc "entry"
      emit (.positionAtEnd entry)
      k) s R E := by
  have appends : Ends (appendBlock mc "entry") s (fun b s₁ =>
      s.target.module.Append s₁.target.module f b ∧ s₁.scopes = s.scopes ∧ s₁.loops = s.loops)
      E := by
    apply ends_emit
    subst function
    exact ⟨(s.target.appendBlock_append mc.function "entry").1, rfl, rfl⟩
  refine ends_bind appends ?_
  rintro b s₁ ⟨a, sameScopes, sameLoops⟩
  obtain ⟨p, body, owner, ret, rfl⟩ := Module.Body.start typed bodiless a
  refine ends_bind (P := fun _ s₂ => s₂ = { s₁ with target.insertion := some p.entry })
    (ends_emit rfl) ?_
  rintro _ _ rfl
  refine next p _ ?_ ?_ a.codeOf_self owner ret a sameScopes sameLoops
  · exact {
      body := body
      here := rfl
      owned := owner ▸ a.functionOf?
      scopes := by
        show s₁.scopes.Fits s₁.target.module p
        rw [sameScopes]
        exact (scopes p).mono a.ext
      loops := by
        show ∀ c ∈ s₁.loops.blocks, _
        rw [sameLoops, loops]
        exact fun c hc => absurd hc (by simp [LoopStack.blocks, LoopStack.empty]) }
  · show s₁.target.module.terminator? p.entry = none
    exact a.terminator?_self

theorem ends_defineMethod {options : Options} {d : Method} {f : FunctionId}
    {s : GenState Builder}
    (bodiless : s.target.module.Bodiless f d.signature)
    (scopes : ∀ p, s.scopes.Fits s.target.module p) (loops : s.loops = .empty)
    (clean : ∀ i ∈ s.target.module.issues, i.1 ≠ some f)
    (lenient : typed → options.missingReturn = .synthesize)
    (type : typed → d.wellTyped s.scopes.context = true)
    (inside : typed → d.body.jumpsInside false = true) :
    Ends (defineMethod options d f) s (fun _ s' => Defined typed f s s') (Refusal typed) := by
  refine ends_enterBody typed rfl bodiless scopes loops ?_
  rintro p s₁ site isOpen - rfl ret a sameScopes sameLoops
  have types := bodiless.types.mono a.ext
  have serves : MethodContext.Serves ⟨p.function, d.name, d.ret, options⟩ p := ⟨rfl, ret⟩
  refine ends_bind (ends_methodBody site isOpen serves rfl types lenient (fun t => ?_) inside) ?_
  · show d.wellTyped s₁.scopes.context = true
    rw [sameScopes]
    exact type t
  rintro _ s₃ ⟨p₃, b₃, r₃, closed⟩
  have outside : s.target.module.Outside s₃.target.module p.function :=
    a.outside.trans r₃.grown.outside
  have finished : s₃.target.module.Finished typed p₃ := by
    refine ⟨r₃.site.body, fun c owned => ?_⟩
    rw [r₃.plan.function] at owned
    intro open'
    rcases r₃.grown.opens c owned open' with mem | ⟨apart, before, -⟩
    · obtain rfl : c = b₃ := by simpa using mem
      exact closed open'
    · -- the entry was the only block of the function
      have : s.target.module.functionOf? c = some p.function := by
        rwa [← a.functionOf?_of_ne apart]
      exact bodiless.unowned c this
  have defined : Defined typed p.function s s₃ :=
    ⟨outside, ⟨p₃, r₃.plan.function, finished⟩, r₃.scopes.trans sameScopes,
      r₃.loops.trans sameLoops⟩
  split
  · refine (ends_checkMethod finished r₃.plan.function fun i hi => ?_).mono ?_ fun _ h => h
    · rw [outside.issues] at hi
      rw [r₃.plan.function]
      exact clean i hi
    · rintro _ _ rfl
      exact defined
  · exact ends_pure defined

end

end Gen

end Decaf
