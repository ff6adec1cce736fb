import Decaf.Proofs.Generation.ControlShapes
import Decaf.Proofs.Generation.Programs

/-!
# Shapes of methods

The code of each method of a generated module has the shape of the body. Nothing of it
changes any more while the methods after it are built.
-/

namespace Decaf

open IR

namespace IR.Module

/-- The code of the function has the shape of the method's body, now and whatever is built
beside it. -/
def Coded (m : Module) (f : FunctionId) (scopes : ScopeStack) (d : Method) : Prop :=
  ∃ F entry values, m.function? f = some F ∧ F.entry? = some entry ∧
    ∀ M b, m.Settles f b M → Shape.methodBody M entry F.params d scopes (.start entry values)

theorem Settles.refl (m : Module) (f : FunctionId) (b : BlockId) : m.Settles f b m where
  ext := .refl m
  code _ _ := ⟨[], (List.append_nil _).symm, by simp⟩
  closed _ _ _ closed := ⟨closed, rfl⟩

/-- What is built for another function leaves this one as it is. -/
theorem Settles.outside {m m' M : Module} {f g : FunctionId} {b : BlockId}
    (h : m'.Settles f b M) (o : m.Outside m' g) (other : f ≠ g) : m.Settles f b M where
  ext := o.ext.trans h.ext
  code c owned := by
    obtain ⟨more, eq, plain⟩ := h.code c (o.ext.blocks c f owned)
    exact ⟨more, by rw [eq, o.codeOf other owned], plain⟩
  closed c t owned closed := by
    obtain ⟨term, code⟩ :=
      h.closed c t (o.ext.blocks c f owned) ((o.terminator? other owned).trans closed)
    exact ⟨term, code.trans (o.codeOf other owned)⟩

theorem Coded.outside {m m' : Module} {f g : FunctionId} {scopes : ScopeStack} {d : Method}
    (h : m.Coded f scopes d) (o : m.Outside m' g) (other : f ≠ g) : m'.Coded f scopes d := by
  obtain ⟨F, entry, values, hF, first, shape⟩ := h
  exact ⟨F, entry, values, (o.functions f other).trans hF, first,
    fun M b settles => shape M b (settles.outside o other)⟩

end IR.Module

namespace Gen

section

variable {mc : MethodContext} {p : Plan} {s : GenState Builder} {b : BlockId}

/-- A method that control may leave at its end returns there. -/
theorem ends_finishBody_shape (site : Site False p s b) (serves : mc.Serves p) (line : Nat) :
    Ends (finishBody mc line) s (fun _ s' => ∃ b', s'.target.insertion = some b' ∧
      ∀ M, s'.target.module.Settles mc.function b' M →
        s.target.module.Settles mc.function b M ∧ Shape.finishBody M mc.ret (s.exit b))
      fun _ => True := by
  cases isOpen : s.target.module.terminator? b with
  | some t =>
    have terminated : s.target.isTerminated = true := by rw [site.isTerminated, isOpen]; rfl
    rw [finishBody]
    apply ends_isTerminated
    rw [show Target.isTerminated s.target = _ from terminated]
    refine ends_pure ⟨b, site.here, fun M h => ⟨h, fun a ha => ?_⟩⟩
    rw [GenState.exit_closed (by simp [isOpen])] at ha
    cases ha
  | none =>
    have terminated : s.target.isTerminated = false := by rw [site.isTerminated, isOpen]; rfl
    have at_ : s.target.StandsAt b mc.function := serves.function ▸ site.stands isOpen
    have walk : Ends (finishBody mc line) s (fun _ s' => s'.target.insertion = some b ∧
        ∀ M, s'.target.module.Settles mc.function b M →
          Shape.finishBody M mc.ret (s.exit b)) fun _ => True := by
      rw [finishBody]
      apply ends_isTerminated
      rw [show Target.isTerminated s.target = _ from terminated, GenState.exit_open isOpen]
      show Ends (if mc.ret = .void then _ else _) _ _ _
      split
      · rename_i void
        refine (ends_emit_terminator at_ (.ret none)).imp ?_
        rintro _ s' ⟨here, -, exits⟩
        refine ⟨here, fun M h a ha => ?_⟩
        cases ha
        rw [if_pos void]
        exact (exits M h).2
      · rename_i value
        refine (ends_returnDefault_shape at_ line).imp ?_
        rintro _ s' ⟨here, -, shaped⟩
        refine ⟨here, fun M h a ha => ?_⟩
        cases ha
        rw [if_neg value]
        exact shaped M h
    refine ((ends_finishBody site serves line False.elim).lax.and walk).imp ?_
    rintro _ s' ⟨⟨p', b', r, -⟩, here, shaped⟩
    obtain rfl : b' = b := Option.some.inj (r.site.here.symm.trans here)
    exact ⟨b', here, fun M h => ⟨r.settles isOpen serves.function h, shaped M h⟩⟩

theorem ends_methodBody_shape {d : Method} (site : Site False p s p.entry)
    (isOpen : s.target.module.terminator? p.entry = none) (serves : mc.Serves p)
    (ret : mc.ret = d.ret) (loops : s.loops = .empty) {F : Function}
    (declared : s.target.module.function? p.function = some F)
    (types : s.target.module.Matches p.function 0 d.params) :
    Ends (methodBody mc d) s (fun _ s' => ∃ b', s'.target.insertion = some b' ∧
      ∀ M, s'.target.module.Settles p.function b' M →
        Shape.methodBody M p.entry F.params d s.scopes (s.place p.entry)) fun _ => True := by
  rw [methodBody]
  apply ends_inScope
  refine ends_bind (ends_bindParams_shape d.params (Site.rescope site site.scopes.push) isOpen
    (by simp [ScopeStack.push]) serves declared types) ?_
  rintro _ s₁ ⟨d₁, bound⟩
  refine ends_bind (ends_declareLocals_shape d.body.vars d₁.site d₁.advances.isOpen d₁.inner) ?_
  rintro _ s₂ ⟨d₂, declares⟩
  have loops₂ : s₂.loops = .empty :=
    (d₂.advances.reached.loops.trans d₁.advances.reached.loops).trans loops
  refine ends_bind (codesFlow_stmts d.body.stmts .empty s₂.scopes p s₂ p.entry
    ⟨d₂.site, serves, rfl, rfl, loops₂⟩ d₂.advances.isOpen).lax ?_
  rintro _ s₃ ⟨p₃, b₃, r₃, shaped⟩
  refine (ends_finishBody_shape r₃.site (serves.refines r₃.plan) d.line).imp ?_
  rintro _ s₄ ⟨b₄, here, finishes⟩
  refine ⟨b₄, here, fun M h => ?_⟩
  rw [serves.function] at bound declares h
  obtain ⟨h₃, finish⟩ := finishes M h
  have h₂ := r₃.settles d₂.advances.isOpen serves.function h₃
  have h₁ := d₂.advances.reached.settles d₁.advances.isOpen serves.function h₂
  have body := shaped M h₃
  rw [ret] at body finish
  exact ⟨s₁.scopes, _, s₂.scopes, _, _, bound M h₁, d₁.advances.reached.values_le,
    declares M h₂, d₂.advances.reached.values_le, body, finish⟩

theorem ends_defineMethod_shape {options : Options} {d : Method} {f : FunctionId}
    (bodiless : s.target.module.Bodiless f d.signature)
    (scopes : ∀ p, s.scopes.Fits s.target.module p) (loops : s.loops = .empty) :
    Ends (defineMethod options d f) s (fun _ s' => s'.target.module.Coded f s.scopes d)
      fun _ => True := by
  obtain ⟨F₀, hF₀, -⟩ := bodiless.function
  refine ends_enterBody False rfl bodiless scopes loops ?_
  rintro p s₁ site isOpen empty rfl ret a sameScopes sameLoops
  have types := bodiless.types.mono a.ext
  have declared := a.function F₀ hF₀
  have serves : MethodContext.Serves ⟨p.function, d.name, d.ret, options⟩ p := ⟨rfl, ret⟩
  refine ends_bind ((ends_methodBody site isOpen serves rfl types False.elim False.elim
    False.elim).lax.and (ends_methodBody_shape site isOpen serves rfl (sameLoops.trans loops)
      declared types)) ?_
  rintro _ s₂ ⟨⟨p₂, b₂, r₂, closed⟩, b₃, here, shape⟩
  obtain rfl : b₂ = b₃ := Option.some.inj (r₂.site.here.symm.trans here)
  have coded : s₂.target.module.Coded p.function s.scopes d := by
    obtain ⟨F, hF, -, first, -⟩ := r₂.site.body.declared
    obtain ⟨F', hF', -, -, params⟩ := r₂.grown.ext.functions _ _ declared
    rw [r₂.plan.function, hF'] at hF
    obtain rfl := Option.some.inj hF
    refine ⟨F', p.entry, s₁.target.module.values.size, hF', r₂.plan.entry ▸ first,
      fun M b settles => ?_⟩
    have body := shape M (settles.position (r₂.plan.function ▸ r₂.site.owned) closed)
    rw [GenState.place_start empty, sameScopes] at body
    rw [params]
    exact body
  split
  · rw [checkMethod]
    apply ends_get
    split
    · exact ends_pure coded
    · exact ends_throw trivial
  · exact ends_pure coded

/-- The code of every method has its shape in the end. -/
theorem ends_defineMethods_shape {options : Options} {Γ : Context} :
    ∀ (ds : List Method) {n : Nat} {s : GenState Builder}, Pending False Γ n ds s →
    Ends ((ds.zip ((List.range' n ds.length).map FunctionId.mk)).forM
        fun x => defineMethod options x.1 x.2) s
      (fun _ s' => s.target.module.Extends s'.target.module ∧
        (∀ i d, ds[i]? = some d → s'.target.module.Coded ⟨n + i⟩ s.scopes d) ∧
        ∀ (g : FunctionId) scopes d, g.index < n → s.target.module.Coded g scopes d →
          s'.target.module.Coded g scopes d) fun _ => True
  | [], n, s, _ => ends_pure ⟨.refl _, by simp, fun _ _ _ _ h => h⟩
  | d :: ds, n, s, pending => by
    rw [List.length_cons, List.range'_succ, List.map_cons, List.zip_cons_cons]
    refine ends_bind ((pending.ends False.elim).lax.and
      (ends_defineMethod_shape (pending.bodiless 0 d rfl) pending.fits pending.loops)) ?_
    rintro _ s₁ ⟨defined, first⟩
    refine (ends_defineMethods_shape ds (pending.next defined)).imp ?_
    rintro _ s₂ ⟨ext, others, earlier⟩
    refine ⟨defined.outside.ext.trans ext, fun i e he => ?_, fun g scopes e hg h => ?_⟩
    · cases i with
      | zero =>
        obtain rfl : d = e := by simpa using he
        exact earlier ⟨n⟩ _ _ (Nat.lt_succ_self n) first
      | succ i =>
        have := others i e (by simpa using he)
        rwa [show n + 1 + i = n + (i + 1) by omega, defined.scopes] at this
    · refine earlier g scopes e (Nat.lt_succ_of_lt hg) (h.outside defined.outside ?_)
      rintro rfl
      exact Nat.lt_irrefl n hg

end

end Gen

end Decaf
