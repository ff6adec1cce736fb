import Decaf.Proofs.Generation.Declarations

/-!
# Generating programs

After the declarations the bodies are built one by one, each beside what is there already.
What comes out is stated relative to the module that was there before.
-/

namespace Decaf

open IR

/-- A finished body of a function with the given signature. -/
structure IR.Module.Implements (typed : Prop) (m : Module) (f : FunctionId) (sig : Signature) :
    Prop where
  header : ∃ F, m.function? f = some F ∧ F.id = f ∧ F.name = sig.name ∧ F.ret = sig.ret ∧
    F.params.map (·.ty) = sig.params
  finished : ∃ p, p.function = f ∧ m.Finished typed p

namespace IR.Module.Implements

variable {typed : Prop} {m : Module} {f : FunctionId} {sig : Signature}
  (h : m.Implements typed f sig) {F : Function} (there : m.function? f = some F)

include h there

theorem found : F.id = f ∧ F.name = sig.name ∧ F.ret = sig.ret ∧
    F.params.map (·.ty) = sig.params := by
  obtain ⟨G, hG, holds⟩ := h.header
  obtain rfl : F = G := Option.some.inj (there.symm.trans hG)
  exact holds

/-- The finished body is the one of the function that is found. -/
theorem declared : ∃ p, p.function = f ∧ m.Finished typed p ∧ m.Declared p F := by
  obtain ⟨p, rfl, finished⟩ := h.finished
  obtain ⟨G, declared⟩ := finished.body.declared
  obtain rfl : F = G := Option.some.inj (there.symm.trans declared.1)
  exact ⟨p, rfl, finished, declared⟩

theorem isDeclaration : F.isDeclaration = false := by
  obtain ⟨p, -, -, declared⟩ := h.declared there
  exact declared.isDeclaration

end IR.Module.Implements

theorem IR.Module.Implements.outside {typed : Prop} {m m' : Module} {f g : FunctionId}
    {sig : Signature} (h : m.Implements typed g sig) (o : m.Outside m' f) (other : g ≠ f) :
    m'.Implements typed g sig := by
  obtain ⟨F, hF, rest⟩ := h.header
  obtain ⟨p, rfl, finished⟩ := h.finished
  exact ⟨⟨F, (o.functions _ other).trans hF, rest⟩, p, rfl, finished.outside o other⟩

/-- The module after a program was generated into another one. -/
structure Generated (typed : Prop) (m₀ : Module) (es : List ExternDecl) (p : Package)
    (m : Module) : Prop where
  issues : m.issues = m₀.issues
  externs : ∀ i e, es[i]? = some e → m.Bodiless ⟨m₀.functions.size + i⟩ e.signature
  methods : ∀ i d, p.methods[i]? = some d →
    m.Implements typed ⟨m₀.functions.size + es.length + i⟩ d.signature
  functions : ∀ f : FunctionId, m₀.functions.size + es.length + p.methods.length ≤ f.index →
    m.function? f = none
  fields : ∀ i f, p.fields[i]? = some f →
    ∃ G, m.globals[m₀.globals.size + i]? = some G ∧ G.kind = f.kind
  strings : ∀ i G, m.globals[i]? = some G → m₀.globals.size + p.fields.length ≤ i →
    ∃ bytes, G.kind = .string bytes

namespace Generated

variable {typed : Prop} {es : List ExternDecl} {p : Package} {m : Module}
  (h : Generated typed Module.empty es p m) {i : Nat}

include h

/-! In a module of its own a program starts at the first function and at the first global. -/

theorem foreign {e : ExternDecl} (he : es[i]? = some e) : m.Bodiless ⟨i⟩ e.signature := by
  have bodiless := h.externs i e he
  rwa [show Module.empty.functions.size + i = i from Nat.zero_add i] at bodiless

theorem method {d : Method} (hd : p.methods[i]? = some d) :
    m.Implements typed ⟨es.length + i⟩ d.signature := by
  have implements := h.methods i d hd
  rwa [show Module.empty.functions.size = 0 from rfl, Nat.zero_add] at implements

theorem no_function {f : FunctionId} (beyond : es.length + p.methods.length ≤ f.index) :
    m.function? f = none :=
  h.functions f (by rwa [show Module.empty.functions.size = 0 from rfl, Nat.zero_add])

theorem field {f : FieldDecl} (hf : p.fields[i]? = some f) :
    ∃ G, m.globals[i]? = some G ∧ G.kind = f.kind := by
  have found := h.fields i f hf
  rwa [show Module.empty.globals.size + i = i from Nat.zero_add i] at found

theorem string {G : Global} (hG : m.globals[i]? = some G) (beyond : p.fields.length ≤ i) :
    ∃ bytes, G.kind = .string bytes :=
  h.strings i G hG (by rwa [show Module.empty.globals.size = 0 from rfl, Nat.zero_add])

end Generated

section

variable {typed : Prop} {options : Options}

/-- The bodies of some functions in a row were built. -/
structure Built (typed : Prop) (n : Nat) (ds : List Method) (m m' : Module) : Prop where
  issues : m'.issues = m.issues
  strings : m.StringsAfter m'
  prefixed : m.globals.toList <+: m'.globals.toList
  methods : ∀ i d, ds[i]? = some d → m'.Implements typed ⟨n + i⟩ d.signature
  functions : ∀ g : FunctionId, g.index < n ∨ n + ds.length ≤ g.index →
    m'.function? g = m.function? g
  bodiless : ∀ (g : FunctionId) sig, g.index < n → m.Bodiless g sig → m'.Bodiless g sig
  implements : ∀ (g : FunctionId) sig, g.index < n → m.Implements typed g sig →
    m'.Implements typed g sig

theorem Built.cons {n : Nat} {d : Method} {ds : List Method} {m m₁ m' : Module}
    (o : m.Outside m₁ ⟨n⟩) (first : m₁.Implements typed ⟨n⟩ d.signature)
    (rest : Built typed (n + 1) ds m₁ m') : Built typed n (d :: ds) m m' where
  issues := rest.issues.trans o.issues
  strings := o.strings.trans rest.strings
  prefixed := o.ext.globals.trans rest.prefixed
  methods i e he := by
    cases i with
    | zero =>
      obtain rfl : d = e := by simpa using he
      exact rest.implements ⟨n⟩ _ (Nat.lt_succ_self n) first
    | succ i =>
      have := rest.methods i e (by simpa using he)
      rwa [show n + 1 + i = n + (i + 1) by omega] at this
  functions g hg := by
    rw [List.length_cons] at hg
    rw [rest.functions g (by omega), o.functions]
    rintro rfl
    have : n < n ∨ n + (ds.length + 1) ≤ n := hg
    omega
  bodiless g sig hg h := by
    refine rest.bodiless g sig (by omega) (h.outside o ?_)
    rintro rfl
    exact Nat.lt_irrefl n hg
  implements g sig hg h := by
    refine rest.implements g sig (by omega) (h.outside o ?_)
    rintro rfl
    exact Nat.lt_irrefl n hg

/-- The functions from the `n`-th on are declared for some methods, whose bodies are still to
be built. -/
structure Pending (typed : Prop) (Γ : Context) (n : Nat) (ds : List Method)
    (s : GenState Builder) : Prop where
  bodiless : ∀ i d, ds[i]? = some d → s.target.module.Bodiless ⟨n + i⟩ d.signature
  fits : ∀ p, s.scopes.Fits s.target.module p
  loops : s.loops = .empty
  clean : ∀ i ∈ s.target.module.issues, ∀ f, i.1 = some f → f.index < n
  type : typed → s.scopes.context = Γ ∧ (∀ d ∈ ds, d.wellTyped Γ = true) ∧
    ∀ d ∈ ds, d.body.jumpsInside false = true

namespace Pending

variable {Γ : Context} {n : Nat} {d : Method} {ds : List Method} {s s' : GenState Builder}

theorem ends (h : Pending typed Γ n (d :: ds) s)
    (lenient : typed → options.missingReturn = .synthesize) :
    Gen.Ends (Gen.defineMethod options d ⟨n⟩) s (fun _ s' => Gen.Defined typed ⟨n⟩ s s')
      (Refusal typed) := by
  refine Gen.ends_defineMethod (h.bodiless 0 d rfl) h.fits h.loops (fun i hi same => ?_) lenient
    (fun t => ?_) fun t => (h.type t).2.2 d (by simp)
  · exact Nat.lt_irrefl n (h.clean i hi _ same)
  · rw [(h.type t).1]
    exact (h.type t).2.1 d (by simp)

theorem next (h : Pending typed Γ n (d :: ds) s) (defined : Gen.Defined typed ⟨n⟩ s s') :
    Pending typed Γ (n + 1) ds s' where
  bodiless i e he := by
    have := (h.bodiless (i + 1) e he).outside defined.outside fun same => ?_
    · rwa [show n + 1 + i = n + (i + 1) by omega]
    · have : n + (i + 1) = n := congrArg (·.index) same
      omega
  fits p := by
    rw [defined.scopes]
    exact (h.fits p).mono defined.outside.ext
  loops := defined.loops.trans h.loops
  clean i hi f hf := by
    rw [defined.outside.issues] at hi
    have := h.clean i hi f hf
    omega
  type t := by
    obtain ⟨context, types, jumps⟩ := h.type t
    exact ⟨by rw [defined.scopes, context], fun e he => types e (by simp [he]),
      fun e he => jumps e (by simp [he])⟩

theorem implements (h : Pending typed Γ n (d :: ds) s) (defined : Gen.Defined typed ⟨n⟩ s s') :
    s'.target.module.Implements typed ⟨n⟩ d.signature := by
  obtain ⟨F, hF, ⟨id, name⟩, ret, -, params, -⟩ := (h.bodiless 0 d rfl).function
  obtain ⟨F', hF', ⟨id', name'⟩, ret', params'⟩ := defined.outside.ext.functions _ F hF
  exact ⟨⟨F', hF', id'.trans id, name'.trans name, ret'.trans ret, by rw [params', params]⟩,
    defined.finished⟩

end Pending

/-- Before the declarations the module has its name. -/
theorem Preamble.start (b : Builder) (name : String) : Preamble typed b.module [] [] [[]]
    { GenState.start b with target := { b with module.name := name } } where
  ext := ⟨List.prefix_refl _, List.prefix_refl _, fun _ F hF => ⟨F, hF, ⟨rfl, rfl⟩, rfl, rfl⟩,
    fun _ _ h => h, fun _ _ => ⟨[], (List.append_nil _).symm, by simp⟩⟩
  issues := rfl
  blocks := rfl
  size := rfl
  bodiless := by simp
  globals := (List.append_nil _).symm
  inner := rfl
  fits p bindings hb x hx := by
    obtain rfl : bindings = [] := List.mem_singleton.1 hb
    cases hx
  loops := rfl
  context _ := rfl

/-- After the declarations all methods are pending. -/
theorem Preamble.pending {Γ : Context} {b : Builder} {es : List ExternDecl} {package : Package}
    {s : GenState Builder}
    (h : Preamble typed b.module (es.map (·.signature) ++ package.methods.map (·.signature))
      (package.fields.map (·.kind)) Γ s)
    (clean : ∀ i ∈ b.module.issues, ∀ f, i.1 = some f → f.index < b.module.functions.size)
    (type : typed → (∀ d ∈ package.methods, d.wellTyped Γ = true) ∧
      ∀ d ∈ package.methods, d.body.jumpsInside false = true) :
    Pending typed Γ (b.module.functions.size + es.length) package.methods s where
  bodiless i d hd := by
    have := h.bodiless (es.length + i) d.signature (by simp [List.getElem?_append, hd])
    rwa [← Nat.add_assoc] at this
  fits := h.fits
  loops := h.loops
  clean i hi f hf := by
    rw [h.issues] at hi
    have := clean i hi f hf
    omega
  type t := ⟨h.context t, type t⟩

/-- What was declared, together with the bodies built after it, is the program. -/
theorem Preamble.generated {Γ : Context} {b : Builder} {es : List ExternDecl} {package : Package}
    {s : GenState Builder} {m : Module}
    (h : Preamble typed b.module (es.map (·.signature) ++ package.methods.map (·.signature))
      (package.fields.map (·.kind)) Γ s)
    (built : Built typed (b.module.functions.size + es.length) package.methods s.target.module m) :
    Generated typed b.module es package m := by
  have size := h.size
  simp only [List.length_append, List.length_map] at size
  have kinds := h.globals
  have globals : s.target.module.globals.size =
      b.module.globals.size + package.fields.length := by
    have := congrArg List.length kinds
    simpa using this
  exact {
    issues := built.issues.trans h.issues
    externs := fun i e he => by
      have held := (List.getElem?_eq_some_iff.1 he).1
      refine built.bodiless _ _ (Nat.add_lt_add_left held _) (h.bodiless i e.signature ?_)
      rw [List.getElem?_append_left (by simpa using held)]
      simp [he]
    methods := built.methods
    functions := fun f hf => by
      rw [built.functions f (.inr hf), Module.function?]
      exact Array.getElem?_eq_none (by omega)
    fields := fun i f hf => by
      have held := (List.getElem?_eq_some_iff.1 hf).1
      have at_ : (s.target.module.globals.toList.map (·.kind))[b.module.globals.size + i]? =
          some f.kind := by
        rw [kinds, List.getElem?_append_right (by simp)]
        simp [hf]
      rw [List.getElem?_map, Option.map_eq_some_iff] at at_
      obtain ⟨G, hG, hk⟩ := at_
      exact ⟨G, Module.getElem?_of_prefix built.prefixed (by simpa using hG), hk⟩
    strings := fun i G hG hi => by
      rcases built.strings i G hG with old | bytes
      · have := (Array.getElem?_eq_some_iff.1 old).1
        omega
      · exact bytes }

namespace Gen

theorem ends_defineMethods {Γ : Context} (lenient : typed → options.missingReturn = .synthesize) :
    ∀ (ds : List Method) {n : Nat} {s : GenState Builder}, Pending typed Γ n ds s →
    Ends ((ds.zip ((List.range' n ds.length).map FunctionId.mk)).forM
        fun x => defineMethod options x.1 x.2) s
      (fun _ s' => Built typed n ds s.target.module s'.target.module) (Refusal typed)
  | [], n, s, _ => by
    refine ends_pure ⟨rfl, .of_eq rfl, List.prefix_refl _, by simp, fun _ _ => rfl,
      fun _ _ _ h => h, fun _ _ _ h => h⟩
  | d :: ds, n, s, pending => by
    rw [List.length_cons, List.range'_succ, List.map_cons, List.zip_cons_cons]
    refine ends_bind (pending.ends lenient) ?_
    rintro _ s₁ defined
    exact (ends_defineMethods lenient ds (pending.next defined)).mono
      (fun _ s₂ rest => rest.cons defined.outside (pending.implements defined)) fun _ h => h

section

variable {τ : Type} [Target τ]

/-- All that precedes the bodies: the name of the package and the declarations. -/
def declarations (externs : List ExternDecl) (p : Package) : Gen τ (List FunctionId) := do
  emit (.setModuleName p.name)
  externs.forM declareExtern
  p.fields.forM declareField
  p.methods.mapM declareMethod

theorem program_eq (externs : List ExternDecl) (p : Package) :
    (program options externs p : Gen τ Unit) = (do
      let ids ← declarations externs p
      (p.methods.zip ids).forM fun x => defineMethod options x.1 x.2) := by
  simp only [program, declarations, bind_assoc]

end

theorem ends_declarations {Γ₁ Γ₂ Γ : Context} {b : Builder} {es : List ExternDecl}
    {package : Package} (grounded : b.module.Grounded)
    (first : typed → Context.declareExterns? [[]] es = some Γ₁)
    (second : typed → Γ₁.declareFields? package.fields = some Γ₂)
    (third : typed → Γ₂.declareMethods? package.methods = some Γ) :
    Ends (declarations es package) (.start b)
      (fun ids s => ids = (List.range' (b.module.functions.size + es.length)
          package.methods.length).map FunctionId.mk ∧
        Preamble typed b.module (es.map (·.signature) ++ package.methods.map (·.signature))
          (package.fields.map (·.kind)) Γ s) (Refusal typed) := by
  rw [declarations]
  refine ends_bind (P := fun _ s₁ => Preamble typed b.module [] [] [[]] s₁)
    (ends_emit (Preamble.start b package.name)) ?_
  rintro _ s₁ h₁
  refine ends_bind (ends_declareExterns grounded es h₁ first) ?_
  rintro _ s₂ h₂
  refine ends_bind (ends_declareFields package.fields h₂ second) ?_
  rintro _ s₃ h₃
  refine (ends_declareMethods grounded package.methods h₃ third).mono ?_ fun _ h => h
  rintro ids s₄ ⟨rfl, h₄⟩
  rw [List.nil_append] at h₄
  exact ⟨by rw [List.nil_append, List.length_map], h₄⟩

theorem ends_program {b : Builder} {es : List ExternDecl} {package : Package}
    (grounded : b.module.Grounded)
    (clean : ∀ i ∈ b.module.issues, ∀ f, i.1 = some f → f.index < b.module.functions.size)
    (lenient : typed → options.missingReturn = .synthesize)
    (type : typed → ∃ Γ, package.context? es = some Γ ∧
      (∀ d ∈ package.methods, d.wellTyped Γ = true) ∧
      ∀ d ∈ package.methods, d.body.jumpsInside false = true) :
    Ends (program options es package) (.start b)
      (fun _ s' => Generated typed b.module es package s'.target.module) (Refusal typed) := by
  have parts (t : typed) : ∃ Γ₁ Γ₂ Γ, Context.declareExterns? [[]] es = some Γ₁ ∧
      Γ₁.declareFields? package.fields = some Γ₂ ∧
      Γ₂.declareMethods? package.methods = some Γ ∧
      (∀ d ∈ package.methods, d.wellTyped Γ = true) ∧
      ∀ d ∈ package.methods, d.body.jumpsInside false = true := by
    obtain ⟨Γ, context, rest⟩ := type t
    obtain ⟨Γ₁, first, context⟩ := Option.bind_eq_some_iff.1 context
    obtain ⟨Γ₂, second, third⟩ := Option.bind_eq_some_iff.1 context
    exact ⟨Γ₁, Γ₂, Γ, first, second, third, rest⟩
  obtain ⟨Γ₁, parts⟩ := exists_of_typed [] parts
  obtain ⟨Γ₂, parts⟩ := exists_of_typed [] parts
  obtain ⟨Γ, parts⟩ := exists_of_typed [] parts
  rw [program_eq]
  refine ends_bind (ends_declarations grounded (fun t => (parts t).1) (fun t => (parts t).2.1)
    fun t => (parts t).2.2.1) ?_
  rintro ids s ⟨rfl, declared⟩
  exact (ends_defineMethods lenient package.methods
    (declared.pending clean fun t => (parts t).2.2.2)).mono
      (fun _ _ built => declared.generated built) fun _ h => h

end Gen

end

end Decaf
