import Decaf.Proofs.Generation.Methods

/-!
# Generating declarations

Externs, fields and methods are declared before any body is built. Each function that is
declared gets the next position, and each field the next global; no block changes.
-/

namespace Decaf

open IR

def ExternDecl.signature (e : ExternDecl) : Signature :=
  ⟨e.name, e.ret.repr, e.params.map (·.ty.repr)⟩

/-- What the global of a field holds. -/
def FieldDecl.kind (f : FieldDecl) : GlobalKind :=
  match f.size with
  | .array length => .array f.ty.repr length
  | .scalar => .scalar f.ty.repr (f.initial?.getD .null)

namespace IR

theorem NameTable.length_uniqueAll (t : NameTable) (hints : List String) :
    (t.uniqueAll hints).1.length = hints.length := by
  induction hints generalizing t with
  | nil => rfl
  | cons hint hints ih => exact congrArg (· + 1) (ih _)

namespace Builder

/-- A new function is declared at the next position, without a body. -/
theorem declareFunction_outside (b : Builder) (name : String) (ret : Ty)
    (params : List (Option String × Ty))
    (grounded : ∀ c f, b.module.functionOf? c = some f → f.index < b.module.functions.size) :
    (b.declareFunction name ret params).1 = ⟨b.module.functions.size⟩ ∧
    b.module.Outside (b.declareFunction name ret params).2.module
      ⟨b.module.functions.size⟩ ∧
    (b.declareFunction name ret params).2.module.Bodiless ⟨b.module.functions.size⟩
      ⟨name, ret, params.map (·.2)⟩ := by
  have apart {f : FunctionId} (h : f ≠ ⟨b.module.functions.size⟩) :
      f.index ≠ b.module.functions.size := fun same => h (by rw [← same])
  refine ⟨rfl, ?_, ?_⟩
  · have functions (g : FunctionId) (h : g ≠ ⟨b.module.functions.size⟩) :
        (b.declareFunction name ret params).2.module.function? g = b.module.function? g := by
      simp [declareFunction, Module.function?, Array.getElem?_push, apart h]
    exact {
      ext := {
        values := by simp [declareFunction]
        globals := List.prefix_refl _
        functions := fun g G hG => by
          refine ⟨G, ?_, ⟨rfl, rfl⟩, rfl, rfl⟩
          rw [functions g, hG]
          rintro rfl
          simp [Module.function?] at hG
        blocks := fun _ _ h => h
        slots := fun c _ => ⟨[], by simp [Module.slotsOf, Module.block?, declareFunction],
          by simp⟩ }
      strings := .of_eq rfl
      issues := rfl
      functions := functions
      blocks := fun _ _ _ _ => rfl }
  · refine ⟨⟨_, Array.getElem?_push_size, ⟨rfl, rfl⟩, rfl, rfl, ?_, ?_⟩, fun c owned => ?_⟩
    · apply List.ext_getElem <;> simp
    · intro q hq
      obtain ⟨i, hi, rfl⟩ := List.mem_mapIdx.1 hq
      let names := (NameTable.empty.uniqueAll (params.map fun p => p.1.getD "")).1
      have named : i < names.length := by
        rw [NameTable.length_uniqueAll, List.length_map]
        exact hi
      have paired : (params.zip names)[i]? = some (params[i], names[i]) :=
        List.getElem?_zip_eq_some.2
          ⟨List.getElem?_eq_getElem hi, List.getElem?_eq_getElem named⟩
      refine ⟨i, some names[i], ?_⟩
      simp only [declareFunction, Module.value?]
      rw [← Array.getElem?_toList, Array.toList_appendList,
        List.getElem?_append_right (by simp), Array.length_toList, Nat.add_sub_cancel_left,
        List.getElem?_mapIdx, paired]
      rfl
    · exact Nat.lt_irrefl _ (grounded c _ owned)

theorem pushGlobal_module (b : Builder) (hint : String) (kind : GlobalKind) :
    b.module.Extends (b.pushGlobal hint kind).2.module ∧
      (b.pushGlobal hint kind).2.module.functions = b.module.functions ∧
      (b.pushGlobal hint kind).2.module.blocks = b.module.blocks ∧
      (b.pushGlobal hint kind).2.module.issues = b.module.issues ∧
      (b.pushGlobal hint kind).2.module.globals.toList.map (·.kind) =
        b.module.globals.toList.map (·.kind) ++ [kind] := by
  refine ⟨⟨by simp [pushGlobal, pushValue], by simp [pushGlobal, pushValue],
    fun f F hF => ⟨F, hF, ⟨rfl, rfl⟩, rfl, rfl⟩, fun _ _ h => h, fun _ _ => ⟨[], ?_, by simp⟩⟩,
    rfl, rfl, rfl, ?_⟩
  · simp [Module.slotsOf, Module.block?, pushGlobal, pushValue]
  · simp [pushGlobal, pushValue]

end Builder

end IR

theorem inner_add {scopes : ScopeStack} (h : scopes.inner = []) (name : String)
    (d : Descriptor) : (scopes.add name d).inner = [] := by
  obtain ⟨package, _ | ⟨bindings, outer⟩⟩ := scopes
  · rfl
  · cases h

/-- What is known after some of the declarations, given what they say. -/
structure Preamble (typed : Prop) (m₀ : Module) (sigs : List Signature) (kinds : List GlobalKind)
    (Γ : Context) (s : GenState Builder) : Prop where
  ext : m₀.Extends s.target.module
  issues : s.target.module.issues = m₀.issues
  blocks : s.target.module.blocks = m₀.blocks
  size : s.target.module.functions.size = m₀.functions.size + sigs.length
  bodiless : ∀ i sig, sigs[i]? = some sig →
    s.target.module.Bodiless ⟨m₀.functions.size + i⟩ sig
  globals : s.target.module.globals.toList.map (·.kind) =
    m₀.globals.toList.map (·.kind) ++ kinds
  inner : s.scopes.inner = []
  fits : ∀ p, s.scopes.Fits s.target.module p
  loops : s.loops = .empty
  context : typed → s.scopes.context = Γ

section

variable {typed : Prop} {m₀ : Module} {sigs : List Signature} {kinds : List GlobalKind}
  {Γ Γ' : Context} {s : GenState Builder}

/-- Every block belongs to a function that is there. -/
def IR.Module.Grounded (m : Module) : Prop :=
  ∀ c f, m.functionOf? c = some f → f.index < m.functions.size

namespace Preamble

theorem functionOf? (h : Preamble typed m₀ sigs kinds Γ s) (c : BlockId) :
    s.target.module.functionOf? c = m₀.functionOf? c := by
  simp [Module.functionOf?, Module.block?, h.blocks]

theorem grounded (h : Preamble typed m₀ sigs kinds Γ s) (grounded : m₀.Grounded) :
    s.target.module.Grounded := by
  intro c f owned
  rw [h.functionOf?] at owned
  have := grounded c f owned
  have := h.size
  omega

/-- One more function. -/
theorem declareFunction (h : Preamble typed m₀ sigs kinds Γ s) (grounded : m₀.Grounded)
    (name : String) (ret : IR.Ty) (params : List (Option String × IR.Ty)) :
    Preamble typed m₀ (sigs ++ [⟨name, ret, params.map (·.2)⟩]) kinds Γ
        { s with target := (s.target.declareFunction name ret params).2 } ∧
      (s.target.declareFunction name ret params).1 = ⟨m₀.functions.size + sigs.length⟩ ∧
      (s.target.declareFunction name ret params).2.module.Bodiless
        ⟨m₀.functions.size + sigs.length⟩ ⟨name, ret, params.map (·.2)⟩ := by
  obtain ⟨id, outside, bodiless⟩ :=
    s.target.declareFunction_outside name ret params (h.grounded grounded)
  rw [h.size] at id outside bodiless
  refine ⟨{ h with
    ext := h.ext.trans outside.ext
    size := ?_
    bodiless := fun i sig hi => ?_
    fits := fun p => (h.fits p).mono outside.ext }, id, bodiless⟩
  · have : (s.target.declareFunction name ret params).2.module.functions.size =
        s.target.module.functions.size + 1 := Array.size_push _
    simp only [this, h.size, List.length_append, List.length_singleton]
    omega
  · rw [List.getElem?_append] at hi
    split at hi
    · refine (h.bodiless i sig hi).outside outside fun same => ?_
      have : m₀.functions.size + i = m₀.functions.size + sigs.length := congrArg (·.index) same
      omega
    · obtain ⟨last, rfl⟩ : i = sigs.length ∧ sig = ⟨name, ret, params.map (·.2)⟩ := by
        rw [List.getElem?_singleton] at hi
        split at hi
        · cases hi
          exact ⟨by omega, rfl⟩
        · cases hi
      rw [last]
      exact bodiless

/-- One more global. -/
theorem pushGlobal (h : Preamble typed m₀ sigs kinds Γ s) (hint : String) (kind : GlobalKind) :
    Preamble typed m₀ sigs (kinds ++ [kind]) Γ
      { s with target := (s.target.pushGlobal hint kind).2 } := by
  obtain ⟨ext, functions, blocks, issues, globals⟩ := s.target.pushGlobal_module hint kind
  exact { h with
    ext := h.ext.trans ext
    issues := issues.trans h.issues
    blocks := blocks.trans h.blocks
    size := by rw [functions, h.size]
    bodiless := fun i sig hi => (h.bodiless i sig hi).mono ext
      (by rw [Module.function?, functions, Module.function?])
      fun c hc => by rwa [Module.functionOf?, Module.block?, blocks] at hc
    globals := by rw [globals, h.globals, List.append_assoc]
    fits := fun p => (h.fits p).mono ext }

/-- A name is bound in the scope of the package. -/
theorem bindName (h : Preamble typed m₀ sigs kinds Γ s) {name : String} {d : Descriptor}
    (fits : ∀ p, d.Fits s.target.module p)
    (type : typed → Γ.add? name d.entity = some Γ') :
    Gen.Ends (Gen.bindName name d) s (fun _ s' => Preamble typed m₀ sigs kinds Γ' s')
      (Refusal typed) := by
  refine Gen.ends_bindName (fun _ => { h with
    inner := ?_
    fits := fun p => (h.fits p).add (fits p)
    context := fun t => ?_ }) fun previous taken => ⟨fun t => ?_, trivial⟩
  · exact inner_add h.inner name d
  · have := type t
    rw [← h.context t] at this
    exact (Gen.add?_eq_some this).2
  · have := type t
    rw [← h.context t] at this
    rw [(Gen.add?_eq_some this).1] at taken
    cases taken

end Preamble

namespace Gen

theorem ends_emit_declareFunction (h : Preamble typed m₀ sigs kinds Γ s)
    (grounded : m₀.Grounded) (name : String) (ret : Ty) (decls : List VarDecl) (line : Nat)
    {params : List (Option String × IR.Ty)} (types : params.map (·.2) = decls.map (·.ty.repr)) :
    Ends (emit (.declareFunction name ret.repr params)) s
      (fun id s' => id = ⟨m₀.functions.size + sigs.length⟩ ∧
        Preamble typed m₀ (sigs ++ [⟨name, ret.repr, decls.map (·.ty.repr)⟩]) kinds Γ s' ∧
        ∀ p, (Descriptor.function ret id decls line).Fits s'.target.module p)
      (Refusal typed) := by
  obtain ⟨next, id, bodiless⟩ := h.declareFunction grounded name ret.repr params
  rw [types] at next bodiless
  apply ends_emit
  refine ⟨id, next, fun p => ⟨rfl, ?_⟩⟩
  obtain ⟨F, hF, -, hret, -, params, -⟩ := bodiless.function
  rw [← id] at hF
  exact ⟨F, hF, hret, by simpa [Function.comp_def] using params⟩

theorem entity_function (ret : Ty) (id : FunctionId) (decls : List VarDecl) (line : Nat) :
    (Descriptor.function ret id decls line).entity = functionEntity ret decls := by
  simp [Descriptor.function, Descriptor.entity, functionEntity, Function.comp_def]

theorem ends_declareExtern (h : Preamble typed m₀ sigs kinds Γ s) (grounded : m₀.Grounded)
    {e : ExternDecl} (type : typed → Γ.add? e.name (functionEntity e.ret e.params) = some Γ') :
    Ends (declareExtern e) s
      (fun _ s' => Preamble typed m₀ (sigs ++ [e.signature]) kinds Γ' s') (Refusal typed) := by
  refine ends_bind (ends_emit_declareFunction h grounded e.name e.ret e.params e.line (by simp)) ?_
  rintro id s' ⟨rfl, next, fits⟩
  exact next.bindName fits fun t => by rw [entity_function, type t]

theorem ends_declareMethod (h : Preamble typed m₀ sigs kinds Γ s) (grounded : m₀.Grounded)
    {d : Method} (type : typed → Γ.add? d.name (functionEntity d.ret d.params) = some Γ') :
    Ends (declareMethod d) s (fun id s' => id = ⟨m₀.functions.size + sigs.length⟩ ∧
      Preamble typed m₀ (sigs ++ [d.signature]) kinds Γ' s') (Refusal typed) := by
  refine ends_bind (ends_emit_declareFunction h grounded d.name d.ret d.params d.line (by simp)) ?_
  rintro id s' ⟨rfl, next, fits⟩
  refine ends_bind (next.bindName fits fun t => by rw [entity_function, type t]) ?_
  exact fun _ s' after => ends_pure ⟨rfl, after⟩

/-- A field that is valid has an initial value of its own type. -/
theorem initial?_of_valid {f : FieldDecl} (scalar : f.size = .scalar) (valid : f.valid = true) :
    ∃ c, f.initial? = some c := by
  obtain ⟨name, ty, size, init, line⟩ := f
  subst scalar
  cases init with
  | none => cases ty <;> first | exact ⟨_, rfl⟩ | cases valid
  | some c =>
    obtain ⟨value, line⟩ := c
    cases ty <;> cases value <;> first | exact ⟨_, rfl⟩ | cases valid

theorem initial?_ty {f : FieldDecl} {c : Const} (h : f.initial? = some c) : c.ty = f.ty.repr := by
  obtain ⟨name, ty, size, init, line⟩ := f
  cases init with
  | none => exact Const.ty_of_zero? h
  | some c =>
    obtain ⟨value, line⟩ := c
    cases ty <;> cases value <;> cases h <;> rfl

theorem ends_declareField (h : Preamble typed m₀ sigs kinds Γ s) {f : FieldDecl}
    (valid : typed → f.valid = true) (type : typed → Γ.add? f.name f.entity = some Γ') :
    Ends (declareField f) s
      (fun _ s' => Preamble typed m₀ sigs (kinds ++ [f.kind]) Γ' s') (Refusal typed) := by
  have pushes (c : Command .value) (kind : GlobalKind)
      (perform : s.target.perform c = s.target.pushGlobal f.name kind) :
      Ends (emit c) s (fun a s' => Preamble typed m₀ sigs (kinds ++ [kind]) Γ s' ∧
        s'.target.module.IsGlobal a kind) (Refusal typed) := by
    apply ends_emit
    show Preamble typed m₀ sigs (kinds ++ [kind]) Γ { s with target := (s.target.perform c).2 } ∧
      (s.target.perform c).2.module.IsGlobal (s.target.perform c).1 kind
    rw [perform]
    exact ⟨h.pushGlobal f.name kind, s.target.isGlobal_pushGlobal f.name kind⟩
  rw [declareField]
  cases hsize : f.size with
  | array length =>
    have parts (t : typed) : length ≠ 0 ∧ f.init.isSome = false := by
      have := valid t
      simp only [FieldDecl.valid, hsize, Bool.and_eq_true, bne_iff_ne] at this
      exact ⟨this.2.1, by simpa using this.2.2⟩
    have kind : f.kind = .array f.ty.repr length := by simp [FieldDecl.kind, hsize]
    show Ends (if length = 0 then _ else _) _ _ _
    split
    · rename_i zero
      exact ends_throw ⟨fun t => (parts t).1 zero, trivial⟩
    · split
      · rename_i init
        exact ends_throw ⟨fun t => by simp [(parts t).2] at init, trivial⟩
      · refine ends_bind (pushes _ _ rfl) ?_
        rintro base s' ⟨next, isGlobal⟩
        rw [← kind] at next
        refine next.bindName (fun p => ⟨rfl, length, isGlobal⟩) fun t => ?_
        rw [← type t, FieldDecl.entity, hsize]
        rfl
  | scalar =>
    dsimp only
    cases hinit : f.initial? with
    | none =>
      refine ends_throw ⟨fun t => ?_, trivial⟩
      obtain ⟨c, hc⟩ := initial?_of_valid hsize (valid t)
      rw [hinit] at hc
      cases hc
    | some c =>
      have kind : f.kind = .scalar f.ty.repr c := by simp [FieldDecl.kind, hsize, hinit]
      refine ends_bind (pushes _ _ rfl) ?_
      rintro slot s' ⟨next, isGlobal⟩
      rw [← kind] at next
      refine next.bindName (fun p => ⟨rfl, .inr ⟨c, initial?_ty hinit, isGlobal⟩⟩) fun t => ?_
      rw [← type t, FieldDecl.entity, hsize]
      rfl

theorem ends_declareExterns (grounded : m₀.Grounded) : ∀ (es : List ExternDecl)
    {sigs : List Signature} {Γ : Context} {s : GenState Builder},
    Preamble typed m₀ sigs kinds Γ s → (typed → Γ.declareExterns? es = some Γ') →
    Ends (es.forM declareExtern) s
      (fun _ s' => Preamble typed m₀ (sigs ++ es.map (·.signature)) kinds Γ' s') (Refusal typed)
  | [], sigs, Γ, s, h, type => by
    refine ends_pure ?_
    rw [List.map_nil, List.append_nil]
    exact { h with context := fun t => (h.context t).trans (Option.some.inj (type t)) }
  | e :: es, sigs, Γ, s, h, type => by
    have parts (t : typed) : ∃ Γ₁, Γ.add? e.name (functionEntity e.ret e.params) = some Γ₁ ∧
        Γ₁.declareExterns? es = some Γ' := by
      have := type t
      rw [Context.declareExterns?] at this
      split at this
      · exact Option.bind_eq_some_iff.1 this
      · cases this
    obtain ⟨Γ₁, parts⟩ := exists_of_typed [] parts
    refine ends_bind (ends_declareExtern h grounded fun t => (parts t).1) fun _ s' next => ?_
    have := ends_declareExterns grounded es next fun t => (parts t).2
    rwa [List.append_assoc] at this

theorem ends_declareFields : ∀ (fs : List FieldDecl) {kinds : List GlobalKind} {Γ : Context}
    {s : GenState Builder}, Preamble typed m₀ sigs kinds Γ s →
    (typed → Γ.declareFields? fs = some Γ') →
    Ends (fs.forM declareField) s
      (fun _ s' => Preamble typed m₀ sigs (kinds ++ fs.map (·.kind)) Γ' s') (Refusal typed)
  | [], kinds, Γ, s, h, type => by
    refine ends_pure ?_
    rw [List.map_nil, List.append_nil]
    exact { h with context := fun t => (h.context t).trans (Option.some.inj (type t)) }
  | f :: fs, kinds, Γ, s, h, type => by
    have parts (t : typed) : ∃ Γ₁, f.valid = true ∧ Γ.add? f.name f.entity = some Γ₁ ∧
        Γ₁.declareFields? fs = some Γ' := by
      have := type t
      rw [Context.declareFields?] at this
      split at this
      · obtain ⟨Γ₁, first, rest⟩ := Option.bind_eq_some_iff.1 this
        exact ⟨Γ₁, ‹_›, first, rest⟩
      · cases this
    obtain ⟨Γ₁, parts⟩ := exists_of_typed [] parts
    refine ends_bind (ends_declareField h (fun t => (parts t).1) fun t => (parts t).2.1)
      fun _ s' next => ?_
    have := ends_declareFields fs next fun t => (parts t).2.2
    rwa [List.append_assoc] at this

theorem ends_declareMethods (grounded : m₀.Grounded) : ∀ (ds : List Method)
    {sigs : List Signature} {Γ : Context} {s : GenState Builder},
    Preamble typed m₀ sigs kinds Γ s → (typed → Γ.declareMethods? ds = some Γ') →
    Ends (ds.mapM declareMethod) s
      (fun ids s' =>
        ids = (List.range' (m₀.functions.size + sigs.length) ds.length).map FunctionId.mk ∧
        Preamble typed m₀ (sigs ++ ds.map (·.signature)) kinds Γ' s') (Refusal typed)
  | [], sigs, Γ, s, h, type => by
    refine ends_pure ⟨rfl, ?_⟩
    rw [List.map_nil, List.append_nil]
    exact { h with context := fun t => (h.context t).trans (Option.some.inj (type t)) }
  | d :: ds, sigs, Γ, s, h, type => by
    obtain ⟨Γ₁, parts⟩ := exists_of_typed [] fun t => Option.bind_eq_some_iff.1 (type t)
    rw [List.mapM_cons]
    refine ends_bind (ends_declareMethod h grounded fun t => (parts t).1) ?_
    rintro id s' ⟨rfl, next⟩
    refine ends_bind (ends_declareMethods grounded ds next fun t => (parts t).2) ?_
    rintro ids s'' ⟨rfl, after⟩
    refine ends_pure ⟨?_, by rwa [List.append_assoc] at after⟩
    rw [List.length_append, List.length_singleton, List.length_cons, List.range'_succ,
      List.map_cons]
    rfl

end Gen

end

end Decaf
