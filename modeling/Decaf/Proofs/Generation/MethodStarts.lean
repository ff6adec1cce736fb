import Decaf.Proofs.Generation.DisplacedChecks
import Decaf.Proofs.Generation.DisplacedTexts
import Decaf.Proofs.Generation.Interiors
import Decaf.Proofs.Meaning.Links

/-!
# Where bodies begin

When the body of a method is about to be built, all members of the package are declared, and
some other methods may have bodies already. What the body finds depends on the members alone:
the same method is built in the same way wherever it stands among the others.
-/

namespace Decaf

open IR

namespace IR

/-- The names of parameters as they are printed, and the table that holds them. -/
def printedNames (params : List (Option String × Ty)) : List String × NameTable :=
  NameTable.empty.uniqueAll (params.map fun p => p.1.getD "")

/-- The function is as it was declared, and no names but those of its parameters are taken
inside of it. -/
structure Builder.Offers (b : Builder) (f : FunctionId) (name : String) (ret : Ty)
    (params : List (Option String × Ty)) : Prop where
  shape : ∃ first, b.module.function? f =
      some ⟨f, name, ret, params.mapIdx fun i p => ⟨p.1, p.2, ⟨first + i⟩⟩, #[]⟩ ∧
    ∀ i x, (params.zip (printedNames params).1)[i]? = some x →
      b.module.value? ⟨first + i⟩ = some ⟨x.1.2, .param f i, some x.2⟩
  table : b.locals[f.index]? = some (printedNames params).2

section

variable {b b' : Builder} {f : FunctionId} {name : String} {ret : Ty}
  {params : List (Option String × Ty)}

theorem Builder.Offers.keep (h : b.Offers f name ret params)
    (function : b'.module.function? f = b.module.function? f)
    (values : b.module.values.toList <+: b'.module.values.toList)
    (locals : b'.locals[f.index]? = b.locals[f.index]?) : b'.Offers f name ret params where
  shape := by
    obtain ⟨first, there, infos⟩ := h.shape
    exact ⟨first, function.trans there, fun i x hx => Module.getElem?_of_prefix values (infos i x hx)⟩
  table := locals.trans h.table

theorem Builder.declareFunction_offers (aligned : b.Aligned) (name : String) (ret : Ty)
    (params : List (Option String × Ty)) :
    (b.declareFunction name ret params).2.Offers ⟨b.module.functions.size⟩ name ret params where
  shape := by
    refine ⟨b.module.values.size, Array.getElem?_push_size, fun i x hx => ?_⟩
    rw [printedNames] at hx
    simp only [declareFunction, Module.value?]
    rw [← Array.getElem?_toList, Array.toList_appendList, List.getElem?_append_right (by simp)]
    simp [hx]
  table := by
    have size : b.locals.size = b.module.functions.size := aligned
    show (b.locals.push _)[b.module.functions.size]? = _
    rw [← size]
    exact Array.getElem?_push_size

/-- Declaring another function leaves the ones that are there as they are. -/
theorem Builder.Offers.declareFunction (h : b.Offers f name ret params) (name' : String)
    (ret' : Ty) (params' : List (Option String × Ty)) :
    (b.declareFunction name' ret' params').2.Offers f name ret params := by
  obtain ⟨first, there, -⟩ := h.shape
  have held := (Array.getElem?_eq_some_iff.1 there).1
  have table := (Array.getElem?_eq_some_iff.1 h.table).1
  refine h.keep ?_ ?_ ?_
  · show (b.module.functions.push _)[f.index]? = _
    rw [Array.getElem?_push_lt held, Module.function?, Array.getElem?_eq_getElem held]
  · simp only [Builder.declareFunction, Array.toList_appendList]
    exact List.prefix_append _ _
  · show (b.locals.push _)[f.index]? = _
    rw [Array.getElem?_push_lt table, Array.getElem?_eq_getElem table]

end

end IR

theorem IR.Module.Bodiless.signature_eq {m : Module} {f : FunctionId} {sig : Signature}
    (h : m.Bodiless f sig) : (m.function? f).map Function.signature = some sig := by
  obtain ⟨F, hF, ⟨-, name⟩, ret, -, types, -⟩ := h.function
  rw [hF, Option.map_some, Function.signature, name, ret, types]

/-- Two functions that offer the same correspond. -/
theorem Displacement.frame_of_offers {d : Displacement} {name : String} {ret : IR.Ty}
    {params : List (Option String × IR.Ty)}
    (h : d.start.Offers d.function name ret params)
    (h' : d.start'.Offers d.function' name ret params) :
    Option.Rel d.matching.frame (d.start.module.function? d.function)
      (d.start'.module.function? d.function') := by
  obtain ⟨first, there, infos⟩ := h.shape
  obtain ⟨first', there', infos'⟩ := h'.shape
  rw [there, there']
  refine .some ⟨rfl, rfl, List.forall₂_iff_get.2 ⟨by simp, fun i hi hi' => ?_⟩, .nil⟩
  have inside : i < params.length := by simpa using hi
  have named : i < (printedNames params).1.length := by
    rw [printedNames, NameTable.length_uniqueAll, List.length_map]
    exact inside
  have entry : (params.zip (printedNames params).1)[i]? =
      some (params[i], (printedNames params).1[i]) := by
    rw [List.getElem?_zip_eq_some]
    exact ⟨List.getElem?_eq_getElem inside, List.getElem?_eq_getElem named⟩
  simp only [List.get_eq_getElem, List.getElem_mapIdx]
  exact ⟨trivial, .inl ⟨_, _, infos i _ entry, infos' i _ entry, .param _ i _, nofun⟩⟩

namespace Meaning

/-- The function is that of the member. -/
def Source.At (S : Source) (g : FunctionId) : Member → Prop
  | .foreign e => S.externs[g.index]? = some e
  | .method d => ∃ i : Nat, S.package.methods[i]? = some d ∧ g = ⟨S.externs.length + i⟩
  | .field _ => False

def Member.signature? : Member → Option Signature
  | .foreign e => some e.signature
  | .method d => some d.signature
  | .field _ => none

/-- The function is still as the declaration of the method left it. -/
def OffersMethod (b : Builder) (x : Method × FunctionId) : Prop :=
  b.Offers x.2 x.1.name x.1.ret.repr (x.1.params.map fun p => (p.name, p.ty.repr))

/-- All members are declared, and some of the methods have no bodies yet. -/
structure Underway (S : Source) (todo : List (Method × FunctionId)) (s : GenState Builder) :
    Prop where
  inner : s.scopes.inner = []
  loops : s.loops = .empty
  fits : ∀ p, s.scopes.Fits s.target.module p
  clean : s.target.module.issues = #[]
  names : ∀ name, Option.Rel (Denotes S s.target.module) (s.scopes.package.lookup name)
    (S.member? name)
  signatures : ∀ g x, S.At g x →
    (s.target.module.function? g).map Function.signature = x.signature?
  fields : ∀ (i : Nat) f, S.package.fields[i]? = some f →
    ∃ G, s.target.module.globals[i]? = some G ∧ G.name = f.name ∧ G.kind = f.kind
  labelled : s.target.Labelled
  aligned : s.target.Aligned
  bodiless : ∀ x ∈ todo, s.target.module.Bodiless x.2 x.1.signature
  offers : ∀ x ∈ todo, OffersMethod s.target x

namespace Underway

variable {S S' : Source} {todo : List (Method × FunctionId)} {d : Method} {f f' : FunctionId}
  {s s' : GenState Builder} {o : Options}

theorem mono {todo' : List (Method × FunctionId)} (h : Underway S todo s)
    (sub : todo' ⊆ todo) : Underway S todo' s :=
  { h with
    bodiless := fun x hx => h.bodiless x (sub hx)
    offers := fun x hx => h.offers x (sub hx) }

/-- The method is defined without a complaint by the way. -/
theorem defined (h : Underway S ((d, f) :: todo) s) (o : Options) :
    Gen.Ends (Gen.defineMethod o d f) s (fun _ s' => Gen.Defined False f s s') (Refusal False) := by
  refine Gen.ends_defineMethod (h.bodiless (d, f) (by simp)) h.fits h.loops (fun i hi => ?_) False.elim
    False.elim False.elim
  rw [h.clean] at hi
  exact absurd hi (Array.not_mem_empty i)

theorem table_lt (h : Underway S ((d, f) :: todo) s) : f.index < s.target.locals.size :=
  (Array.getElem?_eq_some_iff.1 (h.offers (d, f) (by simp)).table).1

/-- A body that is built makes no difference to the other methods. -/
theorem next (h : Underway S ((d, f) :: todo) s) (defined : Gen.Defined False f s s')
    (interior : s.target.Interior f s'.target) (labelled : s'.target.Labelled)
    (aligned : s'.target.Aligned) (other : ∀ x ∈ todo, x.2 ≠ f) : Underway S todo s' where
  inner := defined.scopes ▸ h.inner
  loops := defined.loops.trans h.loops
  fits p := by
    rw [defined.scopes]
    exact (h.fits p).mono defined.outside.ext
  clean := defined.outside.issues.trans h.clean
  names name := by
    rw [defined.scopes]
    rcases optionRel_cases (h.names name) with ⟨none, none'⟩ | ⟨e, x, some, some', denotes⟩
    · rw [none, none']
      exact .none
    · rw [some, some']
      exact .some (denotes.mono defined.outside.ext)
  signatures g x at_ := by
    rw [← h.signatures g x at_]
    cases there : s.target.module.function? g with
    | none =>
      have none := h.signatures g x at_
      rw [there] at none
      cases x with
      | field => cases at_
      | foreign | method => cases none
    | some F =>
      obtain ⟨F', there', ⟨-, name⟩, ret, params⟩ := defined.outside.ext.functions g F there
      rw [there', Option.map_some, Option.map_some, Function.signature, name, ret, params,
        Function.signature]
  fields i e he := by
    obtain ⟨G, hG, rest⟩ := h.fields i e he
    exact ⟨G, Module.getElem?_of_prefix defined.outside.ext.globals hG, rest⟩
  labelled := labelled
  aligned := aligned
  bodiless x hx := (h.bodiless x (by simp [hx])).outside defined.outside (other x hx)
  offers x hx := (h.offers x (by simp [hx])).keep (defined.outside.functions x.2 (other x hx))
    defined.outside.ext.values (interior.others x.2 (other x hx))

end Underway

/-- A method is about to be defined in two runs. -/
def displacement (S S' : Source) (s s' : GenState Builder) (f f' : FunctionId) : Displacement where
  start := s.target
  start' := s'.target
  function := f
  function' := f'
  callee g g' := ∃ x, S.At g x ∧ S'.At g' x
  field g g' := ∃ e, S.package.fields[g.index]? = some e ∧ S'.package.fields[g'.index]? = some e
  given := (s.warnings, s'.warnings)

namespace Underway

variable {S S' : Source} {d : Method} {f f' : FunctionId} {s s' : GenState Builder}
  (h : Underway S [(d, f)] s) (h' : Underway S' [(d, f')] s')
  (same : ∀ name, S'.member? name = S.member? name)

/-- What a member is known by in one run stands for what it is known by in the other. -/
theorem descriptor {e e' : Descriptor} {x : Member} (denotes : Denotes S s.target.module e x)
    (denotes' : Denotes S' s'.target.module e' x) :
    (displacement S S' s s' f f').matching.descriptor e e' := by
  cases x with
  | foreign decl =>
    obtain ⟨i, there, rfl⟩ := denotes
    obtain ⟨i', there', rfl⟩ := denotes'
    exact Matching.descriptor_function _ ⟨.foreign decl, there, there'⟩
      (forall₂_refl (VarDecl.like_refl fun _ => rfl) _) rfl
  | method m =>
    obtain ⟨i, there, rfl⟩ := denotes
    obtain ⟨i', there', rfl⟩ := denotes'
    exact Matching.descriptor_function _ ⟨.method m, ⟨i, there, rfl⟩, i', there', rfl⟩
      (forall₂_refl (VarDecl.like_refl fun _ => rfl) _) rfl
  | field e =>
    obtain ⟨i, a, name, there, value, rfl⟩ := denotes
    obtain ⟨i', a', name', there', value', rfl⟩ := denotes'
    have values : (displacement S S' s s' f f').value a a' :=
      .inl ⟨_, _, value, value', .global name name' (.inl ⟨e, there, there'⟩), nofun⟩
    cases e.size with
    | scalar => exact Matching.descriptor_scalar _ _ values rfl
    | array length => exact Matching.descriptor_array _ _ values rfl

include h h' same

theorem corresponds : s.Corresponds (displacement S S' s s' f f').matching
    (displacement S S' s s' f f').Abreast s' where
  target := {
    values := .refl _ _
    blocks := .refl _ _
    globals := .refl _ _
    function := Displacement.frame_of_offers (h.offers (d, f) (by simp))
      (h'.offers (d, f') (by simp))
    callees := by
      rintro g g' ⟨x, at_, at_'⟩
      rw [h.signatures g x at_, h'.signatures g' x at_']
    locals := (h'.offers (d, f') (by simp)).table.trans (h.offers (d, f) (by simp)).table.symm
    issues := by
      rw [Module.issueOf?, h.clean, Module.issueOf?, h'.clean]
      exact .none }
  scopes := by
    refine ⟨fun name => ?_, ?_⟩
    · have members := same name
      rcases optionRel_cases (h.names name) with ⟨none, absent⟩ | ⟨e, x, some, found, denotes⟩
      · rcases optionRel_cases (h'.names name) with ⟨none', -⟩ | ⟨e', x', -, found', -⟩
        · rw [none, none']
          exact .none
        · rw [members, absent] at found'
          cases found'
      · rcases optionRel_cases (h'.names name) with ⟨-, absent'⟩ | ⟨e', x', some', found', denotes'⟩
        · rw [members, found] at absent'
          cases absent'
        · rw [members, found] at found'
          cases found'
          rw [some, some']
          exact .some (descriptor denotes denotes')
    · rw [h.inner, h'.inner]
      exact .nil
  loops := by
    rw [h.loops, h'.loops]
    exact .nil
  warnings := ⟨[], [], (List.append_nil _).symm, (List.append_nil _).symm, .nil⟩

/-- The method is defined in the same way in both runs. -/
theorem pair (o : Options) :
    Parallel (CompileError.Like Eq) Gen.Nothing ((Gen.defineMethod o d f).run.run s).1
        ((Gen.defineMethod o d f').run.run s').1 ∧
      ((Gen.defineMethod o d f).run.run s).2.Corresponds (displacement S S' s s' f f').matching
        (displacement S S' s s' f f').Twins ((Gen.defineMethod o d f').run.run s').2 := by
  have states := corresponds h h' same
  have enter : (displacement S S' s s' f f').Twins (enterBody s.target f) (enterBody s'.target f') :=
    states.target.enter
  have functions : (displacement S S' s s' f f').matching.body f f' := ⟨rfl, rfl⟩
  exact (Displacement.simulates_twins _).defineMethod (d.like_refl fun _ => rfl) functions states
    enter

end Underway

/-- No warning was given yet, and names and tables are in order. -/
structure Undisturbed (s : GenState Builder) : Prop where
  warnings : s.warnings = []
  labelled : s.target.Labelled
  aligned : s.target.Aligned

namespace Undisturbed

variable {s : GenState Builder} (h : Undisturbed s)

include h

theorem perform {r : Reply} (c : Command r) :
    Undisturbed { s with target := (s.target.perform c).2 } :=
  ⟨h.warnings, h.labelled.perform c, h.aligned.perform c⟩

theorem bindName (name : String) (d : Descriptor) :
    Gen.Ends (Gen.bindName name d) s (fun _ s' => Undisturbed s' ∧ s'.target = s.target)
      fun _ => True :=
  Gen.ends_bindName (fun _ => ⟨⟨h.warnings, h.labelled, h.aligned⟩, rfl⟩) fun _ _ => trivial

theorem declare {r : Reply} (c : Command r) (name : String) (d : r.Carrier → Descriptor) :
    Gen.Ends (do
      let a ← Gen.emit c
      Gen.bindName name (d a)) s (fun _ s' => Undisturbed s') fun _ => True := by
  refine Gen.ends_bind (P := fun _ s' => Undisturbed s') (Gen.ends_emit (h.perform c)) ?_
  exact fun a s' h' => (h'.bindName name (d a)).mono (fun _ _ both => both.1) fun _ _ => trivial

theorem declareField (f : FieldDecl) :
    Gen.Ends (Gen.declareField f) s (fun _ s' => Undisturbed s') fun _ => True := by
  unfold Gen.declareField
  cases f.size with
  | array length =>
    dsimp only
    split
    · exact Gen.ends_throw trivial
    · split
      · exact Gen.ends_throw trivial
      · exact h.declare (.globalArray f.name f.ty.repr length) f.name fun base =>
          .array f.ty base length f.line
  | scalar =>
    cases f.initial? with
    | none => exact Gen.ends_throw trivial
    | some init =>
      exact h.declare (.globalScalar f.name f.ty.repr init) f.name fun slot =>
        .scalar .globalVariable f.ty slot f.line

theorem declareExtern (e : ExternDecl) :
    Gen.Ends (Gen.declareExtern e) s (fun _ s' => Undisturbed s') fun _ => True := by
  have declared := h.declare
    (.declareFunction e.name e.ret.repr (e.params.map fun p => (none, p.ty.repr)))
    e.name fun id => .function e.ret id e.params e.line
  exact declared

end Undisturbed

theorem ends_declareMethods_offers : ∀ (ds : List Method) {s : GenState Builder}, Undisturbed s →
    Gen.Ends (ds.mapM Gen.declareMethod) s (fun ids s' => Undisturbed s' ∧
      (∀ x ∈ ds.zip ids, OffersMethod s'.target x) ∧
      ∀ x, OffersMethod s.target x → OffersMethod s'.target x) fun _ => True
  | [], s, h => Gen.ends_pure ⟨h, by simp, fun _ offers => offers⟩
  | d :: ds, s, h => by
    rw [List.mapM_cons]
    refine Gen.ends_bind (P := fun id s₁ => Undisturbed s₁ ∧ OffersMethod s₁.target (d, id) ∧
      ∀ x, OffersMethod s.target x → OffersMethod s₁.target x) ?_ ?_
    · refine Gen.ends_bind (P := fun id s₁ => Undisturbed s₁ ∧ OffersMethod s₁.target (d, id) ∧
        ∀ x, OffersMethod s.target x → OffersMethod s₁.target x) ?_ ?_
      · exact Gen.ends_emit ⟨h.perform _, s.target.declareFunction_offers h.aligned _ _ _,
          fun x offers => offers.declareFunction _ _ _⟩
      · rintro id s₁ ⟨h₁, new, old⟩
        refine Gen.ends_bind (h₁.bindName d.name _) ?_
        rintro _ s₂ ⟨h₂, same⟩
        exact Gen.ends_pure ⟨h₂, same ▸ new, same ▸ old⟩
    · rintro id s₁ ⟨h₁, new, old⟩
      refine Gen.ends_bind (ends_declareMethods_offers ds h₁) ?_
      rintro ids s₂ ⟨h₂, later, kept⟩
      refine Gen.ends_pure ⟨h₂, fun x hx => ?_, fun x offers => kept x (old x offers)⟩
      rw [List.zip_cons_cons, List.mem_cons] at hx
      rcases hx with rfl | hx
      · exact kept _ new
      · exact later x hx

theorem ends_declarations_offers (es : List ExternDecl) (p : Package) :
    Gen.Ends (Gen.declarations es p) (.start Builder.empty) (fun ids s => Undisturbed s ∧
      ∀ x ∈ p.methods.zip ids, OffersMethod s.target x) fun _ => True := by
  have start : Undisturbed (.start Builder.empty) := ⟨rfl, .empty, rfl⟩
  rw [Gen.declarations]
  refine Gen.ends_bind (P := fun _ s => Undisturbed s) (Gen.ends_emit (start.perform _)) ?_
  intro _ s₁ h₁
  refine Gen.ends_bind (Gen.ends_forM (I := fun _ s => Undisturbed s)
    (fun e _ s h => h.declareExtern e) es s₁ h₁) ?_
  intro _ s₂ h₂
  refine Gen.ends_bind (Gen.ends_forM (I := fun _ s => Undisturbed s)
    (fun f _ s h => h.declareField f) p.fields s₂ h₂) ?_
  intro _ s₃ h₃
  exact (ends_declareMethods_offers p.methods h₃).mono (fun _ _ all => ⟨all.1, all.2.1⟩)
    fun _ _ => trivial

/-- Methods have their functions in order. -/
theorem place_of_mem {ds : List Method} {n : Nat} {x : Method × FunctionId}
    (hx : x ∈ ds.zip ((List.range' n ds.length).map FunctionId.mk)) :
    ∃ i, ds[i]? = some x.1 ∧ x.2 = ⟨n + i⟩ := by
  obtain ⟨i, hi⟩ := List.mem_iff_getElem?.1 hx
  obtain ⟨hd, hf⟩ := List.getElem?_zip_eq_some.1 hi
  rw [List.getElem?_map, Option.map_eq_some_iff] at hf
  obtain ⟨k, hk, same⟩ := hf
  rw [List.getElem?_range' (List.getElem?_eq_some_iff.1 hd).1] at hk
  cases hk
  exact ⟨i, hd, by rw [← same, Nat.one_mul]⟩

section Midway

variable {S : Source} {s : GenState Builder}
  (h : Midway S S.externs S.package.fields S.package.methods s)

include h

/-- Externs and methods are declared in their places, and nothing more. -/
theorem Midway.bodiless {g : FunctionId} {x : Member} {sig : Signature} (place : S.At g x)
    (has : x.signature? = some sig) : s.target.module.Bodiless g sig := by
  have listed : (S.externs.map (·.signature) ++
      S.package.methods.map (·.signature))[g.index]? = some sig := by
    cases x with
    | field f => cases place
    | foreign e =>
      cases has
      have there : S.externs[g.index]? = some e := place
      have held := (List.getElem?_eq_some_iff.1 there).1
      rw [List.getElem?_append_left (by simpa using held)]
      simp [there]
    | method d =>
      cases has
      obtain ⟨i, there, rfl⟩ := place
      rw [List.getElem?_append_right (by simp)]
      simp [there]
  have bodiless := h.preamble.bodiless _ sig listed
  rwa [show Module.empty.functions.size + g.index = g.index from Nat.zero_add _] at bodiless

theorem Midway.kinds :
    s.target.module.globals.toList.map (·.kind) = S.package.fields.map (·.kind) :=
  h.preamble.globals

/-- A field has the global in its place. -/
theorem Midway.field {i : Nat} {f : FieldDecl} (hf : S.package.fields[i]? = some f) :
    ∃ G, s.target.module.globals[i]? = some G ∧ G.name = f.name ∧ G.kind = f.kind := by
  have kind : (s.target.module.globals.toList.map (·.kind))[i]? = some f.kind := by
    rw [h.kinds]
    simp [hf]
  rw [List.getElem?_map, Option.map_eq_some_iff] at kind
  obtain ⟨G, hG, kind⟩ := kind
  rw [Array.getElem?_toList] at hG
  obtain ⟨-, f', hf', name⟩ := h.registered.globals i G hG
  rw [hf] at hf'
  cases hf'
  exact ⟨G, hG, name, kind⟩

end Midway

/-- After the declarations all bodies are to be built. -/
theorem ends_declarations_underway {S : Source} (named : ∀ x ∈ S.members, x.name ≠ "") :
    Gen.Ends (Gen.declarations S.externs S.package) (.start Builder.empty) (fun ids s =>
      ids = (List.range' S.externs.length S.package.methods.length).map FunctionId.mk ∧
      s.warnings = [] ∧ (S.members.map Member.name).Nodup ∧
      s.target.module.globals.size = S.package.fields.length ∧
      Underway S (S.package.methods.zip ids) s) fun _ => True := by
  have first := (@Gen.ends_declarations False [[]] [[]] [[]] Builder.empty S.externs S.package
    Builder.Reachable.empty.grounded.blocks False.elim False.elim False.elim).lax
  refine ((first.and (ends_declarations named)).lax.and (ends_declarations_offers _ _)).mono ?_
    fun _ _ => trivial
  rintro ids s ⟨⟨⟨numbered, -⟩, midway⟩, undisturbed, offers⟩
  rw [show Builder.empty.module.functions.size + S.externs.length = S.externs.length from
    Nat.zero_add _] at numbered
  have size : s.target.module.globals.size = S.package.fields.length := by
    simpa using congrArg List.length midway.kinds
  exact ⟨numbered, undisturbed.warnings, midway.registered.distinct, size, {
    inner := midway.preamble.inner
    loops := midway.preamble.loops
    fits := midway.preamble.fits
    clean := midway.preamble.issues
    names := midway.registered.denotes_member?
    signatures := fun g x place => by
      cases x with
      | field f => cases place
      | foreign e => exact (midway.bodiless place rfl).signature_eq
      | method d => exact (midway.bodiless place rfl).signature_eq
    fields := fun i f hf => midway.field hf
    labelled := undisturbed.labelled
    aligned := undisturbed.aligned
    bodiless := fun x mem => by
      rw [numbered] at mem
      exact midway.bodiless (x := .method x.1) (place_of_mem mem) rfl
    offers := offers }⟩

end Meaning

end Decaf
