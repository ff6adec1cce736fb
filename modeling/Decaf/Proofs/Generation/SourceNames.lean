import Decaf.Proofs.Building.Symbols
import Decaf.Proofs.Generation.Reordering

/-!
# The names of the source

The externs and methods of a program are the functions of its module, under the names that they
have in the program, and its fields are the first globals, under theirs. Only strings have names
that are made up, and these are made up last: they keep off all names of the program, whatever
those look like.
-/

namespace Decaf

open IR

namespace IR.Builder

variable {b : Builder}

/-- Functions of the given names are declared, and if there are no others symbols are distinct. -/
structure Separates (names : List String) (b : Builder) : Prop where
  claims : b.Claims
  declared : names <+: b.module.functionNames
  distinct : b.module.functionNames = names → b.module.symbols.Nodup

/-- As long as no more functions are declared, symbols stay distinct. -/
theorem Separates.perform {names : List String} (h : b.Separates names) {r : Reply}
    (c : Command r) : (b.perform c).2.Separates names := by
  have step := b.symbolStep_perform c
  have more := step.functionNames
  refine ⟨step.claims h.claims, ?_, fun same => ?_⟩
  · rw [more]
    exact h.declared.trans (List.prefix_append _ _)
  · -- The given names stood there before the command, so if they are all, it declared none.
    rw [more] at same
    have length := congrArg List.length same
    have before := h.declared.length_le
    rw [List.length_append] at length
    have none : c.declared? = none :=
      Option.toList_eq_nil_iff.1 (List.length_eq_zero_iff.1 (by omega))
    rw [none, Option.toList_none, List.append_nil] at same
    refine (symbols_nodup_perform h.claims c).2 ⟨h.distinct same, fun name found => ?_⟩
    rw [none] at found
    cases found

end IR.Builder

section Invariants

variable {τ τ' : Type} [Target τ] [Target τ'] {k : Matching} {T₀ T : τ → τ' → Prop}

theorem SimulatesPrograms.declarations (h : SimulatesPrograms k T₀ T) {es es' : List ExternDecl}
    {p p' : Package} (externs : List.Forall₂ (ExternDecl.Like k.line) es es')
    (alike : p.Like k.line p') : Gen.Relates k T₀ (List.Forall₂ k.function)
      (Gen.declarations es p) (Gen.declarations es' p') := by
  unfold Gen.declarations
  rw [alike.name]
  refine (h.emit (.setModuleName p.name)).bind fun _ _ _ => ?_
  refine (Gen.Relates.forM externs fun e e' => h.declareExtern).bind fun _ _ _ => ?_
  refine (Gen.Relates.forM alike.fields fun f f' => h.declareField).bind fun _ _ _ => ?_
  exact Gen.Relates.mapM alike.methods fun d d' => h.declareMethod

variable {I : Builder → Prop} (keeps : ∀ t {r : Reply} (c : Command r), I t → I (t.perform c).2)

include keeps

/-- Declaring the members of a package keeps up what all commands keep up. -/
theorem Gen.invariant_declarations {es : List ExternDecl} {p : Package} {ids : List FunctionId}
    {s : GenState Builder} (start : I Builder.empty)
    (yields : Gen.Yields (Gen.declarations es p) (.start Builder.empty) ids s) : I s.target := by
  obtain ⟨-, after⟩ := (simulates_invariant keeps).declarations
    (forall₂_refl (ExternDecl.like_refl fun _ => trivial) es)
    (Package.like_refl (fun _ => trivial) p)
    (.start Builder.empty) (.start Builder.empty)
    ⟨⟨rfl, start⟩, ⟨Matching.bindings_nil, .nil⟩, .nil, [], [], rfl, rfl, .nil⟩
  have run : ((Gen.declarations es p).run.run (.start Builder.empty)).2 = s :=
    congrArg Prod.snd yields
  rw [run] at after
  exact after.target.2

/-- So does building all bodies. -/
theorem Meaning.Underway.invariant {S : Meaning.Source} {o : Options} :
    ∀ {todo : List (Method × FunctionId)} {s u : GenState Builder}, Meaning.Underway S todo s →
      (todo.map Prod.snd).Nodup →
      Gen.Yields (todo.forM fun x => Gen.defineMethod o x.1 x.2) s () u → I s.target → I u.target
  | [], s, u, _, _, run, holds => by
    cases run
    exact holds
  | (d, f) :: todo, s, u, h, distinct, run, holds => by
    rw [List.map_cons, List.nodup_cons] at distinct
    have other : ∀ x ∈ todo, x.2 ≠ f := fun x hx same =>
      distinct.1 (List.mem_map.2 ⟨x, hx, same⟩)
    obtain ⟨⟨⟩, s₁, here, later⟩ := Gen.yields_bind_iff.1 run
    have next := Gen.invariant_defineMethod keeps o d f h.loops holds
    rw [show ((Gen.defineMethod o d f).run.run s).2 = s₁ from congrArg Prod.snd here] at next
    exact (h.after here other).invariant distinct.2 later next

end Invariants

namespace Generated

variable {typed : Prop} {es : List ExternDecl} {p : Package} {m : Module}
  (h : Generated typed Module.empty es p m)

include h

theorem signatures_eq : m.functions.toList.map Function.signature =
    es.map (·.signature) ++ p.methods.map (·.signature) := by
  obtain ⟨Fs, Gs, functions, foreign, methods⟩ := h.functions_eq
  rw [functions, List.map_append]
  refine congrArg₂ _ (map_eq_of_forall₂ foreign fun e _ F ⟨f, hF, bodiless⟩ => ?_)
    (map_eq_of_forall₂ methods fun d _ F ⟨f, hF, implements⟩ => ?_)
  · obtain ⟨⟨-, name⟩, ret, -, types, -⟩ := bodiless.found hF
    rw [Function.signature, name, ret, types]
  · obtain ⟨-, name, ret, types⟩ := implements.found hF
    rw [Function.signature, name, ret, types]

/-- Externs are declarations, methods are definitions. -/
theorem isDeclaration_iff {i : Nat} {F : Function} (hF : m.functions[i]? = some F) :
    F.isDeclaration ↔ i < es.length := by
  rcases h.function_cases (f := ⟨i⟩) hF with ⟨e, he, bodiless⟩ | ⟨j, d, place, -, implements⟩
  · exact iff_of_true (bodiless.declaration hF).1 (List.getElem?_eq_some_iff.1 he).1
  · have after : i = es.length + j := place
    rw [implements.isDeclaration hF]
    exact iff_of_false Bool.false_ne_true (by omega)

end Generated

namespace Meaning

variable {S : Source} {ids : List FunctionId} {s : GenState Builder}

/-- The globals of the fields are there first. -/
theorem Declared.globalNames (h : Declared S ids s) :
    s.target.module.globalNames = S.package.fields.map (·.name) := by
  have length : s.target.module.globals.toList.length = S.package.fields.length := h.size
  refine List.ext_getElem (by simpa [Module.globalNames] using length) fun i _ inside => ?_
  rw [List.length_map] at inside
  obtain ⟨G, hG, name, -⟩ := h.underway.fields i _ (List.getElem?_eq_getElem inside)
  have here : s.target.module.globals.toList[i]? = some G := (Array.getElem?_toList ..).trans hG
  rw [List.getElem?_eq_getElem (length ▸ inside), Option.some_inj] at here
  simp only [Module.globalNames, List.getElem_map, here, name]

theorem Underway.functionName {todo : List (Method × FunctionId)} (h : Underway S todo s)
    {g : FunctionId} {x : Member} {sig : Signature} (place : S.At g x)
    (has : x.signature? = some sig) :
    s.target.module.functionNames[g.index]? = some sig.name := by
  have there := h.signatures g x place
  rw [has] at there
  obtain ⟨F, hF, same⟩ := Option.map_eq_some_iff.1 there
  have held : s.target.module.functions.toList[g.index]? = some F :=
    (Array.getElem?_toList ..).trans hF
  rw [Module.functionNames, List.getElem?_map, held, ← same]
  rfl

/-- All externs and methods are declared under their own names. -/
theorem Declared.names_prefix (h : Declared S ids s) :
    S.externs.map (·.name) ++ S.package.methods.map (·.name) <+:
      s.target.module.functionNames := by
  refine List.prefix_iff_getElem?.2 fun k inside => ?_
  rw [← List.getElem?_eq_getElem]
  rw [List.length_append, List.length_map, List.length_map] at inside
  rcases Nat.lt_or_ge k S.externs.length with first | after
  · have there := List.getElem?_eq_getElem first
    rw [List.getElem?_append_left (by simpa using first), List.getElem?_map, there]
    exact h.underway.functionName (g := ⟨k⟩) (x := .foreign _) there rfl
  · have there := List.getElem?_eq_getElem (show k - S.externs.length < S.package.methods.length by
      omega)
    rw [List.getElem?_append_right (by simpa using after), List.length_map, List.getElem?_map,
      there]
    refine h.underway.functionName (g := ⟨k⟩) (x := .method _) ⟨_, there, ?_⟩ rfl
    rw [Nat.add_sub_cancel' after]

/-- After the declarations the symbols are the names of the members. -/
theorem Declared.separates (h : Declared S ids s) :
    s.target.Separates (S.externs.map (·.name) ++ S.package.methods.map (·.name)) where
  claims := Gen.invariant_declarations (I := Builder.Claims)
    (fun b _ c claims => (b.symbolStep_perform c).claims claims) nofun h.yields
  declared := h.names_prefix
  distinct same := by
    have distinct := h.distinct
    rw [Source.names_members, List.append_assoc] at distinct
    rw [Module.symbols, same, h.globalNames, List.append_assoc]
    exact (List.perm_append_comm.append_left _).nodup_iff.1 distinct

end Meaning

/-- The global is what the field says. A scalar one starts with a value of its own type. -/
def FieldDecl.Describes (f : FieldDecl) (G : Global) : Prop :=
  G.name = f.name ∧ match f.size with
    | .scalar => ∃ c, f.initial? = some c ∧ c.ty = f.ty.repr ∧ G.kind = .scalar f.ty.repr c
    | .array length => G.kind = .array f.ty.repr length

/-- The functions of a module are the externs and then the methods, its first globals are the
fields and the others are strings. No two of them have one name, so each is found by its own. -/
structure IR.Module.Mirrors (m : Module) (es : List ExternDecl) (p : Package) : Prop where
  functions : m.functions.toList.map Function.signature =
    es.map (·.signature) ++ p.methods.map (·.signature)
  declarations : ∀ (i : Nat) F, m.functions[i]? = some F → (F.isDeclaration ↔ i < es.length)
  fields : ∀ (i : Nat) f, p.fields[i]? = some f → ∃ G, m.globals[i]? = some G ∧ f.Describes G
  strings : ∀ (i : Nat) G, m.globals[i]? = some G → p.fields.length ≤ i →
    ∃ bytes, G.kind = .string bytes
  distinct : m.symbols.Nodup
  functionByName : ∀ name F, m.functionByName? name = some F ↔ F ∈ m.functions ∧ F.name = name
  globalByName : ∀ name G, m.globalByName? name = some G ↔ G ∈ m.globals ∧ G.name = name

theorem FieldDecl.describes {f : FieldDecl} {G : Global} (name : G.name = f.name)
    (kind : G.kind = f.kind) (valid : f.size = .scalar → f.initial? ≠ none) : f.Describes G := by
  refine ⟨name, ?_⟩
  rw [kind, FieldDecl.kind]
  cases size : f.size with
  | array length => rfl
  | scalar =>
    obtain ⟨c, initial⟩ := Option.ne_none_iff_exists'.1 (valid size)
    exact ⟨c, initial, Gen.initial?_ty initial, by rw [initial]; rfl⟩

open Meaning in
/-- A program in which everything has a name is mirrored by the module that it compiles to. -/
theorem compile_mirrors {o : Options} {P : Program} {m : Module} {ws : List Warning}
    (named : P.Named) (compiled : compile o P = .ok (m, ws)) :
    ∃ p, P.package = some p ∧ m.Mirrors P.externs p := by
  obtain ⟨p, package, link⟩ := exists_linked compiled
  obtain ⟨es, _⟩ := P
  obtain rfl : _ = some p := package
  have members := named p rfl
  obtain ⟨scopes, linked⟩ := link members
  obtain ⟨ids, s, declared⟩ := exists_declared (S := ⟨es, p⟩) members compiled
  obtain ⟨_, same, u, yields, rfl, -⟩ := compile_eq_ok_iff.1 compiled
  cases same
  have built := declared.underway.invariant (I := Builder.Separates _)
    (fun _ _ c separates => separates.perform c) declared.functions_nodup
    (declared.yields_program_iff.1 yields) declared.separates
  -- The bodies declare no functions, so symbols are still as distinct as after the declarations.
  have distinct := built.distinct linked.generated.functionNames_eq
  obtain ⟨functionNames, globalNames, -⟩ := List.nodup_append.1 distinct
  refine ⟨p, rfl, ?_⟩
  exact {
    functions := linked.generated.signatures_eq
    declarations := fun i F => linked.generated.isDeclaration_iff
    fields := fun i f hf => by
      obtain ⟨G, hG, -, name, kind⟩ := linked.fields i f hf
      exact ⟨G, hG, FieldDecl.describes name kind (linked.valid f (List.mem_of_getElem? hf))⟩
    strings := fun _ _ => linked.generated.string
    distinct := distinct
    functionByName := fun _ _ => Module.functionByName?_eq_some_iff functionNames
    globalByName := fun _ _ => Module.globalByName?_eq_some_iff globalNames }

/-- A program whose names look like made-up ones, with two strings. -/
def mimicking : Program where
  externs := [⟨".str1", .void, [⟨none, .string, 1⟩], 1⟩]
  package := some {
    name := "P"
    fields := [⟨"x1", .bool, .scalar, none, 2⟩, ⟨"tmp", .int, .array 2, none, 3⟩]
    methods := [{
      name := "x"
      ret := .void
      params := []
      line := 4
      body := .mk [] [.call ".str1" [.constant ⟨.string "a", "a", 5⟩] 5,
        .call ".str1" [.constant ⟨.string "b", "b", 6⟩] 6] }]
    line := 2 }

theorem mimicking_mirrored :
    mimicking.Named ∧ ∃ m ws, compile {} mimicking = .ok (m, ws) ∧
      m.symbols = [".str1", "x", "x1", "tmp", ".str", ".str2"] ∧
      ∃ p, mimicking.package = some p ∧ m.Mirrors mimicking.externs p := by
  have named : mimicking.Named := by
    intro p package
    cases package
    decide
  have result : (compile {} mimicking).toOption.map (·.1.symbols) =
      some [".str1", "x", "x1", "tmp", ".str", ".str2"] := by
    decide +kernel
  obtain ⟨⟨m, ws⟩, compiled, symbols⟩ := Option.map_eq_some_iff.1 result
  have compiled := ok_of_toOption compiled
  exact ⟨named, m, ws, compiled, symbols, compile_mirrors named compiled⟩

end Decaf
