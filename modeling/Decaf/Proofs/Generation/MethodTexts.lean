import Mathlib.Data.List.Perm.Basic
import Decaf.Proofs.Generation.MethodOrder
import Decaf.Proofs.Meaning.Runs

/-!
# The printed module in another order

In another order the methods of a package are printed as before. Only strings are numbered in the
order in which they come up, so that they go by other names; which strings there are, the fields
and the declarations of externs do not change.
-/

namespace Decaf

open IR

/-- The renaming that takes one list of names to the other. -/
def renameBy (xs ys : List String) (x : String) : String :=
  ((xs.zip ys).lookup x).getD x

theorem map_renameBy {xs ys : List String} (distinct : xs.Nodup) (length : xs.length = ys.length) :
    xs.map (renameBy xs ys) = ys := by
  induction xs generalizing ys with
  | nil => exact (List.length_eq_zero_iff.1 length.symm).symm
  | cons x xs ih =>
    cases ys with
    | nil => cases length
    | cons y ys =>
      rw [List.nodup_cons] at distinct
      have first : renameBy (x :: xs) (y :: ys) x = y := by simp [renameBy]
      have others : xs.map (renameBy (x :: xs) (y :: ys)) = xs.map (renameBy xs ys) := by
        refine List.map_congr_left fun z mem => ?_
        have other : (z == x) = false := beq_false_of_ne fun same => distinct.1 (same ▸ mem)
        simp only [renameBy, List.zip_cons_cons, List.lookup_cons, other]
      rw [List.map_cons, first, others, ih distinct.2 (Nat.succ.inj length)]

namespace IR

/-- How a function that is not defined here is declared. -/
def Signature.declaration (sig : Signature) : String :=
  s!"declare {sig.ret.name} @{sig.name}({commaSeparated (sig.params.map Ty.name)})\n"

theorem Global.text_congr {G G' : Global} (name : G'.name = G.name) (kind : G'.kind = G.kind) :
    G'.text = G.text := by
  rw [Global.text, Global.text, name, kind]

theorem Global.kind_rename (ρ : String → String) (G : Global) : (G.rename ρ).kind = G.kind := by
  unfold Global.rename
  split <;> rfl

namespace Module

variable (m : Module)

def stringGlobals : List Global := m.globals.toList.filter (·.kind.isString)

/-- The lines for strings. -/
def stringTexts : List String := m.stringGlobals.map Global.text

/-- The lines for fields. -/
def fieldTexts : List String := (m.globals.toList.filter (!·.kind.isString)).map Global.text

/-- The lines for functions that are declared only. -/
def externTexts : List String := (m.functions.toList.filter (·.isDeclaration)).map m.functionText

theorem stringTexts_renameStrings (ρ : String → String) :
    (m.renameStrings ρ).stringTexts = m.stringGlobals.map fun G => (G.rename ρ).text := by
  simp only [stringTexts, stringGlobals, renameStrings, Array.toList_map, List.filter_map,
    List.map_map, Function.comp_def, Global.kind_rename]

variable {m}

theorem Bodiless.declaration {f : FunctionId} {sig : Signature} (h : m.Bodiless f sig)
    {F : Function} (hF : m.function? f = some F) :
    F.isDeclaration = true ∧ m.functionText F = sig.declaration := by
  obtain ⟨⟨-, name⟩, ret, blocks, types, -⟩ := h.found hF
  have declares : F.isDeclaration = true := by simp [Function.isDeclaration, blocks]
  refine ⟨declares, ?_⟩
  rw [functionText, if_pos declares, name, ret, Signature.declaration, ← types, List.map_map]
  rfl

end Module

end IR

/-- The externs are declared in the order in which they come, and nothing else is. -/
theorem Generated.externTexts_eq {typed : Prop} {es : List ExternDecl} {p : Package} {m : Module}
    (h : Generated typed Module.empty es p m) :
    m.externTexts = es.map (·.signature.declaration) := by
  obtain ⟨Fs, Gs, functions, foreign, methods⟩ := h.functions_eq
  have declared : ∀ F ∈ Fs, F.isDeclaration = true := fun F mem => by
    obtain ⟨e, -, f, hF, bodiless⟩ := exists_of_mem_right foreign mem
    exact (bodiless.declaration hF).1
  have defined : ∀ F ∈ Gs, F.isDeclaration = false := fun F mem => by
    obtain ⟨d, -, f, hF, implements⟩ := exists_of_mem_right methods mem
    exact implements.isDeclaration hF
  rw [Module.externTexts, functions, List.filter_append, List.filter_eq_self.2 declared,
    List.filter_eq_nil_iff.2 fun F mem => by simp [defined F mem], List.append_nil]
  exact map_eq_of_forall₂ foreign fun e _ F ⟨f, hF, bodiless⟩ => (bodiless.declaration hF).2

theorem FieldDecl.isString_kind (f : FieldDecl) : f.kind.isString = false := by
  unfold FieldDecl.kind
  split <;> rfl

namespace Meaning

variable {S S' : Source} {o : Options} {m m' : Module}

namespace Stage.Of

variable {t t' : Stage}

theorem globals (h : t.Of S o m) : t.after.target.module.globals.toList =
    t.before.target.module.globals.toList ++ t.strings :=
  h.underway.globals h.yields

/-- A field is found in its place at the end of a stage as well. -/
theorem field (h : t.Of S o m) {i : Nat} {e : FieldDecl} {G : Global}
    (he : S.package.fields[i]? = some e) (hG : t.after.target.module.globals[i]? = some G) :
    G.name = e.name ∧ G.kind = e.kind := by
  obtain ⟨G', before, name, kind⟩ := h.underway.fields i e he
  rw [Module.getElem?_of_prefix ⟨_, h.globals.symm⟩ before] at hG
  cases hG
  exact ⟨name, kind⟩

theorem string (h : t.Of S o m) {n : Nat} {G : Global}
    (hG : t.after.target.module.globals[t.before.target.module.globals.size + n]? = some G) :
    t.strings[n]? = some G := by
  rw [← Array.getElem?_toList, h.globals, List.getElem?_append_right (by simp)] at hG
  simpa using hG

section

variable (h : t.Of S o m) (h' : t'.Of S' o m') (method : t'.method = t.method)
  (same : ∀ name, S'.member? name = S.member? name)

include h h' method same

/-- Two stages for one method come to the same. -/
theorem abreast : (displacement S S' t.before t'.before t.function t'.function).Abreast
    t.after.target t'.after.target ∧ t'.warnings = t.warnings := by
  obtain ⟨d, f, s, u⟩ := t
  obtain ⟨d', f', s', u'⟩ := t'
  obtain rfl : d' = d := method
  obtain ⟨v, yields, abreast, ws, now, now'⟩ := h.underway.alike h'.underway same h.yields
  cases h'.yields.symm.trans yields
  refine ⟨abreast, ?_⟩
  simp only [Stage.warnings]
  rw [now, now', List.drop_left, List.drop_left]

theorem strings : List.Forall₂ Displacement.text t.strings t'.strings := by
  obtain ⟨new, new', now, now', alike⟩ := (h.abreast h' method same).1.globals
  rw [h.globals] at now
  rw [h'.globals] at now'
  rwa [List.append_cancel_left now, List.append_cancel_left now']

/-- With the strings renamed the method has one text. -/
theorem functionText {ρ : String → String}
    (names : t.strings.map (fun G => ρ G.name) = t'.strings.map (·.name)) {F F' : Function}
    (hF : m.function? t.function = some F) (hF' : m'.function? t'.function = some F') :
    m'.functionText F' = (m.renameStrings ρ).functionText F := by
  have defined := (h.underway.defined o).of_yields h.yields
  have interior := Gen.interior_defineMethod o t.method h.underway.table_lt h.underway.loops
  rw [h.yields] at interior
  have shown : (displacement S S' t.before t'.before t.function t'.function).Shown ρ
      t.after.target t'.after.target m m' := {
    abreast := (h.abreast h' method same).1
    keeps := h.keeps
    keeps' := h'.keeps
    labelled := h.labelled
    labelled' := h'.labelled
    finished := defined.finished
    named := interior.named (congrArg Array.size defined.outside.issues)
    renamed := by
      rintro g g' G G' (⟨e, there, there'⟩ | ⟨n, rfl, rfl⟩) hG hG'
      · obtain ⟨name, kind⟩ := h.field there hG
        obtain ⟨name', -⟩ := h'.field there' hG'
        rw [name', Global.rename, kind, e.isString_kind, if_neg Bool.false_ne_true, name]
      · have here := h.string hG
        have here' := h'.string hG'
        have both := congrArg (·[n]?) names
        simp only [List.getElem?_map, here, here', Option.map_some, Option.some.injEq] at both
        have texts := optionRel_getElem? (h.strings h' method same) n
        rw [here, here'] at texts
        cases texts with
        | some alike =>
          obtain ⟨bytes, kind, -⟩ := alike
          rw [← both, Global.rename, if_pos (by rw [kind]; rfl)] }
  exact shown.functionText (h.keeps.function.symm.trans hF) (h'.keeps.function.symm.trans hF')

end

theorem isString (h : t.Of S o m) : ∀ G ∈ t.strings, G.kind.isString = true := by
  intro G mem
  obtain ⟨-, -, bytes, -, kind⟩ := exists_of_mem_right (h.strings h rfl fun _ => rfl) mem
  rw [kind]
  rfl

end Stage.Of

/-- A module that was compiled in stages, one for each method. -/
structure Staged (S : Source) (o : Options) (m : Module) (ws : List Warning) (ts : List Stage) :
    Prop where
  methods : ts.map Stage.method = S.package.methods
  stages : ∀ t ∈ ts, t.Of S o m
  places : ∀ t ∈ ts, S.At t.function (.method t.method)
  warnings : ws = ts.flatMap Stage.warnings
  fields : m.fieldTexts = S.package.fields.map fun f => Global.text ⟨⟨0⟩, f.name, f.kind, ⟨0⟩⟩
  strings : m.stringGlobals = ts.flatMap Stage.strings
  distinct : (m.stringGlobals.map (·.name)).Nodup
  reports : ∀ t ∈ ts, warningsOf o ⟨S.externs, some S.package⟩ t.method = .ok t.warnings

namespace Declared

variable {ids : List FunctionId} {s : GenState Builder} (h : Declared S ids s)

include h

/-- There is a global for each field, and no other yet. -/
theorem fields : List.Forall₂ (fun (f : FieldDecl) (G : Global) =>
    G.name = f.name ∧ G.kind = f.kind) S.package.fields s.target.module.globals.toList := by
  refine List.forall₂_iff_get.2 ⟨by simp [h.size], fun i hi hi' => ?_⟩
  obtain ⟨G, hG, name, kind⟩ := h.underway.fields i _ (List.getElem?_eq_getElem hi)
  rw [← Array.getElem?_toList, List.getElem?_eq_getElem hi'] at hG
  cases hG
  exact ⟨name, kind⟩

theorem not_isString {G : Global} (mem : G ∈ s.target.module.globals.toList) :
    G.kind.isString = false := by
  obtain ⟨f, -, -, kind⟩ := exists_of_mem_right h.fields mem
  rw [kind, f.isString_kind]

/-- The warnings of a stage are those of its method. -/
theorem reports {t : Stage} (stage : t.Of S o m) (place : t.place ∈ S.package.methods.zip ids) :
    warningsOf o ⟨S.externs, some S.package⟩ t.method = .ok t.warnings := by
  have start : Underway S [t.place] s := h.underway.mono (by simpa using place)
  obtain ⟨u, built, -, ws, now, now'⟩ := stage.underway.alike start (fun _ => rfl) stage.yields
  refine (h.warningsOf_eq_ok_iff place).2 ⟨u, built, ?_⟩
  rw [now', h.warnings, Stage.warnings, now, List.drop_left, List.nil_append]

/-- A compiled program was compiled in stages. -/
theorem exists_staged {ws : List Warning}
    (compiled : compile o ⟨S.externs, some S.package⟩ = .ok (m, ws)) :
    ∃ ts, Staged S o m ws ts := by
  obtain ⟨p, same, u, yields, rfl, rfl⟩ := compile_eq_ok_iff.1 compiled
  cases same
  obtain ⟨labelled, -, ts, places, stages, warnings, globals⟩ :=
    h.underway.exists_stages h.functions_nodup (h.yields_program_iff.1 yields)
  have placed {t : Stage} (mem : t ∈ ts) : t.place ∈ S.package.methods.zip ids := by
    rw [← places]
    exact List.mem_map_of_mem mem
  have old {G : Global} (mem : G ∈ s.target.module.globals.toList) := h.not_isString mem
  have new {G : Global} (mem : G ∈ ts.flatMap Stage.strings) : G.kind.isString = true := by
    obtain ⟨t, ht, mem⟩ := List.mem_flatMap.1 mem
    exact (stages t ht).isString G mem
  exact ⟨ts, {
    methods := by
      have first := congrArg (List.map Prod.fst) places
      rw [List.map_map, List.map_fst_zip (Nat.le_of_eq h.length.symm)] at first
      exact first
    stages := stages
    places := fun t mem => by
      have place := placed mem
      rw [h.numbered] at place
      exact place_of_mem place
    warnings := by rw [warnings, h.warnings, List.nil_append]
    fields := by
      rw [Module.fieldTexts, globals, List.filter_append,
        List.filter_eq_self.2 fun G mem => by simp [old mem],
        List.filter_eq_nil_iff.2 fun G mem => by simp [new mem], List.append_nil]
      exact map_eq_of_forall₂ h.fields fun f _ G both => Global.text_congr both.1 both.2
    strings := by
      rw [Module.stringGlobals, globals, List.filter_append,
        List.filter_eq_nil_iff.2 fun G mem => by simp [old mem],
        List.filter_eq_self.2 fun G mem => new mem, List.nil_append]
    distinct := labelled.distinct.sublist (List.filter_sublist.map _)
    reports := fun t mem => h.reports (stages t mem) (placed mem) }⟩

end Declared

/-- The function of a method is found under its name, and it is defined. -/
theorem Linked.method {scopes : ScopeStack} (linked : Linked S m scopes) {f : FunctionId}
    {d : Method} (place : S.At f (.method d)) : ∃ F, m.function? f = some F ∧
      m.functionByName? d.name = some F ∧ F.isDeclaration = false := by
  obtain ⟨i, hd, rfl⟩ := place
  have implements := linked.generated.method hd
  obtain ⟨F, hF, -⟩ := implements.header
  exact ⟨F, hF, linked.functionByName? hd hF, implements.isDeclaration hF⟩

/-- Stages for the same method. -/
def Stage.Twin (S S' : Source) (o : Options) (m m' : Module) (t t' : Stage) : Prop :=
  (t.Of S o m ∧ S.At t.function (.method t.method)) ∧
    (t'.Of S' o m' ∧ S'.At t'.function (.method t'.method)) ∧ t'.method = t.method

/-- The stages of one run can be put in the order of those of another. -/
theorem Staged.exists_twins {ws ws' : List Warning} {ts ts' : List Stage}
    (h : Staged S o m ws ts) (h' : Staged S' o m' ws' ts')
    (methods : S.package.methods.Perm S'.package.methods) :
    ∃ us, us.Perm ts' ∧ List.Forall₂ (Stage.Twin S S' o m m') ts us := by
  have own : List.Forall₂ (fun d (t : Stage) => t.method = d) S'.package.methods ts' := by
    rw [← h'.methods, List.forall₂_map_left_iff]
    exact List.forall₂_same.2 fun _ _ => rfl
  obtain ⟨us, pairs, perm⟩ := List.perm_comp_forall₂ methods own
  rw [← h.methods, List.forall₂_map_left_iff] at pairs
  refine ⟨us, perm, List.forall₂_iff_zip.2 ⟨pairs.length_eq, fun {t u} mem => ?_⟩⟩
  obtain ⟨left, right⟩ := List.of_mem_zip mem
  replace right := perm.mem_iff.1 right
  exact ⟨⟨h.stages t left, h.places t left⟩, ⟨h'.stages u right, h'.places u right⟩,
    List.forall₂_zip pairs mem⟩

end Meaning

end Decaf
