import Decaf.Language.Equality
import Decaf.Proofs.Generation.Acceptance
import Decaf.Proofs.Generation.Stages

/-!
# Methods in another order

A program compiles exactly if its declarations are in order and each of its methods can be built
after them with no other body beside it. Neither depends on the order of the methods, nor do the
warnings that a method gives rise to.
-/

namespace Decaf

open IR

/-- The same package with its methods in another order. -/
structure Package.Reordered (p p' : Package) : Prop where
  name : p'.name = p.name
  fields : p'.fields = p.fields
  methods : p.methods.Perm p'.methods
  line : p'.line = p.line

/-- The same program with the methods of its package in another order. -/
structure Program.Reordered (P P' : Program) : Prop where
  externs : P'.externs = P.externs
  package : Option.Rel Package.Reordered P.package P'.package

theorem Package.Reordered.symm {p p' : Package} (h : p.Reordered p') : p'.Reordered p :=
  ⟨h.name.symm, h.fields.symm, h.methods.symm, h.line.symm⟩

namespace Gen

/-- One method is defined after the declarations, and no other. -/
def alone {τ : Type} [Target τ] (o : Options) (externs : List ExternDecl) (p : Package)
    (d : Method) : Gen τ Unit := do
  let ids ← declarations externs p
  ((p.methods.zip ids).filter (·.1 = d)).forM fun x => defineMethod o x.1 x.2

theorem Decides.yields_iff {α : Type} {x : Gen Builder α} {s : GenState Builder} {p : Prop}
    {P : α → GenState Builder → Prop} (h : Decides x s p P) :
    (∃ a s', Yields x s a s') ↔ p := by
  unfold Decides Ends at h
  unfold Yields
  rcases out : x.run.run s with ⟨e | a, s'⟩ <;> rw [out] at h
  · refine ⟨?_, fun holds => absurd holds h⟩
    rintro ⟨a, s'', same⟩
    cases same
  · exact ⟨fun _ => h.1, fun _ => ⟨a, s', rfl⟩⟩

end Gen

/-- The warnings of a method are those that there are if it is the only one that is defined. -/
def warningsOf (o : Options) (P : Program) (d : Method) : Except CompileError (List Warning) :=
  match P.package with
  | none => .error .missingPackage
  | some p =>
    let (result, s) := (Gen.alone o P.externs p d).run.run (.start Builder.empty)
    result.map fun _ => s.warnings

theorem warningsOf_eq_ok_iff_yields {o : Options} {P : Program} {p : Package} {d : Method}
    {ws : List Warning} (package : P.package = some p) : warningsOf o P d = .ok ws ↔
      ∃ u, Gen.Yields (Gen.alone o P.externs p d) (.start Builder.empty) () u ∧
        u.warnings = ws := by
  simp only [warningsOf, Gen.Yields, package]
  generalize (Gen.alone o P.externs p d).run.run (.start Builder.empty) = out
  obtain ⟨e | a, t⟩ := out
  · constructor
    · intro same
      cases same
    · rintro ⟨u, same, -⟩
      cases same
  · constructor
    · intro same
      exact ⟨t, rfl, Except.ok.inj same⟩
    · rintro ⟨u, same, rfl⟩
      cases same
      rfl

theorem filter_of_mem {α β : Type} [DecidableEq α] : ∀ {xs : List (α × β)} {x : α × β},
    (xs.map Prod.fst).Nodup → x ∈ xs → xs.filter (·.1 = x.1) = [x]
  | y :: xs, x, distinct, mem => by
    rw [List.map_cons, List.nodup_cons] at distinct
    rcases List.mem_cons.1 mem with rfl | later
    · have rest : xs.filter (·.1 = x.1) = [] := List.filter_eq_nil_iff.2 fun z hz same =>
        distinct.1 (List.mem_map.2 ⟨z, hz, by simpa using same⟩)
      rw [List.filter_cons_of_pos (by simp), rest]
    · have other : y.1 ≠ x.1 := fun same => distinct.1 (same ▸ List.mem_map_of_mem later)
      rw [List.filter_cons_of_neg (by simpa using other)]
      exact filter_of_mem distinct.2 later

namespace Meaning

/-- The names of a package are declared, and it has no bodies yet. -/
structure Declared (S : Source) (ids : List FunctionId) (s : GenState Builder) : Prop where
  yields : Gen.Yields (Gen.declarations S.externs S.package) (.start Builder.empty) ids s
  numbered : ids = (List.range' S.externs.length S.package.methods.length).map FunctionId.mk
  warnings : s.warnings = []
  distinct : (S.members.map Member.name).Nodup
  size : s.target.module.globals.size = S.package.fields.length
  underway : Underway S (S.package.methods.zip ids) s

variable {S S' : Source} {o : Options} {ids ids' : List FunctionId} {s s' u : GenState Builder}

theorem declared_of_yields (named : ∀ x ∈ S.members, x.name ≠ "")
    (yields : Gen.Yields (Gen.declarations S.externs S.package) (.start Builder.empty) ids s) :
    Declared S ids s := by
  obtain ⟨same, warnings, distinct, size, underway⟩ :=
    (ends_declarations_underway named).of_yields yields
  exact ⟨yields, same, warnings, distinct, size, underway⟩

namespace Declared

variable (h : Declared S ids s)

include h

theorem length : ids.length = S.package.methods.length := by
  rw [h.numbered, List.length_map, List.length_range']

theorem functions_nodup : ((S.package.methods.zip ids).map Prod.snd).Nodup := by
  rw [List.map_snd_zip (Nat.le_of_eq h.length), h.numbered]
  exact List.Nodup.map (fun _ _ same => FunctionId.mk.inj same) List.nodup_range'

theorem methods_nodup : ((S.package.methods.zip ids).map Prod.fst).Nodup := by
  have distinct := h.distinct
  rw [Source.names_members] at distinct
  rw [List.map_fst_zip (Nat.le_of_eq h.length.symm)]
  exact List.Nodup.of_map _ (List.nodup_append.1 distinct).2.1

/-- Each method has its function. -/
theorem mem_iff {d : Method} :
    d ∈ S.package.methods ↔ ∃ f, (d, f) ∈ S.package.methods.zip ids := by
  have methods := List.map_fst_zip (Nat.le_of_eq h.length.symm)
  constructor
  · intro mem
    rw [← methods, List.mem_map] at mem
    obtain ⟨⟨d, f⟩, mem, rfl⟩ := mem
    exact ⟨f, mem⟩
  · rintro ⟨f, mem⟩
    exact (List.of_mem_zip mem).1

theorem yields_alone_iff {d : Method} {f : FunctionId}
    (mem : (d, f) ∈ S.package.methods.zip ids) :
    Gen.Yields (Gen.alone o S.externs S.package d) (.start Builder.empty) () u ↔
      Gen.Yields (Gen.defineMethod o d f) s () u := by
  have only := filter_of_mem h.methods_nodup mem
  have single : ([(d, f)].forM fun x => Gen.defineMethod o x.1 x.2 : Gen Builder Unit) =
      Gen.defineMethod o d f := bind_pure _
  rw [Gen.alone, Gen.yields_bind_iff]
  constructor
  · rintro ⟨ids', s', declared, built⟩
    have same := h.yields.symm.trans declared
    cases same
    rwa [only, single] at built
  · intro built
    refine ⟨ids, s, h.yields, ?_⟩
    rwa [only, single]

/-- What a method comes to alone is what it comes to right after the declarations. -/
theorem warningsOf_eq_ok_iff {d : Method} {f : FunctionId} {ws : List Warning}
    (mem : (d, f) ∈ S.package.methods.zip ids) :
    warningsOf o ⟨S.externs, some S.package⟩ d = .ok ws ↔
      ∃ u, Gen.Yields (Gen.defineMethod o d f) s () u ∧ u.warnings = ws := by
  rw [warningsOf_eq_ok_iff_yields rfl]
  exact exists_congr fun u => and_congr_left fun _ => h.yields_alone_iff mem

theorem yields_program_iff :
    Gen.Yields (Gen.program o S.externs S.package) (.start Builder.empty) () u ↔
      Gen.Yields ((S.package.methods.zip ids).forM fun x => Gen.defineMethod o x.1 x.2) s () u := by
  rw [Gen.program_eq, Gen.yields_bind_iff]
  constructor
  · rintro ⟨ids', s', declared, built⟩
    cases h.yields.symm.trans declared
    exact built
  · exact fun built => ⟨ids, s, h.yields, built⟩

/-- A program compiles exactly if all methods compile alone. -/
theorem compile_ok_iff : (∃ r, compile o ⟨S.externs, some S.package⟩ = .ok r) ↔
    ∀ d ∈ S.package.methods, ∃ ws, warningsOf o ⟨S.externs, some S.package⟩ d = .ok ws := by
  have bodies := h.underway.yields_forM_iff (o := o) h.underway h.functions_nodup
  constructor
  · rintro ⟨⟨m, ws⟩, compiled⟩ d mem
    obtain ⟨p, same, u, yields, -⟩ := compile_eq_ok_iff.1 compiled
    cases same
    obtain ⟨f, mem⟩ := h.mem_iff.1 mem
    obtain ⟨u₁, built⟩ := bodies.1 ⟨u, h.yields_program_iff.1 yields⟩ _ mem
    exact ⟨_, (h.warningsOf_eq_ok_iff mem).2 ⟨u₁, built, rfl⟩⟩
  · intro all
    obtain ⟨u, yields⟩ := bodies.2 fun x mem => by
      obtain ⟨ws, alone⟩ := all x.1 (h.mem_iff.2 ⟨x.2, mem⟩)
      obtain ⟨u, built, -⟩ := (h.warningsOf_eq_ok_iff mem).1 alone
      exact ⟨u, built⟩
    exact ⟨_, compile_eq_ok_iff.2 ⟨_, rfl, u, h.yields_program_iff.2 yields, rfl, rfl⟩⟩

end Declared

/-- A program that compiles has been declared. -/
theorem exists_declared (named : ∀ x ∈ S.members, x.name ≠ "") {r : Module × List Warning}
    (compiled : compile o ⟨S.externs, some S.package⟩ = .ok r) : ∃ ids s, Declared S ids s := by
  obtain ⟨p, same, u, yields, -⟩ := compile_eq_ok_iff.1 compiled
  cases same
  rw [Gen.program_eq, Gen.yields_bind_iff] at yields
  obtain ⟨ids, s, declared, -⟩ := yields
  exact ⟨ids, s, declared_of_yields named declared⟩

section Reordered

variable (externs : S'.externs = S.externs) (package : S.package.Reordered S'.package)

include externs package

theorem members_perm : S.members.Perm S'.members := by
  rw [Source.members, Source.members, externs, package.fields]
  exact (package.methods.map _).append_left _

theorem members_named (named : ∀ x ∈ S.members, x.name ≠ "") : ∀ x ∈ S'.members, x.name ≠ "" :=
  fun x mem => named x ((members_perm externs package).mem_iff.2 mem)

/-- Under each name the same member is found. -/
theorem member?_reordered (distinct : (S.members.map Member.name).Nodup) (name : String) :
    S'.member? name = S.member? name := by
  have perm := members_perm externs package
  cases found : S.member? name with
  | none =>
    refine List.find?_eq_none.2 fun x mem => ?_
    exact List.find?_eq_none.1 found x (perm.mem_iff.2 mem)
  | some x =>
    have mem : x ∈ S'.members := perm.mem_iff.1 (List.mem_of_find?_eq_some found)
    obtain rfl : x.name = name := by simpa using List.find?_some found
    exact find?_of_mem ((perm.map _).nodup_iff.1 distinct) mem

/-- The declarations succeed in any order of the methods. -/
theorem exists_declared_reordered (named : ∀ x ∈ S.members, x.name ≠ "") (h : Declared S ids s) :
    ∃ ids' s', Declared S' ids' s' := by
  have valid := (Gen.decides_declarations S.externs S.package).yields_iff.1 ⟨ids, s, h.yields⟩
  have perm : (S.package.declared S.externs).Perm (S'.package.declared S'.externs) := by
    rw [Package.declared, Package.declared, externs, package.fields]
    exact (package.methods.map _).append_left _
  obtain ⟨ids', s', declared⟩ := (Gen.decides_declarations S'.externs S'.package).yields_iff.2
    ⟨(perm.map _).nodup_iff.1 valid.1, by rw [package.fields]; exact valid.2⟩
  exact ⟨ids', s', declared_of_yields (members_named externs package named) declared⟩

/-- A method gives rise to the same warnings in any order of the methods. -/
theorem warningsOf_reordered (h : Declared S ids s) (h' : Declared S' ids' s') {d : Method}
    (mem : d ∈ S.package.methods) {ws : List Warning}
    (alone : warningsOf o ⟨S.externs, some S.package⟩ d = .ok ws) :
    warningsOf o ⟨S'.externs, some S'.package⟩ d = .ok ws := by
  obtain ⟨f, here⟩ := h.mem_iff.1 mem
  obtain ⟨f', there⟩ := h'.mem_iff.1 (package.methods.mem_iff.1 mem)
  obtain ⟨u, built, rfl⟩ := (h.warningsOf_eq_ok_iff here).1 alone
  have first : Underway S [(d, f)] s := h.underway.mono (by simpa using here)
  have second : Underway S' [(d, f')] s' := h'.underway.mono (by simpa using there)
  obtain ⟨u', built', -, ws, now, now'⟩ :=
    first.alike second (member?_reordered externs package h.distinct) built
  rw [h.warnings] at now
  rw [h'.warnings] at now'
  exact (h'.warningsOf_eq_ok_iff there).2 ⟨u', built', now'.trans now.symm⟩

theorem compile_ok_of_reordered (named : ∀ x ∈ S.members, x.name ≠ "")
    (accepted : ∃ r, compile o ⟨S.externs, some S.package⟩ = .ok r) :
    ∃ r, compile o ⟨S'.externs, some S'.package⟩ = .ok r := by
  obtain ⟨r, compiled⟩ := accepted
  obtain ⟨ids, s, h⟩ := exists_declared named compiled
  obtain ⟨ids', s', h'⟩ := exists_declared_reordered externs package named h
  refine h'.compile_ok_iff.2 fun d mem => ?_
  replace mem := package.methods.mem_iff.2 mem
  obtain ⟨ws, alone⟩ := h.compile_ok_iff.1 ⟨r, compiled⟩ d mem
  exact ⟨ws, warningsOf_reordered externs package h h' mem alone⟩

end Reordered

end Meaning

end Decaf
