import Decaf.Proofs.Generation.MethodTexts

/-!
# The order of methods

The order in which the methods of a package come decides neither whether it compiles nor what the
code of any method is, nor what is said about it. What it does decide is the order of the code and
how strings are numbered.
-/

namespace Decaf

open IR

/-- The methods of a program, none if it has no package. -/
def Program.methods (P : Program) : List Method :=
  match P.package with
  | none => []
  | some p => p.methods

/-- No extern, field or method has the empty name. -/
def Program.Named (P : Program) : Prop :=
  ∀ p, P.package = some p → ∀ x ∈ (Meaning.Source.mk P.externs p).members, x.name ≠ ""

/-- Two modules are printed alike, but for the order of the functions and the names of strings:
fields and externs have the same lines, and with the strings renamed, each to one of its own, the
same strings and methods are printed. -/
structure IR.Module.PrintsAlike (methods : List Method) (ρ : String → String) (m m' : Module) :
    Prop where
  fields : m'.fieldTexts = m.fieldTexts
  externs : m'.externTexts = m.externTexts
  injective : ∀ G ∈ m.stringGlobals, ∀ G' ∈ m.stringGlobals, ρ G.name = ρ G'.name → G.name = G'.name
  strings : m'.stringTexts.Perm (m.renameStrings ρ).stringTexts
  methods : ∀ d ∈ methods, ∃ F F', m.functionByName? d.name = some F ∧
    m'.functionByName? d.name = some F' ∧ F.isDeclaration = false ∧ F'.isDeclaration = false ∧
    m'.functionText F' = (m.renameStrings ρ).functionText F

namespace Meaning

variable {S S' : Source} {o : Options} {m m' : Module} {ws ws' : List Warning}
  {ts ts' us : List Stage}

section Twins

variable (twins : List.Forall₂ (Stage.Twin S S' o m m') ts us)
  (same : ∀ name, S'.member? name = S.member? name)

include twins same

theorem strings_twins :
    List.Forall₂ Displacement.text (ts.flatMap Stage.strings) (us.flatMap Stage.strings) :=
  List.rel_flatMap twins fun _ _ twin => twin.1.1.strings twin.2.1.1 twin.2.2 same

/-- The strings have other names in the other module, each one of its own. -/
theorem exists_renaming (distinct : ((ts.flatMap Stage.strings).map (·.name)).Nodup) :
    ∃ ρ : String → String,
      (ts.flatMap Stage.strings).map (fun G => ρ G.name) =
        (us.flatMap Stage.strings).map (·.name) := by
  have length : ((ts.flatMap Stage.strings).map (·.name)).length =
      ((us.flatMap Stage.strings).map (·.name)).length := by
    rw [List.length_map, List.length_map]
    exact (strings_twins twins same).length_eq
  have names := map_renameBy distinct length
  rw [List.map_map] at names
  exact ⟨_, names⟩

variable {ρ : String → String} (names : (ts.flatMap Stage.strings).map (fun G => ρ G.name) =
  (us.flatMap Stage.strings).map (·.name))

include names

/-- Each string is printed as before under its other name. -/
theorem texts_twins : (us.flatMap Stage.strings).map Global.text =
    (ts.flatMap Stage.strings).map fun G => (G.rename ρ).text := by
  have renamed : List.Forall₂ (fun (G G' : Global) => ρ G.name = G'.name)
      (ts.flatMap Stage.strings) (us.flatMap Stage.strings) := by
    rw [← List.forall₂_map_right_iff (f := Global.name),
      ← List.forall₂_map_left_iff (f := fun G : Global => ρ G.name), List.forall₂_eq_eq_eq]
    exact names
  have both := renamed.mp (fun _ _ name text => And.intro name text) (strings_twins twins same)
  refine map_eq_of_forall₂ both fun G _ G' ⟨name, bytes, kind, kind'⟩ => ?_
  refine Global.text_congr ?_ ?_
  · rw [← name, Global.rename, kind]
    rfl
  · rw [kind', Global.kind_rename, kind]

/-- In each stage the strings are renamed alike. -/
theorem names_twins : List.Forall₂ (fun t u => Stage.Twin S S' o m m' t u ∧
    t.strings.map (fun G => ρ G.name) = u.strings.map (·.name)) ts us := by
  rw [List.map_flatMap, List.map_flatMap] at names
  refine forall₂_of_flatMap twins (fun t u twin => ?_) names
  simpa using (twin.1.1.strings twin.2.1.1 twin.2.2 same).length_eq

end Twins

/-- Two programs that differ in the order of their methods are printed alike. -/
theorem Staged.printsAlike {scopes scopes' : ScopeStack} (h : Staged S o m ws ts)
    (h' : Staged S' o m' ws' ts') (linked : Linked S m scopes) (linked' : Linked S' m' scopes')
    (externs : S'.externs = S.externs) (package : S.package.Reordered S'.package) :
    ∃ ρ, m.PrintsAlike S.package.methods ρ m' := by
  have same := member?_reordered externs package linked.distinct
  obtain ⟨us, perm, twins⟩ := h.exists_twins h' package.methods
  have distinct := h.distinct
  rw [h.strings] at distinct
  obtain ⟨ρ, names⟩ := exists_renaming twins same distinct
  have strings : (us.flatMap Stage.strings).Perm m'.stringGlobals := by
    rw [h'.strings]
    exact perm.flatMap_right _
  refine ⟨ρ, {
    fields := ?_
    externs := ?_
    injective := ?_
    strings := ?_
    methods := ?_ }⟩
  · rw [h'.fields, h.fields, package.fields]
  · rw [linked'.generated.externTexts_eq, linked.generated.externTexts_eq, externs]
  · have apart : ((ts.flatMap Stage.strings).map (fun G => ρ G.name)).Nodup := by
      rw [names]
      exact (strings.map _).nodup_iff.2 h'.distinct
    rw [h.strings]
    intro G mem G' mem' equal
    rw [List.inj_on_of_nodup_map apart mem mem' equal]
  · rw [Module.stringTexts_renameStrings, h.strings, ← texts_twins twins same names]
    exact (strings.map _).symm
  · intro d mem
    rw [← h.methods] at mem
    obtain ⟨t, ht, rfl⟩ := List.mem_map.1 mem
    obtain ⟨u, -, ⟨⟨here, place⟩, ⟨there, place'⟩, method⟩, renamed⟩ :=
      exists_of_mem_right (names_twins twins same names).flip ht
    obtain ⟨F, hF, named, defined⟩ := linked.method place
    obtain ⟨F', hF', named', defined'⟩ := linked'.method place'
    rw [method] at named'
    exact ⟨F, F', named, named', defined, defined', here.functionText there method same renamed hF hF'⟩

/-- The warnings of a program are those of its methods, in order. -/
theorem Staged.warnings_eq (h : Staged S o m ws ts) {W : Method → List Warning}
    (each : ∀ d ∈ S.package.methods, warningsOf o ⟨S.externs, some S.package⟩ d = .ok (W d)) :
    ws = S.package.methods.flatMap W := by
  rw [h.warnings, ← h.methods, List.flatMap_map]
  refine List.flatMap_congr fun t mem => ?_
  have here := each t.method (h.methods ▸ List.mem_map_of_mem mem)
  rw [h.reports t mem] at here
  exact Except.ok.inj here

/-- Each method has its warnings, the same in both orders. -/
theorem Staged.exists_warnings (h : Staged S o m ws ts) (externs : S'.externs = S.externs)
    (package : S.package.Reordered S'.package) {ids ids' : List FunctionId}
    {s s' : GenState Builder} (declared : Declared S ids s) (declared' : Declared S' ids' s') :
    ∃ W : Method → List Warning, ∀ d ∈ S.package.methods,
      warningsOf o ⟨S.externs, some S.package⟩ d = .ok (W d) ∧
        warningsOf o ⟨S'.externs, some S'.package⟩ d = .ok (W d) := by
  refine ⟨fun d => (warningsOf o ⟨S.externs, some S.package⟩ d).toOption.getD [], fun d mem => ?_⟩
  have listed := mem
  rw [← h.methods] at listed
  obtain ⟨t, ht, rfl⟩ := List.mem_map.1 listed
  have alone := h.reports t ht
  have value : (warningsOf o ⟨S.externs, some S.package⟩ t.method).toOption.getD [] =
      t.warnings := by
    rw [alone]
    rfl
  beta_reduce
  rw [value]
  exact ⟨alone, warningsOf_reordered externs package declared declared' mem alone⟩

end Meaning

open Meaning in
/-- The order of methods is irrelevant: in another order they compile exactly if they compiled
before, all is printed alike but for the names of strings, and each method gives rise to the same
warnings. -/
theorem compile_reordered (o : Options) {P P' : Program} (reordered : P.Reordered P')
    (named : P.Named) : ((∃ r, compile o P = .ok r) ↔ ∃ r, compile o P' = .ok r) ∧
      ∀ m ws m' ws', compile o P = .ok (m, ws) → compile o P' = .ok (m', ws') →
        (∃ ρ, m.PrintsAlike P.methods ρ m') ∧
        ∃ W : Method → List Warning,
          (∀ d ∈ P.methods, warningsOf o P d = .ok (W d) ∧ warningsOf o P' d = .ok (W d)) ∧
          ws = P.methods.flatMap W ∧ ws' = P'.methods.flatMap W := by
  obtain ⟨es, package⟩ := P
  obtain ⟨es', package'⟩ := P'
  obtain ⟨externs, packages⟩ := reordered
  obtain rfl : es' = es := externs
  cases packages with
  | none =>
    have refused : compile o ⟨es', none⟩ = .error .missingPackage := compile_eq_missing rfl
    refine ⟨.rfl, fun m ws m' ws' compiled => ?_⟩
    rw [refused] at compiled
    cases compiled
  | @some p p' package =>
    let S : Source := ⟨es', p⟩
    let S' : Source := ⟨es', p'⟩
    have externs : S'.externs = S.externs := rfl
    have package : S.package.Reordered S'.package := package
    have members : ∀ x ∈ S.members, x.name ≠ "" := named p rfl
    have members' := members_named externs package members
    refine ⟨⟨compile_ok_of_reordered externs package members,
      compile_ok_of_reordered externs.symm package.symm members'⟩, ?_⟩
    intro m ws m' ws' compiled compiled'
    obtain ⟨ids, s, declared⟩ := exists_declared (S := S) members compiled
    obtain ⟨ids', s', declared'⟩ := exists_declared (S := S') members' compiled'
    obtain ⟨ts, staged⟩ := declared.exists_staged compiled
    obtain ⟨ts', staged'⟩ := declared'.exists_staged compiled'
    obtain ⟨_, same, link⟩ := exists_linked compiled
    obtain ⟨_, same', link'⟩ := exists_linked compiled'
    cases same
    cases same'
    obtain ⟨scopes, linked⟩ := link members
    obtain ⟨scopes', linked'⟩ := link' members'
    obtain ⟨W, each⟩ := staged.exists_warnings externs package declared declared'
    refine ⟨staged.printsAlike staged' linked linked' externs package, W, each,
      staged.warnings_eq fun d mem => (each d mem).1, staged'.warnings_eq fun d mem => ?_⟩
    exact (each d (package.methods.mem_iff.2 mem)).2

/-- One of two players: it says its name and returns the ball as long as there are strokes left. -/
def player (name partner : String) (line : Nat) : Method where
  name := name
  ret := .int
  params := [⟨some "left", .int, line⟩]
  line := line
  body := .mk [] [
    .call "say" [.constant ⟨.string name, name, line⟩] line,
    .ifElse (.binary .gt (.var "left" line) (.constant ⟨.int 0, "0", line⟩) line)
      (.mk [] [.return (some (.call partner
        [.binary .sub (.var "left" line) (.constant ⟨.int 1, "1", line⟩) line] line)) line])
      none line]

/-- Each of two methods calls the other one. -/
def rally (methods : List Method) : Program where
  externs := [⟨"say", .void, [⟨none, .string, 1⟩], 1⟩]
  package := some ⟨"P", [⟨"score", .int, .array 2, none, 2⟩], methods, 2⟩

theorem rally_reordered :
    (rally [player "ping" "pong" 3, player "pong" "ping" 4]).Reordered
      (rally [player "pong" "ping" 4, player "ping" "pong" 3]) ∧
    (rally [player "ping" "pong" 3, player "pong" "ping" 4]).Named ∧
    ∃ m ws m' ws', compile {} (rally [player "ping" "pong" 3, player "pong" "ping" 4]) =
        .ok (m, ws) ∧
      compile {} (rally [player "pong" "ping" 4, player "ping" "pong" 3]) = .ok (m', ws') ∧
      ws = [.synthesizedReturn "ping" 3, .synthesizedReturn "pong" 4] ∧
      (∃ ρ, m.PrintsAlike [player "ping" "pong" 3, player "pong" "ping" 4] ρ m') ∧
      ∃ W : Method → List Warning, ws = W (player "ping" "pong" 3) ++ W (player "pong" "ping" 4) ∧
        ws' = W (player "pong" "ping" 4) ++ W (player "ping" "pong" 3) := by
  have reordered : (rally [player "ping" "pong" 3, player "pong" "ping" 4]).Reordered
      (rally [player "pong" "ping" 4, player "ping" "pong" 3]) :=
    ⟨rfl, .some ⟨rfl, rfl, .swap _ _ _, rfl⟩⟩
  have named : (rally [player "ping" "pong" 3, player "pong" "ping" 4]).Named := by
    intro p package
    cases package
    decide
  have result : (compile {} (rally [player "ping" "pong" 3, player "pong" "ping" 4])).toOption.map
      Prod.snd = some [.synthesizedReturn "ping" 3, .synthesizedReturn "pong" 4] := by
    decide +kernel
  obtain ⟨⟨m, ws⟩, compiled, warnings⟩ := Option.map_eq_some_iff.1 result
  have compiled := ok_of_toOption compiled
  obtain ⟨accepted, alike⟩ := compile_reordered {} reordered named
  obtain ⟨⟨m', ws'⟩, compiled'⟩ := accepted.1 ⟨_, compiled⟩
  obtain ⟨printed, W, -, given, given'⟩ := alike m ws m' ws' compiled compiled'
  refine ⟨reordered, named, m, ws, m', ws', compiled, compiled', warnings, printed, W, ?_, ?_⟩
  · rw [given]
    simp [Program.methods, rally]
  · rw [given']
    simp [Program.methods, rally]

end Decaf
