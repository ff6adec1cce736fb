import Decaf.Proofs.Generation.ScopedBodies

/-!
# Acceptance

Exactly the well scoped programs compile, where the policies are lenient and what is generated
is not checked. The declarations of a program are gone through first, then the methods one by
one, all with the same names in scope.
-/

namespace Decaf

open IR

namespace Gen

/-- Between methods: only the scope of the package is open, and there is no loop. -/
structure Outline (s : GenState Builder) (declared : List (String × Entity))
    (told : List Warning := []) : Prop where
  inner : s.scopes.inner = []
  names : entities s.scopes.package = declared
  apt : s.scopes.Apt s.target.module
  loops : s.loops.loops = []
  warnings : s.warnings = told

variable {s : GenState Builder} {g : List (String × Entity)} {told : List Warning}

theorem Outline.context (h : Outline s g told) : s.scopes.context = [g] := by
  simp [ScopeStack.context, ScopeStack.scopes, h.inner, ← h.names, entities]

/-- A name is bound in the scope of the package exactly if it is free there. -/
theorem Outline.decides_bindName (h : Outline s g) {d : Descriptor}
    (apt : d.Apt s.target.module) (name : String) :
    Decides (bindName name d) s (g.lookup name = none)
      fun _ s' => Outline s' ((name, d.entity) :: g) := by
  have innermost : s.scopes.innermost = s.scopes.package := by
    rw [ScopeStack.innermost, h.inner]
    rfl
  have taken : g.lookup name = (s.scopes.innermost.lookup name).map Descriptor.entity := by
    rw [← h.names, innermost]
    exact lookup_map_entity _ name
  rw [taken]
  refine ends_bindName (fun free => ⟨by rw [free]; rfl, ?_⟩) fun previous held => by simp [held]
  have added : s.scopes.add name d = ⟨(name, d) :: s.scopes.package, []⟩ := by
    rw [ScopeStack.add, h.inner]
  exact {
    inner := by rw [added]
    names := by
      rw [added, ← h.names]
      rfl
    apt := fun other e there => by
      rw [ScopeStack.lookup_add] at there
      split at there
      · cases there
        exact apt
      · exact h.apt other e there
    loops := h.loops
    warnings := h.warnings }

/-- What is declared outside of methods changes neither what functions return nor where code is
put. -/
theorem Outline.target (h : Outline s g told) {t : Builder}
    (returns : ∀ f ty, s.target.module.returnOf? f = some ty → t.module.returnOf? f = some ty) :
    Outline { s with target := t } g told :=
  ⟨h.inner, h.names, h.apt.congr returns, h.loops, h.warnings⟩

theorem Outline.decides_emit (h : Outline s g) {reply : Reply} (c : Command reply)
    (calm : c.isCalm = true) : Decides (emit c) s True fun _ s' => Outline s' g :=
  ends_emit ⟨trivial, h.target fun f ty there => by
    rw [← there, ← (s.target.calm_perform calm).returns]
    rfl⟩

theorem Outline.decides_declareFunction (h : Outline s g) (name : String) (ret : Decaf.Ty)
    (params : List VarDecl) (line : Nat) (shown : List (Option String × IR.Ty)) :
    Decides (emit (.declareFunction name ret.repr shown)) s True fun id s' =>
      Outline s' g ∧ (Descriptor.function ret id params line).Apt s'.target.module := by
  obtain ⟨new, old⟩ := s.target.declareFunction_returns name ret.repr shown
  exact ends_emit ⟨trivial, h.target old, rfl, new⟩

theorem entity_of_function (ret : Decaf.Ty) (id : FunctionId) (params : List VarDecl)
    (line : Nat) : (Descriptor.function ret id params line).entity = functionEntity ret params := by
  simp [Descriptor.function, Descriptor.entity, functionEntity, Function.comp_def]

theorem Outline.decides_declareExtern (h : Outline s g) (e : ExternDecl) :
    Decides (declareExtern e) s (g.lookup e.name = none)
      fun _ s' => Outline s' ((e.name, functionEntity e.ret e.params) :: g) := by
  refine (h.decides_declareFunction e.name e.ret e.params e.line _).then fun id s' ⟨h', apt⟩ => ?_
  rw [← entity_of_function e.ret id e.params e.line]
  exact h'.decides_bindName apt e.name

theorem Outline.decides_declareMethod (h : Outline s g) (d : Method) :
    Decides (declareMethod d) s (g.lookup d.name = none)
      fun _ s' => Outline s' ((d.name, functionEntity d.ret d.params) :: g) := by
  refine (h.decides_declareFunction d.name d.ret d.params d.line _).then fun id s' ⟨h', apt⟩ => ?_
  rw [← entity_of_function d.ret id d.params d.line]
  exact (h'.decides_bindName apt d.name).before fun _ _ h => decides_pure h

theorem isSome_initial? (name : String) (ty : Decaf.Ty) (init : Option Constant) (line : Nat) :
    (FieldDecl.initial? ⟨name, ty, .scalar, init, line⟩).isSome =
      FieldDecl.admissible ⟨name, ty, .scalar, init, line⟩ := by
  cases init with
  | none => cases ty <;> rfl
  | some c =>
    obtain ⟨value, lexeme, line'⟩ := c
    cases ty <;> cases value <;> rfl

theorem Outline.decides_declareField (h : Outline s g) (f : FieldDecl) :
    Decides (declareField f) s (f.admissible = true ∧ g.lookup f.name = none)
      fun _ s' => Outline s' ((f.name, f.entity) :: g) := by
  obtain ⟨name, ty, size, init, line⟩ := f
  rw [declareField]
  cases size with
  | array length =>
    dsimp only
    split
    · rename_i empty
      exact decides_throw (by simp [FieldDecl.admissible, empty])
    · rename_i positive
      cases init with
      | some c => exact decides_throw (by simp [FieldDecl.admissible])
      | none =>
        refine Decides.congr (p := g.lookup name = none) ?_
          (by simp [FieldDecl.admissible, positive])
        refine (h.decides_emit _ rfl).then fun base s' h' => ?_
        have apt : (Descriptor.array ty base length line).Apt s'.target.module := rfl
        exact h'.decides_bindName apt name
  | scalar =>
    have valid := isSome_initial? name ty init line
    dsimp only
    cases initial : FieldDecl.initial? ⟨name, ty, .scalar, init, line⟩ with
    | none =>
      rw [initial] at valid
      exact decides_throw (by simp [← valid])
    | some value =>
      rw [initial] at valid
      refine Decides.congr (p := g.lookup name = none) ?_ (by simp [← valid])
      refine (h.decides_emit _ rfl).then fun slot s' h' => ?_
      have apt : (Descriptor.scalar .globalVariable ty slot line).Apt s'.target.module := rfl
      exact h'.decides_bindName apt name

/-- A list of declarations, one after the other. -/
theorem decides_forM {γ : Type} {x : γ → Gen Builder Unit} (entry : γ → String × Entity)
    (valid : γ → Bool)
    (each : ∀ c s g, Outline s g → Decides (x c) s
      (valid c = true ∧ g.lookup (entry c).1 = none) fun _ s' => Outline s' (entry c :: g))
    (cs : List γ) {s : GenState Builder} {g : List (String × Entity)} (h : Outline s g) :
    Decides (cs.forM x) s (Fresh g ((cs.map entry).map (·.1)) ∧ cs.all valid = true)
      fun _ s' => Outline s' ((cs.map entry).reverse ++ g) := by
  induction cs generalizing s g with
  | nil => exact (decides_pure h).congr (by simp [Fresh])
  | cons c cs ih =>
    refine Decides.congr ((each c s g h).bind (Q := fun _ s' =>
      Outline s' (((c :: cs).map entry).reverse ++ g)) fun _ s' h' => (ih h').imp
        fun _ _ h => by simpa using h) ?_
    simp only [List.map_cons, List.all_cons, Bool.and_eq_true]
    rw [fresh_cons (e := (entry c).2)]
    simp only [and_assoc, and_left_comm]

/-- The methods are declared in order, each with a function of its own. -/
theorem decides_declareMethods (ds : List Method) {s : GenState Builder}
    {g : List (String × Entity)} (h : Outline s g) :
    Decides (ds.mapM declareMethod) s (Fresh g (ds.map (·.name))) fun ids s' =>
      ids.length = ds.length ∧
        Outline s' ((ds.map fun d => (d.name, functionEntity d.ret d.params)).reverse ++ g) := by
  induction ds generalizing s g with
  | nil => exact (decides_pure ⟨rfl, h⟩).congr (by simp [Fresh])
  | cons d ds ih =>
    rw [List.mapM_cons, List.map_cons, fresh_cons (e := functionEntity d.ret d.params)]
    refine (h.decides_declareMethod d).bind fun id s' h' => (ih h').before fun ids s'' both =>
      decides_pure ?_
    obtain ⟨length, h''⟩ := both
    exact ⟨by simp [length], by simpa using h''⟩

/-- A method compiles exactly if it is well scoped, and leaves all names as they were. -/
theorem Outline.decides_defineMethod (h : Outline s g told) (d : Method) (f : FunctionId) :
    Decides (defineMethod (.lenient false) d f) s (d.scoped [g] = true)
      fun _ s' => Outline s' g (told ++ d.warnings) := by
  obtain ⟨id, -, size, isOpen, -, returns⟩ := s.target.appendBlock_opens f "entry"
  have h₁ : Outline { s with target := (s.target.appendBlock f "entry").2 } g told :=
    h.target fun f ty there => by rw [returns, there]
  have ready : Ready
      { s with target := { (s.target.appendBlock f "entry").2 with
        insertion := some (s.target.appendBlock f "entry").1 } }
      (s.target.appendBlock f "entry").1 := {
    here := rfl
    isOpen := by rw [id]; exact isOpen
    apt := h₁.apt }
  have body := judges_methodBody (m := ⟨f, d.name, d.ret, .lenient false⟩) (Γ := [g]) rfl d rfl
    rfl _ _ ready h₁.context (by simp [h.loops])
  refine Decides.then (P := fun entry s₁ => entry = (s.target.appendBlock f "entry").1 ∧
    s₁ = { s with target := (s.target.appendBlock f "entry").2 })
    (ends_emit ⟨trivial, rfl, rfl⟩) ?_
  rintro _ _ ⟨rfl, rfl⟩
  refine Decides.then (P := fun _ s₂ => s₂ = { s with
    target := { (s.target.appendBlock f "entry").2 with
      insertion := some (s.target.appendBlock f "entry").1 } })
    (ends_emit ⟨trivial, rfl⟩) ?_
  rintro _ _ rfl
  refine body.before fun _ s' ⟨b, r⟩ => decides_pure ?_
  exact {
    inner := by rw [r.scopes]; exact h₁.inner
    names := by rw [r.scopes]; exact h₁.names
    apt := r.apt h₁.apt
    loops := by rw [r.loops]; exact h₁.loops
    warnings := by rw [r.warnings, h₁.warnings] }

theorem decides_defineMethods (ds : List Method) (ids : List FunctionId)
    (length : ids.length = ds.length) {s : GenState Builder} {g : List (String × Entity)}
    {told : List Warning} (h : Outline s g told) :
    Decides ((ds.zip ids).forM fun x => defineMethod (.lenient false) x.1 x.2) s
      (ds.all (·.scoped [g]) = true)
      fun _ s' => Outline s' g (told ++ ds.flatMap Method.warnings) := by
  induction ds generalizing ids s told with
  | nil =>
    rw [List.flatMap_nil, List.append_nil]
    exact (decides_pure h).congr (by simp)
  | cons d ds ih =>
    cases ids with
    | nil => cases length
    | cons f ids =>
      simp only [List.all_cons, Bool.and_eq_true]
      rw [List.flatMap_cons, ← List.append_assoc]
      exact (h.decides_defineMethod d f).bind fun _ s' h' => ih ids (Nat.succ.inj length) h'

theorem nodup_append_iff {first second third : List (String × Entity)} :
    ((first ++ second ++ third).map (·.1)).Nodup ↔ Fresh [] (first.map (·.1)) ∧
      Fresh (first.reverse ++ []) (second.map (·.1)) ∧
      Fresh (second.reverse ++ (first.reverse ++ [])) (third.map (·.1)) := by
  rw [← fresh_nil, List.map_append, List.map_append, List.append_assoc, fresh_append, fresh_append]

/-- The declarations succeed exactly if they are valid and distinct. -/
theorem decides_declarations (externs : List ExternDecl) (p : Package) :
    Decides (declarations externs p : Gen Builder _) (.start Builder.empty)
      (((p.declared externs).map (·.1)).Nodup ∧ p.fields.all (·.admissible) = true)
      fun ids s => ids.length = p.methods.length ∧ Outline s (p.declared externs).reverse := by
  have outline : Outline (.start Builder.empty) [] :=
    ⟨rfl, rfl, fun name d there => (by cases there), rfl, rfl⟩
  have declareExterns {s : GenState Builder} {g : List (String × Entity)} (h : Outline s g) :=
    decides_forM (fun e : ExternDecl => (e.name, functionEntity e.ret e.params)) (fun _ => true)
      (fun e s g h => (h.decides_declareExtern e).congr (by simp)) externs h
  have declareFields {s : GenState Builder} {g : List (String × Entity)} (h : Outline s g) :=
    decides_forM (fun f : FieldDecl => (f.name, f.entity)) (·.admissible)
      (fun f s g h => h.decides_declareField f) p.fields h
  have all : (p.declared externs).reverse =
      (p.methods.map fun d => (d.name, functionEntity d.ret d.params)).reverse ++
        ((p.fields.map fun f => (f.name, f.entity)).reverse ++
          ((externs.map fun e => (e.name, functionEntity e.ret e.params)).reverse ++ [])) := by
    simp [Package.declared]
  rw [all]
  refine Decides.congr ((outline.decides_emit _ rfl).then fun _ s₁ h₁ =>
    (declareExterns h₁).bind fun _ s₂ h₂ => (declareFields h₂).bind fun _ s₃ h₃ =>
      decides_declareMethods p.methods h₃) ?_
  have names : p.methods.map (·.name) =
      (p.methods.map fun d => (d.name, functionEntity d.ret d.params)).map (·.1) := by
    rw [List.map_map]
    rfl
  rw [names]
  simp only [Package.declared, nodup_append_iff, List.all_eq_true, implies_true, and_true,
    and_assoc]
  exact and_congr_right fun _ => and_congr_right fun _ => and_comm

/-- A program compiles exactly if its declarations are valid and distinct and its methods are
well scoped, and then what is warned of is read off its methods. -/
theorem decides_program (externs : List ExternDecl) (p : Package) :
    Decides (program (.lenient false) externs p : Gen Builder Unit) (.start Builder.empty)
      (Program.wellScoped ⟨externs, some p⟩ = true)
      fun _ s => s.warnings = Program.warnings ⟨externs, some p⟩ := by
  rw [program_eq]
  refine Decides.congr ((decides_declarations externs p).bind fun ids s ⟨length, h⟩ =>
    (decides_defineMethods p.methods ids length h).imp fun _ _ h => h.warnings) ?_
  simp only [Program.wellScoped, Bool.and_eq_true, decide_eq_true_eq]

end Gen

/-- Exactly the well scoped programs compile, if the policies are lenient and nothing is
checked. -/
theorem compile_ok_iff_wellScoped (P : Program) :
    (∃ result, compile (.lenient false) P = .ok result) ↔ P.wellScoped = true := by
  obtain ⟨externs, package⟩ := P
  cases package with
  | none =>
    rw [compile_eq_missing rfl]
    exact ⟨fun ⟨_, h⟩ => (by cases h), fun h => (by cases h)⟩
  | some p =>
    have decided := Gen.decides_program externs p
    rw [compile_eq_map rfl]
    unfold Gen.Decides Gen.Ends at decided
    rcases run : (Gen.program (.lenient false) externs p : Gen Builder Unit).run.run
      (.start Builder.empty) with ⟨e | u, s⟩ <;> rw [run] at decided
    · exact ⟨fun ⟨_, h⟩ => (by cases h), fun h => absurd h decided⟩
    · exact ⟨fun _ => decided.1, fun _ => ⟨_, rfl⟩⟩

/-- What follows the return is not looked at. -/
example : Program.wellScoped ⟨[], some ⟨"P", [], [⟨"f", .int, [], .mk [] [.return none 2,
    .assign (.scalar "x" (.var "y" 3) 3)], 1⟩], 1⟩⟩ = true := by
  decide

end Decaf
