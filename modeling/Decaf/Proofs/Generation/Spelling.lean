import Decaf.Proofs.Generation.Parallels

/-!
# Lines and spelling

Two programs that differ in line numbers and in the lexemes of constants are one program to
the code generator: it asks a builder for the same things, and says the same except for lines.
-/

namespace Decaf

open IR

/-- No line is told from another. -/
abbrev AnyLine (_ _ : Nat) : Prop := True

namespace Matching

/-- Every id stands for itself only, every line for every line. -/
def unlined : Matching where
  line := AnyLine
  value := Eq
  block := Eq
  function := Eq
  body := Eq
  given := ([], [])

theorem unlined_diagonal : unlined.Diagonal :=
  ⟨Eq.symm, Eq.symm, Eq.symm, Eq.symm⟩

theorem unlined_reply {r : Reply} (a : r.Carrier) : unlined.reply r a a := by
  cases r with
  | optionalValue => exact optionRel_refl (fun _ => rfl) a
  | nothing => trivial
  | _ => rfl

end Matching

variable {τ : Type} [Target τ]

/-- One and the same target is asked for the same things, and what all commands keep up holds of
it. -/
theorem simulates_invariant {I : τ → Prop}
    (keeps : ∀ t {r : Reply} (c : Command r), I t → I (Target.perform t c).2) :
    SimulatesPrograms Matching.unlined (fun t t' => t' = t ∧ I t) (fun t t' => t' = t ∧ I t) where
  inside := {
    perform := by
      rintro t _ r c c' ⟨rfl, holds⟩ commands
      rw [Matching.unlined_diagonal.command commands]
      exact ⟨Matching.unlined_reply _, rfl, keeps _ c holds⟩
    isTerminated := by
      rintro t _ ⟨rfl, -⟩
      rfl
    insertion := by
      rintro t _ ⟨rfl, -⟩
      exact optionRel_refl (fun _ => rfl) _
    typeOf := by
      rintro t _ v v' ⟨rfl, -⟩ values
      rw [Matching.unlined_diagonal.value values]
    parameter? := by
      rintro t _ f f' ⟨rfl, -⟩ functions i
      rw [Matching.unlined_diagonal.body functions]
      exact optionRel_refl (fun _ => rfl) _
    checkFunction := by
      rintro t _ f f' ⟨rfl, -⟩ functions
      rw [Matching.unlined_diagonal.body functions] }
  declares := by
    rintro t _ r c ⟨rfl, holds⟩ -
    exact ⟨Matching.unlined_reply _, rfl, keeps _ c holds⟩
  bodies functions := functions
  enter := by
    rintro t _ f f' ⟨rfl, holds⟩ functions
    rw [Matching.unlined_diagonal.body functions]
    exact ⟨rfl, keeps _ _ (keeps _ _ holds)⟩
  leave same := same

/-- Generating programs that differ in lines and spelling leaves the same target, and the same
warnings or the same error up to lines. -/
theorem generate_alike (o : Options) {P P' : Program} (alike : P.Like AnyLine P') (t : τ) :
    Parallel (CompileError.Like AnyLine) (List.Forall₂ (Warning.Like AnyLine))
        (generate o P t).1 (generate o P' t).1 ∧
      (generate o P' t).2 = (generate o P t).2 := by
  obtain ⟨externs, package⟩ := P
  obtain ⟨externs', package'⟩ := P'
  obtain ⟨sameExterns, samePackage⟩ := alike
  cases samePackage with
  | none => exact ⟨.error .missingPackage, rfl⟩
  | some packages =>
    obtain ⟨results, after⟩ := (simulates_invariant (I := fun _ : τ => True) fun _ _ _ _ =>
      trivial).program o sameExterns packages (.start t) (.start t)
        ⟨⟨rfl, trivial⟩, ⟨Matching.bindings_nil, .nil⟩, .nil, [], [], rfl, rfl, .nil⟩
    obtain ⟨new, new', now, now', warnings⟩ := after.warnings
    rw [generate_eq_map rfl, generate_eq_map rfl, now, now']
    exact ⟨results.map fun _ _ _ => warnings, after.target.1⟩

/-- Neither the lines of a program nor the lexemes of its constants decide anything about the
code: programs that differ in them compile to one module, with warnings that differ in their
lines only, or are both refused, for the same reason but for the lines it names. -/
theorem compile_alike (o : Options) {P P' : Program} (alike : P.Like AnyLine P') :
    (∃ m ws ws', compile o P = .ok (m, ws) ∧ compile o P' = .ok (m, ws') ∧
      List.Forall₂ (Warning.Like AnyLine) ws ws') ∨
    ∃ e e', compile o P = .error e ∧ compile o P' = .error e' ∧ e.Like AnyLine e' := by
  obtain ⟨results, target⟩ := generate_alike o alike Builder.empty
  unfold compile
  revert results target
  rcases generate o P Builder.empty with ⟨r, b⟩
  rcases generate o P' Builder.empty with ⟨r', b'⟩
  rintro results rfl
  cases results with
  | ok warnings => exact .inl ⟨_, _, _, rfl, rfl, warnings⟩
  | error same => exact .inr ⟨_, _, rfl, rfl, same⟩

/-- A method that stores a constant and owes a value. -/
def keeping (c : Constant) (line : Nat) : Program where
  externs := []
  package := some {
    name := "P"
    fields := [⟨"n", .int, .scalar, none, line⟩]
    line := line
    methods := [{
      name := "keep"
      ret := .int
      params := []
      line := line + 1
      body := .mk [] [.assign (.scalar "n" (.constant c) c.line)] }] }

theorem keeping_like {c c' : Constant} (same : c'.value = c.value) (n n' : Nat) :
    (keeping c n).Like AnyLine (keeping c' n') where
  externs := .nil
  package := .some {
    name := rfl
    fields := .cons ⟨rfl, rfl, rfl, .none, trivial⟩ .nil
    line := trivial
    methods := .cons {
      name := rfl
      ret := rfl
      params := .nil
      line := trivial
      body := .mk .nil (.cons (.assign (.scalar (.constant ⟨same, trivial⟩) trivial)) .nil) } .nil }

theorem keeping_respelled :
    Constant.ofNumeral "0x10" 3 = .ok ⟨.int 16, "0x10", 3⟩ ∧
    Constant.ofNumeral "16" 9 = .ok ⟨.int 16, "16", 9⟩ ∧
    (keeping ⟨.int 16, "0x10", 3⟩ 1).Like AnyLine (keeping ⟨.int 16, "16", 9⟩ 7) ∧
    ∃ m ws ws', compile {} (keeping ⟨.int 16, "0x10", 3⟩ 1) = .ok (m, ws) ∧
      compile {} (keeping ⟨.int 16, "16", 9⟩ 7) = .ok (m, ws') ∧
      List.Forall₂ (Warning.Like AnyLine) ws ws' := by
  have like : (keeping ⟨.int 16, "0x10", 3⟩ 1).Like AnyLine (keeping ⟨.int 16, "16", 9⟩ 7) :=
    @keeping_like ⟨.int 16, "0x10", 3⟩ ⟨.int 16, "16", 9⟩ rfl 1 7
  have accepted : (compile {} (keeping ⟨.int 16, "0x10", 3⟩ 1)).toBool = true := by
    decide +kernel
  refine ⟨by decide, by decide, like, (compile_alike {} like).resolve_right ?_⟩
  rintro ⟨e, e', refused, -⟩
  rw [refused] at accepted
  cases accepted

end Decaf
