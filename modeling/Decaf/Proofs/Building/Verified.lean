import Decaf.IR.Check
import Decaf.Proofs.Building.Ownership

/-!
# What the check guarantees

A module that passes the check, and in which functions and blocks agree about owners, has no
issue in a function with blocks. Every block of such a function has a terminator, leads only
to blocks of the same function and contains only instructions with fitting operands.
-/

namespace Decaf.IR

namespace Module

theorem forM_eq_ok {ε α : Type} {f : α → Except ε Unit} {as : List α} :
    as.forM f = .ok () ↔ ∀ a ∈ as, f a = .ok () := by
  induction as with
  | nil =>
    refine ⟨fun _ a h => ?_, fun _ => rfl⟩
    cases h
  | cons a as ih =>
    rw [List.forall_mem_cons, ← ih]
    show (do f a; as.forM f) = Except.ok () ↔ _
    cases f a with
    | error e => exact ⟨nofun, fun h => nomatch h.1⟩
    | ok u => exact ⟨fun h => ⟨rfl, h⟩, fun h => h.2⟩

variable {m : Module} {f : FunctionId} {F : Function} {c : BlockId}

/-- The block has a terminator that stays inside the function, and what is in it fits. -/
structure Verified (m : Module) (f : FunctionId) (ret : Ty) (data : Block) (t : Terminator) :
    Prop where
  terminator : data.terminator = some t
  inside : ∀ s ∈ t.successors, m.functionOf? s = some f
  leaves : m.checkTerminator f ret t = .ok ()
  operands : ∀ i ∈ data.insts.toList, m.checkOperands f i = .ok ()

theorem operands_of_checkInsts {insts : List Inst} {started : Bool}
    (ok : m.checkInsts f c started insts = .ok ()) :
    ∀ i ∈ insts, m.checkOperands f i = .ok () := by
  induction insts generalizing started with
  | nil => simp
  | cons i rest ih =>
    rw [List.forall_mem_cons]
    cases i with
    | phi dst ty incoming =>
      rw [checkInsts] at ok
      by_cases late : started = true
      · rw [if_pos late] at ok
        cases ok
      · rw [if_neg late] at ok
        obtain ⟨-, -, ok⟩ := ok_of_bind ok
        exact ⟨rfl, ih ok⟩
    | _ =>
      rw [checkInsts] at ok
      · obtain ⟨⟨⟩, first, ok⟩ := ok_of_bind ok
        exact ⟨first, ih ok⟩
      · intro _ _ _ phi
        cases phi

/-- What is known of a block that passes the check. -/
theorem checkBlock_eq_ok {ret : Ty} (ok : m.checkBlock f ret c = .ok ()) :
    ∃ data t, m.block? c = some data ∧ data.terminator = some t ∧
      m.checkInsts f c false data.insts.toList = .ok () ∧
      (∀ s ∈ t.successors, m.functionOf? s = some f) ∧ m.checkTerminator f ret t = .ok () := by
  unfold checkBlock at ok
  cases there : m.block? c with
  | none => simp [there] at ok
  | some data =>
    cases ends : data.terminator with
    | none => simp [there, ends] at ok
    | some t =>
      simp only [there, ends] at ok
      obtain ⟨⟨⟩, insts, ok⟩ := ok_of_bind ok
      by_cases inside : (t.successors.all fun s => m.functionOf? s = some f) = true
      · rw [if_pos inside] at ok
        refine ⟨data, t, rfl, ends, insts, fun s hs => ?_, ok⟩
        exact of_decide_eq_true (List.all_eq_true.1 inside s hs)
      · rw [if_neg inside] at ok
        cases ok

/-- The check looks at every function that owns a block. -/
theorem checkBody_of_check (ok : m.check = .ok ()) (owned : m.Owned)
    (owner : m.functionOf? c = some f) :
    ∃ F, m.function? f = some F ∧ F.isDeclaration = false ∧ m.checkBody f F = .ok () := by
  obtain ⟨F, there, listed⟩ := owned.function? owner
  have body : F.isDeclaration = false := by
    have := Array.size_pos_of_mem listed
    simp only [Function.isDeclaration, Array.isEmpty]
    exact decide_eq_false (by omega)
  have position := owned.position f F there
  have checked := forM_eq_ok.1 ok F (Array.mem_toList_iff.2 (Array.mem_of_getElem? there))
  simp only [body, Bool.false_eq_true, if_false, position, checkFunction, there] at checked
  refine ⟨F, there, body, ?_⟩
  cases result : m.checkBody f F with
  | error e =>
    rw [result] at checked
    cases checked
  | ok u => rfl

theorem checkIssues_of_check (ok : m.check = .ok ()) (owned : m.Owned)
    (owner : m.functionOf? c = some f) : m.checkIssues f = .ok () := by
  obtain ⟨F, there, body, checked⟩ := checkBody_of_check ok owned owner
  rw [checkBody, body] at checked
  obtain ⟨⟨⟩, issues, -⟩ := ok_of_bind checked
  exact issues

/-- The check looks at every block that has an owner. -/
theorem checkBlock_of_check (ok : m.check = .ok ()) (owned : m.Owned)
    (owner : m.functionOf? c = some f) :
    ∃ F, m.function? f = some F ∧ m.checkBlock f F.ret c = .ok () := by
  obtain ⟨F, there, body, checked⟩ := checkBody_of_check ok owned owner
  rw [checkBody, body] at checked
  obtain ⟨-, -, blocks⟩ := ok_of_bind checked
  have listed := (owned.listed c f).2 owner
  rw [blocksOf, there] at listed
  exact ⟨F, there, forM_eq_ok.1 blocks c listed⟩

/-- Every block that has an owner is verified. -/
theorem verified_of_check (ok : m.check = .ok ()) (owned : m.Owned)
    (owner : m.functionOf? c = some f) :
    ∃ F data t, m.function? f = some F ∧ m.block? c = some data ∧
      m.Verified f F.ret data t := by
  obtain ⟨F, there, checked⟩ := checkBlock_of_check ok owned owner
  obtain ⟨data, t, here, ends, insts, inside, leaves⟩ := checkBlock_eq_ok checked
  exact ⟨F, data, t, there, here, ends, inside, leaves, operands_of_checkInsts insts⟩

/-- A function with a block fails the check if an issue was recorded for it. -/
theorem check_ne_ok_of_issue (owned : m.Owned) (owner : m.functionOf? c = some f)
    {issue : EmitIssue} (recorded : (some f, issue) ∈ m.issues) : m.check ≠ .ok () := by
  intro ok
  have clean := checkIssues_of_check ok owned owner
  cases first : m.issueOf? f with
  | none =>
    have absent : m.issues.find? (·.1 = some f) = none := Option.map_eq_none_iff.1 first
    simpa using Array.find?_eq_none.1 absent _ recorded
  | some found => cases found <;> simp [checkIssues, first] at clean

/-- A call fits the declaration of the callee. -/
theorem call_of_checkOperands {dst : Option ValueId} {g : FunctionId} {args : List ValueId}
    (ok : m.checkOperands f (.call dst g args) = .ok ()) :
    ∃ G, m.function? g = some G ∧ G.params.length = args.length ∧
      m.checkArgs f G.name G.params args = .ok () := by
  rw [checkOperands, checkCall] at ok
  cases there : m.function? g with
  | none => simp [there] at ok
  | some G =>
    simp only [there] at ok
    by_cases arity : G.params.length = args.length
    · rw [if_pos arity] at ok
      exact ⟨G, rfl, arity, ok⟩
    · rw [if_neg arity] at ok
      cases ok

end Module

end Decaf.IR
