import Decaf.Execution.Moment
import Decaf.Proofs.Execution.Safety

/-!
# Runs of finished modules

A run that starts with the globals in place passes through safe configurations only and
leaves the globals in place. So it fails in one of a few ways, and so does every later run.
-/

namespace Decaf.Execution

open IR

variable {σ : Type}

/-- The worlds to which admitted runs lead, from the start on. -/
inductive Machine.Visits (M : Machine σ) (admitted : String → List Value → Prop) (host : σ) :
    World σ → Prop where
  | start : M.Visits admitted host (M.start host)
  | run {w : World σ} (name : String) (args : List Value) :
      M.Visits admitted host w → admitted name args →
      M.Visits admitted host (M.run name args w).2

/-- The run comes to access an array outside of its bounds, and this ends it. -/
def Machine.Overruns (M : Machine σ) (f : FunctionId) (args : List Value) (w : World σ)
    (offset : Int) (length : Nat) : Prop :=
  ∃ c v, M.Moment f args w c ∧ M.act c = .finished (.error (.outOfBounds offset length)) v ∧
    c.Overruns M.module offset length

section

variable {typed : Prop} {M : Machine σ} {w : World σ}

/-- The module is finished, and with `typed` the host keeps to its declarations. -/
structure Machine.Ready (typed : Prop) (M : Machine σ) : Prop where
  complete : Complete typed M.module
  faithful : Faithful typed M
  starts : typed → ∀ (g : Nat) G, M.module.globals[g]? = some G → G.kind.StartsTyped

theorem safe_of_moment (ready : M.Ready typed) {f : FunctionId} {args : List Value}
    (covers : w.memory.Covers typed M.module)
    (types : typed → ∃ F, M.module.function? f = some F ∧ args.map Value.ty = F.params.map (·.ty))
    {c : Config σ} (h : M.Moment f args w c) : Safe typed M.module c := by
  induction h with
  | @start frame entered =>
    cases hF : M.module.function? f with
    | none =>
      rw [Machine.invoke, hF] at entered
      cases entered
    | some F =>
      by_cases arity : F.params.length = args.length
      · have types' (t : typed) : args.map Value.ty = F.params.map (·.ty) := by
          obtain ⟨G, hG, same⟩ := types t
          rw [hF] at hG
          cases hG
          exact same
        have invoked := judged_invoke (w := w) ready.complete ready.faithful hF arity types' 0
        rw [entered] at invoked
        obtain ⟨mark, p, todo, post, finished, -, running⟩ := invoked
        refine ⟨⟨p, _, _, _, _, finished, running, .bottom ?_⟩, covers⟩
        rw [mark]
        exact covers.mark
      · rw [Machine.invoke, hF] at entered
        replace entered : (if F.params.length ≠ args.length then
          Except.error (Fault.arityMismatch F.name F.params.length args.length) else _) = _ :=
            entered
        rw [if_pos arity] at entered
        cases entered
  | act moment below running ih =>
    have good := good_act ready.complete ready.faithful ih
    rw [running] at good
    exact good

/-- What a call comes to when as many arguments are passed as there are parameters. -/
theorem call_outcome (ready : M.Ready typed) {f : FunctionId} {F : Function} {args : List Value}
    (hF : M.module.function? f = some F) (arity : F.params.length = args.length)
    (covers : w.memory.Covers typed M.module)
    (types : typed → args.map Value.ty = F.params.map (·.ty)) :
    (M.call f args w).2.memory.Covers typed M.module ∧
      ∀ fault, (M.call f args w).1 = .error fault → Excused typed (M.Overruns f args w) fault := by
  have invoked := judged_invoke (w := w) ready.complete ready.faithful hF arity types 0
  have safe {c : Config σ} (moment : M.Moment f args w c) : Safe typed M.module c :=
    safe_of_moment ready covers (fun t => ⟨F, hF, types t⟩) moment
  cases result : M.invoke w 0 f args with
  | error fault =>
    rw [result] at invoked
    simp only [Machine.call, result]
    refine ⟨covers, fun e he => ?_⟩
    cases he
    exact Excused.mono (fun _ _ => False.elim) invoked
  | ok invocation =>
    cases invocation with
    | answered result host =>
      simp only [Machine.call, result]
      exact ⟨covers, fun _ failed => by cases failed⟩
    | entered frame =>
      obtain ⟨last, v, moment, after, ending⟩ := M.last_moment result
      -- the last moment is safe, so what comes of it is good
      have held : v.memory.Covers typed M.module ∧ ∀ fault, (M.call f args w).1 = .error fault →
          Excused typed (M.Overruns f args w) fault := by
        rcases ending with ⟨-, outcome, rfl⟩ | ⟨-, acted⟩
        · refine ⟨(safe moment).covers, fun fault failed => ?_⟩
          rw [outcome] at failed
          cases failed
          trivial
        · have good := good_act ready.complete ready.faithful (safe moment)
          rw [acted] at good
          refine ⟨good.1, fun fault failed => ?_⟩
          have excused := good.2 fault failed
          rw [failed] at acted
          cases fault with
          | outOfBounds offset length => exact ⟨last, v, moment, acted, excused⟩
          | _ => exact excused
      refine ⟨?_, held.2⟩
      have size := v.memory.mark_release w.memory.mark
      have floor := covers.mark
      have floor' := held.1.mark
      rw [after]
      refine held.1.keeps (Memory.keeps_release typed _ _) floor ?_
      show _ ≤ (v.memory.release w.memory.mark).mark
      omega

/-- The ways in which a run may fail: its name or its arguments are wrong, or it is excused. -/
theorem run_outcome (ready : M.Ready typed) {name : String} {args : List Value}
    (covers : w.memory.Covers typed M.module)
    (types : typed → ∃ F, M.module.functionByName? name = some F ∧
      args.map Value.ty = F.params.map (·.ty)) :
    (M.run name args w).2.memory.Covers typed M.module ∧
      ∀ fault, (M.run name args w).1 = .error fault →
        (M.module.functionByName? name = none ∧ fault = .unknownFunction name) ∨
        ∃ F, M.module.functionByName? name = some F ∧
          (F.params.length ≠ args.length ∧
              fault = .arityMismatch name F.params.length args.length ∨
            F.params.length = args.length ∧ Excused typed (M.Overruns F.id args w) fault) := by
  cases found : M.module.functionByName? name with
  | none =>
    rw [Machine.run, found]
    exact ⟨covers, fun fault failed => by cases failed; exact .inl ⟨rfl, rfl⟩⟩
  | some F =>
    have named : F.name = name := by simpa using Array.find?_some found
    obtain ⟨i, at_⟩ := Array.getElem?_of_mem (Array.mem_of_find?_eq_some found)
    have hF : M.module.function? ⟨i⟩ = some F := at_
    rw [← (ready.complete _ F hF).1] at hF
    rw [Machine.run, found]
    by_cases arity : F.params.length = args.length
    · have types' (t : typed) : args.map Value.ty = F.params.map (·.ty) := by
        obtain ⟨G, hG, same⟩ := types t
        rw [found] at hG
        cases hG
        exact same
      obtain ⟨covers', excused⟩ := call_outcome ready hF arity covers types'
      exact ⟨covers', fun fault failed => .inr ⟨F, rfl, .inr ⟨arity, excused fault failed⟩⟩⟩
    · have refused : M.invoke w 0 F.id args =
          .error (.arityMismatch F.name F.params.length args.length) := by
        simp only [Machine.invoke, hF]
        rw [if_pos arity]
      have failed : M.call F.id args w =
          (.error (.arityMismatch F.name F.params.length args.length), w) := by
        simp only [Machine.call, refused]
      refine ⟨by simpa only [failed] using covers, fun fault same => ?_⟩
      simp only [failed] at same
      cases same
      exact .inr ⟨F, rfl, .inl ⟨arity, by rw [named]⟩⟩

/-- In every world that is visited the globals are in place. -/
theorem covers_of_visits (ready : M.Ready typed) {admitted : String → List Value → Prop}
    (types : typed → ∀ name args, admitted name args →
      ∃ F, M.module.functionByName? name = some F ∧ args.map Value.ty = F.params.map (·.ty))
    {host : σ} (h : M.Visits admitted host w) : w.memory.Covers typed M.module := by
  induction h with
  | start => exact Memory.covers_initialMemory ready.starts
  | run name args visited allowed ih =>
    exact (run_outcome ready ih fun t => types t name args allowed).1

end

end Decaf.Execution
