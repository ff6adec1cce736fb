import Decaf.Execution.Run

/-!
# Moments of a run

The configurations through which a call passes, from the start of its body on. A call
that enters a body has a last moment: there either no step is left or the next action
ends the run. `last_moment` says so; what holds at every moment is shown by induction on
`Moment`.
-/

namespace Decaf.Execution

open IR

variable {σ : Type}

namespace Machine

variable (M : Machine σ)

/-- The configurations of a call that was made in the world `w`. -/
inductive Moment (f : FunctionId) (args : List Value) (w : World σ) : Config σ → Prop where
  | start {frame : Frame} :
      M.invoke w 0 f args = .ok (.entered frame) → Moment f args w ⟨w, frame, []⟩
  | act {c next : Config σ} :
      Moment f args w c → c.world.steps < M.limits.steps → M.act c = .running next →
      Moment f args w next

/-- What an action counts: one step, whether or not the run goes on. -/
def Progress.steps : Progress σ → Nat
  | .running c => c.world.steps
  | .finished _ w => w.steps

theorem steps_actReturn (result : Option Value) (w : World σ) (mark : Nat)
    (callers : List Caller) : Progress.steps (actReturn result w mark callers) = w.steps := by
  cases callers with
  | nil => rfl
  | cons caller callers =>
    simp only [actReturn]
    split <;> rfl

theorem steps_jump (w : World σ) (frame : Frame) (callers : List Caller) (target : BlockId) :
    Progress.steps (M.jump w frame callers target) = w.steps := by
  simp only [jump]
  split <;> rfl

theorem steps_actTerminator (w : World σ) (frame : Frame) (callers : List Caller)
    (terminator : Option Terminator) :
    Progress.steps (M.actTerminator w frame callers terminator) = w.steps := by
  unfold actTerminator
  split
  · rfl
  · exact M.steps_jump ..
  · split
    · rfl
    · exact M.steps_jump ..
  · exact steps_actReturn ..
  · split
    · rfl
    · exact steps_actReturn ..
  · rfl

theorem steps_actCall (dst : Option ValueId) (f : FunctionId) (args : List ValueId)
    (w : World σ) (frame : Frame) (callers : List Caller) :
    Progress.steps (M.actCall dst f args w frame callers) = w.steps := by
  simp only [actCall]
  split
  · rfl
  · split <;> rfl
  · rfl

/-- An action is one step. -/
theorem steps_act (c : Config σ) : Progress.steps (M.act c) = c.world.steps + 1 := by
  obtain ⟨⟨memory, steps, host⟩, ⟨block, rest, values, mark⟩, callers⟩ := c
  simp only [act]
  split
  · exact M.steps_actCall ..
  · split <;> rfl
  · exact M.steps_actTerminator ..

theorem steps_of_running {c next : Config σ} (h : M.act c = .running next) :
    next.world.steps = c.world.steps + 1 := by
  have := M.steps_act c
  rw [h] at this
  exact this

/-- Driving a configuration for as many steps as are left ends the run at a moment that
comes after it or is it. -/
theorem last_moment_drive {f : FunctionId} {args : List Value} {w : World σ} {c : Config σ}
    (h : M.Moment f args w c) {n : Nat} (left : n = M.remainingSteps c.world) :
    ∃ last, M.Moment f args w last ∧
      (M.limits.steps ≤ last.world.steps ∧
          M.drive n c = (.error (.stepLimitExceeded M.limits.steps),
            { last.world with steps := last.world.steps + 1 }) ∨
        last.world.steps < M.limits.steps ∧
          M.act last = .finished (M.drive n c).1 (M.drive n c).2) := by
  induction n generalizing c with
  | zero =>
    refine ⟨c, h, .inl ⟨?_, rfl⟩⟩
    unfold remainingSteps at left
    omega
  | succ n ih =>
    have below : c.world.steps < M.limits.steps := by
      unfold remainingSteps at left
      omega
    cases hact : M.act c with
    | finished outcome v => exact ⟨c, h, .inr ⟨below, by simp only [drive, hact]⟩⟩
    | running next =>
      have count := M.steps_of_running hact
      have leftNext : n = M.remainingSteps next.world := by
        unfold remainingSteps at left ⊢
        omega
      obtain ⟨last, moment, ending⟩ := ih (.act h below hact) leftNext
      exact ⟨last, moment, by simpa only [drive, hact] using ending⟩

/-- A call that enters a body ends at its last moment, either for want of steps or by the
action taken there; afterwards memory is cut back to where it was. -/
theorem last_moment {f : FunctionId} {args : List Value} {w : World σ} {frame : Frame}
    (entered : M.invoke w 0 f args = .ok (.entered frame)) :
    ∃ last v, M.Moment f args w last ∧
      (M.call f args w).2 = { v with memory := v.memory.release w.memory.mark } ∧
      (M.limits.steps ≤ last.world.steps ∧
          (M.call f args w).1 = .error (.stepLimitExceeded M.limits.steps) ∧
          v = { last.world with steps := last.world.steps + 1 } ∨
        last.world.steps < M.limits.steps ∧ M.act last = .finished (M.call f args w).1 v) := by
  obtain ⟨last, moment, ending⟩ := M.last_moment_drive (.start entered) rfl
  have result : M.call f args w =
      ((M.drive (M.remainingSteps w) ⟨w, frame, []⟩).1,
        { (M.drive (M.remainingSteps w) ⟨w, frame, []⟩).2 with
          memory := (M.drive (M.remainingSteps w) ⟨w, frame, []⟩).2.memory.release
            w.memory.mark }) := by
    simp only [call, entered]
  refine ⟨last, (M.drive (M.remainingSteps w) ⟨w, frame, []⟩).2, moment, by rw [result], ?_⟩
  rcases ending with ⟨spent, outcome⟩ | ⟨below, outcome⟩
  · exact .inl ⟨spent, by rw [result, outcome], by rw [outcome]⟩
  · exact .inr ⟨below, by rw [result, outcome]⟩

end Machine

end Decaf.Execution
