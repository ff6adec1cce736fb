import Decaf.Proofs.Execution.Residue

/-!
# Budgets

Every run ends, and stays within the limits on the way. The number of steps passes its limit
by one for each run that ends for want of steps, since the step that is refused is counted.
The slots in use and the calls in progress never pass their limits.
-/

namespace Decaf.Execution

variable {σ : Type} {M : Machine σ} {host : σ} {outcomes : List Outcome} {s : Standing σ}

namespace Machine.History

theorem steps_le (h : M.History host outcomes s) :
    s.world.steps ≤ M.limits.steps + outcomes.countP outOfSteps := by
  induction h with
  | start => exact Nat.zero_le _
  | @run outcomes s t name args outcome _ runs ih =>
    have last := runs.steps_le
    have before : max s.world.steps M.limits.steps ≤ M.limits.steps + outcomes.countP outOfSteps :=
      Nat.max_le.2 ⟨ih, Nat.le_add_right ..⟩
    have one : (outOfSteps outcome).toNat = [outcome].countP outOfSteps := by
      cases spent : outOfSteps outcome <;> simp [spent]
    rw [List.countP_append, ← one]
    omega

/-- A run of any module ends, after any runs before it, and it can end in one way only. So
many steps at most are counted as the limit allows, and one more for each run that was out of
steps. At every moment of the run the slots reserved by the calls in progress are those in use,
and neither they nor the calls are more than the limits allow. -/
theorem within_budgets (h : M.History host outcomes s) :
    (∀ name args, ∃ outcome t, M.Runs name args s outcome t ∧
      M.run name args s.world = (outcome, t.world) ∧
      ∀ outcome' t', M.Runs name args s outcome' t' → outcome' = outcome ∧ t' = t) ∧
    s.world.steps ≤ M.limits.steps + outcomes.countP outOfSteps ∧
    (M.limits.steps + outcomes.length < UInt64.size → s.world.steps < UInt64.size) ∧
    ∀ f args c calls, M.Allotted f args s.world c calls →
      reserved calls = M.slotsInUse c.world.memory ∧
      reserved calls ≤ M.limits.stackSlots ∧ calls.length ≤ M.limits.callDepth := by
  have steps := h.steps_le
  refine ⟨fun name args => ?_, steps, fun small => ?_, fun f args c calls allotted => ?_⟩
  · obtain ⟨outcome, t, runs⟩ := exists_runs (M := M) name args s
    obtain ⟨depth, ran⟩ := h.runs_iff.1 runs
    refine ⟨outcome, t, runs, ran, fun outcome' t' runs' => ?_⟩
    obtain ⟨depth', ran'⟩ := h.runs_iff.1 runs'
    obtain ⟨same, world⟩ := Prod.mk.inj (ran'.symm.trans ran)
    exact ⟨same, Standing.ext world (depth'.trans depth.symm)⟩
  · have some : outcomes.countP outOfSteps ≤ outcomes.length := List.countP_le_length
    omega
  · have inUse := allotted.stacks.reserved_eq
    obtain ⟨slots, depth⟩ := (moment_iff_allotted.2 ⟨calls, allotted⟩).bounded h.mark_eq
    rw [h.mark_eq] at inUse
    exact ⟨inUse, inUse ▸ slots, allotted.length_eq ▸ depth⟩

end Machine.History

theorem spiral_within_budgets : ∃ s, spiral.History ()
      [.error (.stackSlotsExceeded 3), .error (.stepLimitExceeded 60)] s ∧
    s.world.steps ≤ 60 + 1 ∧ s.world.steps < UInt64.size ∧
    ∃ outcome t, spiral.Runs "dive" [] s outcome t := by
  obtain ⟨s, history⟩ := history_spiral
  obtain ⟨ends, steps, small, -⟩ := history.within_budgets
  obtain ⟨outcome, t, runs, -⟩ := ends "dive" []
  exact ⟨s, history, steps, small (by decide), outcome, t, runs⟩

end Decaf.Execution
