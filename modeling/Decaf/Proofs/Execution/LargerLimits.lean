import Decaf.Proofs.Execution.Confinement
import Decaf.Proofs.Execution.Replies

/-!
# Larger limits

An action under limits either ends the run for want of something or is the same under all
larger limits. So runs one after the other that are not cut short come to the same under
larger limits: the same outcomes, the same exchanges with the host and the same worlds.
-/

namespace Decaf.Execution

open IR

variable {σ : Type}

/-- Each limit is at most that of the other limits. -/
structure Limits.AtMost (L L' : Limits) : Prop where
  steps : L.steps ≤ L'.steps
  callDepth : L.callDepth ≤ L'.callDepth
  stackSlots : L.stackSlots ≤ L'.stackSlots

/-- What is seen of a run: its outcome, what the host was asked and answered, and the world
after it. -/
structure Report (σ : Type) where
  outcome : Outcome
  exchanges : List (HostCall × Option Value)
  world : World σ

namespace Machine

/-- The reports of runs that are made one after the other. -/
def reports (M : Machine σ) : List (String × List Value) → World σ → List (Report σ)
  | [], _ => []
  | (name, args) :: rest, w =>
    ⟨(M.run name args w).1, M.exchanges name args w, (M.run name args w).2⟩ ::
      M.reports rest (M.run name args w).2

variable {M : Machine σ} {L L' : Limits}

theorem invoke_mono (le : L.AtMost L') (w : World σ) (depth : Nat) (f : FunctionId)
    (args : List Value) :
    (M.within L').invoke w depth f args = (M.within L).invoke w depth f args ∨
      (M.within L).invoke w depth f args = .error (.callDepthExceeded L.callDepth) := by
  by_cases deep : L.callDepth ≤ depth
  case neg =>
    have room : depth < L'.callDepth := Nat.lt_of_lt_of_le (Nat.lt_of_not_le deep) le.callDepth
    exact .inl ((invoke_within f args room).resolve_right fun short => deep short.1).symm
  case pos =>
    simp only [invoke, module_within, host_within]
    split
    · exact .inl rfl
    · split
      · exact .inl rfl
      · split
        · exact .inl rfl
        · exact .inr (if_pos deep)

/-- An action that is not the same under larger limits ends the run for want of something. -/
theorem act_mono (le : L.AtMost L') (c : Config σ) :
    (M.within L').act c = (M.within L).act c ∨ ∃ fault, fault.Scarce ∧
      (M.within L).act c =
        .finished (.error fault) { c.world with steps := c.world.steps + 1 } := by
  obtain ⟨⟨memory, steps, host⟩, ⟨block, rest, values, mark⟩, callers⟩ := c
  cases rest with
  | nil => exact .inl rfl
  | cons i rest =>
    cases i with
    | call dst f args =>
      show (M.within L').actCall .. = (M.within L).actCall .. ∨ ∃ fault, _ ∧
        (M.within L).actCall .. = _
      simp only [actCall, module_within, show (M.within L').calleeName = (M.within L).calleeName
        from rfl]
      cases args.mapM (operand M.module values) with
      | error fault => exact .inl rfl
      | ok xs =>
        simp only [bind, Except.bind]
        rcases invoke_mono (M := M) le ⟨memory, steps + 1, host⟩ (callers.length + 1) f xs
          with same | refused
        · rw [same]
          exact .inl rfl
        · rw [refused]
          exact .inr ⟨.callDepthExceeded L.callDepth, trivial, rfl⟩
    | alloca dst ty =>
      by_cases spent : (M.within L).limits.stackSlots ≤ (M.within L).slotsInUse memory
      · refine .inr ⟨.stackSlotsExceeded L.stackSlots, trivial, ?_⟩
        simp only [act, perform, if_pos spent]
        rfl
      · have room : ¬ (M.within L').limits.stackSlots ≤ (M.within L').slotsInUse memory :=
          fun spent' => spent (Nat.le_trans le.stackSlots spent')
        simp only [act, perform, if_neg spent, if_neg room, true_or]
    | _ => exact .inl rfl

theorem drive_mono (le : L.AtMost L') {n n' : Nat} (more : n ≤ n') {c : Config σ}
    (whole : ¬ CutShort ((M.within L).drive n c).1) :
    (M.within L').drive n' c = (M.within L).drive n c := by
  induction n generalizing n' c with
  | zero => exact absurd ⟨_, rfl, trivial⟩ whole
  | succ n ih =>
    obtain ⟨k, rfl⟩ := Nat.exists_eq_add_of_le' more
    rw [← Nat.add_assoc]
    rcases act_mono (M := M) le c with same | ⟨fault, scarce, short⟩
    · simp only [drive, same] at whole ⊢
      cases acted : (M.within L).act c with
      | finished outcome w => rfl
      | running next =>
        rw [acted] at whole
        exact ih (Nat.le_add_left ..) whole
    · simp only [drive, short] at whole
      exact absurd ⟨fault, rfl, scarce⟩ whole

theorem call_mono (le : L.AtMost L') {f : FunctionId} {args : List Value} {w : World σ}
    (whole : ¬ CutShort ((M.within L).call f args w).1) :
    (M.within L').call f args w = (M.within L).call f args w := by
  unfold call at whole ⊢
  rcases invoke_mono (M := M) le w 0 f args with same | refused
  · rw [same]
    cases invoked : (M.within L).invoke w 0 f args with
    | error fault => rfl
    | ok invocation =>
      cases invocation with
      | answered result host => rfl
      | entered frame =>
        rw [invoked] at whole
        have left : (M.within L).remainingSteps w ≤ (M.within L').remainingSteps w :=
          Nat.sub_le_sub_right le.steps _
        simp only [drive_mono le left whole]
  · rw [refused] at whole
    exact absurd ⟨_, rfl, trivial⟩ whole

theorem run_mono (le : L.AtMost L') {name : String} {args : List Value} {w : World σ}
    (whole : ¬ CutShort ((M.within L).run name args w).1) :
    (M.within L').run name args w = (M.within L).run name args w := by
  unfold run at whole ⊢
  simp only [module_within] at whole ⊢
  cases found : M.module.functionByName? name with
  | none => rfl
  | some F =>
    rw [found] at whole
    exact call_mono le whole

/-- The host is asked the same under larger limits, and answers the same. -/
theorem exchanges_larger (le : L.AtMost L') {name : String} {args : List Value} {w : World σ}
    (whole : ¬ CutShort ((M.within L).run name args w).1) :
    (M.within L').exchanges name args w = (M.within L).exchanges name args w := by
  rw [((M.within L).run_recorded name args w).1] at whole
  exact congrArg (·.2.host.2) (run_mono (M := M.recorded) le whole)

/-- If none of the runs that are made one after the other is cut short, larger limits change
nothing that is seen of them. -/
theorem reports_larger (le : L.AtMost L') (runs : List (String × List Value)) (w : World σ)
    (whole : ∀ r ∈ (M.within L).reports runs w, ¬ CutShort r.outcome) :
    (M.within L').reports runs w = (M.within L).reports runs w := by
  induction runs generalizing w with
  | nil => rfl
  | cons run rest ih =>
    obtain ⟨name, args⟩ := run
    simp only [reports, List.forall_mem_cons] at whole ⊢
    obtain ⟨first, others⟩ := whole
    rw [run_mono le first, exchanges_larger le first, ih _ others]

end Machine

/-- A host that says yes to every question, and counts the questions. -/
def agreeing : Host Nat := ⟨fun asked _ => some (some (.bool true), asked + 1)⟩

/-- A function that keeps a number in a slot and asks the host about it. -/
def consulting : List AnyCommand :=
  [⟨_, .declareFunction "ask" .i1 [(some "x", .i32)]⟩, ⟨_, .declareFunction "f" .i32 []⟩,
    ⟨_, .appendBlock ⟨1⟩ "entry"⟩, ⟨_, .appendBlock ⟨1⟩ "yes"⟩, ⟨_, .appendBlock ⟨1⟩ "no"⟩,
    ⟨_, .const (.i32 7)⟩, ⟨_, .positionAtEnd ⟨0⟩⟩, ⟨_, .alloca .i32 "n"⟩, ⟨_, .store ⟨1⟩ ⟨2⟩⟩,
    ⟨_, .load .i32 ⟨2⟩ "n"⟩, ⟨_, .call ⟨0⟩ [⟨3⟩]⟩, ⟨_, .terminate (.condBr ⟨4⟩ ⟨1⟩ ⟨2⟩)⟩,
    ⟨_, .positionAtEnd ⟨1⟩⟩, ⟨_, .terminate (.ret (some ⟨3⟩))⟩, ⟨_, .positionAtEnd ⟨2⟩⟩,
    ⟨_, .terminate .unreachable⟩]

theorem consulting_larger :
    let M : Machine Nat := ⟨(Builder.empty.performAll consulting).module, {}, agreeing⟩
    let L : Limits := ⟨12, 1, 1⟩
    let runs := [("f", []), ("g", []), ("f", [])]
    L.AtMost {} ∧ (∀ r ∈ (M.within L).reports runs (M.start 0), ¬ CutShort r.outcome) ∧
      (M.within {}).reports runs (M.start 0) = (M.within L).reports runs (M.start 0) := by
  intro M L runs
  have le : L.AtMost {} := ⟨by decide, by decide, by decide⟩
  have faults : ((M.within L).reports runs (M.start 0)).map (fault? ·.outcome) =
      [none, some (.unknownFunction "g"), none] := by decide +kernel
  have whole : ∀ r ∈ (M.within L).reports runs (M.start 0), ¬ CutShort r.outcome := by
    intro r hr ⟨fault, failed, scarce⟩
    have seen : fault? r.outcome ∈ [none, some (.unknownFunction "g"), none] :=
      faults ▸ List.mem_map_of_mem hr
    rw [failed] at seen
    obtain rfl : fault = .unknownFunction "g" := by simpa [fault?] using seen
    exact scarce
  exact ⟨le, whole, Machine.reports_larger le runs _ whole⟩

end Decaf.Execution
