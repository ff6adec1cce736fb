import Decaf.Execution.Run

/-!
# Runs without limits

What a machine does if it never runs out of steps, calls and slots. Limits can only cut this
short: a run under limits either ends for want of something or ends as the unlimited one, and
if the unlimited one ends, there are limits under which nothing is wanting.
-/

namespace Decaf.Execution

open IR

variable {σ : Type}

/-- The faults of runs that a limit cuts short. -/
def Fault.Scarce : Fault → Prop
  | .stepLimitExceeded _ | .callDepthExceeded _ | .stackSlotsExceeded _ => True
  | _ => False

/-- A limit has cut the run short. -/
def CutShort (outcome : Outcome) : Prop :=
  ∃ fault, outcome = .error fault ∧ fault.Scarce

def Progress.world : Progress σ → World σ
  | .running c => c.world
  | .finished _ w => w

/-- What a run comes to that is stopped there if it has not ended. -/
def Progress.stopped (limit : Nat) : Progress σ → Outcome × World σ
  | .running c => (.error (.stepLimitExceeded limit), { c.world with steps := c.world.steps + 1 })
  | .finished outcome w => (outcome, w)

namespace Machine

variable (M : Machine σ)

/-- The machine under other limits. -/
def within (L : Limits) : Machine σ :=
  { M with limits := L }

@[simp]
theorem module_within (L : Limits) : (M.within L).module = M.module := rfl

@[simp]
theorem host_within (L : Limits) : (M.within L).host = M.host := rfl

/-- The limits leave room for the next action, whatever it is. -/
structure Ample (L : Limits) (c : Config σ) : Prop where
  calls : c.callers.length + 1 < L.callDepth
  slots : M.slotsInUse c.world.memory < L.stackSlots

/-- Limits under which there is room for the next action. -/
def roomy (c : Config σ) : Limits :=
  ⟨0, c.callers.length + 2, M.slotsInUse c.world.memory + 1⟩

theorem ample_roomy (c : Config σ) : M.Ample (M.roomy c) c :=
  ⟨Nat.lt_succ_self _, Nat.lt_succ_self _⟩

/-- One action without regard to any limit. -/
def advance (c : Config σ) : Progress σ :=
  (M.within (M.roomy c)).act c

/-- What comes of so many actions. -/
def after : Nat → Config σ → Progress σ
  | 0, c => .running c
  | n + 1, c =>
    match M.advance c with
    | .running next => after n next
    | .finished outcome w => .finished outcome w

section

variable {M} {L L' : Limits} {c : Config σ}

/-- The depth of calls matters only when a body is entered. -/
theorem invoke_within {w : World σ} {depth : Nat} (f : FunctionId) (args : List Value)
    (room : depth < L'.callDepth) :
    (M.within L).invoke w depth f args = (M.within L').invoke w depth f args ∨
      L.callDepth ≤ depth ∧
        (M.within L).invoke w depth f args = .error (.callDepthExceeded L.callDepth) := by
  have enough : ¬ (M.within L').limits.callDepth ≤ depth := Nat.not_le.2 room
  simp only [invoke, module_within, host_within, if_neg enough]
  split
  · exact .inl rfl
  · split
    · exact .inl rfl
    · split
      · exact .inl rfl
      · split
        · rename_i spent
          exact .inr ⟨spent, rfl⟩
        · exact .inl rfl

/-- Limits matter only if they leave no room, and then the action ends the run. -/
theorem act_within (room : M.Ample L' c) :
    (M.within L).act c = (M.within L').act c ∨ ¬ M.Ample L c ∧ ∃ fault, fault.Scarce ∧
      (M.within L).act c =
        .finished (.error fault) { c.world with steps := c.world.steps + 1 } := by
  obtain ⟨⟨memory, steps, host⟩, ⟨block, rest, values, mark⟩, callers⟩ := c
  cases rest with
  | nil => exact .inl rfl
  | cons i rest =>
    cases i with
    | call dst f args =>
      show (M.within L).actCall .. = (M.within L').actCall .. ∨ _ ∧ ∃ fault, _ ∧
        (M.within L).actCall .. = _
      simp only [actCall, show (M.within L).module = M.module from rfl,
        show (M.within L').module = M.module from rfl, calleeName]
      cases args.mapM (operand M.module values) with
      | error fault => exact .inl rfl
      | ok xs =>
        simp only [bind, Except.bind]
        rcases invoke_within (M := M) (L := L) (w := ⟨memory, steps + 1, host⟩) f xs room.calls
          with same | ⟨spent, refused⟩
        · rw [same]
          exact .inl rfl
        · rw [refused]
          exact .inr ⟨fun ample => Nat.lt_irrefl _ (Nat.lt_of_lt_of_le ample.calls spent),
            .callDepthExceeded L.callDepth, trivial, rfl⟩
    | alloca dst ty =>
      have enough : ¬ (M.within L').limits.stackSlots ≤ (M.within L').slotsInUse memory :=
        Nat.not_le.2 room.slots
      simp only [act, perform, if_neg enough]
      by_cases spent : (M.within L).limits.stackSlots ≤ (M.within L).slotsInUse memory
      · simp only [if_pos spent]
        exact .inr ⟨fun ample => Nat.lt_irrefl _ (Nat.lt_of_lt_of_le ample.slots spent),
          .stackSlotsExceeded L.stackSlots, trivial, rfl⟩
      · simp only [if_neg spent, true_or]
    | _ => exact .inl rfl

theorem act_cases (c : Config σ) : M.act c = M.advance c ∨ ∃ fault, fault.Scarce ∧
    M.act c = .finished (.error fault) { c.world with steps := c.world.steps + 1 } :=
  (act_within (M := M) (L := M.limits) (M.ample_roomy c)).imp_right fun short => short.2

theorem after_add {n : Nat} {next : Config σ} (h : M.after n c = .running next) (k : Nat) :
    M.after (n + k) c = M.after k next := by
  induction n generalizing c with
  | zero =>
    cases h
    rw [Nat.zero_add]
  | succ n ih =>
    rw [Nat.succ_add]
    simp only [after] at h ⊢
    split at h
    · exact ih h
    · cases h

theorem after_stays {n : Nat} {outcome : Outcome} {w : World σ}
    (h : M.after n c = .finished outcome w) (k : Nat) :
    M.after (n + k) c = .finished outcome w := by
  induction n generalizing c with
  | zero => cases h
  | succ n ih =>
    rw [Nat.succ_add]
    simp only [after] at h ⊢
    split at h
    · exact ih h
    · exact h

/-- What a run shows that is not cut short happens without limits as well. -/
theorem after_of_drive {steps : Nat} (whole : ¬ CutShort (M.drive steps c).1) :
    ∃ n, M.after n c = .finished (M.drive steps c).1 (M.drive steps c).2 := by
  induction steps generalizing c with
  | zero => exact absurd ⟨_, rfl, trivial⟩ whole
  | succ steps ih =>
    rcases act_cases (M := M) c with same | ⟨fault, scarce, short⟩
    · simp only [drive, same] at whole ⊢
      cases step : M.advance c with
      | running next =>
        rw [step] at whole
        obtain ⟨n, h⟩ := ih whole
        exact ⟨n + 1, by simp only [after, step, h]⟩
      | finished outcome w => exact ⟨1, by simp only [after, step]⟩
    · simp only [drive, short] at whole
      exact absurd ⟨fault, rfl, scarce⟩ whole

/-- A run under limits is part of the unlimited one, as far as the host can tell. -/
theorem host_of_drive (steps : Nat) (c : Config σ) :
    ∃ n, (M.after n c).world.host = (M.drive steps c).2.host := by
  induction steps generalizing c with
  | zero => exact ⟨0, rfl⟩
  | succ steps ih =>
    rcases act_cases (M := M) c with same | ⟨fault, scarce, short⟩
    · simp only [drive, same]
      cases step : M.advance c with
      | running next =>
        obtain ⟨n, h⟩ := ih next
        exact ⟨n + 1, by simp only [after, step, h]⟩
      | finished outcome w => exact ⟨1, by simp only [after, step]; rfl⟩
    · simp only [drive, short]
      exact ⟨0, rfl⟩

/-- Where there is room for so many actions they are all taken. -/
theorem drive_eq {N : Machine σ} {n : Nat} (room : ∀ k < n, ∀ c', M.after k c = .running c' →
      N.act c' = M.advance c') : N.drive n c = (M.after n c).stopped N.limits.steps := by
  induction n generalizing c with
  | zero => rfl
  | succ n ih =>
    rw [drive, room 0 (Nat.succ_pos n) c rfl, after]
    cases step : M.advance c with
    | finished outcome w => rfl
    | running next =>
      refine ih fun k less c' later => room (k + 1) (Nat.succ_lt_succ less) c' ?_
      simp only [after, step, later]

/-- Some calls and slots suffice for so many actions. -/
theorem exists_room (M : Machine σ) (n : Nat) (c : Config σ) : ∃ depth slots, ∀ L : Limits,
    depth ≤ L.callDepth → slots ≤ L.stackSlots → ∀ k < n, ∀ c', M.after k c = .running c' →
      (M.within L).act c' = M.advance c' := by
  induction n with
  | zero => exact ⟨0, 0, fun _ _ _ k less => absurd less (Nat.not_lt_zero k)⟩
  | succ n ih =>
    -- what suffices for all actions but the last, and for the last
    obtain ⟨depth, slots, enough⟩ := ih
    cases last : M.after n c with
    | finished outcome w =>
      refine ⟨depth, slots, fun L calls cells k less c' later => ?_⟩
      rcases Nat.lt_succ_iff_lt_or_eq.1 less with before | rfl
      · exact enough L calls cells k before c' later
      · rw [last] at later
        cases later
    | running next =>
      refine ⟨max depth (M.roomy next).callDepth, max slots (M.roomy next).stackSlots,
        fun L calls cells k less c' later => ?_⟩
      rcases Nat.lt_succ_iff_lt_or_eq.1 less with before | rfl
      · exact enough L (Nat.le_trans (Nat.le_max_left ..) calls)
          (Nat.le_trans (Nat.le_max_left ..) cells) k before c' later
      · rw [last] at later
        cases later
        have ample := M.ample_roomy next
        refine (act_within ample).resolve_right fun short => short.1 ⟨?_, ?_⟩
        · exact Nat.lt_of_lt_of_le ample.calls (Nat.le_trans (Nat.le_max_right ..) calls)
        · exact Nat.lt_of_lt_of_le ample.slots (Nat.le_trans (Nat.le_max_right ..) cells)

/-- If the unlimited run ends, some limits suffice for it, and so do all above them. -/
theorem exists_limits {n : Nat} {outcome : Outcome} {w : World σ}
    (h : M.after n c = .finished outcome w) :
    ∃ L : Limits, ∀ (L' : Limits) (steps : Nat), L.steps ≤ steps → L.callDepth ≤ L'.callDepth →
      L.stackSlots ≤ L'.stackSlots → (M.within L').drive steps c = (outcome, w) := by
  obtain ⟨depth, slots, enough⟩ := M.exists_room n c
  refine ⟨⟨n, depth, slots⟩, fun L' steps le calls cells => ?_⟩
  obtain ⟨k, rfl⟩ := Nat.exists_eq_add_of_le le
  have ended : M.after (n + k) c = .finished outcome w := after_stays h k
  rw [drive_eq (M := M) fun j _ c' later => ?_, ended]
  · rfl
  · refine enough L' calls cells j (Nat.lt_of_not_le fun late => ?_) c' later
    obtain ⟨i, rfl⟩ := Nat.exists_eq_add_of_le late
    rw [after_stays h i] at later
    cases later

end

end Machine

end Decaf.Execution
