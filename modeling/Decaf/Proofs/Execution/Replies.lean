import Decaf.Proofs.Execution.Exchanges

/-!
# What the host replies

The exchanges of a run with its host. A run that is not cut short fixes the replies, and so do
the runs under all limits together; given these replies, the machine does without the host what
it does with it.
-/

namespace Decaf.Execution

open IR

variable {σ : Type}

/-- The call of a function, as a run begins it. -/
def Begins (m : Module) (name : String) (args : List Value) (memory : Memory) (frame : Frame) :
    Prop :=
  ∃ F entry, m.functionByName? name = some F ∧ m.function? F.id = some F ∧
    F.params.length = args.length ∧ F.entry? = some entry ∧
    Frame.enter ⟨entry, [], .ofParams F.params args, memory.mark⟩ m none entry = .ok frame

theorem Begins.unique {m : Module} {name : String} {args : List Value} {memory : Memory}
    {frame frame' : Frame} (h : Begins m name args memory frame)
    (h' : Begins m name args memory frame') : frame = frame' := by
  obtain ⟨F, entry, found, -, -, body, entered⟩ := h
  obtain ⟨F', entry', found', -, -, body', entered'⟩ := h'
  rw [found] at found'
  cases found'
  rw [body] at body'
  cases body'
  rw [entered] at entered'
  exact Except.ok.inj entered'

/-- The world with a host of which the exchanges are written down from now on. -/
def World.watched (w : World σ) : World (σ × List (HostCall × Option Value)) :=
  ⟨w.memory, w.steps, (w.host, [])⟩

def Config.begun (w : World σ) (frame : Frame) : Config (σ × List (HostCall × Option Value)) :=
  ⟨w.watched, frame, []⟩

namespace Machine

section

variable (M : Machine σ) (name : String) (args : List Value) (w : World σ)

/-- What the host is asked in a run, and what it answers. -/
def exchanges : List (HostCall × Option Value) :=
  (M.recorded.run name args w.watched).2.host.2

/-- The replies are what the host answers in the run, and where it refuses there is none. -/
structure Replied (replies : Nat → Option (Option Value)) : Prop where
  given : ∀ (i : Nat) x, (M.exchanges name args w)[i]? = some x → replies i = some x.2
  refused : ∀ callee, (M.run name args w).1 = .error (.unboundExtern callee) →
    replies (M.exchanges name args w).length = none

/-- A host does not notice that it is watched. -/
theorem run_recorded : (M.run name args w).1 =
      (M.recorded.run name args w.watched).1 ∧
    (M.run name args w).2 =
      (M.recorded.run name args w.watched).2.map Prod.fst := by
  have mapped : M.run name args (w.watched.map Prod.fst) =
      ((M.recorded.run name args w.watched).1,
        (M.recorded.run name args w.watched).2.map Prod.fst) := by
    refine run_map (fun s call => ?_) name args w.watched
    show _ = (M.recorded.host.answer s call).map _
    rw [recorded_answer, Option.map_map]
    simp [Function.comp_def]
  exact ⟨congrArg Prod.fst mapped, congrArg Prod.snd mapped⟩

end

/-- Limits have no part in what happens without them. -/
theorem after_within (M : Machine σ) (L : Limits) (n : Nat) (c : Config σ) :
    (M.within L).after n c = M.after n c := by
  induction n generalizing c with
  | zero => rfl
  | succ n ih =>
    have same : (M.within L).advance c = M.advance c := rfl
    simp only [after, same, ih]

section

variable {M : Machine σ} {name : String} {args : List Value} {w : World σ} {frame : Frame}
  {replies : Nat → Option (Option Value)}

/-- A run drives the call from its start, unless no call is allowed. -/
theorem run_of_begins (h : Begins M.module name args w.memory frame) :
    M.run name args w = if M.limits.callDepth = 0 then
        (.error (.callDepthExceeded M.limits.callDepth), w)
      else ((M.drive (M.remainingSteps w) ⟨w, frame, []⟩).1,
        { (M.drive (M.remainingSteps w) ⟨w, frame, []⟩).2 with
          memory := (M.drive (M.remainingSteps w) ⟨w, frame, []⟩).2.memory.release
            w.memory.mark }) := by
  obtain ⟨F, entry, found, hF, arity, body, entered⟩ := h
  simp only [Machine.run, found, call]
  rw [M.invoke_body hF arity body, entered]
  by_cases none : M.limits.callDepth = 0
  · rw [if_pos (Nat.le_of_eq none), if_pos none]
  · rw [if_neg (by omega), if_neg none]
    rfl

/-- No slots are left over by a run. -/
theorem mark_run_le (h : Begins M.module name args w.memory frame) :
    (M.run name args w).2.memory.mark ≤ w.memory.mark := by
  rw [run_of_begins h]
  split
  · exact Nat.le_refl _
  · rw [Memory.mark_release]
    exact Nat.min_le_left ..

/-- A run that is not cut short is the unlimited one. -/
theorem complete_run (h : Begins M.module name args w.memory frame)
    (whole : ¬ CutShort (M.run name args w).1) :
    ∃ n v, M.recorded.after n (.begun w frame) = .finished (M.run name args w).1 v ∧
      M.exchanges name args w = v.host.2 ∧
      (M.run name args w).2.memory = v.memory.release w.memory.mark := by
  have ran := run_of_begins (M := M.recorded) (w := w.watched) h
  obtain ⟨outcome, world⟩ := M.run_recorded name args w
  rw [outcome] at whole ⊢
  rw [world, exchanges]
  by_cases none : M.recorded.limits.callDepth = 0
  · rw [if_pos none] at ran
    rw [ran] at whole
    exact absurd ⟨_, rfl, trivial⟩ whole
  · rw [if_neg none] at ran
    rw [ran] at whole ⊢
    obtain ⟨n, ended⟩ := after_of_drive whole
    exact ⟨n, _, ended, rfl, rfl⟩

/-- The exchanges of a run are among those of the unlimited one. -/
theorem exchanges_of_begins (h : Begins M.module name args w.memory frame) :
    ∃ n, M.exchanges name args w = (M.recorded.after n (.begun w frame)).world.host.2 := by
  have ran := run_of_begins (M := M.recorded) (w := w.watched) h
  rw [exchanges, ran]
  split
  · exact ⟨0, rfl⟩
  · obtain ⟨n, same⟩ := M.recorded.host_of_drive (M.recorded.remainingSteps
      w.watched) (.begun w frame)
    exact ⟨n, congrArg Prod.snd same.symm⟩

/-- The limits have no part in what the host replies. -/
theorem Supplies.within {c : Config (σ × List (HostCall × Option Value))}
    (h : M.Supplies c replies) (L : Limits) : (M.within L).Supplies c replies where
  given n i x hx := h.given n i x (M.recorded.after_within L n c ▸ hx)
  refused n name w ended := h.refused n name w (M.recorded.after_within L n c ▸ ended)

/-- Some limits let the run come as far as so many actions lead. -/
theorem exists_run (h : Begins M.module name args w.memory frame) (n : Nat) : ∃ L : Limits,
    ((M.within L).run name args w).1 =
        ((M.recorded.after n (.begun w frame)).stopped L.steps).1 ∧
      (M.within L).exchanges name args w = (M.recorded.after n (.begun w frame)).world.host.2 := by
  obtain ⟨depth, slots, room⟩ := M.recorded.exists_room n (.begun w frame)
  refine ⟨⟨w.steps + n, depth + 1, slots⟩, ?_⟩
  have ran := run_of_begins (M := (M.within ⟨w.steps + n, depth + 1, slots⟩).recorded)
    (w := w.watched) h
  have calls : (M.within ⟨w.steps + n, depth + 1, slots⟩).recorded.limits.callDepth ≠ 0 :=
    Nat.succ_ne_zero depth
  have steps : (M.within ⟨w.steps + n, depth + 1, slots⟩).recorded.remainingSteps w.watched = n :=
    Nat.add_sub_cancel_left ..
  have driven : (M.within ⟨w.steps + n, depth + 1, slots⟩).recorded.drive n
      ⟨w.watched, frame, []⟩ = (M.recorded.after n (.begun w frame)).stopped (w.steps + n) :=
    drive_eq (M := M.recorded) (room _ (Nat.le_succ depth) (Nat.le_refl slots))
  rw [if_neg calls, steps] at ran
  rw [((M.within _).run_recorded name args w).1, exchanges, ran, driven]
  refine ⟨rfl, ?_⟩
  cases M.recorded.after n (.begun w frame) <;> rfl

theorem replied_of_supplies (h : Begins M.module name args w.memory frame)
    (supplies : M.Supplies (.begun w frame) replies) : M.Replied name args w replies where
  given i x hx := by
    obtain ⟨n, same⟩ := exchanges_of_begins h
    exact supplies.given n i x (same ▸ hx)
  refused callee outcome := by
    have whole : ¬ CutShort (M.run name args w).1 := by
      rintro ⟨fault, failed, scarce⟩
      rw [outcome] at failed
      cases failed
      exact scarce
    obtain ⟨n, v, ended, same, -⟩ := complete_run h whole
    rw [same]
    exact supplies.refused n callee v (outcome ▸ ended)

/-- A run that is not cut short fixes the replies. -/
theorem supplies_of_complete (h : Begins M.module name args w.memory frame)
    (whole : ¬ CutShort (M.run name args w).1) (replied : M.Replied name args w replies) :
    M.Supplies (.begun w frame) replies := by
  obtain ⟨n, v, ended, same, -⟩ := complete_run h whole
  constructor
  case given =>
    intro k i x hx
    -- what was exchanged by then is among what was exchanged in the end
    obtain ⟨more, prefixed⟩ := M.exchanges_mono (Nat.le_max_left k n) (.begun w frame)
    obtain ⟨d, far⟩ := Nat.exists_eq_add_of_le (Nat.le_max_right k n)
    rw [far, after_stays ended] at prefixed
    refine replied.given i x ?_
    rw [same]
    show v.host.2[i]? = _
    rw [show v.host.2 = _ from prefixed.symm,
      List.getElem?_append_left (List.getElem?_eq_some_iff.1 hx).1, hx]
  case refused =>
    intro k callee v' ended'
    have both : Progress.finished (M.run name args w).1 v =
        .finished (.error (.unboundExtern callee)) v' := by
      rw [← after_stays ended k, ← after_stays ended' n, Nat.add_comm]
    obtain ⟨outcome, rfl⟩ := Progress.finished.inj both
    rw [← same]
    exact replied.refused callee outcome

/-- If the unlimited run ends, so does the run under limits that suffice. -/
theorem exists_whole_run (h : Begins M.module name args w.memory frame) {n : Nat}
    {outcome : Outcome} {v : World (σ × List (HostCall × Option Value))}
    (ended : M.recorded.after n (.begun w frame) = .finished outcome v) :
    ∃ L : Limits, ∀ L' : Limits, L.steps ≤ L'.steps → L.callDepth ≤ L'.callDepth →
      L.stackSlots ≤ L'.stackSlots → ((M.within L').run name args w).1 = outcome := by
  obtain ⟨L, enough⟩ := exists_limits ended
  refine ⟨⟨w.steps + L.steps, max 1 L.callDepth, L.stackSlots⟩, fun L' steps calls slots => ?_⟩
  have ran := run_of_begins (M := (M.within L').recorded) (w := w.watched) h
  have called : (M.within L').recorded.limits.callDepth ≠ 0 :=
    Nat.ne_of_gt (Nat.le_trans (Nat.le_max_left 1 _) calls)
  have driven : (M.within L').recorded.drive ((M.within L').recorded.remainingSteps w.watched)
      ⟨w.watched, frame, []⟩ = (outcome, v) :=
    enough L' _ (Nat.le_sub_of_add_le' steps) (Nat.le_trans (Nat.le_max_right ..) calls) slots
  rw [((M.within L').run_recorded name args w).1, ran, if_neg called, driven]

/-- The runs under all limits fix the replies. -/
theorem supplies_of_all (h : Begins M.module name args w.memory frame)
    (replied : ∀ L, (M.within L).Replied name args w replies) :
    M.Supplies (.begun w frame) replies where
  given n i x hx := by
    obtain ⟨L, -, same⟩ := exists_run h n
    exact (replied L).given i x (same ▸ hx)
  refused n callee v ended := by
    obtain ⟨L, outcome, same⟩ := exists_run h n
    rw [ended] at outcome same
    have none := (replied L).refused callee outcome
    rwa [same] at none

end

end Machine

end Decaf.Execution
