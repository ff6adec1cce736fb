import Decaf.Proofs.Execution.Exchanges
import Decaf.Proofs.Meaning.Correspondence

/-!
# Following an evaluation

The machine follows an evaluation from a configuration if it does in some steps what the
evaluation does at once: where the evaluation has a result the machine comes to a
configuration that fits, where it fails the machine ends with the same fault, and where it is
unfinished after some rounds the machine is still running after as many steps. Nothing is
asked of it where the evaluation is mistyped. There is one rule for each way in which
evaluations are put together.
-/

namespace Decaf.Meaning

open IR Execution

def Failure.fault : Failure → Fault
  | .divisionByZero => .divisionByZero
  | .outOfBounds index length => .outOfBounds index length
  | .unboundExtern name => .unboundExtern name

/-- A program, its module, and the replies that are given from outside. -/
structure Setting where
  source : Source
  module : Module
  scopes : ScopeStack
  linked : Linked source module scopes
  replies : Nat → Option (Option Value)

namespace Setting

def machine (X : Setting) : Machine (List HostCall) :=
  .scripted X.module X.replies

theorem module_machine (X : Setting) : X.machine.module = X.module := rfl

/-- Memory and the host are as the situation says. -/
def Holds (X : Setting) (s : Situation) (w : World (List HostCall)) : Prop :=
  Meaning.Holds X.source X.module s w

/-- The machine follows the evaluation from the configuration, and where both have come to the
end `P` holds. -/
def Tracks (X : Setting) {α : Type} (rounds : Nat) (e : Eval α) (s : Situation)
    (c : Config (List HostCall)) (P : α → Situation → Config (List HostCall) → Prop) : Prop :=
  match (e.run.run s : Except Stop α × Situation) with
  | (.ok a, s') => ∃ n c', X.machine.after n c = .running c' ∧ P a s' c'
  | (.error (.failure f), s') =>
    ∃ n w, X.machine.after n c = .finished (.error f.fault) w ∧ X.Holds s' w
  | (.error .mistyped, _) => True
  | (.error .meaningless, _) => False
  | (.error .unfinished, _) => ∃ n c', rounds ≤ n ∧ X.machine.after n c = .running c'

section Rules

variable {X : Setting} {α β : Type} {rounds : Nat} {e : Eval α} {s : Situation}
  {c c' : Config (List HostCall)} {P : α → Situation → Config (List HostCall) → Prop}
  {Q : β → Situation → Config (List HostCall) → Prop}

theorem Tracks.imp {R : α → Situation → Config (List HostCall) → Prop}
    (h : X.Tracks rounds e s c P) (implies : ∀ a s' c', P a s' c' → R a s' c') :
    X.Tracks rounds e s c R := by
  unfold Tracks at h ⊢
  split at h
  · obtain ⟨n, c', running, held⟩ := h
    exact ⟨n, c', running, implies _ _ _ held⟩
  all_goals exact h

/-- Some more steps after the evaluation. -/
theorem Tracks.onward {R : α → Situation → Config (List HostCall) → Prop}
    (h : X.Tracks rounds e s c P) (more : ∀ a s' c', P a s' c' →
      ∃ n c'', X.machine.after n c' = .running c'' ∧ R a s' c'') : X.Tracks rounds e s c R := by
  unfold Tracks at h ⊢
  split at h
  · obtain ⟨n, c', running, held⟩ := h
    obtain ⟨k, c'', later, there⟩ := more _ _ _ held
    exact ⟨n + k, c'', (Machine.after_add running k).trans later, there⟩
  all_goals exact h

theorem Tracks.weaken (h : X.Tracks rounds e s c P) {fewer : Nat} (le : fewer ≤ rounds) :
    X.Tracks fewer e s c P := by
  unfold Tracks at h ⊢
  split at h
  case h_5 =>
    obtain ⟨n, c', enough, running⟩ := h
    exact ⟨n, c', Nat.le_trans le enough, running⟩
  all_goals exact h

/-- The machine comes to the configuration from which it follows. -/
theorem Tracks.after {n : Nat} (h : X.Tracks rounds e s c' P)
    (running : X.machine.after n c = .running c') : X.Tracks (rounds + n) e s c P := by
  unfold Tracks at h ⊢
  split at h
  · obtain ⟨k, c'', later, held⟩ := h
    exact ⟨n + k, c'', (Machine.after_add running k).trans later, held⟩
  · obtain ⟨k, w, later, held⟩ := h
    exact ⟨n + k, w, (Machine.after_add running k).trans later, held⟩
  · trivial
  · exact h
  · obtain ⟨k, c'', enough, later⟩ := h
    exact ⟨n + k, c'', by omega, (Machine.after_add running k).trans later⟩

/-- The steps to a configuration need not count. -/
theorem Tracks.step {n : Nat} (h : X.Tracks rounds e s c' P)
    (running : X.machine.after n c = .running c') : X.Tracks rounds e s c P :=
  (h.after running).weaken (Nat.le_add_right ..)

theorem tracks_pure {a : α} (h : P a s c) : X.Tracks rounds (pure a) s c P :=
  ⟨0, c, rfl, h⟩

theorem tracks_mistyped : X.Tracks rounds (throw .mistyped) s c P :=
  trivial

theorem tracks_failure {f : Failure} {n : Nat} {w : World (List HostCall)}
    (ended : X.machine.after n c = .finished (.error f.fault) w) (holds : X.Holds s w) :
    X.Tracks rounds (throw (.failure f)) s c P :=
  ⟨n, w, ended, holds⟩

theorem run_bind (e : Eval α) (f : α → Eval β) (s : Situation) :
    ((e >>= f).run.run s : Except Stop β × Situation) =
      match (e.run.run s : Except Stop α × Situation) with
      | (.ok a, s') => (f a).run.run s'
      | (.error stop, s') => (.error stop, s') := by
  simp only [ExceptT.run_bind, StateT.run_bind]
  show (let p := e.run.run s; _) = _
  rcases e.run.run s with ⟨r | r, s'⟩ <;> rfl

theorem tracks_bind {f : α → Eval β} (first : X.Tracks rounds e s c P)
    (rest : ∀ a s' c', P a s' c' → X.Tracks rounds (f a) s' c' Q) :
    X.Tracks rounds (e >>= f) s c Q := by
  unfold Tracks at first
  rw [Tracks, run_bind]
  split at first
  case h_1 a s' ran =>
    obtain ⟨n, c', running, held⟩ := first
    rw [ran]
    exact ((rest a s' c' held).after running).weaken (Nat.le_add_right ..)
  all_goals
    rename_i ran
    rw [ran]
    exact first

theorem tracks_map {f : α → β} (h : X.Tracks rounds e s c fun a s' c' => Q (f a) s' c') :
    X.Tracks rounds (f <$> e) s c Q := by
  rw [map_eq_pure_bind]
  exact tracks_bind h fun _ _ _ held => tracks_pure held

theorem tracks_get {f : Situation → Eval β} (h : X.Tracks rounds (f s) s c Q) :
    X.Tracks rounds (get >>= f) s c Q :=
  h

theorem tracks_modify {g : Situation → Situation} {P : Unit → Situation → Config _ → Prop}
    (h : P () (g s) c) : X.Tracks rounds (modify g) s c P :=
  ⟨0, c, rfl, h⟩

section

variable {d : Datum} {ty : Decaf.Ty} {P : Datum → Situation → Config (List HostCall) → Prop}

theorem tracks_expect (h : d.ty = ty → P d s c) : X.Tracks rounds (Eval.expect ty d) s c P := by
  rw [Eval.expect]
  split
  · rename_i fits
    exact tracks_pure (h fits)
  · exact tracks_mistyped

theorem tracks_convert (h : ∀ d', d.convert? ty = some d' → P d' s c) :
    X.Tracks rounds (Eval.convert ty d) s c P := by
  rw [Eval.convert]
  split
  · rename_i d' found
    exact tracks_pure (h d' found)
  · exact tracks_mistyped

theorem tracks_integer {P : Int32 → Situation → Config (List HostCall) → Prop}
    (h : ∀ n, d = .int n → P n s c) : X.Tracks rounds (Eval.integer d) s c P := by
  cases d with
  | int n => exact tracks_pure (h n rfl)
  | bool b => exact tracks_mistyped
  | string t => exact tracks_mistyped

theorem tracks_truth {P : Bool → Situation → Config (List HostCall) → Prop}
    (h : ∀ b, d = .bool b → P b s c) : X.Tracks rounds (Eval.truth d) s c P := by
  cases d with
  | int n => exact tracks_mistyped
  | bool b => exact tracks_pure (h b rfl)
  | string t => exact tracks_mistyped

theorem tracks_asValue {e : Eval (Option Datum)}
    (h : X.Tracks rounds e s c fun o s' c' => ∃ d, o = some d ∧ P d s' c') :
    X.Tracks rounds (Eval.asValue e) s c P := by
  refine tracks_bind h ?_
  rintro o s' c' ⟨d, rfl, held⟩
  exact tracks_pure held

end

end Rules

end Setting

end Decaf.Meaning
