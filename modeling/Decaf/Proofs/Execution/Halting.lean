import Decaf.Proofs.Execution.Nesting

/-!
# Evaluation ends

Every step takes from the steps that are left, a step beyond the limit ends the evaluation,
and between two steps there are only the phis of one block: so there is an evaluation of
every task. It comes to what the machine comes to. The memory that a fault leaves behind
is not the same before the stack slots are dropped, and it is the same afterwards.
-/

namespace Decaf.Execution

open IR

variable {σ : Type}

namespace Machine

variable {M : Machine σ}

section

variable {s : Standing σ}

theorem evaluates_enter (bodies : ∀ frame, ∃ outcome t, M.Evaluates (.body frame) s outcome t)
    (frame : Frame) (source : Option BlockId) (target : BlockId) :
    ∃ outcome t, M.Evaluates (.enter frame source target) s outcome t := by
  cases entered : Frame.enter frame M.module source target with
  | error fault => exact ⟨_, _, .noEntry entered⟩
  | ok frame' =>
    obtain ⟨outcome, t, body⟩ := bodies frame'
    exact ⟨outcome, t, .arrived entered body⟩

/-- A call can be evaluated if bodies can be. -/
theorem evaluates_call_of_bodies
    (bodies : ∀ frame, ∃ outcome t, M.Evaluates (.body frame) s.enter outcome t)
    (f : FunctionId) (args : List Value) :
    ∃ outcome t, M.Evaluates (.call f args) s outcome t := by
  cases there : M.module.function? f with
  | none => exact ⟨_, _, .unknown there⟩
  | some F =>
    by_cases arity : F.params.length = args.length
    · cases body : F.entry? with
      | none =>
        cases answer : M.host.answer s.world.host ⟨F.name, args, s.world.memory⟩ with
        | none => exact ⟨_, _, .unbound there arity body answer⟩
        | some reply => exact ⟨_, _, .answered there arity body answer⟩
      | some entry =>
        by_cases room : s.depth < M.limits.callDepth
        · obtain ⟨outcome, t, evaluated⟩ := evaluates_enter bodies
            ⟨entry, [], .ofParams F.params args, s.world.memory.mark⟩ none entry
          exact ⟨_, _, .entered there arity body room evaluated⟩
        · exact ⟨_, _, .tooDeep there arity body (Nat.le_of_not_lt room)⟩
    · exact ⟨_, _, .arity there arity⟩

/-- What is left of a body can be evaluated: by induction on the steps that are left. -/
theorem evaluates_body (frame : Frame) (s : Standing σ) :
    ∃ outcome t, M.Evaluates (.body frame) s outcome t := by
  induction left : M.limits.steps - s.world.steps using Nat.strongRecOn
    generalizing frame s with
  | ind n ih =>
    by_cases below : s.world.steps < M.limits.steps
    case neg => exact ⟨_, _, .spent (Nat.le_of_not_lt below)⟩
    case pos =>
      have later (s' : Standing σ) (more : s.world.steps < s'.world.steps) (frame' : Frame) :
          ∃ outcome t, M.Evaluates (.body frame') s' outcome t :=
        ih _ (by omega) frame' s' rfl
      have ticked : s.world.steps < s.tick.world.steps := Nat.lt_succ_self _
      obtain ⟨block, rest, vs, mark⟩ := frame
      cases rest with
      | cons i rest =>
        by_cases call : ∃ dst g args, i = .call dst g args
        · obtain ⟨dst, g, args, rfl⟩ := call
          cases operands : args.mapM (operand M.module vs) with
          | error fault => exact ⟨_, _, .noOperand below operands⟩
          | ok xs =>
            obtain ⟨result, t, called⟩ := evaluates_call_of_bodies (s := s.tick)
              (later s.tick.enter ticked) g xs
            cases result with
            | error fault => exact ⟨_, _, .calleeFailed below operands called⟩
            | ok result =>
              cases bound : bindResult (M.calleeName g) dst result vs with
              | error fault => exact ⟨_, _, .noResult below operands called bound⟩
              | ok vs' =>
                obtain ⟨outcome, u, body⟩ := later _
                  (Nat.lt_of_lt_of_le ticked called.steps_le) ⟨block, rest, vs', mark⟩
                exact ⟨outcome, u, .returned below operands called bound body⟩
        · have other (dst : Option ValueId) (g : FunctionId) (args : List ValueId) :
              i ≠ .call dst g args := fun same => call ⟨dst, g, args, same⟩
          cases performed : M.perform i vs s.world.memory with
          | mk result memory =>
            cases result with
            | error fault => exact ⟨_, _, .failed below other performed⟩
            | ok vs' =>
              obtain ⟨outcome, t, body⟩ := later (s.tick.withMemory memory) ticked
                ⟨block, rest, vs', mark⟩
              exact ⟨outcome, t, .performed below other performed body⟩
      | nil =>
        cases ends : exitOf M.module ⟨block, [], vs, mark⟩ (M.terminatorAt block) with
        | error fault => exact ⟨_, _, .noExit below ends⟩
        | ok exit =>
          cases exit with
          | leave result => exact ⟨_, _, .left below ends⟩
          | jump target =>
            obtain ⟨outcome, t, evaluated⟩ := evaluates_enter (later _ ticked)
              ⟨block, [], vs, mark⟩ (some block) target
            exact ⟨outcome, t, .jumped below ends evaluated⟩

/-- Every call can be evaluated. -/
theorem exists_evaluates (f : FunctionId) (args : List Value) (s : Standing σ) :
    ∃ outcome t, M.Evaluates (.call f args) s outcome t :=
  evaluates_call_of_bodies (fun frame => evaluates_body frame _) f args

end

section

variable (M)

/-- What the machine comes to from a point on. -/
def conclude : Progress σ → Outcome × World σ
  | .running c => M.drive (M.remainingSteps c.world) c
  | .finished outcome w => (outcome, w)

/-- From a point on the machine comes to go on with the result, or to the fault, in the world
of the standing up to the regions above the mark. -/
def Reaches (next : Option Value → World σ → Progress σ) (mark : Nat) (p : Progress σ) :
    Outcome → Standing σ → Prop
  | .ok result, t => M.conclude p = M.conclude (next result t.world)
  | .error fault, t => ∃ memory, M.conclude p = (.error fault, { t.world with memory }) ∧
    ∀ k ≤ mark, memory.release k = t.world.memory.release k

/-- From a point of a call that began at the mark the machine comes to return the result. -/
def Returns (callers : List Caller) (mark : Nat) : Progress σ → Outcome → Standing σ → Prop :=
  M.Reaches (fun result w => actReturn result w mark callers) mark

/-- The machine, when it is asked for the call, comes to the outcome and the standing. -/
def Invoked (f : FunctionId) (args : List Value) (s : Standing σ) (outcome : Outcome)
    (t : Standing σ) : Prop :=
  match M.invoke s.world s.depth f args with
  | .error fault => outcome = .error fault ∧ t = s
  | .ok (.answered result host) => outcome = .ok result ∧ t = ⟨{ s.world with host }, s.depth⟩
  | .ok (.entered frame) => ∃ u, t = u.leave s.world.memory.mark ∧
    ∀ callers : List Caller, s.depth = callers.length →
      M.Returns callers s.world.memory.mark (.running ⟨s.world, frame, callers⟩) outcome u

/-- The machine does what the evaluation does. -/
def Agrees : Task → Standing σ → Outcome → Standing σ → Prop
  | .call f args, s, outcome, t => M.Invoked f args s outcome t
  | .enter frame source target, s, outcome, t => ∀ frame',
    Frame.enter frame M.module source target = .ok frame' →
    frame.mark ≤ s.world.memory.mark → ∀ callers : List Caller, s.depth = callers.length + 1 →
    M.Returns callers frame.mark (.running ⟨s.world, frame', callers⟩) outcome t
  | .body frame, s, outcome, t =>
    frame.mark ≤ s.world.memory.mark → ∀ callers : List Caller, s.depth = callers.length + 1 →
    M.Returns callers frame.mark (.running ⟨s.world, frame, callers⟩) outcome t

/-- Where a body goes on after a call it made. -/
def resume (callee : String) (dst : Option ValueId) (frame : Frame) (callers : List Caller)
    (result : Option Value) (w : World σ) : Progress σ :=
  match bindResult callee dst result frame.values with
  | .error fault => .finished (.error fault) w
  | .ok values => .running ⟨w, { frame with values }, callers⟩

theorem conclude_act {c : Config σ} (below : c.world.steps < M.limits.steps) :
    M.conclude (.running c) = M.conclude (M.act c) := by
  obtain ⟨n, left⟩ : ∃ n, M.remainingSteps c.world = n + 1 :=
    ⟨M.limits.steps - c.world.steps - 1, by unfold remainingSteps; omega⟩
  simp only [conclude, left, drive]
  cases acted : M.act c with
  | finished outcome w => rfl
  | running next =>
    have count := M.steps_of_running acted
    have leftNext : M.remainingSteps next.world = n := by
      unfold remainingSteps at left ⊢
      omega
    simp only [leftNext]

theorem conclude_spent {c : Config σ} (spent : M.limits.steps ≤ c.world.steps) :
    M.conclude (.running c) = (.error (.stepLimitExceeded M.limits.steps),
      { c.world with steps := c.world.steps + 1 }) := by
  have none : M.remainingSteps c.world = 0 := Nat.sub_eq_zero_of_le spent
  simp only [conclude, none, drive]

theorem actTerminator_eq (w : World σ) (frame : Frame) (callers : List Caller)
    (terminator : Option Terminator) :
    M.actTerminator w frame callers terminator =
      match exitOf M.module frame terminator with
      | .error fault => .finished (.error fault) w
      | .ok (.jump target) => M.jump w frame callers target
      | .ok (.leave result) => actReturn result w frame.mark callers := by
  cases terminator with
  | none => rfl
  | some t =>
    cases t with
    | br target => rfl
    | unreachable => rfl
    | condBr cond thenBlock elseBlock =>
      simp only [actTerminator, exitOf]
      cases boolOperand M.module frame.values cond <;> rfl
    | ret v =>
      cases v with
      | none => rfl
      | some v =>
        simp only [actTerminator, exitOf, resultOf]
        cases operand M.module frame.values v <;> rfl

theorem act_atEnd (w : World σ) (block : BlockId) (vs : Values) (mark : Nat)
    (callers : List Caller) :
    M.act ⟨w, ⟨block, [], vs, mark⟩, callers⟩ =
      match exitOf M.module ⟨block, [], vs, mark⟩ (M.terminatorAt block) with
      | .error fault => .finished (.error fault) { w with steps := w.steps + 1 }
      | .ok (.jump target) =>
        M.jump { w with steps := w.steps + 1 } ⟨block, [], vs, mark⟩ callers target
      | .ok (.leave result) =>
        actReturn result { w with steps := w.steps + 1 } mark callers :=
  M.actTerminator_eq ..

end

variable {task : Task} {s t : Standing σ} {outcome : Outcome}

theorem invoke_absent {w : World σ} {depth : Nat} {f : FunctionId} {args : List Value}
    (there : M.module.function? f = none) :
    M.invoke w depth f args = .error (.unknownFunction "") := by
  simp only [invoke, there]

theorem invoke_arity {w : World σ} {depth : Nat} {f : FunctionId} {F : Function}
    {args : List Value} (there : M.module.function? f = some F)
    (other : F.params.length ≠ args.length) :
    M.invoke w depth f args =
      .error (.arityMismatch F.name F.params.length args.length) := by
  simp only [invoke, there]
  rw [if_pos other]

theorem reaches_of_eq {next : Option Value → World σ → Progress σ} {mark : Nat}
    {p q : Progress σ} (same : M.conclude p = M.conclude q) (h : M.Reaches next mark q outcome t) :
    M.Reaches next mark p outcome t := by
  cases outcome with
  | error fault => simpa only [Reaches, same] using h
  | ok result => simpa only [Reaches, same] using h

/-- What holds after an action holds before it. -/
theorem reaches_act {next : Option Value → World σ → Progress σ} {c : Config σ} {mark : Nat}
    {p : Progress σ} (below : c.world.steps < M.limits.steps) (acted : M.act c = p)
    (h : M.Reaches next mark p outcome t) : M.Reaches next mark (.running c) outcome t :=
  reaches_of_eq (acted ▸ M.conclude_act below) h

/-- A body goes on where the call that it makes returns. -/
theorem reaches_call (block : BlockId) (dst : Option ValueId) {g : FunctionId}
    {args : List ValueId} (rest : List Inst) {vs : Values} (mark : Nat) {callers : List Caller}
    {xs : List Value} (below : s.world.steps < M.limits.steps)
    (operands : args.mapM (operand M.module vs) = .ok xs)
    (agrees : M.Invoked g xs s.tick outcome t) (depth : s.depth = callers.length + 1) :
    M.Reaches (resume (M.calleeName g) dst ⟨block, rest, vs, mark⟩ callers) s.world.memory.mark
      (.running ⟨s.world, ⟨block, .call dst g args :: rest, vs, mark⟩, callers⟩) outcome t := by
  refine reaches_act below rfl ?_
  have acted : M.act ⟨s.world, ⟨block, .call dst g args :: rest, vs, mark⟩, callers⟩ =
      M.actCall dst g args s.tick.world ⟨block, rest, vs, mark⟩ callers := rfl
  rw [acted]
  simp only [actCall, operands, bind, Except.bind]
  have at_ : M.invoke s.tick.world (callers.length + 1) g xs =
      M.invoke s.tick.world s.tick.depth g xs := by rw [← depth]; rfl
  rw [at_]
  unfold Invoked at agrees
  cases invoked : M.invoke s.tick.world s.tick.depth g xs with
  | error fault =>
    rw [invoked] at agrees
    obtain ⟨rfl, rfl⟩ := agrees
    exact ⟨s.world.memory, rfl, fun _ _ => rfl⟩
  | ok invocation =>
    rw [invoked] at agrees
    cases invocation with
    | answered result host =>
      obtain ⟨rfl, rfl⟩ := agrees
      exact rfl
    | entered frame =>
      obtain ⟨u, rfl, returns⟩ := agrees
      have body := returns (⟨⟨block, rest, vs, mark⟩, dst, M.calleeName g⟩ :: callers) depth
      cases outcome with
      | error fault =>
        obtain ⟨memory, ended, same⟩ := body
        refine ⟨memory, ended, fun k le => ?_⟩
        rw [same k le]
        exact (Memory.release_release _ le).symm
      | ok result => exact body

/-- A body whose next action is a fault comes to that fault. -/
theorem reaches_fault {next : Option Value → World σ → Progress σ} {c : Config σ} {mark : Nat}
    {fault : Fault} (below : c.world.steps < M.limits.steps)
    (acted : M.act c = .finished (.error fault) t.world) :
    M.Reaches next mark (.running c) (.error fault) t :=
  reaches_act below acted ⟨t.world.memory, rfl, fun _ _ => rfl⟩

section Invocation

variable {f : FunctionId} {F : Function} {args : List Value}

theorem invoked_of_error {fault : Fault} (refused : M.invoke s.world s.depth f args = .error fault) :
    M.Invoked f args s (.error fault) s := by
  rw [Invoked, refused]
  exact ⟨rfl, rfl⟩

/-- A call comes to what its body comes to, without the slots of the body. -/
theorem invoked_of_body {entry : BlockId} (there : M.module.function? f = some F)
    (arity : F.params.length = args.length) (body : F.entry? = some entry)
    (room : s.depth < M.limits.callDepth)
    (evaluated : M.Evaluates (.enter ⟨entry, [], .ofParams F.params args, s.world.memory.mark⟩ none
      entry) s.enter outcome t)
    (agrees : M.Agrees (.enter ⟨entry, [], .ofParams F.params args, s.world.memory.mark⟩ none
      entry) s.enter outcome t) :
    M.Invoked f args s outcome (t.leave s.world.memory.mark) := by
  rw [Invoked, invoke_body there arity body, if_neg (Nat.not_le.2 room)]
  cases evaluated with
  | noEntry refused =>
    -- the phis of an entry have no values, and the call is over before its first step
    rw [refused]
    refine ⟨rfl, ?_⟩
    simp only [Standing.leave, Standing.enter, Memory.release_mark, Nat.add_sub_cancel]
  | arrived arrived _ =>
    rw [arrived]
    exact ⟨t, rfl, fun callers depth =>
      agrees _ arrived (Nat.le_refl _) callers (congrArg (· + 1) depth)⟩

end Invocation

/-- A body that leaves its block by a jump goes on at the start of the next one. -/
theorem returns_jump {block target : BlockId} {vs : Values} {mark : Nat}
    (below : s.world.steps < M.limits.steps)
    (ends : exitOf M.module ⟨block, [], vs, mark⟩ (M.terminatorAt block) = .ok (.jump target))
    (evaluated : M.Evaluates (.enter ⟨block, [], vs, mark⟩ (some block) target) s.tick outcome t)
    (agrees : M.Agrees (.enter ⟨block, [], vs, mark⟩ (some block) target) s.tick outcome t) :
    M.Agrees (.body ⟨block, [], vs, mark⟩) s outcome t := by
  intro under callers depth
  refine reaches_act below (by rw [M.act_atEnd, ends]) ?_
  cases evaluated with
  | noEntry refused =>
    simp only [jump, refused]
    exact ⟨_, rfl, fun _ _ => rfl⟩
  | arrived arrived _ =>
    simp only [jump, arrived]
    exact agrees _ arrived under callers depth

theorem Evaluates.agrees (h : M.Evaluates task s outcome t) : M.Agrees task s outcome t := by
  induction h with
  | unknown there => exact invoked_of_error (invoke_absent there)
  | arity there other => exact invoked_of_error (invoke_arity there other)
  | unbound there arity body answer =>
    exact invoked_of_error (by rw [invoke_bodiless there arity body, answer]; rfl)
  | answered there arity body answer =>
    rw [Agrees, Invoked, invoke_bodiless there arity body, answer]
    exact ⟨rfl, rfl⟩
  | tooDeep there arity body deep =>
    exact invoked_of_error (by rw [invoke_body there arity body, if_pos deep])
  | entered there arity body room evaluated ih =>
    exact invoked_of_body there arity body room evaluated ih
  | noEntry refused =>
    intro frame' arrived
    rw [refused] at arrived
    cases arrived
  | arrived arrived _ ih =>
    intro frame' arrived' below callers depth
    rw [arrived] at arrived'
    cases arrived'
    obtain ⟨data, vs, -, -, rfl⟩ := Frame.enter_eq_ok arrived
    exact ih below callers depth
  | spent none =>
    intro _ callers _
    exact ⟨_, M.conclude_spent none, fun _ _ => rfl⟩
  | failed below other performed =>
    intro _ callers _
    exact reaches_fault below (by rw [act_of_notCall other, performed]; rfl)
  | performed below other performed _ ih =>
    intro under callers depth
    have grown := Memory.mark_le_of_prefix (M.shape_perform performed)
    refine reaches_act below ?_ (ih (Nat.le_trans under grown) callers depth)
    rw [act_of_notCall other, performed]
    rfl
  | noOperand below operands =>
    intro _ callers _
    refine reaches_fault below ?_
    simp only [act, actCall, operands, bind, Except.bind]
    rfl
  | @calleeFailed _ block dst _ _ rest _ mark _ _ _ below operands _ ih =>
    intro under callers depth
    obtain ⟨memory, ended, same⟩ := reaches_call block dst rest mark below operands ih depth
    exact ⟨memory, ended, fun k le => same k (Nat.le_trans le under)⟩
  | @noResult _ block dst _ _ rest _ mark _ _ _ _ below operands _ bound ih =>
    intro _ callers depth
    have called := reaches_call block dst rest mark below operands ih depth
    simp only [Reaches, resume, bound] at called
    exact ⟨_, called, fun _ _ => rfl⟩
  | @returned _ block dst _ _ rest _ vs' mark _ _ t outcome u below operands evaluated bound _
      call body =>
    intro under callers depth
    have called := reaches_call block dst rest mark below operands call depth
    simp only [Reaches, resume, bound] at called
    have grown := Memory.mark_le_of_prefix evaluated.shape_prefix.1
    exact reaches_of_eq called
      (body (Nat.le_trans under grown) callers (evaluated.depth_eq.trans depth))
  | noExit below ends =>
    intro _ callers _
    exact reaches_fault below (by rw [M.act_atEnd, ends]; rfl)
  | jumped below ends evaluated ih => exact returns_jump below ends evaluated ih
  | left below ends =>
    intro _ callers _
    refine reaches_act below (by rw [M.act_atEnd, ends]) ?_
    exact rfl

theorem Evaluates.call_eq {f : FunctionId} {args : List Value} {w : World σ}
    (h : M.Evaluates (.call f args) ⟨w, 0⟩ outcome t) : M.call f args w = (outcome, t.world) := by
  have agrees : M.Invoked f args ⟨w, 0⟩ outcome t := h.agrees
  unfold Invoked at agrees
  unfold call
  cases invoked : M.invoke w 0 f args with
  | error fault =>
    rw [invoked] at agrees
    obtain ⟨rfl, rfl⟩ := agrees
    rfl
  | ok invocation =>
    rw [invoked] at agrees
    cases invocation with
    | answered result host =>
      obtain ⟨rfl, rfl⟩ := agrees
      rfl
    | entered frame =>
      obtain ⟨u, rfl, returns⟩ := agrees
      have ended := returns [] rfl
      have driven : M.conclude (.running ⟨w, frame, []⟩) =
        M.drive (M.remainingSteps w) ⟨w, frame, []⟩ := rfl
      cases outcome with
      | error fault =>
        obtain ⟨memory, ended, same⟩ := ended
        rw [driven] at ended
        simp only [ended, Standing.leave, same _ (Nat.le_refl _)]
      | ok result =>
        replace ended : M.drive (M.remainingSteps w) ⟨w, frame, []⟩ =
          (.ok result, { u.world with memory := u.world.memory.release w.memory.mark }) := ended
        simp only [ended, Standing.leave, Memory.release_release _ (Nat.le_refl _)]

/-- Evaluation of a call comes to what the machine comes to, and to nothing else. -/
theorem evaluates_iff {f : FunctionId} {args : List Value} {w : World σ} :
    M.Evaluates (.call f args) ⟨w, 0⟩ outcome t ↔
      t.depth = 0 ∧ M.call f args w = (outcome, t.world) := by
  refine ⟨fun h => ⟨h.depth_eq, h.call_eq⟩, ?_⟩
  rintro ⟨depth, called⟩
  obtain ⟨outcome', t', evaluated⟩ := exists_evaluates (M := M) f args ⟨w, 0⟩
  obtain ⟨rfl, world⟩ := Prod.mk.inj (evaluated.call_eq.symm.trans called)
  obtain rfl : t' = t := Standing.ext world (evaluated.depth_eq.trans depth.symm)
  exact evaluated

section

variable (M)

/-- A run from a standing. -/
inductive Runs (name : String) (args : List Value) :
    Standing σ → Outcome → Standing σ → Prop where
  | unknown {s : Standing σ} :
      M.module.functionByName? name = none →
      Runs name args s (.error (.unknownFunction name)) s
  | called {s t : Standing σ} {F : Function} {outcome : Outcome} :
      M.module.functionByName? name = some F →
      M.Evaluates (.call F.id args) s outcome t → Runs name args s outcome t

/-- The standings to which runs lead one after the other, with the outcomes of the runs. -/
inductive History (host : σ) : List Outcome → Standing σ → Prop where
  | start : History host [] ⟨M.start host, 0⟩
  | run {outcomes : List Outcome} {s t : Standing σ} {name : String} {args : List Value}
      {outcome : Outcome} :
      History host outcomes s → M.Runs name args s outcome t →
      History host (outcomes ++ [outcome]) t

end

theorem exists_runs (name : String) (args : List Value) (s : Standing σ) :
    ∃ outcome t, M.Runs name args s outcome t := by
  cases found : M.module.functionByName? name with
  | none => exact ⟨_, s, .unknown found⟩
  | some F =>
    obtain ⟨outcome, t, evaluated⟩ := exists_evaluates (M := M) F.id args s
    exact ⟨outcome, t, .called found evaluated⟩

theorem runs_iff {name : String} {args : List Value} {w : World σ} :
    M.Runs name args ⟨w, 0⟩ outcome t ↔ t.depth = 0 ∧ M.run name args w = (outcome, t.world) := by
  cases found : M.module.functionByName? name with
  | none =>
    simp only [run, found]
    constructor
    · rintro (_ | ⟨found', _⟩)
      · exact ⟨rfl, rfl⟩
      · rw [found] at found'
        cases found'
    · rintro ⟨depth, same⟩
      obtain ⟨rfl, rfl⟩ := Prod.mk.inj same
      cases t
      cases depth
      exact .unknown found
  | some F =>
    simp only [run, found]
    rw [← evaluates_iff]
    constructor
    · rintro (found' | ⟨found', evaluated⟩)
      · rw [found] at found'
        cases found'
      · rw [found] at found'
        cases found'
        exact evaluated
    · exact fun evaluated => .called found evaluated

theorem runs_run (M : Machine σ) (name : String) (args : List Value) (w : World σ) :
    M.Runs name args ⟨w, 0⟩ (M.run name args w).1 ⟨(M.run name args w).2, 0⟩ :=
  runs_iff.2 ⟨rfl, rfl⟩

namespace Runs

variable {name : String} {args : List Value}

theorem depth_eq (h : M.Runs name args s outcome t) : t.depth = s.depth := by
  cases h with
  | unknown => rfl
  | called _ evaluated => exact evaluated.depth_eq

theorem shape_eq (h : M.Runs name args s outcome t) :
    t.world.memory.shape = s.world.memory.shape := by
  cases h with
  | unknown => rfl
  | called _ evaluated => exact evaluated.restores

theorem steps_le (h : M.Runs name args s outcome t) :
    t.world.steps ≤ max s.world.steps M.limits.steps + (outOfSteps outcome).toNat := by
  cases h with
  | unknown => exact Nat.le_trans (Nat.le_max_left ..) (Nat.le_add_right ..)
  | called _ evaluated => exact evaluated.steps_le_limit

end Runs

end Machine

end Decaf.Execution
