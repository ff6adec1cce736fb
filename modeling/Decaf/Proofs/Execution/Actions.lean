import Decaf.Execution.Moment
import Decaf.Proofs.Execution.Safety

/-!
# What an action can do

An action that does not end the run is one of five: an instruction other than a call, a call
that the host answers, a call that enters a body, a jump, or a return to the caller. Facts
about all moments of a run are shown by going through these. The functions of the calls in
progress can be read off a run from outside: a call that enters a body adds one, a return
takes one off.
-/

namespace Decaf.Execution

open IR

variable {σ : Type}

/-- The result that a return hands over. -/
def resultOf (m : Module) (vs : Values) : Option ValueId → Except Fault (Option Value)
  | none => .ok none
  | some v => (operand m vs v).map some

/-- The functions of the calls in progress after an action, the innermost first. -/
def Config.track (c next : Config σ) (fs : List FunctionId) : List FunctionId :=
  if c.callers.length < next.callers.length then
    match c.frame.rest with
    | .call _ g _ :: _ => g :: fs
    | _ => fs
  else if next.callers.length < c.callers.length then fs.tail
  else fs

theorem Config.track_stay {w w' : World σ} {frame frame' : Frame} {callers : List Caller}
    (fs : List FunctionId) :
    (⟨w, frame, callers⟩ : Config σ).track ⟨w', frame', callers⟩ fs = fs := by
  simp [track]

theorem Config.track_enter {w w' : World σ} {block : BlockId} {dst : Option ValueId}
    {g : FunctionId} {args : List ValueId} {rest : List Inst} {vs : Values} {mark : Nat}
    {callee : Frame} {caller : Caller} {callers : List Caller} (fs : List FunctionId) :
    (⟨w, ⟨block, .call dst g args :: rest, vs, mark⟩, callers⟩ : Config σ).track
      ⟨w', callee, caller :: callers⟩ fs = g :: fs := by
  simp [track]

theorem Config.track_return {w w' : World σ} {frame frame' : Frame} {caller : Caller}
    {callers : List Caller} (fs : List FunctionId) :
    (⟨w, frame, caller :: callers⟩ : Config σ).track ⟨w', frame', callers⟩ fs = fs.tail := by
  have shorter : ¬ callers.length + 1 < callers.length := by omega
  simp [track, shorter]

/-- Control that enters a block finds its phis merged and the rest of it still to do. -/
theorem Frame.enter_eq_ok {m : Module} {frame entered : Frame} {source : Option BlockId}
    {target : BlockId} (h : frame.enter m source target = .ok entered) :
    ∃ data vs, m.block? target = some data ∧
      mergePhis m frame.values source (phisOf data) frame.values = .ok vs ∧
      entered = ⟨target, bodyOf data, vs, frame.mark⟩ := by
  unfold Frame.enter at h
  cases there : m.block? target with
  | none =>
    rw [there] at h
    cases h
  | some data =>
    rw [there] at h
    obtain ⟨vs, merged, same⟩ := ok_of_bind h
    cases same
    exact ⟨data, vs, rfl, merged, rfl⟩

namespace Machine

variable (M : Machine σ)

/-- What a call that succeeds was given, and what it comes to. -/
theorem invoke_eq_ok {w : World σ} {depth : Nat} {f : FunctionId} {args : List Value}
    {invocation : Invocation σ} (h : M.invoke w depth f args = .ok invocation) :
    ∃ F, M.module.function? f = some F ∧ F.params.length = args.length ∧
      ((F.entry? = none ∧ ∃ result host,
          M.host.answer w.host ⟨F.name, args, w.memory⟩ = some (result, host) ∧
          invocation = .answered result host) ∨
        ∃ entry frame, F.entry? = some entry ∧
          Frame.enter ⟨entry, [], .ofParams F.params args, w.memory.mark⟩ M.module none entry =
            .ok frame ∧
          invocation = .entered frame) := by
  cases there : M.module.function? f with
  | none =>
    simp only [invoke, there] at h
    cases h
  | some F =>
    by_cases arity : F.params.length = args.length
    · refine ⟨F, rfl, arity, ?_⟩
      cases body : F.entry? with
      | none =>
        rw [M.invoke_bodiless there arity body] at h
        cases answer : M.host.answer w.host ⟨F.name, args, w.memory⟩ with
        | none =>
          rw [answer] at h
          cases h
        | some reply =>
          rw [answer] at h
          cases h
          exact .inl ⟨rfl, reply.1, reply.2, rfl, rfl⟩
      | some entry =>
        rw [M.invoke_body there arity body] at h
        split at h
        · cases h
        · cases start : Frame.enter ⟨entry, [], .ofParams F.params args, w.memory.mark⟩ M.module
            none entry with
          | error fault =>
            rw [start] at h
            cases h
          | ok frame =>
            rw [start] at h
            cases h
            exact .inr ⟨entry, frame, rfl, start, rfl⟩
    · simp only [invoke, there] at h
      rw [if_pos arity] at h
      cases h

def terminatorAt (block : BlockId) : Option Terminator :=
  (M.module.block? block).bind (·.terminator)

inductive Action : Config σ → Config σ → Prop where
  | plain {memory memory' : Memory} {steps : Nat} {host : σ} {block : BlockId} {i : Inst}
      {rest : List Inst} {vs vs' : Values} {mark : Nat} {callers : List Caller} :
      (∀ dst g args, i ≠ .call dst g args) → M.perform i vs memory = (.ok vs', memory') →
      Action ⟨⟨memory, steps, host⟩, ⟨block, i :: rest, vs, mark⟩, callers⟩
        ⟨⟨memory', steps + 1, host⟩, ⟨block, rest, vs', mark⟩, callers⟩
  | answer {memory : Memory} {steps : Nat} {host host' : σ} {block : BlockId}
      {dst : Option ValueId} {g : FunctionId} {args : List ValueId} {xs : List Value}
      {rest : List Inst} {vs vs' : Values} {mark : Nat} {callers : List Caller}
      {result : Option Value} :
      args.mapM (operand M.module vs) = .ok xs →
      M.invoke ⟨memory, steps + 1, host⟩ (callers.length + 1) g xs =
        .ok (.answered result host') →
      bindResult (M.calleeName g) dst result vs = .ok vs' →
      Action ⟨⟨memory, steps, host⟩, ⟨block, .call dst g args :: rest, vs, mark⟩, callers⟩
        ⟨⟨memory, steps + 1, host'⟩, ⟨block, rest, vs', mark⟩, callers⟩
  | enter {memory : Memory} {steps : Nat} {host : σ} {block : BlockId}
      {dst : Option ValueId} {g : FunctionId} {args : List ValueId} {xs : List Value}
      {rest : List Inst} {vs : Values} {mark : Nat} {callers : List Caller} {callee : Frame} :
      args.mapM (operand M.module vs) = .ok xs →
      M.invoke ⟨memory, steps + 1, host⟩ (callers.length + 1) g xs = .ok (.entered callee) →
      Action ⟨⟨memory, steps, host⟩, ⟨block, .call dst g args :: rest, vs, mark⟩, callers⟩
        ⟨⟨memory, steps + 1, host⟩, callee,
          ⟨⟨block, rest, vs, mark⟩, dst, M.calleeName g⟩ :: callers⟩
  | jump {memory : Memory} {steps : Nat} {host : σ} {block target : BlockId} {vs : Values}
      {mark : Nat} {callers : List Caller} {t : Terminator} {frame : Frame} :
      M.terminatorAt block = some t → target ∈ t.successors →
      Frame.enter ⟨block, [], vs, mark⟩ M.module (some block) target = .ok frame →
      Action ⟨⟨memory, steps, host⟩, ⟨block, [], vs, mark⟩, callers⟩
        ⟨⟨memory, steps + 1, host⟩, frame, callers⟩
  | ret {memory : Memory} {steps : Nat} {host : σ} {block : BlockId} {vs vs' : Values}
      {mark : Nat} {caller : Caller} {callers : List Caller} {v : Option ValueId}
      {result : Option Value} :
      M.terminatorAt block = some (.ret v) → resultOf M.module vs v = .ok result →
      bindResult caller.callee caller.dst result caller.frame.values = .ok vs' →
      Action ⟨⟨memory, steps, host⟩, ⟨block, [], vs, mark⟩, caller :: callers⟩
        ⟨⟨memory.release mark, steps + 1, host⟩, { caller.frame with values := vs' }, callers⟩

theorem action_of_actCall {memory : Memory} {steps : Nat} {host : σ} {block : BlockId}
    {dst : Option ValueId} {g : FunctionId} {args : List ValueId} {rest : List Inst}
    {vs : Values} {mark : Nat} {callers : List Caller} {next : Config σ}
    (h : M.actCall dst g args ⟨memory, steps + 1, host⟩ ⟨block, rest, vs, mark⟩ callers =
      .running next) :
    M.Action ⟨⟨memory, steps, host⟩, ⟨block, .call dst g args :: rest, vs, mark⟩, callers⟩
      next := by
  cases operands : args.mapM (operand M.module vs) with
  | error fault =>
    simp only [actCall, operands] at h
    cases h
  | ok xs =>
    cases invoked : M.invoke ⟨memory, steps + 1, host⟩ (callers.length + 1) g xs with
    | error fault =>
      simp only [actCall, operands, bind, Except.bind, invoked] at h
      cases h
    | ok invocation =>
      simp only [actCall, operands, bind, Except.bind, invoked] at h
      cases invocation with
      | entered callee =>
        cases h
        exact .enter operands invoked
      | answered result host' =>
        cases bound : bindResult (M.calleeName g) dst result vs with
        | error fault =>
          simp only [bound] at h
          cases h
        | ok vs' =>
          simp only [bound] at h
          cases h
          exact .answer operands invoked bound

theorem action_of_jump {memory : Memory} {steps : Nat} {host : σ} {block target : BlockId}
    {vs : Values} {mark : Nat} {callers : List Caller} {t : Terminator} {next : Config σ}
    (ends : M.terminatorAt block = some t) (leads : target ∈ t.successors)
    (h : M.jump ⟨memory, steps + 1, host⟩ ⟨block, [], vs, mark⟩ callers target =
      .running next) :
    M.Action ⟨⟨memory, steps, host⟩, ⟨block, [], vs, mark⟩, callers⟩ next := by
  cases entered : Frame.enter ⟨block, [], vs, mark⟩ M.module (some block) target with
  | error fault =>
    simp only [jump, entered] at h
    cases h
  | ok frame =>
    simp only [jump, entered] at h
    cases h
    exact .jump ends leads entered

theorem action_of_actReturn {memory : Memory} {steps : Nat} {host : σ} {block : BlockId}
    {vs : Values} {mark : Nat} {callers : List Caller} {v : Option ValueId}
    {result : Option Value} {next : Config σ} (ends : M.terminatorAt block = some (.ret v))
    (returns : resultOf M.module vs v = .ok result)
    (h : actReturn result ⟨memory, steps + 1, host⟩ mark callers = .running next) :
    M.Action ⟨⟨memory, steps, host⟩, ⟨block, [], vs, mark⟩, callers⟩ next := by
  cases callers with
  | nil => cases h
  | cons caller callers =>
    cases bound : bindResult caller.callee caller.dst result caller.frame.values with
    | error fault =>
      simp only [actReturn, bound] at h
      cases h
    | ok vs' =>
      simp only [actReturn, bound] at h
      cases h
      exact .ret ends returns bound

theorem action_of_actTerminator {memory : Memory} {steps : Nat} {host : σ} {block : BlockId}
    {vs : Values} {mark : Nat} {callers : List Caller} {next : Config σ}
    (h : M.actTerminator ⟨memory, steps + 1, host⟩ ⟨block, [], vs, mark⟩ callers
      (M.terminatorAt block) = .running next) :
    M.Action ⟨⟨memory, steps, host⟩, ⟨block, [], vs, mark⟩, callers⟩ next := by
  cases ends : M.terminatorAt block with
  | none =>
    rw [ends] at h
    cases h
  | some t =>
    rw [ends] at h
    cases t with
    | br target => exact M.action_of_jump ends (by simp [Terminator.successors]) h
    | unreachable => cases h
    | condBr cond thenBlock elseBlock =>
      cases tested : boolOperand M.module vs cond with
      | error fault =>
        simp only [actTerminator, tested] at h
        cases h
      | ok b =>
        simp only [actTerminator, tested] at h
        refine M.action_of_jump ends ?_ h
        cases b <;> simp [Terminator.successors]
    | ret v =>
      cases v with
      | none => exact M.action_of_actReturn ends rfl h
      | some v =>
        cases evaluated : operand M.module vs v with
        | error fault =>
          simp only [actTerminator, evaluated] at h
          cases h
        | ok x =>
          simp only [actTerminator, evaluated] at h
          exact M.action_of_actReturn ends (by rw [resultOf, evaluated]; rfl) h

/-- An action that does not end the run is one of the five kinds. -/
theorem action_of_act {c next : Config σ} (h : M.act c = .running next) : M.Action c next := by
  obtain ⟨⟨memory, steps, host⟩, ⟨block, rest, vs, mark⟩, callers⟩ := c
  cases rest with
  | nil => exact M.action_of_actTerminator h
  | cons i rest =>
    by_cases call : ∃ dst g args, i = .call dst g args
    · obtain ⟨dst, g, args, rfl⟩ := call
      exact M.action_of_actCall h
    · have other : ∀ dst g args, i ≠ .call dst g args :=
        fun dst g args same => call ⟨dst, g, args, same⟩
      rw [act_of_notCall other] at h
      cases performed : M.perform i vs memory with
      | mk outcome memory' =>
        rw [performed] at h
        cases outcome with
        | error fault => cases h
        | ok vs' =>
          cases h
          exact .plain other performed

theorem fault_of_actCall {dst : Option ValueId} {g : FunctionId} {args : List ValueId}
    {w w' : World σ} {frame : Frame} {callers : List Caller} {outcome : Outcome}
    (h : M.actCall dst g args w frame callers = .finished outcome w') :
    ∃ fault, outcome = .error fault := by
  simp only [actCall] at h
  split at h
  · cases h
    exact ⟨_, rfl⟩
  · split at h
    · cases h
      exact ⟨_, rfl⟩
    · cases h
  · cases h

theorem fault_of_jump {w w' : World σ} {frame : Frame} {callers : List Caller}
    {target : BlockId} {outcome : Outcome}
    (h : M.jump w frame callers target = .finished outcome w') :
    ∃ fault, outcome = .error fault := by
  simp only [jump] at h
  split at h
  · cases h
    exact ⟨_, rfl⟩
  · cases h

theorem result_of_actReturn {result found : Option Value} {w w' : World σ} {mark : Nat}
    {callers : List Caller} (h : actReturn found w mark callers = .finished (.ok result) w') :
    callers = [] ∧ found = result := by
  cases callers with
  | nil =>
    cases h
    exact ⟨rfl, rfl⟩
  | cons caller callers =>
    simp only [actReturn] at h
    split at h <;> cases h

/-- A run ends with a result only where the outermost call returns one. -/
theorem result_of_act {c : Config σ} {result : Option Value} {w : World σ}
    (h : M.act c = .finished (.ok result) w) :
    c.callers = [] ∧ ∃ v, M.terminatorAt c.frame.block = some (.ret v) ∧
      resultOf M.module c.frame.values v = .ok result := by
  obtain ⟨⟨memory, steps, host⟩, ⟨block, rest, vs, mark⟩, callers⟩ := c
  cases rest with
  | cons i rest =>
    by_cases call : ∃ dst g args, i = .call dst g args
    · obtain ⟨dst, g, args, rfl⟩ := call
      obtain ⟨fault, failed⟩ := M.fault_of_actCall h
      cases failed
    · rw [act_of_notCall fun dst g args same => call ⟨dst, g, args, same⟩] at h
      split at h <;> cases h
  | nil =>
    change M.actTerminator ⟨memory, steps + 1, host⟩ ⟨block, [], vs, mark⟩ callers
      (M.terminatorAt block) = _ at h
    cases ends : M.terminatorAt block with
    | none =>
      rw [ends] at h
      cases h
    | some t =>
      rw [ends] at h
      cases t with
      | unreachable => cases h
      | br target =>
        obtain ⟨fault, failed⟩ := M.fault_of_jump h
        cases failed
      | condBr cond thenBlock elseBlock =>
        simp only [actTerminator] at h
        split at h
        · cases h
        · obtain ⟨fault, failed⟩ := M.fault_of_jump h
          cases failed
      | ret v =>
        cases v with
        | none =>
          obtain ⟨outermost, rfl⟩ := result_of_actReturn h
          exact ⟨outermost, none, rfl, rfl⟩
        | some v =>
          simp only [actTerminator] at h
          split at h
          · cases h
          · rename_i x evaluated
            obtain ⟨outermost, rfl⟩ := result_of_actReturn h
            exact ⟨outermost, some v, rfl, by rw [resultOf, evaluated]; rfl⟩

/-- The configurations through which a call passes, each with the functions of the calls in
progress. -/
inductive Traced (f : FunctionId) (args : List Value) (w : World σ) :
    Config σ → List FunctionId → Prop where
  | start {frame : Frame} :
      M.invoke w 0 f args = .ok (.entered frame) → Traced f args w ⟨w, frame, []⟩ [f]
  | act {c next : Config σ} {fs : List FunctionId} :
      Traced f args w c fs → c.world.steps < M.limits.steps → M.act c = .running next →
      Traced f args w next (c.track next fs)

theorem moment_iff_traced {f : FunctionId} {args : List Value} {w : World σ} {c : Config σ} :
    M.Moment f args w c ↔ ∃ fs, M.Traced f args w c fs := by
  constructor
  · intro moment
    induction moment with
    | start entered => exact ⟨[f], .start entered⟩
    | act _ left running ih =>
      obtain ⟨fs, traced⟩ := ih
      exact ⟨_, .act traced left running⟩
  · rintro ⟨fs, traced⟩
    induction traced with
    | start entered => exact .start entered
    | act _ left running ih => exact .act ih left running

end Machine

end Decaf.Execution
