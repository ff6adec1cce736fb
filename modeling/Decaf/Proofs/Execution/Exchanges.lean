import Decaf.Proofs.Execution.Actions
import Decaf.Proofs.Execution.Unlimited

/-!
# Exchanges with the host

A host may be watched while it answers, and what it answered may be put in its place: a
machine that is given the same replies in turn does the same. What the host answers in a run
does not depend on limits, which only decide how far the run gets.
-/

namespace Decaf.Execution

open IR

variable {σ τ : Type}

/-- A host that writes down what it is asked and what it answers. -/
def Host.recorded (host : Host σ) : Host (σ × List (HostCall × Option Value)) where
  answer s call := (host.answer s.1 call).map fun reply =>
    (reply.1, reply.2, s.2 ++ [(call, reply.1)])

/-- A host that has its answers from a list, and remembers what it was asked. -/
def Host.scripted (replies : Nat → Option (Option Value)) : Host (List HostCall) where
  answer asked call := (replies asked.length).map fun result => (result, asked ++ [call])

section Maps

variable (φ : σ → τ)

def World.map (w : World σ) : World τ :=
  ⟨w.memory, w.steps, φ w.host⟩

def Config.map (c : Config σ) : Config τ :=
  ⟨c.world.map φ, c.frame, c.callers⟩

def Progress.map : Progress σ → Progress τ
  | .running c => .running (c.map φ)
  | .finished outcome w => .finished outcome (w.map φ)

def Invocation.map : Invocation σ → Invocation τ
  | .answered result host => .answered result (φ host)
  | .entered frame => .entered frame

end Maps

/-- The next action asks the host. -/
def Config.Asks (m : Module) (c : Config σ) (call : HostCall) : Prop :=
  ∃ dst f args rest F xs, c.frame.rest = .call dst f args :: rest ∧
    args.mapM (operand m c.frame.values) = .ok xs ∧ m.function? f = some F ∧
    F.params.length = xs.length ∧ F.entry? = none ∧ call = ⟨F.name, xs, c.world.memory⟩

namespace Machine

section

variable {m : Module} {L : Limits} {host : Host σ} {host' : Host τ} {φ : σ → τ}

theorem invoke_map {w : World σ} {depth : Nat} {f : FunctionId} {xs : List Value}
    (agree : ∀ F, m.function? f = some F → F.params.length = xs.length → F.entry? = none →
      host'.answer (φ w.host) ⟨F.name, xs, w.memory⟩ =
        (host.answer w.host ⟨F.name, xs, w.memory⟩).map fun reply => (reply.1, φ reply.2)) :
    (Machine.mk m L host').invoke (w.map φ) depth f xs =
      ((Machine.mk m L host).invoke w depth f xs).map (Invocation.map φ) := by
  cases hF : m.function? f with
  | none => simp only [invoke, hF]; rfl
  | some F =>
    by_cases arity : F.params.length = xs.length
    · cases body : F.entry? with
      | none =>
        rw [invoke_bodiless hF arity body, invoke_bodiless hF arity body]
        show (host'.answer (φ w.host) ⟨F.name, xs, w.memory⟩).elim _ _ = _
        rw [agree F hF arity body]
        cases host.answer w.host ⟨F.name, xs, w.memory⟩ <;> rfl
      | some entry =>
        rw [invoke_body hF arity body, invoke_body hF arity body]
        dsimp only [World.map]
        split
        · rfl
        · cases Frame.enter ⟨entry, [], .ofParams F.params xs, w.memory.mark⟩ m none entry <;> rfl
    · simp only [invoke, hF]
      rw [if_pos arity, if_pos arity]
      rfl

theorem actReturn_map (result : Option Value) (w : World σ) (mark : Nat)
    (callers : List Caller) :
    actReturn result (w.map φ) mark callers = (actReturn result w mark callers).map φ := by
  cases callers with
  | nil => rfl
  | cons caller callers =>
    simp only [actReturn]
    cases bindResult caller.callee caller.dst result caller.frame.values <;> rfl

theorem jump_map (w : World σ) (frame : Frame) (callers : List Caller) (t : BlockId) :
    (Machine.mk m L host').jump (w.map φ) frame callers t =
      ((Machine.mk m L host).jump w frame callers t).map φ := by
  simp only [jump]
  cases frame.enter m (some frame.block) t <;> rfl

theorem actTerminator_map (w : World σ) (frame : Frame) (callers : List Caller)
    (t : Option Terminator) :
    (Machine.mk m L host').actTerminator (w.map φ) frame callers t =
      ((Machine.mk m L host).actTerminator w frame callers t).map φ := by
  cases t with
  | none => rfl
  | some t =>
    cases t with
    | br target => exact jump_map ..
    | condBr cond x y =>
      simp only [actTerminator]
      cases boolOperand m frame.values cond with
      | error fault => rfl
      | ok b => exact jump_map ..
    | ret value =>
      cases value with
      | none => exact actReturn_map ..
      | some v =>
        simp only [actTerminator]
        cases operand m frame.values v with
        | error fault => rfl
        | ok x => exact actReturn_map ..
    | unreachable => rfl

/-- If the hosts answer alike, so act the machines. -/
theorem act_map {c : Config σ} (agree : ∀ call, c.Asks m call →
      host'.answer (φ c.world.host) call =
        (host.answer c.world.host call).map fun reply => (reply.1, φ reply.2)) :
    (Machine.mk m L host').act (c.map φ) = ((Machine.mk m L host).act c).map φ := by
  obtain ⟨⟨memory, steps, s⟩, ⟨block, rest, values, mark⟩, callers⟩ := c
  cases rest with
  | nil => exact actTerminator_map ⟨memory, steps + 1, s⟩ _ _ _
  | cons i rest =>
    by_cases call : ∃ d g args, i = .call d g args
    · obtain ⟨d, g, args, rfl⟩ := call
      show (Machine.mk m L host').actCall d g args (World.map φ ⟨memory, steps + 1, s⟩)
          ⟨block, rest, values, mark⟩ callers =
        ((Machine.mk m L host).actCall d g args ⟨memory, steps + 1, s⟩
          ⟨block, rest, values, mark⟩ callers).map φ
      simp only [actCall, bind, Except.bind]
      cases operands : args.mapM (operand m values) with
      | error fault => rfl
      | ok xs =>
        have same : (Machine.mk m L host').invoke (World.map φ ⟨memory, steps + 1, s⟩)
            (callers.length + 1) g xs =
              ((Machine.mk m L host).invoke ⟨memory, steps + 1, s⟩ (callers.length + 1) g xs).map
                (Invocation.map φ) :=
          invoke_map fun F hF arity entry => agree _
            ⟨d, g, args, rest, F, xs, rfl, operands, hF, arity, entry, rfl⟩
        dsimp only
        rw [same]
        cases (Machine.mk m L host).invoke ⟨memory, steps + 1, s⟩ (callers.length + 1) g xs with
        | error fault => rfl
        | ok invocation =>
          cases invocation with
          | entered frame => rfl
          | answered result next =>
            simp only [Except.map, Invocation.map]
            have name : (Machine.mk m L host').calleeName g =
              (Machine.mk m L host).calleeName g := rfl
            rw [name]
            cases bindResult ((Machine.mk m L host).calleeName g) d result values <;> rfl
    · have notCall (d : Option ValueId) (g : FunctionId) (args : List ValueId) :
          i ≠ .call d g args := fun same => call ⟨d, g, args, same⟩
      show (Machine.mk m L host').act ⟨⟨memory, steps, φ s⟩, ⟨block, i :: rest, values, mark⟩,
        callers⟩ = _
      rw [act_of_notCall notCall, act_of_notCall notCall]
      have same : (Machine.mk m L host').perform i values memory =
        (Machine.mk m L host).perform i values memory := rfl
      rw [same]
      rcases (Machine.mk m L host).perform i values memory with ⟨fault | values, memory⟩ <;> rfl

theorem advance_map {L' : Limits} {c : Config σ} (agree : ∀ call, c.Asks m call →
      host'.answer (φ c.world.host) call =
        (host.answer c.world.host call).map fun reply => (reply.1, φ reply.2)) :
    (Machine.mk m L' host').advance (c.map φ) = ((Machine.mk m L host).advance c).map φ :=
  act_map agree

theorem drive_map (agree : ∀ s call, host'.answer (φ s) call =
      (host.answer s call).map fun reply => (reply.1, φ reply.2)) (steps : Nat) (c : Config σ) :
    (Machine.mk m L host').drive steps (c.map φ) =
      (((Machine.mk m L host).drive steps c).1, ((Machine.mk m L host).drive steps c).2.map φ) := by
  induction steps generalizing c with
  | zero => rfl
  | succ steps ih =>
    simp only [drive, act_map (L := L) fun call _ => agree c.world.host call]
    cases (Machine.mk m L host).act c with
    | running next => exact ih next
    | finished outcome w => rfl

theorem run_map (agree : ∀ s call, host'.answer (φ s) call =
      (host.answer s call).map fun reply => (reply.1, φ reply.2)) (name : String)
    (args : List Value) (w : World σ) :
    (Machine.mk m L host').run name args (w.map φ) =
      (((Machine.mk m L host).run name args w).1,
        ((Machine.mk m L host).run name args w).2.map φ) := by
  simp only [run]
  cases m.functionByName? name with
  | none => rfl
  | some F =>
    have invoked : (Machine.mk m L host').invoke (w.map φ) 0 F.id args =
        ((Machine.mk m L host).invoke w 0 F.id args).map (Invocation.map φ) :=
      invoke_map fun _ _ _ _ => agree w.host _
    simp only [call, invoked]
    cases (Machine.mk m L host).invoke w 0 F.id args with
    | error fault => rfl
    | ok invocation =>
      cases invocation with
      | answered result next => rfl
      | entered frame =>
        have driven : (Machine.mk m L host').drive
            ((Machine.mk m L host').remainingSteps (w.map φ)) ⟨w.map φ, frame, []⟩ =
              (((Machine.mk m L host).drive ((Machine.mk m L host).remainingSteps w)
                  ⟨w, frame, []⟩).1,
                ((Machine.mk m L host).drive ((Machine.mk m L host).remainingSteps w)
                  ⟨w, frame, []⟩).2.map φ) := drive_map agree _ ⟨w, frame, []⟩
        simp only [Except.map, Invocation.map, driven]
        rfl

end

section

variable (M : Machine σ)

theorem host_actReturn (result : Option Value) (w : World σ) (mark : Nat)
    (callers : List Caller) : (actReturn result w mark callers).world.host = w.host := by
  cases callers with
  | nil => rfl
  | cons caller callers =>
    simp only [actReturn]
    split <;> rfl

theorem host_jump (w : World σ) (frame : Frame) (callers : List Caller) (target : BlockId) :
    (M.jump w frame callers target).world.host = w.host := by
  simp only [jump]
  split <;> rfl

theorem host_actTerminator (w : World σ) (frame : Frame) (callers : List Caller)
    (terminator : Option Terminator) :
    (M.actTerminator w frame callers terminator).world.host = w.host := by
  unfold actTerminator
  split
  · rfl
  · exact M.host_jump ..
  · split
    · rfl
    · exact M.host_jump ..
  · exact host_actReturn ..
  · split
    · rfl
    · exact host_actReturn ..
  · rfl

/-- The state of the host changes only when it is asked. -/
theorem host_act (c : Config σ) : (M.act c).world.host = c.world.host ∨
    ∃ call result, c.Asks M.module call ∧
      M.host.answer c.world.host call = some (result, (M.act c).world.host) := by
  obtain ⟨⟨memory, steps, s⟩, ⟨block, rest, values, mark⟩, callers⟩ := c
  cases rest with
  | nil => exact .inl (M.host_actTerminator ..)
  | cons i rest =>
    by_cases call : ∃ d g args, i = .call d g args
    · obtain ⟨d, g, args, rfl⟩ := call
      simp only [act, actCall, bind, Except.bind]
      cases operands : args.mapM (operand M.module values) with
      | error fault => exact .inl rfl
      | ok xs =>
        dsimp only
        cases invoked : M.invoke ⟨memory, steps + 1, s⟩ (callers.length + 1) g xs with
        | error fault => exact .inl rfl
        | ok invocation =>
          obtain ⟨F, hF, arity, ⟨entry, result, next, answer, rfl⟩ | ⟨_, frame, -, -, rfl⟩⟩ :=
            M.invoke_eq_ok invoked
          · refine .inr ⟨_, result,
              ⟨d, g, args, rest, F, xs, rfl, operands, hF, arity, entry, rfl⟩, ?_⟩
            dsimp only
            split <;> exact answer
          · exact .inl rfl
    · rw [act_of_notCall fun d g args same => call ⟨d, g, args, same⟩]
      split <;> exact .inl rfl

/-- What comes of asking the host. -/
theorem act_of_asks {c : Config σ} {call : HostCall} (asks : c.Asks M.module call) :
    match M.host.answer c.world.host call with
    | some (_, next) => (M.act c).world.host = next
    | none => M.act c =
      .finished (.error (.unboundExtern call.callee))
        { c.world with steps := c.world.steps + 1 } := by
  obtain ⟨⟨memory, steps, s⟩, ⟨block, rest, values, mark⟩, callers⟩ := c
  obtain ⟨d, g, args, rest', F, xs, rfl, operands, hF, arity, entry, rfl⟩ := asks
  have invoked : M.invoke ⟨memory, steps + 1, s⟩ (callers.length + 1) g xs = _ :=
    M.invoke_bodiless hF arity entry
  dsimp only at operands invoked ⊢
  simp only [act, actCall, bind, Except.bind, operands, invoked]
  cases M.host.answer s ⟨F.name, xs, memory⟩ with
  | none => rfl
  | some reply =>
    simp only [Option.elim]
    split <;> rfl

end

/-- The machine whose host writes down all exchanges. -/
def recorded (M : Machine σ) : Machine (σ × List (HostCall × Option Value)) :=
  ⟨M.module, M.limits, M.host.recorded⟩

/-- The machine that is given replies instead of a host. -/
def scripted (m : Module) (replies : Nat → Option (Option Value)) : Machine (List HostCall) :=
  ⟨m, {}, .scripted replies⟩

/-- The replies are those that the host gives from the configuration on, and where it refuses
there is none. -/
structure Supplies (M : Machine σ) (c : Config (σ × List (HostCall × Option Value)))
    (replies : Nat → Option (Option Value)) : Prop where
  given : ∀ n i x, (M.recorded.after n c).world.host.2[i]? = some x → replies i = some x.2
  refused : ∀ n name w, M.recorded.after n c = .finished (.error (.unboundExtern name)) w →
    replies w.host.2.length = none

/-- What the host was asked, from what it has exchanged. -/
def asked (s : σ × List (HostCall × Option Value)) : List HostCall :=
  s.2.map Prod.fst

section

variable (M : Machine σ)

theorem recorded_answer (s : σ × List (HostCall × Option Value)) (call : HostCall) :
    M.recorded.host.answer s call = (M.host.answer s.1 call).map fun reply =>
      (reply.1, reply.2, s.2 ++ [(call, reply.1)]) := rfl

theorem exchanges_act (c : Config (σ × List (HostCall × Option Value))) :
    c.world.host.2 <+: (M.recorded.act c).world.host.2 := by
  rcases M.recorded.host_act c with same | ⟨call, result, -, answer⟩
  · simpa only [same] using List.prefix_refl _
  · rw [recorded_answer, Option.map_eq_some_iff] at answer
    obtain ⟨reply, -, same⟩ := answer
    rw [← (Prod.mk.inj same).2]
    exact List.prefix_append ..

theorem exchanges_after (n : Nat) (c : Config (σ × List (HostCall × Option Value))) :
    c.world.host.2 <+: (M.recorded.after n c).world.host.2 := by
  induction n generalizing c with
  | zero => exact List.prefix_refl _
  | succ n ih =>
    have first : c.world.host.2 <+: (M.recorded.advance c).world.host.2 :=
      (M.within (M.recorded.roomy c)).exchanges_act c
    rw [after]
    cases step : M.recorded.advance c with
    | running next =>
      rw [step] at first
      exact first.trans (ih next)
    | finished outcome w =>
      rw [step] at first
      exact first

/-- Exchanges are only added. -/
theorem exchanges_mono {n k : Nat} (le : n ≤ k)
    (c : Config (σ × List (HostCall × Option Value))) :
    (M.recorded.after n c).world.host.2 <+: (M.recorded.after k c).world.host.2 := by
  obtain ⟨k, rfl⟩ := Nat.exists_eq_add_of_le le
  cases step : M.recorded.after n c with
  | running next =>
    rw [after_add step]
    exact M.exchanges_after k next
  | finished outcome w =>
    simpa only [after_stays step] using List.prefix_refl _

/-- No two points of the unlimited run disagree on an exchange. -/
theorem exchange_unique {c : Config (σ × List (HostCall × Option Value))} {n k i : Nat}
    {x y : HostCall × Option Value} (hx : (M.recorded.after n c).world.host.2[i]? = some x)
    (hy : (M.recorded.after k c).world.host.2[i]? = some y) : x = y := by
  have later {n k : Nat} (le : n ≤ k) {x : HostCall × Option Value}
      (hx : (M.recorded.after n c).world.host.2[i]? = some x) :
      (M.recorded.after k c).world.host.2[i]? = some x := by
    obtain ⟨more, same⟩ := M.exchanges_mono le c
    rw [← same, List.getElem?_append_left (List.getElem?_eq_some_iff.1 hx).1, hx]
  rcases Nat.le_total n k with le | le
  · exact Option.some.inj ((later le hx).symm.trans hy)
  · exact Option.some.inj (hx.symm.trans (later le hy))

/-- There are replies that a host gives from a configuration on. -/
theorem exists_replies (c : Config (σ × List (HostCall × Option Value))) :
    ∃ replies, M.Supplies c replies := by
  have each (i : Nat) : ∃ reply : Option (Option Value),
      (∀ n x, (M.recorded.after n c).world.host.2[i]? = some x → reply = some x.2) ∧
      ((∀ n, (M.recorded.after n c).world.host.2[i]? = none) → reply = none) := by
    by_cases given : ∃ n x, (M.recorded.after n c).world.host.2[i]? = some x
    · obtain ⟨n, x, hx⟩ := given
      refine ⟨some x.2, fun k y hy => by rw [M.exchange_unique hx hy], fun never => ?_⟩
      rw [never n] at hx
      cases hx
    · exact ⟨none, fun n x hx => absurd ⟨n, x, hx⟩ given, fun _ => rfl⟩
  obtain ⟨replies, supplied⟩ := Classical.axiomOfChoice each
  refine ⟨replies, fun n i x hx => (supplied i).1 n x hx, fun n name w ended => ?_⟩
  refine (supplied _).2 fun k => List.getElem?_eq_none ?_
  have longest : (M.recorded.after (max n k) c).world.host.2 = w.host.2 := by
    obtain ⟨d, same⟩ := Nat.exists_eq_add_of_le (Nat.le_max_left n k)
    rw [same, after_stays ended]
    rfl
  rw [← longest]
  exact (M.exchanges_mono (Nat.le_max_right n k) c).length_le

theorem world_after_one (M : Machine σ) (c : Config σ) :
    (M.after 1 c).world = (M.advance c).world := by
  simp only [after]
  cases M.advance c <;> rfl

theorem Supplies.next {M : Machine σ} {c next : Config (σ × List (HostCall × Option Value))}
    {replies : Nat → Option (Option Value)} (h : M.Supplies c replies)
    (step : M.recorded.advance c = .running next) : M.Supplies next replies where
  given n i x hx := h.given (n + 1) i x (by simpa only [after, step] using hx)
  refused n name w ended := h.refused (n + 1) name w (by simpa only [after, step] using ended)

/-- With the same replies the machine does the same. -/
theorem after_scripted {M : Machine σ} {replies : Nat → Option (Option Value)} (n : Nat)
    {c : Config (σ × List (HostCall × Option Value))} (supplies : M.Supplies c replies) :
    (scripted M.module replies).after n (c.map asked) = (M.recorded.after n c).map asked := by
  induction n generalizing c with
  | zero => rfl
  | succ n ih =>
    have first : (scripted M.module replies).advance (c.map asked) =
        (M.recorded.advance c).map asked := by
      refine advance_map fun call asks => ?_
      -- the reply is the one whose number is that of the exchanges before it
      have acted := (M.recorded.within (M.recorded.roomy c)).act_of_asks asks
      show (replies (c.world.host.2.map Prod.fst).length).map _ =
        ((M.host.answer c.world.host.1 call).map _).map _
      rw [host_within, recorded_answer] at acted
      rw [List.length_map]
      cases answer : M.host.answer c.world.host.1 call with
      | none =>
        rw [answer] at acted
        have ended : M.recorded.advance c = _ := acted
        have refused := supplies.refused 1 call.callee
          { c.world with steps := c.world.steps + 1 } (by simp only [after, ended])
        rw [refused]
        rfl
      | some reply =>
        rw [answer] at acted
        have next : (M.recorded.advance c).world.host = _ := acted
        have given := supplies.given 1 c.world.host.2.length (call, reply.1) (by
          rw [world_after_one, next]
          simp)
        rw [given]
        simp [asked]
    simp only [after, first]
    cases step : M.recorded.advance c with
    | running next => exact ih (supplies.next step)
    | finished outcome w => rfl

end

end Machine

end Decaf.Execution
