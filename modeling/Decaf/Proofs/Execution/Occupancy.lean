import Decaf.Proofs.Execution.Faults
import Decaf.Proofs.Execution.Prologues
import Decaf.Proofs.Execution.Residue
import Decaf.Proofs.Generation.Reservations

/-!
# The room that calls need

A call needs as much room on the stack as its method has named parameters and variables, and
needs no more of it however often its loops go round. So whether a run is out of stack slots is
settled where calls begin: it is if one of them begins without room for all of its variables,
and only then.
-/

namespace Decaf

open IR

/-- The method from which a function was generated. Externs come before the methods. -/
def Program.method? (P : Program) (f : FunctionId) : Option Method :=
  P.package.bind fun p =>
    if f.index < P.externs.length then none else p.methods[f.index - P.externs.length]?

/-- The number of stack slots that a call of the function needs. -/
def Program.slots (P : Program) (f : FunctionId) : Nat :=
  ((P.method? f).map Method.variables).getD 0

/-- The number of stack slots that the calls need together. -/
def Program.slotsOfAll (P : Program) : List Execution.Activity → Nat
  | [] => 0
  | call :: calls => P.slots call.function + P.slotsOfAll calls

namespace Execution

/-- Calls that have all their slots have as many as they need together. -/
theorem reserved_of_full {P : Program} {calls : List Activity}
    (full : ∀ call ∈ calls, call.slots.length = P.slots call.function) :
    reserved calls = P.slotsOfAll calls := by
  induction calls with
  | nil => rfl
  | cons call calls ih =>
    obtain ⟨own, others⟩ := List.forall_mem_cons.1 full
    rw [Program.slotsOfAll, ← own, ← ih others, reserved, List.flatMap_cons, List.length_append]
    rfl

variable {σ : Type} {M : Machine σ}

namespace Machine

/-- A call that is refused is not refused for want of stack slots. -/
theorem invoke_ne_slotsExceeded (w : World σ) (depth : Nat) (f : FunctionId) (args : List Value)
    (limit : Nat) : M.invoke w depth f args ≠ .error (.stackSlotsExceeded limit) := by
  intro failed
  unfold invoke at failed
  split at failed
  · cases failed
  · split at failed
    · cases failed
    · split at failed
      · split at failed <;> cases failed
      · split at failed
        · cases failed
        · rcases error_of_bind failed with refused | ⟨_, -, failed⟩
          · rcases fault_of_enter refused with ⟨-, other⟩ | evaluative | ⟨other, -⟩
            · cases other
            · exact evaluative
            · cases other
          · cases failed

/-- The only action that ends for want of stack slots is an alloca that finds none left. -/
theorem slotsExceeded_of_act {c : Config σ} {limit : Nat} {v : World σ}
    (h : M.act c = .finished (.error (.stackSlotsExceeded limit)) v) :
    limit = M.limits.stackSlots ∧ M.limits.stackSlots ≤ M.slotsInUse c.world.memory ∧
      ∃ dst ty rest, c.frame.rest = .alloca dst ty :: rest := by
  cases failure_of_act h with
  | value evaluative => exact evaluative.elim
  | refused _ _ refused => exact absurd refused (invoke_ne_slotsExceeded _ _ _ _ limit)
  | full next full => exact ⟨rfl, full, _, _, _, next⟩

variable {f : FunctionId} {args : List Value} {w : World σ} {c : Config σ}

/-- From each of its moments on a call comes to its outcome. -/
theorem Moment.conclude_eq (h : M.Moment f args w c) :
    (M.conclude (.running c)).1 = (M.call f args w).1 := by
  induction h with
  | start entered => simp only [conclude, call, entered]
  | act _ left running ih => rw [← ih, M.conclude_act left, running]

/-- At an alloca the run is out of stack slots, or goes on with one slot more. -/
theorem act_alloca (next : ∃ dst ty rest, c.frame.rest = .alloca dst ty :: rest) :
    M.act c = .finished (.error (.stackSlotsExceeded M.limits.stackSlots))
        { c.world with steps := c.world.steps + 1 } ∨
      ∃ next, M.act c = .running next ∧
        next.world.memory.mark = c.world.memory.mark + 1 ∧
        ∀ a waiting, ∃ slot, c.allot next (a :: waiting) =
          ⟨a.function, a.slots ++ [slot], a.actions + 1⟩ :: waiting := by
  obtain ⟨world, ⟨block, _, vs, mark⟩, callers⟩ := c
  obtain ⟨dst, ty, rest, rfl⟩ := next
  rw [act_of_notCall fun dst g args same => by cases same]
  by_cases full : M.limits.stackSlots ≤ M.slotsInUse world.memory
  · refine .inl ?_
    simp only [perform]
    rw [if_pos full]
  · refine .inr ⟨⟨⟨world.memory.allocate #[Value.zero ty], world.steps + 1, world.host⟩,
      ⟨block, rest, vs.set dst (.pointer (.start world.memory.mark)), mark⟩, callers⟩, ?_,
      Memory.mark_allocate .., fun a waiting => ⟨_, Config.allot_alloca⟩⟩
    simp only [perform]
    rw [if_neg full]

/-- A call that lacks room for the slots that it has not reserved ends for want of them, unless
the steps run out before: by induction on these slots. -/
theorem Allotted.conclude_crowded (complete : Complete False M.module)
    (none : w.memory.mark = M.module.globals.size) {a : Activity} {waiting : List Activity}
    (h : M.Allotted f args w c (a :: waiting))
    (crowded : M.limits.stackSlots + a.slots.length <
      M.slotsInUse c.world.memory + (M.module.allocasOf a.function).length) :
    (M.conclude (.running c)).1 = .error (.stackSlotsExceeded M.limits.stackSlots) ∨
      outOfSteps (M.conclude (.running c)).1 = true := by
  induction left : (M.module.allocasOf a.function).length - a.slots.length
    generalizing c a waiting with
  | zero =>
    -- all slots are reserved, and yet more than the limit
    have bounded := ((moment_iff_allotted.2 ⟨_, h⟩).bounded none).1
    omega
  | succ n ih =>
    by_cases below : c.world.steps < M.limits.steps
    case neg =>
      rw [M.conclude_spent (Nat.le_of_not_lt below)]
      exact .inr rfl
    case pos =>
      have fills := (h.fills complete).1
      have lacks : a.actions < (M.module.allocasOf a.function).length := by
        have := fills.length_slots
        omega
      rw [M.conclude_act below]
      rcases act_alloca (M := M) (fills.next_alloca.2 lacks) with
        failed | ⟨next, running, mark, allot⟩
      · rw [failed]
        exact .inl rfl
      · obtain ⟨slot, more⟩ := allot a waiting
        have later := Allotted.act h below running
        rw [more] at later
        have base := none ▸ h.stacks.base_le
        rw [running]
        refine ih later ?_ ?_
        · simp only [slotsInUse, mark, List.length_append, List.length_singleton] at crowded ⊢
          omega
        · simp only [List.length_append, List.length_singleton]
          omega

/-- The slots in use when a call began are those that it has not reserved since. -/
theorem Allotted.start_of_call (none : w.memory.mark = M.module.globals.size) {a : Activity}
    {waiting : List Activity} (h : M.Allotted f args w c (a :: waiting)) :
    ∃ c₀ waiting₀, M.Allotted f args w c₀ (⟨a.function, [], 0⟩ :: waiting₀) ∧
      M.slotsInUse c₀.world.memory + a.slots.length = M.slotsInUse c.world.memory := by
  obtain ⟨le, own, below⟩ := h.stacks
  have base := none ▸ below.base_le
  have count : a.slots.length = c.world.memory.mark - c.frame.mark := by
    simpa using congrArg List.length own
  cases h.started with
  | cons first _ =>
    obtain ⟨c₀, waiting₀, began, mark⟩ := first
    refine ⟨c₀, waiting₀, began, ?_⟩
    unfold slotsInUse
    omega

/-- A call is out of stack slots where a call within it began without room for all of its
slots. -/
theorem crowded_of_call (complete : Complete False M.module)
    (none : w.memory.mark = M.module.globals.size) {limit : Nat}
    (h : (M.call f args w).1 = .error (.stackSlotsExceeded limit)) :
    limit = M.limits.stackSlots ∧ ∃ c g waiting, M.Allotted f args w c (⟨g, [], 0⟩ :: waiting) ∧
      M.limits.stackSlots < M.slotsInUse c.world.memory + (M.module.allocasOf g).length := by
  cases invoked : M.invoke w 0 f args with
  | error fault =>
    simp only [call, invoked] at h
    cases h
    exact absurd invoked (invoke_ne_slotsExceeded _ _ _ _ limit)
  | ok invocation =>
    cases invocation with
    | answered result host =>
      simp only [call, invoked] at h
      cases h
    | entered frame =>
      obtain ⟨last, v, moment, -, ⟨-, spent, -⟩ | ⟨-, ended⟩⟩ := M.last_moment invoked
      · rw [spent] at h
        cases h
      · rw [h] at ended
        obtain ⟨same, full, next⟩ := slotsExceeded_of_act ended
        obtain ⟨calls, allotted⟩ := moment_iff_allotted.1 moment
        have fills := allotted.fills complete
        cases calls with
        | nil => exact fills.elim
        | cons a waiting =>
          have lacks := fills.1.next_alloca.1 next
          have reserved := fills.1.length_slots
          obtain ⟨c₀, waiting₀, began, inUse⟩ := allotted.start_of_call none
          exact ⟨same, c₀, a.function, waiting₀, began, by omega⟩

end Machine

section Compiled

variable {options : Options} {program : Program} {m : Module} {warnings : List Warning}

/-- A function with a body was generated from a method, and has the slots of that method. -/
theorem method_of_compile (compiled : compile options program = .ok (m, warnings))
    {f : FunctionId} {F : Function} {entry : BlockId} (there : m.function? f = some F)
    (body : F.entry? = some entry) :
    ∃ d, program.method? f = some d ∧ F.name = d.name ∧ m.HasSlots f d.variables := by
  obtain ⟨p, package, generated⟩ := generated_of_compile compiled
  rcases generated.function_cases there with ⟨e, -, bodiless⟩ | ⟨i, d, place, hd, implements⟩
  · rw [bodiless.entry?_eq_none there] at body
    cases body
  · have name := (implements.found there).2.1
    have slots := hasSlots_of_compile compiled package i d hd
    rw [← place] at slots
    refine ⟨d, ?_, name, slots⟩
    simp [Program.method?, package, place, hd]

/-- The allocas of a call in progress are as many as its method has variables. -/
theorem Fills.method (compiled : compile options program = .ok (m, warnings)) {frame : Frame}
    {a : Activity} (h : Fills m frame a) :
    ∃ d, program.method? a.function = some d ∧ (m.allocasOf a.function).Nodup ∧
      (m.allocasOf a.function).length = d.variables := by
  obtain ⟨p, function, finished⟩ := h.finished
  have body := finished.body
  obtain ⟨F, hF, -, first, -⟩ := body.declared
  obtain ⟨d, method, -, F', entry, hF', first', -, slots⟩ := method_of_compile compiled hF first
  rw [hF] at hF'
  cases hF'
  rw [first] at first'
  cases first'
  rw [← function, body.allocasOf_eq, List.length_map]
  exact ⟨d, method, body.slotIds, slots⟩

theorem Fills.slots_eq (compiled : compile options program = .ok (m, warnings)) {frame : Frame}
    {a : Activity} (h : Fills m frame a) :
    program.slots a.function = (m.allocasOf a.function).length := by
  obtain ⟨d, method, -, count⟩ := h.method compiled
  simp [Program.slots, method, count]

theorem complete_of_compile (compiled : compile options program = .ok (m, warnings)) :
    Complete False m := by
  obtain ⟨p, -, generated⟩ := generated_of_compile compiled
  exact generated.complete

/-- How a call in progress and the calls that wait for it stand with their slots. -/
structure Orderly (M : Machine σ) (P : Program) (c : Config σ) (call : Activity)
    (waiting : List Activity) : Prop where
  /-- Each call is of a method. Its first actions were for the allocas, each of them once. -/
  slots : ∀ a ∈ call :: waiting, ∃ d, P.method? a.function = some d ∧
    (M.module.allocasOf a.function).Nodup ∧
    (M.module.allocasOf a.function).length = d.variables ∧
    a.slots.map (·.value) = (M.module.allocasOf a.function).take a.actions
  waits : ∀ a ∈ waiting, P.slots a.function ≤ a.actions
  /-- There is an alloca to come as long as there are slots to come, and no longer. -/
  next : (∃ dst ty rest, c.frame.rest = .alloca dst ty :: rest) ↔
    call.actions < P.slots call.function
  /-- Only the limit on slots keeps the call from its slots. -/
  goesOn : call.actions < P.slots call.function → (∃ next, M.act c = .running next) ∨
    ∃ v, M.act c = .finished (.error (.stackSlotsExceeded M.limits.stackSlots)) v
  total : P.slots call.function ≤ call.actions →
    M.slotsInUse c.world.memory = P.slotsOfAll (call :: waiting)

section Run

variable {f : FunctionId} {args : List Value} {w : World σ} {c : Config σ} {call : Activity}
  {waiting : List Activity}

theorem orderly_of_allotted (compiled : compile options program = .ok (M.module, warnings))
    (none : w.memory.mark = M.module.globals.size)
    (h : M.Allotted f args w c (call :: waiting)) : Orderly M program c call waiting := by
  have fills := h.fills (complete_of_compile compiled)
  have slots (a : Activity) (ha : a ∈ call :: waiting) :
      program.slots a.function = (M.module.allocasOf a.function).length := by
    obtain ⟨frame, own⟩ := fills.of_mem ha
    exact own.slots_eq compiled
  have here := slots call List.mem_cons_self
  constructor
  case slots =>
    intro a ha
    obtain ⟨frame, own⟩ := fills.of_mem ha
    obtain ⟨d, method, nodup, count⟩ := own.method compiled
    exact ⟨d, method, nodup, count, own.slots⟩
  case waits =>
    intro a ha
    rw [slots a (List.mem_cons_of_mem _ ha)]
    exact (fills.of_waiting a ha).1
  case next => exact here ▸ fills.1.next_alloca
  case goesOn =>
    intro lacks
    have next := fills.1.next_alloca.2 (here ▸ lacks)
    rcases Machine.act_alloca (M := M) next with failed | ⟨next, running, -⟩
    · exact .inr ⟨_, failed⟩
    · exact .inl ⟨next, running⟩
  case total =>
    intro past
    have inUse := h.stacks.reserved_eq
    rw [none] at inUse
    rw [Machine.slotsInUse, ← inUse]
    refine reserved_of_full fun a ha => ?_
    rw [slots a ha]
    rcases List.mem_cons.1 ha with rfl | later
    · rw [fills.1.length_slots, Nat.min_eq_right (here ▸ past)]
    · obtain ⟨all, frame, own⟩ := fills.of_waiting a later
      rw [own.length_slots, Nat.min_eq_right all]

theorem call_exceeds_iff (compiled : compile options program = .ok (M.module, warnings))
    (none : w.memory.mark = M.module.globals.size)
    (steps : outOfSteps (M.call f args w).1 = false) (limit : Nat) :
    (M.call f args w).1 = .error (.stackSlotsExceeded limit) ↔
      limit = M.limits.stackSlots ∧ ∃ c g d waiting,
        M.Allotted f args w c (⟨g, [], 0⟩ :: waiting) ∧ program.method? g = some d ∧
        M.limits.stackSlots < M.slotsInUse c.world.memory + d.variables := by
  have complete := complete_of_compile compiled
  constructor
  · intro failed
    obtain ⟨same, c, g, waiting, began, crowded⟩ := Machine.crowded_of_call complete none failed
    obtain ⟨d, method, -, count⟩ := (began.fills complete).1.method compiled
    exact ⟨same, c, g, d, waiting, began, method, count ▸ crowded⟩
  · rintro ⟨rfl, c, g, d, waiting, began, method, crowded⟩
    obtain ⟨d', method', -, count⟩ := (began.fills complete).1.method compiled
    rw [method] at method'
    cases method'
    have same := (Machine.moment_iff_allotted.2 ⟨_, began⟩).conclude_eq
    have ended := began.conclude_crowded complete none (by
      simpa only [List.length_nil, Nat.add_zero, count] using crowded)
    rw [same, steps] at ended
    exact ended.resolve_right Bool.false_ne_true

end Run

/-- A call of a compiled program reserves a slot for each named parameter and variable of its
method, each of them once and with its first actions, and no slot with any later one. When the
call in progress has its slots, those in use are the sum of the variables over all calls in
progress. Where the limit on slots leaves a number for every region, so that no alloca fails for
want of one, a run that does not end for want of steps ends for want of slots if a call in it
begins without room for its variables, and only then. -/
theorem calls_reserve_variables (compiled : compile options program = .ok (M.module, warnings))
    {s₀ : σ} {outcomes : List Outcome} {s : Standing σ} (history : M.History s₀ outcomes s)
    (name : String) (args : List Value) :
    (∀ f c call waiting, M.Allotted f args s.world c (call :: waiting) →
      Orderly M program c call waiting) ∧
    (M.module.globals.size + M.limits.stackSlots ≤ Memory.maxRegions →
      (∀ dst ty vs memory, M.perform (.alloca dst ty) vs memory = M.reserve dst ty vs memory) ∧
      (outOfSteps (M.run name args s.world).1 = false → ∀ limit,
        (M.run name args s.world).1 = .error (.stackSlotsExceeded limit) ↔
          limit = M.limits.stackSlots ∧ ∃ F c f d waiting,
            M.module.functionByName? name = some F ∧
            M.Allotted F.id args s.world c (⟨f, [], 0⟩ :: waiting) ∧
            program.method? f = some d ∧
            M.limits.stackSlots < M.slotsInUse c.world.memory + d.variables)) := by
  have none := history.mark_eq
  refine ⟨fun f c call waiting allotted => orderly_of_allotted compiled none allotted,
    fun numbered => ⟨M.perform_alloca_eq_reserve numbered, fun steps limit => ?_⟩⟩
  cases found : M.module.functionByName? name with
  | none =>
    simp only [Machine.run, found]
    constructor
    · intro failed
      cases failed
    · rintro ⟨-, F, _, _, _, _, other, -⟩
      cases other
  | some F =>
    simp only [Machine.run, found] at steps ⊢
    rw [call_exceeds_iff compiled none steps]
    constructor
    · rintro ⟨same, c, g, d, waiting, began⟩
      exact ⟨same, F, c, g, d, waiting, rfl, began⟩
    · rintro ⟨same, G, c, g, d, waiting, other, began⟩
      cases other
      exact ⟨same, c, g, d, waiting, began⟩

end Compiled

/-- A method with a parameter, a variable, and another one in the body of a loop. -/
def counting : Program where
  externs := []
  package := some {
    name := "P"
    fields := []
    line := 1
    methods := [{
      name := "sum"
      ret := .int
      params := [⟨some "n", .int, 2⟩]
      line := 2
      body := .mk [⟨some "total", .int, 3⟩] [
        .while (.binary .gt (.var "n" 4) (.constant ⟨.int 0, "0", 4⟩) 4)
          (.mk [⟨some "next", .int, 5⟩] [
            .assign (.scalar "next" (.binary .add (.var "total" 6) (.var "n" 6) 6) 6),
            .assign (.scalar "total" (.var "next" 7) 7),
            .assign (.scalar "n" (.binary .sub (.var "n" 8) (.constant ⟨.int 1, "1", 8⟩) 8) 8)])
          4,
        .return (some (.var "total" 9)) 9] }] }

theorem counting_reserves_variables : ∃ m, compile {} counting = .ok (m, []) ∧
    let M : Machine Unit := ⟨m, { stackSlots := 2 }, silent⟩
    M.History () [] ⟨M.start (), 0⟩ ∧ m.globals.size + 2 ≤ Memory.maxRegions ∧
    outOfSteps (M.run "sum" [.int 5] (M.start ())).1 = false ∧
    (M.run "sum" [.int 5] (M.start ())).1 = .error (.stackSlotsExceeded 2) ∧
    ∃ F c f d waiting, m.functionByName? "sum" = some F ∧
      M.Allotted F.id [.int 5] (M.start ()) c (⟨f, [], 0⟩ :: waiting) ∧
      counting.method? f = some d ∧ 2 < M.slotsInUse c.world.memory + d.variables := by
  have result : ((compile {} counting).toOption.map fun x => (x.2, x.1.globals.size,
      fault? ((Machine.mk x.1 { stackSlots := 2 } silent).run "sum" [.int 5]
        ((Machine.mk x.1 { stackSlots := 2 } silent).start ())).1)) =
      some ([], 0, some (.stackSlotsExceeded 2)) := by
    decide +kernel
  obtain ⟨⟨m, warnings⟩, compiled, result⟩ := Option.map_eq_some_iff.1 result
  obtain ⟨rfl, globals, failed⟩ := by simpa only [Prod.mk.injEq] using result
  have compiled := ok_of_toOption compiled
  have numbered : m.globals.size + 2 ≤ Memory.maxRegions := by
    rw [globals]
    decide
  have failed := eq_error_of_fault? failed
  have steps := congrArg outOfSteps failed
  have history : (Machine.mk m { stackSlots := 2 } silent).History () []
      ⟨(Machine.mk m { stackSlots := 2 } silent).start (), 0⟩ := .start
  obtain ⟨-, exceeds⟩ := (calls_reserve_variables (M := ⟨m, { stackSlots := 2 }, silent⟩) compiled
    history "sum" [.int 5]).2 numbered
  exact ⟨m, compiled, history, numbered, steps, failed, ((exceeds steps 2).1 failed).2⟩

end Execution

end Decaf
