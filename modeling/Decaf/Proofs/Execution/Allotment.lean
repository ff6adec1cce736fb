import Decaf.Proofs.Execution.Actions

/-!
# The slots of the calls in progress

Which call reserved which stack slot can be read off a run from outside: an alloca gives the
next region to the call in progress, and a return takes from the list the call with all its
slots. The regions above those that were there at the start are the slots of the calls in
progress, those of the outermost call at the bottom (`Stacks`). Limits bound their number and
the number of calls at every moment.
-/

namespace Decaf.Execution

open IR

variable {σ : Type}

/-- A region that an alloca reserved. -/
structure Slot where
  value : ValueId
  region : Nat
  deriving DecidableEq, Repr

/-- A call in progress: its function, the slots it has reserved, the last one at the end, and
the number of actions it has taken. -/
structure Activity where
  function : FunctionId
  slots : List Slot
  actions : Nat
  deriving DecidableEq, Repr

/-- The calls in progress after an action, the innermost first. -/
def Config.allot (c next : Config σ) : List Activity → List Activity
  | [] => []
  | call :: calls =>
    let call := { call with actions := call.actions + 1 }
    if c.callers.length < next.callers.length then
      match c.frame.rest with
      | .call _ g _ :: _ => ⟨g, [], 0⟩ :: call :: calls
      | _ => call :: calls
    else if next.callers.length < c.callers.length then calls
    else
      match c.frame.rest with
      | .alloca dst _ :: _ =>
        { call with slots := call.slots ++ [⟨dst, c.world.memory.mark⟩] } :: calls
      | _ => call :: calls

/-- The configurations through which a call passes, each with the calls in progress. -/
inductive Machine.Allotted (M : Machine σ) (f : FunctionId) (args : List Value) (w : World σ) :
    Config σ → List Activity → Prop where
  | start {frame : Frame} :
      M.invoke w 0 f args = .ok (.entered frame) →
      M.Allotted f args w ⟨w, frame, []⟩ [⟨f, [], 0⟩]
  | act {c next : Config σ} {calls : List Activity} :
      M.Allotted f args w c calls → c.world.steps < M.limits.steps → M.act c = .running next →
      M.Allotted f args w next (c.allot next calls)

namespace Config

variable {w w' : World σ} {callers : List Caller} {call : Activity} {calls : List Activity}

theorem allot_alloca {block : BlockId} {dst : ValueId} {ty : IR.Ty} {rest : List Inst}
    {vs : Values} {mark : Nat} {frame : Frame} :
    (⟨w, ⟨block, .alloca dst ty :: rest, vs, mark⟩, callers⟩ : Config σ).allot
      ⟨w', frame, callers⟩ (call :: calls) =
    ⟨call.function, call.slots ++ [⟨dst, w.memory.mark⟩], call.actions + 1⟩ :: calls := by
  simp [allot]

theorem allot_stay {frame frame' : Frame}
    (other : ∀ dst ty rest, frame.rest ≠ .alloca dst ty :: rest) :
    (⟨w, frame, callers⟩ : Config σ).allot ⟨w', frame', callers⟩ (call :: calls) =
      { call with actions := call.actions + 1 } :: calls := by
  simp only [allot, Nat.lt_irrefl, if_false]

theorem allot_enter {block : BlockId} {dst : Option ValueId} {g : FunctionId}
    {args : List ValueId} {rest : List Inst} {vs : Values} {mark : Nat} {callee : Frame}
    {caller : Caller} :
    (⟨w, ⟨block, .call dst g args :: rest, vs, mark⟩, callers⟩ : Config σ).allot
      ⟨w', callee, caller :: callers⟩ (call :: calls) =
    ⟨g, [], 0⟩ :: { call with actions := call.actions + 1 } :: calls := by
  simp [allot]

theorem allot_return {frame frame' : Frame} {caller : Caller} :
    (⟨w, frame, caller :: callers⟩ : Config σ).allot ⟨w', frame', callers⟩ (call :: calls) =
      calls := by
  have shorter : ¬ callers.length + 1 < callers.length := by omega
  simp [allot, shorter]

/-- The marks of the calls in progress, the innermost first. -/
def marks (c : Config σ) : List Nat :=
  c.frame.mark :: c.callers.map (·.frame.mark)

end Config

/-- The slots of each call lie between its mark and the mark of the next one. -/
def Stacks (base : Nat) : List Nat → List Activity → Nat → Prop
  | [], [], top => top = base
  | mark :: marks, call :: calls, top =>
    mark ≤ top ∧ call.slots.map (·.region) = List.range' mark (top - mark) ∧
      Stacks base marks calls mark
  | _, _, _ => False

/-- The number of slots that the calls have reserved. -/
def reserved (calls : List Activity) : Nat :=
  (calls.flatMap (·.slots)).length

namespace Stacks

variable {base mark top : Nat} {marks : List Nat} {call : Activity} {calls : List Activity}

theorem length_eq (h : Stacks base marks calls top) : calls.length = marks.length := by
  induction marks generalizing calls top with
  | nil =>
    cases calls with
    | nil => rfl
    | cons => cases h
  | cons mark marks ih =>
    cases calls with
    | nil => cases h
    | cons call calls => exact congrArg (· + 1) (ih h.2.2)

theorem base_le (h : Stacks base marks calls top) : base ≤ top := by
  induction marks generalizing calls top with
  | nil =>
    cases calls with
    | nil => exact Nat.le_of_eq h.symm
    | cons => cases h
  | cons mark marks ih =>
    cases calls with
    | nil => cases h
    | cons call calls => exact Nat.le_trans (ih h.2.2) h.1

/-- From the bottom up, the slots of the calls are the regions from the base on. -/
theorem regions_eq (h : Stacks base marks calls top) :
    (calls.reverse.flatMap (·.slots)).map (·.region) = List.range' base (top - base) := by
  induction marks generalizing calls top with
  | nil =>
    cases calls with
    | nil =>
      cases h
      simp
    | cons => cases h
  | cons mark marks ih =>
    cases calls with
    | nil => cases h
    | cons call calls =>
      obtain ⟨le, own, below⟩ := h
      have first := below.base_le
      rw [List.reverse_cons, List.flatMap_append, List.map_append, ih below, List.flatMap_singleton,
        own]
      obtain ⟨n, rfl⟩ := Nat.exists_eq_add_of_le first
      obtain ⟨k, rfl⟩ := Nat.exists_eq_add_of_le le
      have parts : base + n + k - base = n + k := by omega
      rw [Nat.add_sub_cancel_left, Nat.add_sub_cancel_left, parts]
      simp

theorem reserved_eq (h : Stacks base marks calls top) : reserved calls = top - base := by
  have lengths := congrArg List.length h.regions_eq
  rw [List.length_map, List.length_range'] at lengths
  rw [reserved, ← lengths]
  exact ((List.reverse_perm calls).flatMap_right _).length_eq.symm

theorem push (h : Stacks base (mark :: marks) (call :: calls) top) (dst : ValueId) (n : Nat) :
    Stacks base (mark :: marks) (⟨call.function, call.slots ++ [⟨dst, top⟩], n⟩ :: calls)
      (top + 1) := by
  obtain ⟨le, own, below⟩ := h
  refine ⟨Nat.le_succ_of_le le, ?_, below⟩
  rw [List.map_append, own, Nat.succ_sub le, List.range'_1_concat]
  simp [Nat.add_sub_cancel' le]

end Stacks

/-- Only an alloca moves the mark. -/
theorem Machine.mark_perform {M : Machine σ} {i : Inst} {vs vs' : Values}
    {memory memory' : Memory} (h : M.perform i vs memory = (.ok vs', memory'))
    (other : ∀ dst ty, i ≠ .alloca dst ty) : memory'.mark = memory.mark := by
  have same : memory' = (M.perform i vs memory).2 := by rw [h]
  subst same
  cases i with
  | alloca dst ty => exact absurd rfl (other dst ty)
  | store value address =>
    simp only [perform]
    split
    · rfl
    · exact Memory.mark_set ..
  | _ => rfl

/-- What an alloca does where there is room. -/
theorem Machine.perform_alloca {M : Machine σ} {dst : ValueId} {ty : IR.Ty} {vs vs' : Values}
    {memory memory' : Memory} (h : M.perform (.alloca dst ty) vs memory = (.ok vs', memory')) :
    M.slotsInUse memory < M.limits.stackSlots ∧
      vs' = vs.set dst (.pointer (.start memory.mark)) ∧
      memory' = memory.allocate #[Value.zero ty] := by
  simp only [perform] at h
  split at h
  · cases h
  · rename_i room
    cases h
    exact ⟨Nat.lt_of_not_le room, rfl, rfl⟩

theorem Machine.invoke_entered {M : Machine σ} {w : World σ} {depth : Nat} {f : FunctionId}
    {args : List Value} {frame : Frame} (h : M.invoke w depth f args = .ok (.entered frame)) :
    depth < M.limits.callDepth ∧ frame.mark = w.memory.mark := by
  obtain ⟨F, there, arity, ⟨-, _, _, -, other⟩ | ⟨entry, frame', body, start, same⟩⟩ :=
    M.invoke_eq_ok h
  · cases other
  · cases same
    obtain ⟨data, vs, -, -, rfl⟩ := Frame.enter_eq_ok start
    refine ⟨Nat.lt_of_not_le fun deep => ?_, rfl⟩
    rw [M.invoke_body there arity body, if_pos deep] at h
    cases h

namespace Machine

variable {M : Machine σ} {c next : Config σ} {base : Nat} {call : Activity}
  {calls : List Activity}

/-- What an action does to the calls in progress: an alloca adds a slot to the first of them, other
actions leave them as they are, a call adds one, and a return takes one off. -/
theorem Action.allot_cases (action : M.Action c next) (call : Activity) (calls : List Activity) :
    (∃ dst, M.slotsInUse c.world.memory < M.limits.stackSlots ∧ next.marks = c.marks ∧
      next.world.memory.mark = c.world.memory.mark + 1 ∧
      c.allot next (call :: calls) =
        ⟨call.function, call.slots ++ [⟨dst, c.world.memory.mark⟩], call.actions + 1⟩ :: calls) ∨
    (next.marks = c.marks ∧ next.world.memory.mark = c.world.memory.mark ∧
      c.allot next (call :: calls) = { call with actions := call.actions + 1 } :: calls) ∨
    (∃ g, c.marks.length < M.limits.callDepth ∧ next.marks = c.world.memory.mark :: c.marks ∧
      next.world.memory.mark = c.world.memory.mark ∧
      c.allot next (call :: calls) =
        ⟨g, [], 0⟩ :: { call with actions := call.actions + 1 } :: calls) ∨
    ∃ mark, c.marks = mark :: next.marks ∧
      next.world.memory.mark = min mark c.world.memory.mark ∧
      c.allot next (call :: calls) = calls := by
  cases action with
  | @plain _ _ _ _ _ i _ _ _ _ _ other performed =>
    by_cases alloca : ∃ dst ty, i = .alloca dst ty
    · obtain ⟨dst, ty, rfl⟩ := alloca
      obtain ⟨room, -, rfl⟩ := perform_alloca performed
      exact .inl ⟨dst, room, rfl, Memory.mark_allocate .., Config.allot_alloca⟩
    · refine .inr (.inl ⟨rfl, ?_, Config.allot_stay ?_⟩)
      · exact mark_perform performed fun dst ty same => alloca ⟨dst, ty, same⟩
      · exact fun dst ty rest same => alloca ⟨dst, ty, (List.cons.inj same).1⟩
  | answer => exact .inr (.inl ⟨rfl, rfl, Config.allot_stay (by simp)⟩)
  | enter operands entered =>
    obtain ⟨depth, mark⟩ := invoke_entered entered
    refine .inr (.inr (.inl ⟨_, by simpa [Config.marks] using depth, ?_, rfl, Config.allot_enter⟩))
    simp [Config.marks, mark]
  | jump ends leads entered =>
    obtain ⟨data, vs, -, -, rfl⟩ := Frame.enter_eq_ok entered
    exact .inr (.inl ⟨rfl, rfl, Config.allot_stay (by simp)⟩)
  | ret =>
    exact .inr (.inr (.inr ⟨_, rfl, Memory.mark_release .., Config.allot_return⟩))

/-- One action keeps the slots of the calls in their places. -/
theorem Action.stacks (action : M.Action c next)
    (h : Stacks base c.marks calls c.world.memory.mark) :
    Stacks base next.marks (c.allot next calls) next.world.memory.mark := by
  cases calls with
  | nil => cases h
  | cons call calls =>
    rcases action.allot_cases call calls with ⟨dst, -, marks, top, allot⟩ | ⟨marks, top, allot⟩ |
      ⟨g, -, marks, top, allot⟩ | ⟨mark, marks, top, allot⟩
    · rw [marks, top, allot]
      exact h.push dst _
    · rw [marks, top, allot]
      exact h
    · rw [marks, top, allot]
      exact ⟨Nat.le_refl _, by simp, h⟩
    · rw [marks] at h
      rw [top, allot, Nat.min_eq_left h.1]
      exact h.2.2

variable {f : FunctionId} {args : List Value} {w : World σ}

theorem moment_iff_allotted : M.Moment f args w c ↔ ∃ calls, M.Allotted f args w c calls := by
  constructor
  · intro moment
    induction moment with
    | start entered => exact ⟨_, .start entered⟩
    | act _ left running ih =>
      obtain ⟨calls, allotted⟩ := ih
      exact ⟨_, .act allotted left running⟩
  · rintro ⟨calls, allotted⟩
    induction allotted with
    | start entered => exact .start entered
    | act _ left running ih => exact .act ih left running

/-- At every moment the regions above those from before are the slots of the calls in
progress. -/
theorem Allotted.stacks (h : M.Allotted f args w c calls) :
    Stacks w.memory.mark c.marks calls c.world.memory.mark := by
  induction h with
  | @start frame entered =>
    obtain ⟨-, mark⟩ := invoke_entered entered
    simp [Config.marks, Stacks, mark]
  | act _ _ running ih => exact (M.action_of_act running).stacks ih

theorem Allotted.length_eq (h : M.Allotted f args w c calls) :
    calls.length = c.callers.length + 1 := by
  simpa [Config.marks] using h.stacks.length_eq

/-- The limits hold at a configuration: on slots, and on calls. -/
def Bounded (M : Machine σ) (c : Config σ) : Prop :=
  M.slotsInUse c.world.memory ≤ M.limits.stackSlots ∧ c.callers.length + 1 ≤ M.limits.callDepth

theorem Action.bounded (action : M.Action c next) (h : M.Bounded c) : M.Bounded next := by
  obtain ⟨slots, depth⟩ := h
  have length (c : Config σ) : c.marks.length = c.callers.length + 1 := by simp [Config.marks]
  unfold Bounded
  unfold slotsInUse at slots ⊢
  rw [← length] at depth ⊢
  -- any calls will do, since only the marks matter
  rcases action.allot_cases ⟨⟨0⟩, [], 0⟩ [] with ⟨dst, room, marks, top, -⟩ | ⟨marks, top, -⟩ |
    ⟨g, more, marks, top, -⟩ | ⟨mark, marks, top, -⟩
  · unfold slotsInUse at room
    rw [marks, top]
    exact ⟨by omega, depth⟩
  · rw [marks, top]
    exact ⟨slots, depth⟩
  · rw [marks, top]
    exact ⟨slots, more⟩
  · rw [marks, List.length_cons] at depth
    rw [top]
    exact ⟨by omega, Nat.le_of_succ_le depth⟩

/-- Where a run begins with no slots in use, the limits hold at every moment of it. -/
theorem Moment.bounded (none : w.memory.mark = M.module.globals.size)
    (h : M.Moment f args w c) : M.Bounded c := by
  induction h with
  | start entered =>
    refine ⟨?_, (invoke_entered entered).1⟩
    simp [slotsInUse, none]
  | act _ _ running ih => exact (M.action_of_act running).bounded ih

end Machine

end Decaf.Execution
