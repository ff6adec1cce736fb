import Decaf.Proofs.Execution.Actions

/-!
# What actions fail for

Reading operands, computing, and finding a place in memory can go wrong only for what the
values are, and entering a block moreover for a phi that has no value for the way taken. Faults
of another kind, for how the code is put together or for want of something, come from the ends
of blocks, from calls and from allocas (`failure_of_act`).
-/

namespace Decaf.IR

/-- A phi has an incoming value for control that comes from `source`. -/
def Inst.Feeds (source : Option BlockId) : Inst → Prop
  | .phi _ _ incoming => ∃ i ∈ incoming, some i.2 = source
  | _ => True

/-- Each phi of the block has an incoming value for control that comes from `source`. -/
def Module.Feeds (m : Module) (source : Option BlockId) (target : BlockId) : Prop :=
  ∀ d ∈ m.block? target, ∀ i ∈ d.insts.toList, i.Feeds source

end Decaf.IR

namespace Decaf.Execution

open IR

/-- The fault comes from the values that are there, or from a value that is not. -/
def Fault.Evaluative : Fault → Prop
  | .undefinedValue | .nullDereference | .outOfBounds _ _ | .divisionByZero | .type _ => True
  | _ => False

/-- The computation can only go wrong for what the values are. -/
def Mild {α : Type} (x : Except Fault α) : Prop :=
  ∀ fault, x = .error fault → fault.Evaluative

variable {α β : Type} {m : Module} {vs : Values}

theorem mild_ok (a : α) : Mild (.ok a : Except Fault α) := by
  intro fault failed
  cases failed

theorem mild_error {fault : Fault} (h : fault.Evaluative) :
    Mild (.error fault : Except Fault α) := by
  intro other same
  cases same
  exact h

theorem Mild.bind {x : Except Fault α} {f : α → Except Fault β} (first : Mild x)
    (next : ∀ a, Mild (f a)) : Mild (x >>= f) := by
  intro fault failed
  rcases error_of_bind failed with early | ⟨a, -, late⟩
  · exact first fault early
  · exact next a fault late

theorem mild_operand (v : ValueId) : Mild (operand m vs v) := by
  unfold operand
  split
  · exact mild_ok _
  · exact mild_ok _
  · split
    · exact mild_ok _
    · exact mild_error trivial

theorem mild_operands (args : List ValueId) : Mild (args.mapM (operand m vs)) := by
  induction args with
  | nil => exact mild_ok []
  | cons v args ih =>
    rw [List.mapM_cons]
    exact (mild_operand v).bind fun _ => ih.bind fun _ => mild_ok _

theorem mild_intOperand (v : ValueId) : Mild (intOperand m vs v) :=
  (mild_operand v).bind fun x => by
    cases x with
    | int n => exact mild_ok n
    | bool b => exact mild_error trivial
    | pointer p => exact mild_error trivial

theorem mild_boolOperand (v : ValueId) : Mild (boolOperand m vs v) :=
  (mild_operand v).bind fun x => by
    cases x with
    | bool b => exact mild_ok b
    | int n => exact mild_error trivial
    | pointer p => exact mild_error trivial

theorem mild_pointerOperand (v : ValueId) : Mild (pointerOperand m vs v) :=
  (mild_operand v).bind fun x => by
    cases x with
    | pointer p => exact mild_ok p
    | int n => exact mild_error trivial
    | bool b => exact mild_error trivial

/-- Merging phis can go wrong for the values, or for a phi that has none for the source. -/
theorem fault_of_mergePhis {source : Option BlockId} {phis : List Inst} {merged : Values}
    {fault : Fault} (h : mergePhis m vs source phis merged = .error fault) :
    fault.Evaluative ∨ fault = .missingPhiIncoming ∧ ∃ i ∈ phis, ¬ i.Feeds source := by
  induction phis generalizing merged with
  | nil => cases h
  | cons i phis ih =>
    have later {merged : Values} (h : mergePhis m vs source phis merged = .error fault) :
        fault.Evaluative ∨ fault = .missingPhiIncoming ∧ ∃ j ∈ i :: phis, ¬ j.Feeds source := by
      refine (ih h).imp_right ?_
      rintro ⟨same, j, mem, unfed⟩
      exact ⟨same, j, List.mem_cons_of_mem _ mem, unfed⟩
    cases i with
    | phi dst ty incoming =>
      rw [mergePhis] at h
      rcases error_of_bind h with first | ⟨x, -, h⟩
      · unfold incomingValue at first
        split at first
        · exact .inl (mild_operand _ _ first)
        · rename_i absent
          cases first
          refine .inr ⟨rfl, _, List.mem_cons_self, ?_⟩
          rintro ⟨i, hi, here⟩
          exact List.find?_eq_none.1 absent i hi (decide_eq_true here)
      · exact later h
    | _ => exact later h

theorem mild_binary (op : BinOp) (l r : Value) : Mild (binary op l r) := by
  unfold binary
  split
  · rename_i a b
    have divided (x : Value) : Mild (if Divides a b then .ok x else .error .divisionByZero) := by
      split
      · exact mild_ok _
      · exact mild_error trivial
    cases op with
    | sdiv => exact divided _
    | srem => exact divided _
    | _ => exact mild_ok _
  · unfold boolBinary
    split
    · exact mild_ok _
    · exact mild_ok _
    · exact mild_error trivial
  · exact mild_error trivial

theorem mild_unary (op : UnOp) (x : Value) : Mild (unary op x) := by
  unfold unary
  split
  · exact mild_ok _
  · exact mild_ok _
  · exact mild_ok _
  · exact mild_error trivial

theorem mild_locate (memory : Memory) (p : Pointer) : Mild (memory.locate p) := by
  unfold Memory.locate
  split
  · exact mild_error trivial
  · simp only
    split
    · exact mild_ok _
    · exact mild_error trivial

theorem mild_read (memory : Memory) (p : Pointer) : Mild (memory.read p) :=
  (mild_locate memory p).bind fun c => by
    split
    · exact mild_ok _
    · exact mild_error trivial

theorem mild_evaluate (memory : Memory) (i : Inst) : Mild (evaluate m vs memory i) := by
  cases i with
  | load dst ty address =>
    refine (mild_pointerOperand address).bind fun p => (mild_read memory p).bind
      fun x => ?_
    split
    · exact mild_ok _
    · exact mild_error trivial
  | elementPtr dst ty base index =>
    exact (mild_pointerOperand base).bind fun p => (mild_intOperand index).bind
      fun n => mild_ok _
  | binary dst op lhs rhs =>
    exact (mild_operand lhs).bind fun l => (mild_operand rhs).bind fun r =>
      (mild_binary op l r).bind fun x => mild_ok _
  | unary dst op v =>
    exact (mild_operand v).bind fun y => (mild_unary op y).bind fun x => mild_ok _
  | zext dst v ty => exact (mild_boolOperand v).bind fun b => mild_ok _
  | alloca dst ty => exact mild_ok _
  | store value address => exact mild_ok _
  | phi dst ty incoming => exact mild_ok _
  | call dst g args => exact mild_ok _

theorem mild_bindResult {callee : String} {dst : Option ValueId} {result : Option Value} :
    Mild (Machine.bindResult callee dst result vs) := by
  unfold Machine.bindResult
  split
  · exact mild_ok _
  · exact mild_ok _
  · exact mild_error trivial

theorem mild_storeTarget (memory : Memory) (value address : ValueId) :
    Mild (storeTarget m vs memory value address) :=
  (mild_operand value).bind fun _ => (mild_pointerOperand address).bind fun p =>
    (mild_locate memory p).bind fun _ => mild_ok _

/-- Control cannot enter a block that is not there, or with a phi that has no value. -/
theorem fault_of_enter {frame : Frame} {source : Option BlockId} {target : BlockId}
    {fault : Fault} (h : frame.enter m source target = .error fault) :
    (m.block? target = none ∧ fault = .unterminated "") ∨ fault.Evaluative ∨
      fault = .missingPhiIncoming ∧ ¬ m.Feeds source target := by
  unfold Frame.enter at h
  split at h
  · rename_i missing
    cases h
    exact .inl ⟨missing, rfl⟩
  · rename_i data there
    rcases error_of_bind h with merging | ⟨_, -, entered⟩
    · refine .inr ((fault_of_mergePhis merging).imp_right fun ⟨same, i, mem, unfed⟩ => ?_)
      exact ⟨same, fun feeds => unfed (feeds data there i (List.mem_filter.1 mem).1)⟩
    · cases entered

namespace Machine

variable {σ : Type} (M : Machine σ)

/-- What an action that fails can fail for. -/
inductive Failure : Config σ → Fault → Prop where
  | value {c : Config σ} {fault : Fault} : fault.Evaluative → Failure c fault
  | unterminated {c : Config σ} :
      M.terminatorAt c.frame.block = none →
      Failure c (.unterminated (M.module.labelOf c.frame.block))
  | unreachable {c : Config σ} :
      M.terminatorAt c.frame.block = some .unreachable → Failure c .unreachable
  | nowhere {c : Config σ} {t : Terminator} {target : BlockId} :
      M.terminatorAt c.frame.block = some t → target ∈ t.successors →
      M.module.block? target = none → Failure c (.unterminated "")
  | unfed {c : Config σ} {t : Terminator} {target : BlockId} :
      M.terminatorAt c.frame.block = some t → target ∈ t.successors →
      ¬ M.module.Feeds (some c.frame.block) target → Failure c .missingPhiIncoming
  | refused {c : Config σ} {w : World σ} {dst : Option ValueId} {g : FunctionId}
      {args : List ValueId} {rest : List Inst} {xs : List Value} {fault : Fault} :
      c.frame.rest = .call dst g args :: rest →
      args.mapM (operand M.module c.frame.values) = .ok xs →
      M.invoke w (c.callers.length + 1) g xs = .error fault → Failure c fault
  | full {c : Config σ} {dst : ValueId} {ty : IR.Ty} {rest : List Inst} :
      c.frame.rest = .alloca dst ty :: rest →
      M.limits.stackSlots ≤ M.slotsInUse c.world.memory →
      Failure c (.stackSlotsExceeded M.limits.stackSlots)

variable {M} {c : Config σ} {fault : Fault} {v w : World σ}

theorem failure_of_actCall {dst : Option ValueId} {g : FunctionId} {args : List ValueId}
    {rest : List Inst} (next : c.frame.rest = .call dst g args :: rest)
    (h : M.actCall dst g args w { c.frame with rest } c.callers =
      .finished (.error fault) v) : M.Failure c fault := by
  simp only [actCall] at h
  split at h
  · rename_i failed
    cases h
    rcases error_of_bind failed with operands | ⟨xs, operands, refused⟩
    · exact .value (mild_operands args _ operands)
    · exact .refused next operands refused
  · split at h
    · rename_i unbound
      cases h
      exact .value (mild_bindResult _ unbound)
    · cases h
  · cases h

theorem failure_of_jump {t : Terminator} {target : BlockId} {frame : Frame}
    (same : frame.block = c.frame.block) (ends : M.terminatorAt c.frame.block = some t)
    (leads : target ∈ t.successors)
    (h : M.jump w frame c.callers target = .finished (.error fault) v) : M.Failure c fault := by
  cases entered : frame.enter M.module (some frame.block) target with
  | ok frame' =>
    simp only [jump, entered] at h
    cases h
  | error early =>
    simp only [jump, entered] at h
    cases h
    rcases fault_of_enter entered with ⟨missing, rfl⟩ | evaluative | ⟨rfl, unfed⟩
    · exact .nowhere ends leads missing
    · exact .value evaluative
    · exact .unfed ends leads (same ▸ unfed)

theorem evaluative_of_actReturn {result : Option Value} {mark : Nat} {callers : List Caller}
    (h : actReturn result w mark callers = .finished (.error fault) v) : fault.Evaluative := by
  cases callers with
  | nil => cases h
  | cons caller callers =>
    simp only [actReturn] at h
    split at h
    · rename_i unbound
      cases h
      exact mild_bindResult _ unbound
    · cases h

theorem failure_of_actTerminator {frame : Frame} (same : frame.block = c.frame.block)
    (h : M.actTerminator w frame c.callers (M.terminatorAt c.frame.block) =
      .finished (.error fault) v) : M.Failure c fault := by
  cases ends : M.terminatorAt c.frame.block with
  | none =>
    rw [ends] at h
    cases h
    exact same ▸ .unterminated ends
  | some t =>
    rw [ends] at h
    cases t with
    | br target => exact failure_of_jump same ends (by simp [Terminator.successors]) h
    | unreachable =>
      cases h
      exact .unreachable ends
    | condBr cond thenBlock elseBlock =>
      simp only [actTerminator] at h
      split at h
      · rename_i failed
        cases h
        exact .value (mild_boolOperand cond _ failed)
      · rename_i b _
        refine failure_of_jump same ends ?_ h
        cases b <;> simp [Terminator.successors]
    | ret result =>
      cases result with
      | none => exact .value (evaluative_of_actReturn h)
      | some value =>
        simp only [actTerminator] at h
        split at h
        · rename_i failed
          cases h
          exact .value (mild_operand value _ failed)
        · exact .value (evaluative_of_actReturn h)

theorem failure_of_perform {i : Inst} {rest : List Inst} {memory : Memory}
    (next : c.frame.rest = i :: rest)
    (h : M.perform i c.frame.values c.world.memory = (.error fault, memory)) :
    M.Failure c fault := by
  cases i with
  | alloca dst ty =>
    simp only [perform] at h
    split at h
    · rename_i full
      cases h
      exact .full next full
    · cases h
  | store value address =>
    simp only [perform] at h
    split at h
    · rename_i failed
      cases h
      exact .value (mild_storeTarget _ value address _ failed)
    · cases h
  | _ => exact .value (mild_evaluate c.world.memory _ fault (Prod.mk.inj h).1)

/-- An action that fails does so for one of the reasons. -/
theorem failure_of_act (h : M.act c = .finished (.error fault) v) : M.Failure c fault := by
  obtain ⟨⟨memory, steps, host⟩, ⟨block, rest, vs, mark⟩, callers⟩ := c
  cases rest with
  | nil => exact failure_of_actTerminator rfl h
  | cons i rest =>
    by_cases call : ∃ dst g args, i = .call dst g args
    · obtain ⟨dst, g, args, rfl⟩ := call
      exact failure_of_actCall rfl h
    · rw [act_of_notCall fun dst g args same => call ⟨dst, g, args, same⟩] at h
      split at h
      · rename_i failed
        cases h
        exact failure_of_perform rfl failed
      · cases h

end Machine

end Decaf.Execution
