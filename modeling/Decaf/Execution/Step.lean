import Std.Data.TreeMap
import Decaf.Execution.Arithmetic
import Decaf.Execution.Memory

/-!
# The machine

A configuration of the machine is what one moment of a run consists of: memory, the
number of steps taken, the state of the host, the call in progress and the calls that
wait for it. One action carries out the next instruction of the call in progress, or the
terminator when no instruction is left, and counts as one step. Phis are not steps: they
take their values when control enters their block, all at once. The host answers calls
of functions without a body; what it answers may depend on everything it was asked.

Limits and steps are natural numbers. A run passes the limit of steps by one step at most, so
that a count of 64 bits is the same while the limit and the number of runs add up to less
than 2⁶⁴.
-/

namespace Decaf.Execution

open IR

structure Limits where
  /-- Instructions and terminators carried out, over all runs. -/
  steps : Nat := 1000000
  /-- Calls of functions with a body in progress at one time. -/
  callDepth : Nat := 256
  /-- Stack slots in use at one time, over all calls in progress. -/
  stackSlots : Nat := 1048576
  deriving DecidableEq, Repr

/-- A call of a function without a body, as the host sees it. -/
structure HostCall where
  callee : String
  args : List Value
  memory : Memory

namespace HostCall

def int? (c : HostCall) (index : Nat) : Option Int32 :=
  c.args[index]?.bind Value.int?

/-- The text to which an argument points. -/
def text? (c : HostCall) (index : Nat) : Option String :=
  (c.args[index]?.bind Value.pointer?).bind c.memory.text?

end HostCall

/-- A host with states in `σ`. It refuses a function for which it has no binding;
otherwise it gives a result, which may be none, and its next state. -/
structure Host (σ : Type) where
  answer : σ → HostCall → Option (Option Value × σ)

/-- What stays fixed while a module runs. -/
structure Machine (σ : Type) where
  module : Module
  limits : Limits
  host : Host σ

/-- What one run leaves for the next. -/
structure World (σ : Type) where
  memory : Memory
  steps : Nat
  host : σ

/-- The values that the parameters and instructions of a call have so far. -/
abbrev Values := Std.TreeMap Nat Value

/-- A call in progress: its block, the instructions of the block still to be carried
out, its values, and the memory mark at which it began. -/
structure Frame where
  block : BlockId
  rest : List Inst
  values : Values
  mark : Nat

/-- A call that waits for one it made, and the value that the result will be. -/
structure Caller where
  frame : Frame
  dst : Option ValueId
  callee : String

structure Config (σ : Type) where
  world : World σ
  frame : Frame
  callers : List Caller

/-- A run ends with a result, which may be none, or with a fault. -/
abbrev Outcome := Except Fault (Option Value)

inductive Progress (σ : Type) where
  | running (c : Config σ)
  | finished (outcome : Outcome) (world : World σ)

namespace Values

def get? (vs : Values) (v : ValueId) : Option Value :=
  Std.TreeMap.get? vs v.index

def set (vs : Values) (v : ValueId) (x : Value) : Values :=
  Std.TreeMap.insert vs v.index x

def ofParams : List Param → List Value → Values
  | param :: params, arg :: args => (ofParams params args).set param.value arg
  | _, _ => ∅

theorem get?_set (vs : Values) (v w : ValueId) (x : Value) :
    (vs.set v x).get? w = if w = v then some x else vs.get? w := by
  simp only [get?, set, Std.TreeMap.get?_eq_getElem?, Std.TreeMap.getElem?_insert]
  by_cases h : w = v
  · subst h
    simp
  · have apart : compare v.index w.index ≠ .eq := by
      intro same
      have := Std.LawfulEqOrd.eq_of_compare same
      exact h (by rw [ValueId.mk.injEq, this])
    simp [h, apart]

end Values

/-- The phis of a block, wherever in the block they stand. -/
def phisOf (block : Block) : List Inst :=
  block.insts.toList.filter Inst.isPhi

/-- The instructions of a block that are carried out one by one. -/
def bodyOf (block : Block) : List Inst :=
  block.insts.toList.filter (!·.isPhi)

section Operands

variable (m : Module) (vs : Values)

def operand (v : ValueId) : Except Fault Value :=
  match m.value? v with
  | some ⟨_, .const c, _⟩ => .ok (.ofConst c)
  | some ⟨_, .global g, _⟩ => .ok (.pointer (.start g.index))
  | _ =>
    match vs.get? v with
    | some x => .ok x
    | none => .error .undefinedValue

def intOperand (v : ValueId) : Except Fault Int32 := do
  match ← operand m vs v with
  | .int n => .ok n
  | x => .error (.type (.operand .i32 x))

def boolOperand (v : ValueId) : Except Fault Bool := do
  match ← operand m vs v with
  | .bool b => .ok b
  | x => .error (.type (.operand .i1 x))

def pointerOperand (v : ValueId) : Except Fault Pointer := do
  match ← operand m vs v with
  | .pointer p => .ok p
  | x => .error (.type (.operand .ptr x))

/-- The value that a phi takes when control comes from `source`. -/
def incomingValue (source : Option BlockId) (incoming : List (ValueId × BlockId)) :
    Except Fault Value :=
  match incoming.find? fun i => some i.2 = source with
  | some (v, _) => operand m vs v
  | none => .error .missingPhiIncoming

/-- Gives each phi its value. All of them read the values from before. -/
def mergePhis (source : Option BlockId) : List Inst → Values → Except Fault Values
  | .phi dst _ incoming :: rest, merged => do
    let x ← incomingValue m vs source incoming
    mergePhis source rest (merged.set dst x)
  | _ :: rest, merged => mergePhis source rest merged
  | [], merged => .ok merged

/-- The values after an instruction that leaves memory as it is. -/
def evaluate (memory : Memory) : Inst → Except Fault Values
  | .load dst ty address => do
    let p ← pointerOperand m vs address
    let x ← memory.read p
    if x.ty = ty then .ok (vs.set dst x) else .error (.type (.load ty x))
  | .elementPtr dst _ base index => do
    let p ← pointerOperand m vs base
    let n ← intOperand m vs index
    .ok (vs.set dst (.pointer (p.advance n.toInt)))
  | .binary dst op lhs rhs => do
    let l ← operand m vs lhs
    let r ← operand m vs rhs
    let x ← binary op l r
    .ok (vs.set dst x)
  | .unary dst op v => do
    let y ← operand m vs v
    let x ← unary op y
    .ok (vs.set dst x)
  | .zext dst v _ => do
    let b ← boolOperand m vs v
    .ok (vs.set dst (.int (if b then 1 else 0)))
  | _ => .ok vs

/-- The value that a store writes and the cell into which it goes. -/
def storeTarget (memory : Memory) (value address : ValueId) : Except Fault (Value × Cell) := do
  let x ← operand m vs value
  let p ← pointerOperand m vs address
  let c ← memory.locate p
  .ok (x, c)

end Operands

/-- Moves a call to the start of a block. -/
def Frame.enter (f : Frame) (m : Module) (source : Option BlockId) (target : BlockId) :
    Except Fault Frame :=
  match m.block? target with
  | none => .error (.unterminated "")
  | some block => do
    let values ← mergePhis m f.values source (phisOf block) f.values
    .ok ⟨target, bodyOf block, values, f.mark⟩

/-- What a call leads to: the host has answered, or a body begins. -/
inductive Invocation (σ : Type) where
  | answered (result : Option Value) (host : σ)
  | entered (frame : Frame)

namespace Machine

variable {σ : Type} (M : Machine σ)

/-- Calls a function while `depth` calls of functions with a body are in progress. -/
def invoke (w : World σ) (depth : Nat) (f : FunctionId) (args : List Value) :
    Except Fault (Invocation σ) :=
  match M.module.function? f with
  | none => .error (.unknownFunction "")
  | some function =>
    if function.params.length ≠ args.length then
      .error (.arityMismatch function.name function.params.length args.length)
    else
      match function.entry? with
      | none =>
        match M.host.answer w.host ⟨function.name, args, w.memory⟩ with
        | some (result, host) => .ok (.answered result host)
        | none => .error (.unboundExtern function.name)
      | some entry =>
        if M.limits.callDepth ≤ depth then .error (.callDepthExceeded M.limits.callDepth)
        else do
          let start : Frame := ⟨entry, [], .ofParams function.params args, w.memory.mark⟩
          .ok (.entered (← start.enter M.module none entry))

/-- Gives the result of a call to the instruction that made it. -/
def bindResult (callee : String) (dst : Option ValueId) (result : Option Value)
    (vs : Values) : Except Fault Values :=
  match dst, result with
  | none, _ => .ok vs
  | some v, some x => .ok (vs.set v x)
  | some _, none => .error (.type (.noResult callee))

/-- The number of stack slots in use. -/
def slotsInUse (memory : Memory) : Nat :=
  memory.mark - M.module.globals.size

/-- Carries out an instruction other than a call. Memory changes only if there is no
fault. An alloca fails at the limit on slots only, though the numbers of regions may run out
before it, which is a fault as well (`reserve`): no run comes to that where the globals and the
limit on slots are within `Memory.maxRegions` together (`perform_alloca_eq_reserve`). -/
def perform (inst : Inst) (vs : Values) (memory : Memory) : Except Fault Values × Memory :=
  match inst with
  | .alloca dst ty =>
    if M.limits.stackSlots ≤ M.slotsInUse memory then
      (.error (.stackSlotsExceeded M.limits.stackSlots), memory)
    else
      let slot := memory.mark
      (.ok (vs.set dst (.pointer (.start slot))), memory.allocate #[Value.zero ty])
  | .store value address =>
    match storeTarget M.module vs memory value address with
    | .error fault => (.error fault, memory)
    | .ok (x, cell) => (.ok vs, memory.set cell x)
  | inst => (evaluate M.module vs memory inst, memory)

/-- Carries out an alloca where the numbers of regions can run out. The fault is the same as
at the limit on slots. -/
def reserve (dst : ValueId) (ty : IR.Ty) (vs : Values) (memory : Memory) :
    Except Fault Values × Memory :=
  if M.limits.stackSlots ≤ M.slotsInUse memory then
    (.error (.stackSlotsExceeded M.limits.stackSlots), memory)
  else
    match memory.allocate? #[Value.zero ty] with
    | some memory' => (.ok (vs.set dst (.pointer (.start memory.mark))), memory')
    | none => (.error (.stackSlotsExceeded M.limits.stackSlots), memory)

/-- A region without a number lies beyond the limit on slots. -/
theorem perform_alloca_eq_reserve
    (numbered : M.module.globals.size + M.limits.stackSlots ≤ Memory.maxRegions)
    (dst : ValueId) (ty : IR.Ty) (vs : Values) (memory : Memory) :
    M.perform (.alloca dst ty) vs memory = M.reserve dst ty vs memory := by
  simp only [perform, reserve]
  split
  · rfl
  · rename_i room
    have number : memory.mark < Memory.maxRegions := by
      unfold slotsInUse at room
      omega
    rw [Memory.allocate?, if_pos number]

def calleeName (f : FunctionId) : String :=
  ((M.module.function? f).map (·.name)).getD ""

/-- Carries out a call instruction. -/
def actCall (dst : Option ValueId) (f : FunctionId) (args : List ValueId) (w : World σ)
    (frame : Frame) (callers : List Caller) : Progress σ :=
  let invoked := do
    let xs ← args.mapM (operand M.module frame.values)
    M.invoke w (callers.length + 1) f xs
  match invoked with
  | .error fault => .finished (.error fault) w
  | .ok (.answered result host) =>
    let w := { w with host }
    match bindResult (M.calleeName f) dst result frame.values with
    | .error fault => .finished (.error fault) w
    | .ok values => .running ⟨w, { frame with values }, callers⟩
  | .ok (.entered callee) => .running ⟨w, callee, ⟨frame, dst, M.calleeName f⟩ :: callers⟩

/-- Ends the call in progress and hands its result to the call that waits for it. -/
def actReturn (result : Option Value) (w : World σ) (mark : Nat) :
    List Caller → Progress σ
  | [] => .finished (.ok result) { w with memory := w.memory.release mark }
  | caller :: callers =>
    let w := { w with memory := w.memory.release mark }
    match bindResult caller.callee caller.dst result caller.frame.values with
    | .error fault => .finished (.error fault) w
    | .ok values => .running ⟨w, { caller.frame with values }, callers⟩

def jump (w : World σ) (frame : Frame) (callers : List Caller) (target : BlockId) :
    Progress σ :=
  match frame.enter M.module (some frame.block) target with
  | .error fault => .finished (.error fault) w
  | .ok frame => .running ⟨w, frame, callers⟩

def actTerminator (w : World σ) (frame : Frame) (callers : List Caller) :
    Option Terminator → Progress σ
  | none => .finished (.error (.unterminated (M.module.labelOf frame.block))) w
  | some (.br target) => M.jump w frame callers target
  | some (.condBr cond thenBlock elseBlock) =>
    match boolOperand M.module frame.values cond with
    | .error fault => .finished (.error fault) w
    | .ok b => M.jump w frame callers (if b then thenBlock else elseBlock)
  | some (.ret none) => actReturn none w frame.mark callers
  | some (.ret (some v)) =>
    match operand M.module frame.values v with
    | .error fault => .finished (.error fault) w
    | .ok x => actReturn (some x) w frame.mark callers
  | some .unreachable => .finished (.error .unreachable) w

/-- One action, without regard to the limit on steps. -/
def act (c : Config σ) : Progress σ :=
  match c with
  | ⟨⟨memory, steps, host⟩, ⟨block, rest, values, mark⟩, callers⟩ =>
    match rest with
    | .call dst f args :: rest =>
      M.actCall dst f args ⟨memory, steps + 1, host⟩ ⟨block, rest, values, mark⟩ callers
    | inst :: rest =>
      match M.perform inst values memory with
      | (.error fault, memory) => .finished (.error fault) ⟨memory, steps + 1, host⟩
      | (.ok values, memory) =>
        .running ⟨⟨memory, steps + 1, host⟩, ⟨block, rest, values, mark⟩, callers⟩
    | [] =>
      M.actTerminator ⟨memory, steps + 1, host⟩ ⟨block, [], values, mark⟩ callers
        ((M.module.block? block).bind (·.terminator))

/-- Takes at most `remaining` steps. The step after those is counted, not taken. -/
def drive : Nat → Config σ → Outcome × World σ
  | 0, c =>
    (.error (.stepLimitExceeded M.limits.steps), { c.world with steps := c.world.steps + 1 })
  | remaining + 1, c =>
    match M.act c with
    | .finished outcome w => (outcome, w)
    | .running c => drive remaining c

end Machine

end Decaf.Execution
