import Decaf.Proofs.Execution.Unlimited
import Decaf.Proofs.Execution.Actions

/-!
# Unlimited actions

What a machine that lacks nothing does next, for each kind of instruction and at the end of a
block.
-/

namespace Decaf.Execution

open IR

variable {σ : Type}

/-- The configuration after an instruction other than a call. -/
def Config.proceed (c : Config σ) (memory : Memory) (rest : List Inst) (values : Values) :
    Config σ :=
  ⟨⟨memory, c.world.steps + 1, c.world.host⟩, ⟨c.frame.block, rest, values, c.frame.mark⟩,
    c.callers⟩

/-- The world after a step that changes nothing in it. -/
def World.tick (w : World σ) : World σ :=
  { w with steps := w.steps + 1 }

namespace Machine

variable {M : Machine σ} {c : Config σ} {rest : List Inst}

theorem after_one (M : Machine σ) (c : Config σ) : M.after 1 c = M.advance c := by
  simp only [after]
  cases M.advance c <;> rfl

theorem advance_evaluate {i : Inst} (next : c.frame.rest = i :: rest)
    (notAlloca : i.isAlloca = false) (notStore : ∀ v a, i ≠ .store v a)
    (notCall : ∀ d g args, i ≠ .call d g args) :
    M.advance c = match evaluate M.module c.frame.values c.world.memory i with
      | .error fault => .finished (.error fault) c.world.tick
      | .ok values => .running (c.proceed c.world.memory rest values) := by
  obtain ⟨⟨memory, steps, host⟩, ⟨block, rest', values, mark⟩, callers⟩ := c
  obtain rfl : rest' = i :: rest := next
  have performed (N : Machine σ) :
      N.perform i values memory = (evaluate N.module values memory i, memory) := by
    cases i with
    | alloca dst ty => cases notAlloca
    | store v a => exact absurd rfl (notStore v a)
    | _ => rfl
  rw [advance, act_of_notCall notCall, performed, module_within]
  cases evaluate M.module values memory i <;> rfl

theorem advance_store {v a : ValueId} (next : c.frame.rest = .store v a :: rest) :
    M.advance c = match storeTarget M.module c.frame.values c.world.memory v a with
      | .error fault => .finished (.error fault) c.world.tick
      | .ok (x, cell) => .running (c.proceed (c.world.memory.set cell x) rest c.frame.values) := by
  obtain ⟨⟨memory, steps, host⟩, ⟨block, rest', values, mark⟩, callers⟩ := c
  obtain rfl : rest' = .store v a :: rest := next
  simp only [advance, act, perform, module_within]
  cases storeTarget M.module values memory v a <;> rfl

theorem advance_alloca {dst : ValueId} {ty : IR.Ty} (next : c.frame.rest = .alloca dst ty :: rest) :
    M.advance c = .running (c.proceed (c.world.memory.allocate #[Value.zero ty]) rest
      (c.frame.values.set dst (.pointer (.start c.world.memory.mark)))) := by
  obtain ⟨⟨memory, steps, host⟩, ⟨block, rest', values, mark⟩, callers⟩ := c
  obtain rfl : rest' = .alloca dst ty :: rest := next
  have room := (M.ample_roomy ⟨⟨memory, steps, host⟩,
    ⟨block, .alloca dst ty :: rest, values, mark⟩, callers⟩).slots
  simp only [advance, act, perform]
  rw [if_neg (Nat.not_le.2 (by exact room))]
  rfl

theorem advance_end (last : c.frame.rest = []) :
    M.advance c = M.actTerminator c.world.tick c.frame c.callers
      (M.module.terminator? c.frame.block) := by
  obtain ⟨⟨memory, steps, host⟩, ⟨block, rest', values, mark⟩, callers⟩ := c
  obtain rfl : rest' = [] := last
  rfl

section Calls

variable {dst : Option ValueId} {f : FunctionId} {args : List ValueId} {xs : List Value}
  {F : Function} (next : c.frame.rest = .call dst f args :: rest)
  (operands : args.mapM (operand M.module c.frame.values) = .ok xs)
  (hF : M.module.function? f = some F) (arity : F.params.length = xs.length)

include next operands hF arity

theorem advance_bodiless (entry : F.entry? = none) :
    M.advance c = match M.host.answer c.world.host ⟨F.name, xs, c.world.memory⟩ with
      | none => .finished (.error (.unboundExtern F.name)) c.world.tick
      | some (result, host) =>
        match bindResult (M.calleeName f) dst result c.frame.values with
        | .error fault => .finished (.error fault) { c.world.tick with host }
        | .ok values => .running
            { c.proceed c.world.memory rest values with
              world := { c.world.tick with host } } := by
  obtain ⟨⟨memory, steps, host⟩, ⟨block, rest', values, mark⟩, callers⟩ := c
  obtain rfl : rest' = .call dst f args :: rest := next
  dsimp only at operands
  simp only [advance, act, actCall, module_within, operands, bind, Except.bind]
  rw [invoke_bodiless (M := M.within (M.roomy _)) hF arity entry]
  simp only [host_within]
  cases M.host.answer host ⟨F.name, xs, memory⟩ with
  | none => rfl
  | some reply =>
    dsimp only [Option.elim]
    have name : (M.within (M.roomy ⟨⟨memory, steps, host⟩,
      ⟨block, .call dst f args :: rest, values, mark⟩, callers⟩)).calleeName f = M.calleeName f := rfl
    rw [name]
    cases bindResult (M.calleeName f) dst reply.1 values <;> rfl

theorem advance_enter {entry : BlockId} (body : F.entry? = some entry) {callee : Frame}
    (entered : Frame.enter ⟨entry, [], .ofParams F.params xs, c.world.memory.mark⟩ M.module none
      entry = .ok callee) :
    M.advance c = .running ⟨c.world.tick, callee,
      ⟨{ c.frame with rest := rest }, dst, M.calleeName f⟩ :: c.callers⟩ := by
  obtain ⟨⟨memory, steps, host⟩, ⟨block, rest', values, mark⟩, callers⟩ := c
  obtain rfl : rest' = .call dst f args :: rest := next
  dsimp only at operands entered
  have room := (M.ample_roomy ⟨⟨memory, steps, host⟩,
    ⟨block, .call dst f args :: rest, values, mark⟩, callers⟩).calls
  simp only [advance, act, actCall, module_within, operands, bind, Except.bind]
  rw [invoke_body (M := M.within (M.roomy _)) hF arity body, if_neg (Nat.not_le.2 (by exact room))]
  simp only [module_within, entered]
  rfl

end Calls

end Machine

end Decaf.Execution
