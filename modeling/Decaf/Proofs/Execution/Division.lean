import Mathlib.Logic.Basic
import Decaf.Proofs.Execution.Advances
import Decaf.Proofs.Execution.Compiled

/-!
# Division

Quotient and remainder of a division that truncates toward zero are determined by three conditions:
they make up the dividend, the remainder is smaller than the divisor, and it is zero or has the
sign of the dividend. A division and a remainder that are carried out give such a pair, and fail
only where none fits into 32 bits.
-/

namespace Decaf.Execution

open IR

/-- The quotient and the remainder of a division that truncates toward zero. -/
structure Truncates (a b q r : Int) : Prop where
  law : a = q * b + r
  small : r.natAbs < b.natAbs
  sign : r = 0 ∨ r.sign = a.sign

section Integers

variable {a b : Int32}

theorem truncates_tdiv (a : Int) {b : Int} (nonzero : b ≠ 0) :
    Truncates a b (a.tdiv b) (a.tmod b) where
  law := by rw [Int.add_comm, Int.tmod_add_tdiv_mul]
  small := by
    rw [Int.natAbs_tmod]
    exact Nat.mod_lt _ (Int.natAbs_pos.2 nonzero)
  sign := by
    by_cases divides : b ∣ a
    · exact .inl (Int.tmod_eq_zero_of_dvd divides)
    · exact .inr (by rw [Int.sign_tmod, if_neg divides])

/-- The quotient fits unless it is that of the least integer by -1. -/
theorem toInt_div (possible : Divides a b) : (a / b).toInt = a.toInt.tdiv b.toInt := by
  by_cases least : a = Int32.minValue
  · exact Int32.toInt_div_of_ne_right a b fun negated => possible.2 ⟨least, negated⟩
  · exact Int32.toInt_div_of_ne_left a b least

theorem Divides.truncates (possible : Divides a b) :
    Truncates a.toInt b.toInt (a / b).toInt (a % b).toInt := by
  have nonzero : b.toInt ≠ 0 := fun zero => possible.1 (Int32.toInt_inj.1 zero)
  rw [toInt_div possible, Int32.toInt_mod]
  exact truncates_tdiv a.toInt nonzero

theorem not_divides_iff : ¬ Divides a b ↔ b = 0 ∨ a = Int32.minValue ∧ b = -1 := by
  rw [Divides, not_and_or, not_ne_iff, not_not]

end Integers

/-- The configuration in which an instruction comes before everything that is next. -/
def Config.before {σ : Type} (c : Config σ) (i : Inst) : Config σ :=
  { c with frame := { c.frame with rest := i :: c.frame.rest } }

namespace Machine

variable {σ : Type} {M : Machine σ} {c : Config σ} {dst lhs rhs : ValueId}

/-- An operation is carried out on the values of its operands. -/
theorem act_binary (op : BinOp) {l r : Value} (left : operand M.module c.frame.values lhs = .ok l)
    (right : operand M.module c.frame.values rhs = .ok r) :
    M.act (c.before (.binary dst op lhs rhs)) = match binary op l r with
      | .error fault => .finished (.error fault) c.world.tick
      | .ok x => .running (c.proceed c.world.memory c.frame.rest (c.frame.values.set dst x)) := by
  obtain ⟨⟨memory, steps, host⟩, ⟨block, rest, values, mark⟩, callers⟩ := c
  dsimp only at left right
  rw [Config.before, act_of_notCall fun d g args same => by cases same]
  simp only [perform, evaluate, left, right, bind, Except.bind]
  cases binary op l r <;> rfl

variable {a b : Int32} (left : operand M.module c.frame.values lhs = .ok (.int a))
  (right : operand M.module c.frame.values rhs = .ok (.int b))

include left right

/-- Where there is a quotient, division goes on with it and the remainder with the remainder. -/
theorem act_of_divides (dst : ValueId) (possible : Divides a b) :
    M.act (c.before (.binary dst .sdiv lhs rhs)) = .running
      (c.proceed c.world.memory c.frame.rest (c.frame.values.set dst (.int (a / b)))) ∧
    M.act (c.before (.binary dst .srem lhs rhs)) = .running
      (c.proceed c.world.memory c.frame.rest (c.frame.values.set dst (.int (a % b)))) := by
  constructor
  all_goals
    rw [act_binary _ left right, binary, intBinary, if_pos possible]

theorem act_of_not_divides (impossible : ¬ Divides a b) {op : BinOp}
    (divides : op ∈ [.sdiv, .srem]) :
    M.act (c.before (.binary dst op lhs rhs)) =
      .finished (.error .divisionByZero) c.world.tick := by
  rw [act_binary op left right]
  simp only [List.mem_cons, List.not_mem_nil, or_false] at divides
  rcases divides with rfl | rfl
  all_goals
    rw [binary, intBinary, if_neg impossible]

/-- A division or a remainder that is carried out reports a division by zero exactly if the divisor
is zero or the least integer is divided by -1. Otherwise the two give the quotient and the
remainder of a division that truncates toward zero. -/
theorem act_division :
    (∀ op ∈ [BinOp.sdiv, .srem],
      M.act (c.before (.binary dst op lhs rhs)) = .finished (.error .divisionByZero) c.world.tick ↔
        b = 0 ∨ a = Int32.minValue ∧ b = -1) ∧
    (¬ (b = 0 ∨ a = Int32.minValue ∧ b = -1) → ∃ q r : Int32,
      Truncates a.toInt b.toInt q.toInt r.toInt ∧
      M.act (c.before (.binary dst .sdiv lhs rhs)) = .running
        (c.proceed c.world.memory c.frame.rest (c.frame.values.set dst (.int q))) ∧
      M.act (c.before (.binary dst .srem lhs rhs)) = .running
        (c.proceed c.world.memory c.frame.rest (c.frame.values.set dst (.int r)))) := by
  rw [← not_divides_iff, not_not]
  refine ⟨fun op divides => ⟨fun failed possible => ?_, fun impossible =>
    act_of_not_divides left right impossible divides⟩, fun possible =>
    ⟨a / b, a % b, possible.truncates, act_of_divides left right dst possible⟩⟩
  obtain ⟨quotient, remainder⟩ := act_of_divides left right dst possible
  simp only [List.mem_cons, List.not_mem_nil, or_false] at divides
  rcases divides with rfl | rfl
  · cases quotient.symm.trans failed
  · cases remainder.symm.trans failed

end Machine

/-- Two functions, of which one returns the quotient of its parameters and the other one the
remainder. -/
def dividing : List AnyCommand :=
  [⟨_, .declareFunction "div" .i32 [(some "a", .i32), (some "b", .i32)]⟩,
    ⟨_, .appendBlock ⟨0⟩ "entry"⟩, ⟨_, .positionAtEnd ⟨0⟩⟩, ⟨_, .binary .sdiv ⟨0⟩ ⟨1⟩ "q"⟩,
    ⟨_, .terminate (.ret (some ⟨2⟩))⟩,
    ⟨_, .declareFunction "rem" .i32 [(some "a", .i32), (some "b", .i32)]⟩,
    ⟨_, .appendBlock ⟨1⟩ "entry"⟩, ⟨_, .positionAtEnd ⟨1⟩⟩, ⟨_, .binary .srem ⟨3⟩ ⟨4⟩ "r"⟩,
    ⟨_, .terminate (.ret (some ⟨5⟩))⟩]

/-- Called with -7 and 2, they have a quotient and a remainder. -/
theorem dividing_truncates :
    let M : Machine Unit := ⟨(Builder.empty.performAll dividing).module, {}, silent⟩
    let values := Values.ofParams [⟨some "a", .i32, ⟨0⟩⟩, ⟨some "b", .i32, ⟨1⟩⟩] [.int (-7), .int 2]
    let c : Config Unit := ⟨M.start (), ⟨⟨0⟩, [], values, 0⟩, []⟩
    ∃ q r : Int32, Truncates (-7) 2 q.toInt r.toInt ∧
      M.act (c.before (.binary ⟨2⟩ .sdiv ⟨0⟩ ⟨1⟩)) =
        .running (c.proceed c.world.memory [] (values.set ⟨2⟩ (.int q))) ∧
      M.act (c.before (.binary ⟨2⟩ .srem ⟨0⟩ ⟨1⟩)) =
        .running (c.proceed c.world.memory [] (values.set ⟨2⟩ (.int r))) := by
  intro M values c
  have left : operand M.module c.frame.values ⟨0⟩ = .ok (.int (-7)) := by rfl
  have right : operand M.module c.frame.values ⟨1⟩ = .ok (.int 2) := by rfl
  exact (Machine.act_division left right).2 (by decide)

/-- The least integer divided by -1 is reported as a division by zero, though -1 is not zero and
with quotients that wrap there would be one, with remainder zero. -/
theorem dividing_least :
    let M : Machine Unit := ⟨(Builder.empty.performAll dividing).module, {}, silent⟩
    let args := [Value.int Int32.minValue, .int (-1)]
    (-1 : Int32) ≠ 0 ∧ Int32.minValue = Int32.minValue * -1 + 0 ∧
      (M.run "div" args (M.start ())).1 = .error .divisionByZero ∧
      (M.run "rem" args (M.start ())).1 = .error .divisionByZero := by
  refine ⟨by decide, by decide, ?_, ?_⟩
  · rfl
  · rfl

end Decaf.Execution
