import Decaf.Proofs.Meaning.Tracking
import Decaf.Proofs.Generation.Shape

/-!
# Operators on data and on values

The instruction for an operator computes what the operator yields, once both operands are of
one type. Operands of different types are taken as integers first, as far as they are truth
values; if they still differ then, the operator has no meaning for them.
-/

namespace Decaf.Meaning

open IR Execution

/-- What the machine comes to is what evaluation comes to. -/
def Answers (m : Module) (evaluated : Except Stop Datum) (computed : Except Fault Value)
    (ty : IR.Ty) : Prop :=
  match evaluated with
  | .ok d => ∃ x, computed = .ok x ∧ Represents m d x ∧ d.ty.repr = ty
  | .error (.failure f) => computed = .error f.fault
  | .error .mistyped => True
  | .error .meaningless | .error .unfinished => False

section

variable {m : Module}

theorem answers_onIntegers {op : BinaryOp} {bin : BinOp} {hint : String}
    (strategy : op.strategy = .instruction bin hint) (a b : Int32) :
    Answers m (onIntegers op a b) (intBinary bin a b) (bin.resultTy .i32) := by
  cases op <;> cases strategy
  case div =>
    simp only [onIntegers, intBinary]
    split
    · exact ⟨_, rfl, .int _, rfl⟩
    · rfl
  case mod =>
    simp only [onIntegers, intBinary]
    split
    · exact ⟨_, rfl, .int _, rfl⟩
    · rfl
  all_goals exact ⟨_, rfl, by constructor, rfl⟩

/-- On operands of one type. -/
theorem answers_onData {op : BinaryOp} {bin : BinOp} {hint : String}
    (strategy : op.strategy = .instruction bin hint) {l r : Datum} {x y : Value}
    (left : Represents m l x) (right : Represents m r y) (same : l.ty = r.ty) :
    Answers m (onData op l r) (binary bin x y) (bin.resultTy l.ty.repr) := by
  cases left with
  | int a =>
    cases right with
    | int b => exact answers_onIntegers strategy a b
    | bool b => cases same
    | address p => cases same
    | text hG kind => cases same
  | bool a =>
    cases right with
    | int b => cases same
    | bool b =>
      cases op <;> cases strategy <;>
        first | trivial | exact ⟨_, rfl, .bool _, rfl⟩
    | address p => cases same
    | text hG kind => cases same
  | address p =>
    cases right with
    | int b => cases same
    | bool b => cases same
    | address q => trivial
    | text hG kind => trivial
  | text hG kind =>
    cases right with
    | int b => cases same
    | bool b => cases same
    | address q => trivial
    | text hG kind => trivial

/-- Operands of different types are taken as integers. -/
theorem onData_widen {op : BinaryOp} {l r : Datum} (differ : l.ty ≠ r.ty) :
    onData op l r = onData op l.widen r.widen := by
  cases l <;> cases r <;> first | rfl | exact absurd rfl differ

theorem onData_mistyped {op : BinaryOp} {l r : Datum} (differ : l.widen.ty ≠ r.widen.ty) :
    onData op l.widen r.widen = .error .mistyped := by
  cases l <;> cases r <;> first | rfl | exact absurd rfl differ

theorem answers_onDatum (op : UnaryOp) {d : Datum} {x : Value} (represents : Represents m d x) :
    Answers m (onDatum op d) (unary op.instruction x) d.ty.repr := by
  cases op <;> cases represents <;> first | trivial | exact ⟨_, rfl, by constructor, rfl⟩

theorem represents_widen {d : Datum} (notBool : d.ty ≠ .bool) : d.widen = d := by
  cases d <;> first | rfl | exact absurd rfl notBool

/-- Operators other than the connectives evaluate both operands first. -/
theorem binary_of_instruction {op : BinaryOp} {bin : BinOp} {hint : String}
    (strategy : op.strategy = .instruction bin hint) (lhs rhs : Eval Datum) :
    Eval.binary op lhs rhs = (do
      let l ← lhs
      let r ← rhs
      liftM (onData op l r)) := by
  cases op <;> first | rfl | cases strategy

/-- What the left operand has to be for the right one to matter. -/
def asks : Connective → Bool
  | .and => true
  | .or => false

theorem binary_of_connective {op : BinaryOp} {k : Connective}
    (strategy : op.strategy = .connective k) (lhs rhs : Eval Datum) :
    Eval.binary op lhs rhs = (do
      let l ← Eval.truth (← lhs)
      if l = asks k then return .bool (← Eval.truth (← rhs)) else return .bool l) := by
  cases op <;> cases strategy
  all_goals
    simp only [Eval.binary]
    refine bind_congr fun d => bind_congr fun l => ?_
    cases l <;> rfl

theorem branches_asks (k : Connective) (right done : BlockId) (l : Bool) :
    (if l then (k.branches right done).1 else (k.branches right done).2) =
      if l = asks k then right else done := by
  cases k <;> cases l <;> rfl

end

end Decaf.Meaning
