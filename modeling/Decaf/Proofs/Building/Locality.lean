import Decaf.IR.Check
import Decaf.Proofs.Generation.Soundness

/-!
# What the check of a function reads

The check of a function reads its own blocks, the types and owners of the values they use, the
signatures of the functions they call, and the issues recorded for the function. Where two
modules agree about these, they agree about the result, error and all.
-/

namespace Decaf.IR.Module

/-- The modules agree about all that the check of `f` reads. -/
structure Agrees (m m' : Module) (f : FunctionId) : Prop where
  function : m'.function? f = m.function? f
  issues : m'.checkIssues f = m.checkIssues f
  owner : ∀ c, m'.functionOf? c = some f ↔ m.functionOf? c = some f
  block : ∀ c ∈ m.blocksOf f, m'.block? c = m.block? c
  operand : ∀ c ∈ m.blocksOf f, ∀ i ∈ m.instsOf c, ∀ v ∈ i.operands,
    m'.checkedType f v = m.checkedType f v
  exit : ∀ c ∈ m.blocksOf f, ∀ t, m.terminator? c = some t → ∀ v ∈ t.operands,
    m'.checkedType f v = m.checkedType f v
  source : ∀ c ∈ m.blocksOf f, ∀ dst ty incoming, .phi dst ty incoming ∈ m.instsOf c →
    ∀ i ∈ incoming, m'.labelOf i.2 = m.labelOf i.2
  callee : ∀ c ∈ m.blocksOf f, ∀ dst g args, .call dst g args ∈ m.instsOf c →
    (m'.function? g).map (fun G => (G.name, G.params)) =
      (m.function? g).map fun G => (G.name, G.params)

variable {m m' : Module} {f : FunctionId} {c : BlockId}

theorem forM_congr {ε α : Type} {f g : α → Except ε Unit} {as : List α}
    (same : ∀ a ∈ as, f a = g a) : as.forM f = as.forM g := by
  induction as with
  | nil => rfl
  | cons a as ih =>
    obtain ⟨first, others⟩ := List.forall_mem_cons.1 same
    show (do f a; as.forM f) = do g a; as.forM g
    rw [first, ih others]

theorem expectType_congr {v : ValueId} (same : m'.checkedType f v = m.checkedType f v)
    (expected : Ty) (role : String) :
    m'.expectType f v expected role = m.expectType f v expected role := by
  rw [expectType, same, expectType]

theorem checkValue_congr {v : ValueId} (same : m'.checkedType f v = m.checkedType f v) :
    m'.checkValue f v = m.checkValue f v := by
  rw [checkValue, same, checkValue]

theorem checkIncoming_congr (before : m'.predecessors f c = m.predecessors f c)
    (label : m'.labelOf c = m.labelOf c) {incoming : List (ValueId × BlockId)}
    (same : ∀ i ∈ incoming, m'.checkedType f i.1 = m.checkedType f i.1 ∧
      m'.labelOf i.2 = m.labelOf i.2) :
    m'.checkIncoming f c incoming = m.checkIncoming f c incoming := by
  induction incoming with
  | nil => rfl
  | cons i rest ih =>
    obtain ⟨v, s⟩ := i
    obtain ⟨⟨value, source⟩, same⟩ := List.forall_mem_cons.1 same
    rw [checkIncoming, checkIncoming, checkValue_congr value, before, ih same, label, source]

theorem checkArgs_congr {callee : String} {params : List Param} {args : List ValueId}
    (same : ∀ v ∈ args, m'.checkedType f v = m.checkedType f v) :
    m'.checkArgs f callee params args = m.checkArgs f callee params args := by
  induction params generalizing args with
  | nil => cases args <;> rfl
  | cons param params ih =>
    cases args with
    | nil => rfl
    | cons v args =>
      obtain ⟨value, same⟩ := List.forall_mem_cons.1 same
      rw [checkArgs, checkArgs, value, ih same]

theorem checkCall_congr {g : FunctionId} {args : List ValueId}
    (callee : (m'.function? g).map (fun G => (G.name, G.params)) =
      (m.function? g).map fun G => (G.name, G.params))
    (same : ∀ v ∈ args, m'.checkedType f v = m.checkedType f v) :
    m'.checkCall f g args = m.checkCall f g args := by
  unfold checkCall
  cases there : m.function? g with
  | none =>
    rw [there, Option.map_none, Option.map_eq_none_iff] at callee
    rw [callee]
  | some G =>
    rw [there, Option.map_some, Option.map_eq_some_iff] at callee
    obtain ⟨G', there', both⟩ := callee
    obtain ⟨name, params⟩ := Prod.mk.inj both
    simp only [there', name, params, checkArgs_congr same]

theorem checkOperands_congr {i : Inst}
    (operands : ∀ v ∈ i.operands, m'.checkedType f v = m.checkedType f v)
    (callee : ∀ dst g args, i = .call dst g args →
      (m'.function? g).map (fun G => (G.name, G.params)) =
        (m.function? g).map fun G => (G.name, G.params)) :
    m'.checkOperands f i = m.checkOperands f i := by
  cases i with
  | alloca dst ty => rfl
  | phi dst ty incoming => rfl
  | load dst ty address => exact expectType_congr (operands _ (by simp [Inst.operands])) ..
  | store value address =>
    rw [checkOperands, checkOperands, checkValue_congr (operands value (by simp [Inst.operands])),
      expectType_congr (operands address (by simp [Inst.operands]))]
  | elementPtr dst ty base index =>
    rw [checkOperands, checkOperands, expectType_congr (operands base (by simp [Inst.operands])),
      expectType_congr (operands index (by simp [Inst.operands]))]
  | binary dst op lhs rhs =>
    rw [checkOperands, checkOperands, operands lhs (by simp [Inst.operands]),
      operands rhs (by simp [Inst.operands])]
  | unary dst op operand => exact checkValue_congr (operands _ (by simp [Inst.operands]))
  | zext dst value ty =>
    rw [checkOperands, checkOperands, operands value (by simp [Inst.operands])]
  | call dst g args => exact checkCall_congr (callee dst g args rfl) operands

theorem checkInsts_congr (before : m'.predecessors f c = m.predecessors f c)
    (label : m'.labelOf c = m.labelOf c) {insts : List Inst} {started : Bool}
    (operands : ∀ i ∈ insts, ∀ v ∈ i.operands, m'.checkedType f v = m.checkedType f v)
    (sources : ∀ dst ty incoming, .phi dst ty incoming ∈ insts →
      ∀ i ∈ incoming, m'.labelOf i.2 = m.labelOf i.2)
    (callees : ∀ dst g args, .call dst g args ∈ insts →
      (m'.function? g).map (fun G => (G.name, G.params)) =
        (m.function? g).map fun G => (G.name, G.params)) :
    m'.checkInsts f c started insts = m.checkInsts f c started insts := by
  induction insts generalizing started with
  | nil => rfl
  | cons i rest ih =>
    obtain ⟨first, others⟩ := List.forall_mem_cons.1 operands
    have next (started : Bool) := @ih started others
      (fun dst ty incoming h => sources dst ty incoming (List.mem_cons_of_mem _ h))
      (fun dst g args h => callees dst g args (List.mem_cons_of_mem _ h))
    by_cases plain : i.isPhi = true
    · cases i with
      | phi dst ty incoming =>
        have incomingSame : m'.checkIncoming f c incoming = m.checkIncoming f c incoming :=
          checkIncoming_congr before label fun i hi =>
            ⟨first i.1 (List.mem_map_of_mem hi), sources dst ty incoming (by simp) i hi⟩
        rw [checkInsts, checkInsts, incomingSame, next, label]
      | _ => cases plain
    · have operandsSame : m'.checkOperands f i = m.checkOperands f i :=
        checkOperands_congr first fun dst g args same => callees dst g args (by simp [same])
      have unfolded (n : Module) : n.checkInsts f c started (i :: rest) = (do
          n.checkOperands f i
          n.checkInsts f c true rest) := by
        cases i with
        | phi dst ty incoming => exact absurd rfl plain
        | _ => rfl
      rw [unfolded, unfolded, operandsSame, next]

theorem checkTerminator_congr {ret : Ty} {t : Terminator}
    (same : ∀ v ∈ t.operands, m'.checkedType f v = m.checkedType f v) :
    m'.checkTerminator f ret t = m.checkTerminator f ret t := by
  cases t with
  | br target => rfl
  | condBr cond thenBlock elseBlock =>
    exact expectType_congr (same cond (by simp [Terminator.operands])) ..
  | ret value =>
    cases value with
    | none => rfl
    | some v => rw [checkTerminator, checkTerminator, same v (by simp [Terminator.operands])]
  | unreachable => rfl

namespace Agrees

variable (agrees : m.Agrees m' f)

include agrees

theorem blocksOf : m'.blocksOf f = m.blocksOf f := by
  rw [Module.blocksOf, agrees.function, Module.blocksOf]

theorem predecessors (c : BlockId) : m'.predecessors f c = m.predecessors f c := by
  rw [Module.predecessors, agrees.blocksOf, Module.predecessors]
  refine List.filter_congr fun q hq => ?_
  rw [successorsOf, agrees.block q hq, successorsOf]

theorem checkBlock (ret : Ty) (here : c ∈ m.blocksOf f) :
    m'.checkBlock f ret c = m.checkBlock f ret c := by
  rw [Module.checkBlock, agrees.block c here, Module.checkBlock]
  cases there : m.block? c with
  | none => rfl
  | some data =>
    have label : m'.labelOf c = m.labelOf c := by
      rw [labelOf, agrees.block c here, labelOf]
    have insts : m.instsOf c = data.insts.toList := by
      simp [instsOf, there]
    have ends : m.terminator? c = data.terminator := terminator?_of_block? there
    cases closing : data.terminator with
    | none => simp only [closing]
    | some t =>
      have inside : (t.successors.all fun s => m'.functionOf? s = some f) =
          t.successors.all fun s => m.functionOf? s = some f := by
        congr 1
        funext s
        exact decide_eq_decide.2 (agrees.owner s)
      have code : m'.checkInsts f c false data.insts.toList =
          m.checkInsts f c false data.insts.toList := by
        rw [← insts]
        exact checkInsts_congr (agrees.predecessors c) label (agrees.operand c here)
          (agrees.source c here) (agrees.callee c here)
      have leaving : m'.checkTerminator f ret t = m.checkTerminator f ret t :=
        checkTerminator_congr (agrees.exit c here t (ends.trans closing))
      simp only [closing, code, inside, leaving]

theorem checkFunction : m'.checkFunction f = m.checkFunction f := by
  rw [Module.checkFunction, agrees.function, Module.checkFunction]
  cases there : m.function? f with
  | none => rfl
  | some F =>
    have listed : m.blocksOf f = F.blocks.toList := by
      simp [Module.blocksOf, there]
    have blocks : F.blocks.toList.forM (m'.checkBlock f F.ret) =
        F.blocks.toList.forM (m.checkBlock f F.ret) :=
      forM_congr fun c hc => agrees.checkBlock F.ret (by rwa [listed])
    simp only [checkBody, agrees.issues, blocks]

end Agrees

end Decaf.IR.Module
