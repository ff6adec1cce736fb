import Mathlib.Data.List.Forall2
import Decaf.Proofs.Execution.Allotment
import Decaf.Proofs.Execution.Control
import Decaf.Proofs.Generation.Soundness

/-!
# Calls begin with their allocas

All allocas of a finished function stand at the start of its entry, and control never goes
back there. So a call reserves the slots of its function one by one, in their order, with its
first actions, and does nothing else before it has them all and reserves nothing afterwards
(`Fills`). Each action of the machine preserves this for all calls in progress, and a call that
waits for another one has all of its slots.
-/

namespace Decaf

open IR

namespace IR.Module

/-- The values of the allocas of a function, in the order of its blocks. -/
def allocasOf (m : Module) (f : FunctionId) : List ValueId :=
  (m.blocksOf f).flatMap fun b => defined ((m.instsOf b).filter Inst.isAlloca)

theorem defined_allocas (slots : List (ValueId × Ty)) :
    defined (slots.map fun s => .alloca s.1 s.2) = slots.map Prod.fst := by
  induction slots with
  | nil => rfl
  | cons s slots ih => exact congrArg (s.1 :: ·) ih

variable {typed : Prop} {m : Module} {p : Plan}

theorem OrderedAt.defined_allocas {b : BlockId} (order : m.OrderedAt b) :
    defined ((m.instsOf b).filter Inst.isAlloca) = (m.slotsOf b).map Prod.fst := by
  have slots : ((m.slotsOf b).map fun s => Inst.alloca s.1 s.2).filter Inst.isAlloca =
      (m.slotsOf b).map fun s => .alloca s.1 s.2 := by
    rw [List.filter_eq_self]
    intro i hi
    obtain ⟨s, -, rfl⟩ := List.mem_map.1 hi
    rfl
  have code : (m.codeOf b).filter Inst.isAlloca = [] := by
    rw [List.filter_eq_nil_iff]
    intro i hi
    simp [isAlloca_of_mem_codeOf hi]
  rw [instsOf_eq order, List.filter_append, slots, code, List.append_nil, Module.defined_allocas]

/-- All allocas of the function are in its entry. -/
theorem Body.allocasOf_eq (body : m.Body typed p) :
    m.allocasOf p.function = (m.slotsOf p.entry).map Prod.fst := by
  obtain ⟨F, hF, -, first, nodup, -⟩ := body.declared
  have blocks : m.blocksOf p.function = F.blocks.toList := by simp [blocksOf, hF]
  have own {b : BlockId} (hb : b ∈ F.blocks.toList) : m.functionOf? b = some p.function :=
    (body.owned b).1 (blocks ▸ hb)
  rw [allocasOf, blocks]
  rw [Function.entry?, ← Array.getElem?_toList] at first
  cases listed : F.blocks.toList with
  | nil =>
    rw [listed] at first
    cases first
  | cons b bs =>
    rw [listed] at first nodup own
    obtain rfl : b = p.entry := Option.some.inj first
    have others : bs.flatMap (fun b => defined ((m.instsOf b).filter Inst.isAlloca)) = [] := by
      rw [List.flatMap_eq_nil_iff]
      intro b hb
      have owned := own (List.mem_cons_of_mem _ hb)
      have inner : b ≠ p.entry := by
        rintro rfl
        exact (List.nodup_cons.1 nodup).1 hb
      rw [(body.order b owned).defined_allocas, body.noSlots b owned inner, List.map_nil]
    rw [List.flatMap_cons, others, List.append_nil,
      (body.order p.entry body.entry_owned).defined_allocas]

end IR.Module

namespace Execution

variable {σ : Type}

/-- Control that enters a block has its slots before it, and then code without allocas. -/
theorem bodyOf_eq {m : Module} {b : BlockId} {data : IR.Block} (there : m.block? b = some data)
    (order : m.OrderedAt b) : ∃ post,
      bodyOf data = (m.slotsOf b).map (fun s => .alloca s.1 s.2) ++ post ∧
      ∀ i ∈ post, i.isAlloca = false := by
  have insts : data.insts.toList = m.instsOf b := by simp [Module.instsOf, there]
  refine ⟨(m.codeOf b).filter (!·.isPhi), ?_, fun i hi =>
    Module.isAlloca_of_mem_codeOf (List.mem_filter.1 hi).1⟩
  have slots : ((m.slotsOf b).map fun s => Inst.alloca s.1 s.2).filter (!·.isPhi) =
      (m.slotsOf b).map fun s => .alloca s.1 s.2 := by
    rw [List.filter_eq_self]
    intro i hi
    obtain ⟨s, -, rfl⟩ := List.mem_map.1 hi
    rfl
  rw [bodyOf, insts, Module.instsOf_eq order, List.filter_append, slots]

/-- The call has reserved a slot with each of its actions until it had all of them, and the
allocas that it has not come to are those at which it is, and no others. -/
structure Fills (m : Module) (frame : Frame) (a : Activity) : Prop where
  finished : ∃ p, p.function = a.function ∧ m.Finished False p
  owned : m.functionOf? frame.block = some a.function
  slots : a.slots.map (·.value) = (m.allocasOf a.function).take a.actions
  rest : ∃ ahead post, frame.rest = ahead ++ post ∧
    defined ahead = (m.allocasOf a.function).drop a.actions ∧
    (∀ i ∈ ahead, i.isAlloca = true) ∧ ∀ i ∈ post, i.isAlloca = false

namespace Fills

variable {m : Module} {block : BlockId} {rest : List Inst} {i : Inst} {vs vs' : Values}
  {mark : Nat} {frame : Frame} {a : Activity}

theorem length_slots (h : Fills m frame a) :
    a.slots.length = min a.actions (m.allocasOf a.function).length := by
  simpa using congrArg List.length h.slots

/-- The values of the call do not matter. -/
theorem withValues (h : Fills m frame a) : Fills m { frame with values := vs } a :=
  ⟨h.finished, h.owned, h.slots, h.rest⟩

/-- Where the call is at an alloca it has come to the next of its slots. -/
theorem alloca {dst : ValueId} {ty : IR.Ty} (vs' : Values) (region : Nat)
    (h : Fills m ⟨block, .alloca dst ty :: rest, vs, mark⟩ a) :
    a.actions < (m.allocasOf a.function).length ∧
      Fills m ⟨block, rest, vs', mark⟩
        ⟨a.function, a.slots ++ [⟨dst, region⟩], a.actions + 1⟩ := by
  obtain ⟨ahead, post, split, left, allocas, others⟩ := h.rest
  cases ahead with
  | nil =>
    obtain rfl : _ = post := split
    cases others _ List.mem_cons_self
  | cons i ahead =>
    obtain ⟨rfl, rfl⟩ := List.cons.inj split
    replace left : dst :: defined ahead = (m.allocasOf a.function).drop a.actions := left
    have next : (m.allocasOf a.function)[a.actions]? = some dst := by
      rw [← List.head?_drop, ← left, List.head?_cons]
    refine ⟨(List.getElem?_eq_some_iff.1 next).1, h.finished, h.owned, ?_, ahead, post, rfl, ?_,
      fun i hi => allocas i (List.mem_cons_of_mem _ hi), others⟩
    · rw [List.map_append, h.slots, List.take_add_one, next]
      rfl
    · rw [← List.tail_drop, ← left, List.tail_cons]

/-- Where the call is elsewhere it has all of its slots. -/
theorem complete (h : Fills m frame a)
    (other : ∀ dst ty rest, frame.rest ≠ .alloca dst ty :: rest) :
    (m.allocasOf a.function).length ≤ a.actions ∧ ∀ i ∈ frame.rest, i.isAlloca = false := by
  obtain ⟨ahead, post, split, left, allocas, others⟩ := h.rest
  cases ahead with
  | nil => exact ⟨List.drop_eq_nil_iff.1 left.symm, split ▸ others⟩
  | cons i ahead =>
    have isAlloca := allocas i List.mem_cons_self
    cases i with
    | alloca dst ty => exact absurd split (other dst ty _)
    | _ => cases isAlloca

/-- The call is at an alloca as long as it lacks slots. -/
theorem next_alloca (h : Fills m frame a) :
    (∃ dst ty rest, frame.rest = .alloca dst ty :: rest) ↔
      a.actions < (m.allocasOf a.function).length := by
  constructor
  · rintro ⟨dst, ty, rest, next⟩
    obtain ⟨block, _, vs, mark⟩ := frame
    cases next
    exact (h.alloca vs 0).1
  · intro lacks
    by_contra other
    have all := (h.complete fun dst ty rest same => other ⟨dst, ty, rest, same⟩).1
    exact Nat.not_lt.2 all lacks

/-- A call that has all of its slots goes on anywhere in its function where no alloca is. -/
theorem onward (h : Fills m frame a) (all : (m.allocasOf a.function).length ≤ a.actions)
    (owned : m.functionOf? block = some a.function) (plain : ∀ i ∈ rest, i.isAlloca = false) :
    Fills m ⟨block, rest, vs, mark⟩ { a with actions := a.actions + 1 } where
  finished := h.finished
  owned := owned
  slots := by
    rw [h.slots, List.take_of_length_le all, List.take_of_length_le (Nat.le_succ_of_le all)]
  rest := ⟨[], rest, rfl, (List.drop_eq_nil_of_le (Nat.le_succ_of_le all)).symm,
    fun i hi => absurd hi List.not_mem_nil, plain⟩

/-- Past an instruction that is not an alloca. -/
theorem past (vs' : Values) (h : Fills m ⟨block, i :: rest, vs, mark⟩ a)
    (other : i.isAlloca = false) : (m.allocasOf a.function).length ≤ a.actions ∧
      Fills m ⟨block, rest, vs', mark⟩ { a with actions := a.actions + 1 } := by
  obtain ⟨all, plain⟩ := h.complete fun dst ty rest same => by
    cases same
    cases other
  exact ⟨all, h.onward all h.owned fun i hi => plain i (List.mem_cons_of_mem _ hi)⟩

/-- Control goes to other blocks than the entry, and they have no slots. -/
theorem jump {t : Terminator} {target : BlockId} (h : Fills m ⟨block, [], vs, mark⟩ a)
    (ends : (m.block? block).bind (·.terminator) = some t) (leads : target ∈ t.successors)
    (entered : Frame.enter ⟨block, [], vs, mark⟩ m (some block) target = .ok frame) :
    Fills m frame { a with actions := a.actions + 1 } := by
  obtain ⟨p, function, finished⟩ := h.finished
  obtain ⟨data, vs', there, -, rfl⟩ := Frame.enter_eq_ok entered
  have body := finished.body
  have owned : m.functionOf? block = some p.function := function ▸ h.owned
  have edge : target ∈ m.successorsOf block := Module.mem_successorsOf.2 ⟨t, ends, leads⟩
  -- no edge leads back to the entry
  obtain ⟨inside, inner, -⟩ := body.leads owned edge
  obtain ⟨post, split, plain⟩ := bodyOf_eq there (body.order target inside)
  rw [body.noSlots target inside inner, List.map_nil, List.nil_append] at split
  have all := (h.complete fun _ _ _ same => by cases same).1
  exact h.onward all (function ▸ inside) (split ▸ plain)

end Fills

/-- A call begins before its first slot. -/
theorem fills_entered {M : Machine σ} (complete : Complete False M.module) {w : World σ}
    {depth : Nat} {f : FunctionId} {args : List Value} {frame : Frame}
    (h : M.invoke w depth f args = .ok (.entered frame)) : Fills M.module frame ⟨f, [], 0⟩ := by
  obtain ⟨F, hF, -, ⟨-, _, _, -, other⟩ | ⟨entry, frame', first, start, same⟩⟩ := M.invoke_eq_ok h
  · cases other
  · cases same
    obtain ⟨-, none | ⟨p, rfl, finished⟩⟩ := complete f F hF
    · rw [none] at first
      cases first
    · have body := finished.body
      obtain ⟨F', hF', -, first', -⟩ := body.declared
      rw [hF] at hF'
      cases hF'
      rw [first] at first'
      cases first'
      obtain ⟨data, vs, there, -, rfl⟩ := Frame.enter_eq_ok start
      obtain ⟨post, split, plain⟩ := bodyOf_eq there (body.order _ body.entry_owned)
      refine ⟨⟨p, rfl, finished⟩, body.entry_owned, rfl, _, post, split, ?_, ?_, plain⟩
      · rw [Module.defined_allocas, List.drop_zero, body.allocasOf_eq]
      · intro i hi
        obtain ⟨s, -, rfl⟩ := List.mem_map.1 hi
        rfl

/-- The call in progress fills its frame, and those that wait for it have all of their slots. -/
def Config.Fills (m : Module) (c : Config σ) : List Activity → Prop
  | [] => False
  | a :: waiting => Execution.Fills m c.frame a ∧
    List.Forall₂ (fun caller b => Execution.Fills m caller.frame b ∧
      (m.allocasOf b.function).length ≤ b.actions) c.callers waiting

theorem Config.Fills.of_waiting {m : Module} {c : Config σ} {a : Activity}
    {waiting : List Activity} (h : c.Fills m (a :: waiting)) :
    ∀ b ∈ waiting, (m.allocasOf b.function).length ≤ b.actions ∧
      ∃ frame, Execution.Fills m frame b := by
  obtain ⟨-, below⟩ := h
  generalize c.callers = callers at below
  induction below with
  | nil => exact fun b hb => absurd hb List.not_mem_nil
  | cons first _ ih => exact List.forall_mem_cons.2 ⟨⟨first.2, _, first.1⟩, ih⟩

theorem Config.Fills.of_mem {m : Module} {c : Config σ} {calls : List Activity}
    (h : c.Fills m calls) {b : Activity} (hb : b ∈ calls) :
    ∃ frame, Execution.Fills m frame b := by
  cases hb with
  | head => exact ⟨_, h.1⟩
  | tail _ later => exact (h.of_waiting b later).2

namespace Machine

variable {M : Machine σ} {f : FunctionId} {args : List Value} {w : World σ} {c next : Config σ}
  {calls : List Activity}

/-- One action takes the calls on in their prologues. -/
theorem Action.fills (complete : Complete False M.module) (action : M.Action c next)
    (h : c.Fills M.module calls) : next.Fills M.module (c.allot next calls) := by
  cases calls with
  | nil => exact h.elim
  | cons a waiting =>
    obtain ⟨here, below⟩ := h
    cases action with
    | @plain _ _ _ _ _ i _ _ _ _ _ other performed =>
      cases isAlloca : i.isAlloca with
      | true =>
        cases i with
        | alloca dst ty =>
          rw [Config.allot_alloca]
          exact ⟨(here.alloca _ _).2, below⟩
        | _ => cases isAlloca
      | false =>
        rw [Config.allot_stay fun dst ty rest same => by
          cases same
          cases isAlloca]
        exact ⟨(here.past _ isAlloca).2, below⟩
    | answer operands answered bound =>
      rw [Config.allot_stay (by simp)]
      exact ⟨(here.past _ rfl).2, below⟩
    | enter operands entered =>
      rw [Config.allot_enter]
      -- a call is not an alloca, so the caller is past its prologue
      obtain ⟨all, past⟩ := here.past _ rfl
      exact ⟨fills_entered complete entered, .cons ⟨past, Nat.le_succ_of_le all⟩ below⟩
    | jump ends leads entered =>
      rw [Config.allot_stay (by simp)]
      exact ⟨here.jump ends leads entered, below⟩
    | ret ends returns bound =>
      rw [Config.allot_return]
      cases below with
      | cons first below => exact ⟨first.1.withValues, below⟩

/-- At every moment each call has reserved the slots that its actions were for. -/
theorem Allotted.fills (complete : Complete False M.module) (h : M.Allotted f args w c calls) :
    c.Fills M.module calls := by
  induction h with
  | start entered => exact ⟨fills_entered complete entered, .nil⟩
  | act _ _ running ih => exact (M.action_of_act running).fills complete ih

/-- Each call in progress began at a moment of the run, with the memory that was there. -/
theorem Allotted.started (h : M.Allotted f args w c calls) :
    List.Forall₂ (fun mark (a : Activity) => ∃ c₀ waiting,
      M.Allotted f args w c₀ (⟨a.function, [], 0⟩ :: waiting) ∧ c₀.world.memory.mark = mark)
      c.marks calls := by
  induction h with
  | @start frame entered =>
    exact .cons ⟨_, [], .start entered, (invoke_entered entered).2.symm⟩ .nil
  | @act c next calls allotted left running ih =>
    have later := Allotted.act allotted left running
    have action := M.action_of_act running
    revert ih
    generalize marks : c.marks = before
    rintro (_ | @⟨_, a, _, waiting, first, below⟩)
    · cases marks
    · rcases action.allot_cases a waiting with ⟨dst, -, same, -, allot⟩ | ⟨same, -, allot⟩ |
        ⟨g, -, more, top, allot⟩ | ⟨mark, less, -, allot⟩
      · rw [allot, same, marks]
        exact .cons first below
      · rw [allot, same, marks]
        exact .cons first below
      · rw [allot] at later ⊢
        rw [more, marks]
        exact .cons ⟨_, _, later, top⟩ (.cons first below)
      · rw [less] at marks
        cases marks
        rw [allot]
        exact below

end Machine

end Execution

end Decaf
