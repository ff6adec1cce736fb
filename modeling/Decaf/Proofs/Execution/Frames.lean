import Decaf.Execution.Step
import Decaf.Proofs.Execution.Regions

/-!
# Calls in progress

What is known about a call of a finished function while the machine is at some instruction
of a block: the values on which the block relies and the ones defined since are there, every
slot reserved so far has its region, and an element address that was just computed points
where its index says.
-/

namespace Decaf.Execution

open IR

/-- The value is there, and with `typed` of the type that the module records. -/
def Values.Has (typed : Prop) (m : Module) (vs : Values) (v : ValueId) : Prop :=
  ∃ x, vs.get? v = some x ∧ (typed → x.ty = m.typeOf v)

/-- The address is that of the element `n` of an array, computed by the last instruction. -/
def Addresses (m : Module) (vs : Values) (a base index : ValueId) (n : Int32) : Prop :=
  ∃ g name, m.value? base = some ⟨.ptr, .global g, name⟩ ∧ intOperand m vs index = .ok n ∧
    vs.get? a = some (.pointer ((Pointer.start g.index).advance n.toInt))

/-- The slots given first are reserved and the instructions `pre` of the block are done. -/
structure Active (typed : Prop) (m : Module) (p : Plan) (memory : Memory) (mark : Nat)
    (b : BlockId) (vs : Values) (slots : List (ValueId × IR.Ty)) (pre : List Inst) : Prop where
  owned : m.functionOf? b = some p.function
  reached : b = p.entry ∨ ∃ q, m.functionOf? q = some p.function ∧ b ∈ m.successorsOf q
  values : ∀ v ∈ p.avail b ++ defined pre, vs.Has typed m v
  slots : ∀ i s, slots[i]? = some s → vs.get? s.1 = some (.pointer (.start (mark + i))) ∧
    memory.Region typed (mark + i) 1 s.2
  element : ∀ a ty base index, pre.getLast? = some (.elementPtr a ty base index) →
    ∃ n, Addresses m vs a base index n

/-- An access outside of an array, through the address that was just computed. -/
def Overruns (m : Module) (vs : Values) (pre : List Inst) (a : ValueId) (offset : Int)
    (length : Nat) : Prop :=
  ∃ ty base index n, pre.getLast? = some (.elementPtr a ty base index) ∧
    m.IsGlobal base (.array ty length) ∧ intOperand m vs index = .ok n ∧ offset = n.toInt

section Operands

variable {typed : Prop} {m : Module} {p : Plan} {vs : Values} {v : ValueId}

/-- A value that is neither a constant nor a global is looked up. -/
theorem operand_of_owner? {f : FunctionId} (owner : m.owner? v = some f) {x : Value}
    (h : vs.get? v = some x) : operand m vs v = .ok x := by
  unfold Module.owner? at owner
  unfold operand
  cases hv : m.value? v with
  | none => simp [hv] at owner
  | some info =>
    obtain ⟨ty, origin, name⟩ := info
    cases origin with
    | const c => simp [hv] at owner
    | global g => simp [hv] at owner
    | param f i => simp [h]
    | inst b => simp [h]

theorem operand_global {g : GlobalId} {name : Option String}
    (h : m.value? v = some ⟨.ptr, .global g, name⟩) :
    operand m vs v = .ok (.pointer (.start g.index)) := by
  simp [operand, h]

/-- Every usable operand has a value. -/
theorem operand_of_usable {there : List ValueId} (usable : m.Usable p there v)
    (has : ∀ u ∈ there, vs.Has typed m u) :
    ∃ x, operand m vs v = .ok x ∧ (typed → x.ty = m.typeOf v) := by
  rcases usable with ⟨⟨ty, origin, name⟩, hv, ⟨c, rfl, type⟩ | ⟨g, rfl, type⟩⟩ | ⟨mem, owner⟩
  · refine ⟨.ofConst c, by simp [operand, hv], fun _ => ?_⟩
    rw [Module.typeOf_of_value? hv, Value.ty_ofConst]
    exact type.symm
  · refine ⟨.pointer (.start g.index), by simp [operand, hv], fun _ => ?_⟩
    rw [Module.typeOf_of_value? hv]
    exact type.symm
  · obtain ⟨x, hx, type⟩ := has v mem
    exact ⟨x, operand_of_owner? owner hx, type⟩

theorem pointerOperand_of_operand {q : Pointer} (h : operand m vs v = .ok (.pointer q)) :
    pointerOperand m vs v = .ok q := by
  simp [pointerOperand, h, bind, Except.bind]

/-- An operand that is set to something else does not matter to the others. -/
theorem operand_set_of_ne {w : ValueId} (apart : v ≠ w) (x : Value) :
    operand m (vs.set w x) v = operand m vs v := by
  simp only [operand, Values.get?_set, apart, if_false]

theorem intOperand_set_of_ne {w : ValueId} (apart : v ≠ w) (x : Value) :
    intOperand m (vs.set w x) v = intOperand m vs v := by
  simp only [intOperand, operand_set_of_ne apart]

end Operands

namespace Active

variable {typed : Prop} {m : Module} {p : Plan} {memory memory' : Memory} {mark : Nat}
  {b : BlockId} {vs : Values} {slots : List (ValueId × IR.Ty)} {pre : List Inst}

theorem operand (h : Active typed m p memory mark b vs slots pre) {v : ValueId}
    (usable : m.Usable p (p.avail b ++ defined pre) v) :
    ∃ x, Execution.operand m vs v = .ok x ∧ (typed → x.ty = m.typeOf v) :=
  operand_of_usable usable h.values

/-- Memory may change as long as the regions of the slots are kept. -/
theorem keeps (h : Active typed m p memory mark b vs slots pre)
    (keeps : memory.Keeps typed memory' (mark + slots.length)) :
    Active typed m p memory' mark b vs slots pre :=
  { h with
    slots := fun i s hs => by
      obtain ⟨held, region⟩ := h.slots i s hs
      have := (List.getElem?_eq_some_iff.1 hs).1
      exact ⟨held, keeps _ _ _ (by omega) region⟩ }

/-- An instruction that defines no value leaves all as it is. -/
theorem skip (h : Active typed m p memory mark b vs slots pre) {i : Inst}
    (plain : i.defined? = none) : Active typed m p memory mark b vs slots (pre ++ [i]) :=
  { h with
    values := by
      rw [defined_append]
      simpa [defined, plain] using h.values
    element := fun a ty base index last => by
      rw [List.getLast?_concat] at last
      obtain rfl := Option.some.inj last
      cases plain }

/-- The value of an instruction is set. It is not a slot, so the slots stay. -/
theorem define (h : Active typed m p memory mark b vs slots pre) {i : Inst} {dst : ValueId}
    {ty : IR.Ty} {x : Value} (sub : ∀ s ∈ slots, s ∈ m.slotsOf p.entry)
    (defines : m.Defines p b dst ty) (type : typed → x.ty = ty) (dst? : i.defined? = some dst)
    (element : ∀ a ty base index, i = .elementPtr a ty base index →
      ∃ n, Addresses m (vs.set dst x) a base index n) :
    Active typed m p memory mark b (vs.set dst x) slots (pre ++ [i]) where
  owned := h.owned
  reached := h.reached
  values v hv := by
    rw [Values.Has, Values.get?_set]
    split
    · rename_i same
      subst same
      obtain ⟨⟨name, value⟩, -⟩ := defines
      exact ⟨x, rfl, fun t => (type t).trans (Module.typeOf_of_value? value).symm⟩
    · rename_i other
      refine h.values v ?_
      rw [defined_append, ← List.append_assoc] at hv
      rcases List.mem_append.1 hv with old | new
      · exact old
      · simp only [defined, List.filterMap_cons, dst?, List.filterMap_nil] at new
        exact absurd (List.mem_singleton.1 new) other
  slots i s hs := by
    obtain ⟨held, region⟩ := h.slots i s hs
    refine ⟨?_, region⟩
    have apart : s.1 ≠ dst := by
      rintro rfl
      exact defines.2 s.2 (sub s (List.mem_of_getElem? hs))
    rw [Values.get?_set, if_neg apart, held]
  element a ty base index last := by
    rw [List.getLast?_concat] at last
    exact element a ty base index (Option.some.inj last)

/-- Where an instruction may store and load: in a region of the right type, and if the offset
is outside of it, the address is that of an array element. -/
theorem address (h : Active typed m p memory mark b vs (m.slotsOf p.entry) pre)
    (body : m.Body typed p) (covers : memory.Covers typed m) {post : List Inst}
    (code : m.codeOf b = pre ++ post) {a : ValueId} {ty : IR.Ty} (isAddress : m.IsAddress p pre a ty) :
    ∃ region offset length, pointerOperand m vs a = .ok ⟨some region, offset⟩ ∧
      memory.Region typed region length ty ∧
      (¬ (0 ≤ offset ∧ offset < length) → Overruns m vs pre a offset length) := by
  rcases isAddress with (slot | ⟨c, -, g, name, G, value, hG, kind⟩) | ⟨base, index, last⟩
  · obtain ⟨i, hi⟩ := List.getElem?_of_mem slot
    obtain ⟨held, region⟩ := h.slots i _ hi
    obtain ⟨-, name, value⟩ := body.slots _ slot
    have owner : m.owner? a = some p.function := by
      simp only [Module.owner?, value]
      exact body.entry_owned
    refine ⟨_, 0, 1, pointerOperand_of_operand (operand_of_owner? owner held), region, ?_⟩
    exact fun outside => absurd ⟨Int.le_refl 0, by decide⟩ outside
  · have region := covers.regions g.index G hG
    rw [kind] at region
    refine ⟨_, 0, 1, pointerOperand_of_operand (operand_global value), region, ?_⟩
    exact fun outside => absurd ⟨Int.le_refl 0, by decide⟩ outside
  · obtain ⟨n, g, name, value, hn, held⟩ := h.element a ty base index last
    obtain ⟨before, rfl⟩ := List.getLast?_eq_some_iff.1 last
    rcases body.insts b h.owned before _ post (by simpa using code) with ok | phi
    · obtain ⟨⟨⟨_, dst⟩, -⟩, -, ⟨length, isGlobal⟩, -⟩ := ok
      obtain ⟨g', name', G, value', hG, kind⟩ := isGlobal
      rw [value] at value'
      cases value'
      have region := covers.regions g.index G hG
      rw [kind] at region
      have owner : m.owner? a = some p.function := by
        simp [Module.owner?, dst, h.owned]
      refine ⟨_, _, length, pointerOperand_of_operand (operand_of_owner? owner held), region,
        fun _ => ⟨ty, base, index, n, last, ⟨g, name, G, value, hG, kind⟩, hn, ?_⟩⟩
      simp [Pointer.start]
    · obtain ⟨_, _, other, -⟩ := phi
      cases other

end Active

end Decaf.Execution
