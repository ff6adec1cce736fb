import Decaf.Proofs.Building.Arenas
import Decaf.Proofs.Generation.Soundness

/-!
# What finished functions mention

The blocks of a finished function mention only values, blocks and functions that the module holds.
-/

namespace Decaf.IR.Module

variable {typed : Prop} {m : Module} {p : Plan}

theorem hasValue_of_value? {v : ValueId} {info : ValueInfo} (h : m.value? v = some info) :
    m.HasValue v :=
  (Array.getElem?_eq_some_iff.1 h).1

theorem Local.hasValue {f : FunctionId} {v : ValueId} (h : m.Local f v) : m.HasValue v := by
  rcases h with owner | ⟨info, there, -⟩
  · obtain ⟨info, there⟩ := value?_of_owner? owner
    exact hasValue_of_value? there
  · exact hasValue_of_value? there

theorem Defines.hasValue {b : BlockId} {dst : ValueId} {ty : Ty} (h : m.Defines p b dst ty) :
    m.HasValue dst := by
  obtain ⟨⟨name, there⟩, -⟩ := h
  exact hasValue_of_value? there

/-- What the instructions of a body define is there. -/
theorem Body.hasValue_of_defined (body : m.Body typed p) {b : BlockId}
    (owned : m.functionOf? b = some p.function) {i : Inst} (hi : i ∈ m.instsOf b) {v : ValueId}
    (hv : i.defined? = some v) : m.HasValue v := by
  rw [instsOf_eq (body.order b owned)] at hi
  rcases List.mem_append.1 hi with slot | code
  · obtain ⟨s, hs, rfl⟩ := List.mem_map.1 slot
    obtain rfl : s.1 = v := Option.some.inj hv
    by_cases entry : b = p.entry
    · subst entry
      obtain ⟨-, name, there⟩ := body.slots s hs
      exact hasValue_of_value? there
    · rw [body.noSlots b owned entry] at hs
      cases hs
  · obtain ⟨pre, post, eq⟩ := List.append_of_mem code
    rcases body.insts b owned pre i post eq with ok | ⟨dst, incoming, rfl, -, -, defines, -⟩
    · cases i with
      | alloca | phi => cases ok
      | store => cases hv
      | call dst g args =>
        obtain ⟨F, -, -, -, defines, -⟩ := ok
        exact (defines v hv).2.hasValue
      | load | elementPtr | binary | unary | zext =>
        obtain rfl := Option.some.inj hv
        exact Defines.hasValue ok.1
    · obtain rfl := Option.some.inj hv
      exact defines.hasValue

/-- An instruction mentions what it defines, its operands, the blocks from which control comes,
and the function that it calls. -/
theorem hasInst_of {i : Inst} (defined : ∀ v, i.defined? = some v → m.HasValue v)
    (operands : ∀ v ∈ i.operands, m.HasValue v)
    (sources : ∀ dst ty incoming, i = .phi dst ty incoming → ∀ x ∈ incoming, m.HasBlock x.2)
    (callee : ∀ dst g args, i = .call dst g args → m.HasFunction g) : m.HasInst i := by
  cases i with
  | alloca dst ty => exact defined dst rfl
  | load dst ty address => exact ⟨defined dst rfl, operands address (by simp [Inst.operands])⟩
  | store value address =>
    exact ⟨operands value (by simp [Inst.operands]), operands address (by simp [Inst.operands])⟩
  | elementPtr dst ty base index =>
    exact ⟨defined dst rfl, operands base (by simp [Inst.operands]),
      operands index (by simp [Inst.operands])⟩
  | binary dst op lhs rhs =>
    exact ⟨defined dst rfl, operands lhs (by simp [Inst.operands]),
      operands rhs (by simp [Inst.operands])⟩
  | unary dst op operand => exact ⟨defined dst rfl, operands operand (by simp [Inst.operands])⟩
  | zext dst value ty => exact ⟨defined dst rfl, operands value (by simp [Inst.operands])⟩
  | phi dst ty incoming =>
    exact ⟨defined dst rfl, fun x hx => ⟨operands x.1 (List.mem_map_of_mem hx),
      sources dst ty incoming rfl x hx⟩⟩
  | call dst g args =>
    exact ⟨fun v hv => defined v hv, callee dst g args rfl, operands⟩

/-- The blocks of a finished function mention nothing that is not there. -/
theorem Finished.hasInst (h : m.Finished typed p) {b : BlockId} (hb : b ∈ m.blocksOf p.function)
    {i : Inst} (hi : i ∈ m.instsOf b) : m.HasInst i := by
  have owned := (h.body.owned b).1 hb
  have sound := h.sound
  refine hasInst_of (fun v => h.body.hasValue_of_defined owned hi)
    (fun v hv => (sound.operands b hb i hi v hv).hasValue) ?_ ?_
  · rintro dst ty incoming rfl x hx
    obtain ⟨before, after, split⟩ := List.append_of_mem hi
    obtain ⟨-, -, sources⟩ := sound.phis b hb before dst ty incoming after split
    have source := (mem_predecessors.1 ((sources x.2).1 (List.mem_map_of_mem hx))).1
    exact index_lt_of_functionOf? ((h.body.owned x.2).1 source)
  · rintro dst g args rfl
    obtain ⟨G, hG, -⟩ := sound.arity b hb dst g args hi
    exact (Array.getElem?_eq_some_iff.1 hG).1

theorem Finished.hasTerminator (h : m.Finished typed p) {b : BlockId}
    (hb : b ∈ m.blocksOf p.function) {t : Terminator} (ht : m.terminator? b = some t) :
    m.HasTerminator t := by
  have sound := h.sound
  have held (v : ValueId) (hv : v ∈ t.operands) : m.HasValue v :=
    (sound.exits b hb t ht v hv).hasValue
  have target (s : BlockId) (hs : s ∈ t.successors) : m.HasBlock s := by
    refine index_lt_of_functionOf? (sound.targets b hb s ?_)
    rw [successorsOf_eq, ht]
    exact hs
  cases t with
  | br s => exact target s (by simp [Terminator.successors])
  | condBr cond s s' =>
    exact ⟨held cond (by simp [Terminator.operands]), target s (by simp [Terminator.successors]),
      target s' (by simp [Terminator.successors])⟩
  | ret value => exact fun v hv => held v (by simp [Terminator.operands, hv])
  | unreachable => trivial

end Decaf.IR.Module
