import Decaf.Proofs.Execution.Actions
import Decaf.Proofs.Execution.Runs
import Decaf.Proofs.Execution.Unlimited

/-!
# Strings stay as they are

Compiled code stores into its slots and into the fields, and no other instruction changes the
cells of a region. So the strings that a module brings along are the same after every run.
-/

namespace Decaf.Execution

open IR

/-- The strings of the module are in one memory as in the other. -/
def KeepsStrings (m : Module) (memory memory' : Memory) : Prop :=
  ∀ (i : Nat) G bytes, m.globals[i]? = some G → G.kind = .string bytes →
    memory'.regions[i]? = memory.regions[i]?

section

variable {m : Module} {memory memory' memory'' : Memory}

theorem KeepsStrings.refl (m : Module) (memory : Memory) : KeepsStrings m memory memory :=
  fun _ _ _ _ _ => rfl

theorem KeepsStrings.trans (h : KeepsStrings m memory memory')
    (h' : KeepsStrings m memory' memory'') : KeepsStrings m memory memory'' :=
  fun i G bytes hG kind => (h' i G bytes hG kind).trans (h i G bytes hG kind)

theorem keepsStrings_release {mark : Nat} (above : m.globals.size ≤ mark) :
    KeepsStrings m memory (memory.release mark) := by
  intro i G _ hG _
  have low := (Array.getElem?_eq_some_iff.1 hG).1
  rw [Memory.regions_release, if_pos (Nat.lt_of_lt_of_le low above)]

theorem keepsStrings_allocate (above : m.globals.size ≤ memory.mark) (cells : Array Value) :
    KeepsStrings m memory (memory.allocate cells) := by
  intro i G _ hG _
  have low : i < memory.regions.size :=
    Nat.lt_of_lt_of_le (Array.getElem?_eq_some_iff.1 hG).1 above
  show (memory.regions.push cells)[i]? = _
  rw [Array.getElem?_push, if_neg (Nat.ne_of_lt low)]

end

section

variable {σ : Type} {typed : Prop} {M : Machine σ} {p : Plan}

/-- An address in compiled code is not that of a string. -/
theorem Active.not_string {m : Module} {memory : Memory} {mark : Nat} {b : BlockId} {vs : Values}
    {pre post : List Inst} (h : Active typed m p memory mark b vs (m.slotsOf p.entry) pre)
    (body : m.Body typed p) (above : m.globals.size ≤ mark) (code : m.codeOf b = pre ++ post)
    {a : ValueId} {ty : IR.Ty} (isAddress : m.IsAddress p pre a ty) {q : Pointer}
    (value : pointerOperand m vs a = .ok q) {region : Nat} (there : q.region = some region)
    {G : Global} (hG : m.globals[region]? = some G) (bytes : List UInt8) :
    G.kind ≠ .string bytes := by
  have known {q' : Pointer} (operand : Execution.operand m vs a = .ok (.pointer q')) : q = q' := by
    rw [pointerOperand_of_operand operand] at value
    exact (Except.ok.inj value).symm
  -- the address is that of a slot, of a scalar field or of an element of an array
  rcases isAddress with (slot | ⟨c, -, g, name, G', address, hG', kind⟩) | ⟨base, index, last⟩
  · obtain ⟨i, hi⟩ := List.getElem?_of_mem slot
    obtain ⟨held, -⟩ := h.slots i _ hi
    obtain ⟨-, name, slotValue⟩ := body.slots _ slot
    have owner : m.owner? a = some p.function := by
      simp only [Module.owner?, slotValue]
      exact body.entry_owned
    obtain rfl := known (operand_of_owner? owner held)
    obtain rfl := Option.some.inj there
    have low := (Array.getElem?_eq_some_iff.1 hG).1
    omega
  · obtain rfl := known (operand_global address)
    obtain rfl := Option.some.inj there
    rw [hG'] at hG
    cases hG
    rw [kind]
    exact fun other => by cases other
  · obtain ⟨n, g, name, address, -, held⟩ := h.element a ty base index last
    obtain ⟨before, rfl⟩ := List.getLast?_eq_some_iff.1 last
    rcases body.insts b h.owned before _ post (by simpa using code) with ok | phi
    · obtain ⟨⟨⟨_, dst⟩, -⟩, -, ⟨length, g', name', G', address', hG', kind⟩, -⟩ := ok
      rw [address] at address'
      cases address'
      have owner : m.owner? a = some p.function := by
        simp [Module.owner?, dst, h.owned]
      obtain rfl := known (operand_of_owner? owner held)
      obtain rfl := Option.some.inj there
      rw [hG'] at hG
      cases hG
      rw [kind]
      exact fun other => by cases other
    · obtain ⟨_, _, other, -⟩ := phi
      cases other

/-- A store that succeeds does not write to a string. -/
theorem keepsStrings_store {m : Module} {memory : Memory} {mark : Nat} {b : BlockId} {vs : Values}
    {pre post : List Inst} (h : Active typed m p memory mark b vs (m.slotsOf p.entry) pre)
    (body : m.Body typed p) (above : m.globals.size ≤ mark) {v a : ValueId}
    (code : m.codeOf b = pre ++ .store v a :: post) {x : Value} {cell : Cell}
    (target : storeTarget m vs memory v a = .ok (x, cell)) :
    KeepsStrings m memory (memory.set cell x) := by
  have ok : m.InstOk typed p b pre (.store v a) := by
    rcases body.insts b h.owned pre _ post code with ok | phi
    · exact ok
    · obtain ⟨_, _, other, -⟩ := phi
      cases other
  obtain ⟨-, ty, isAddress, -⟩ := ok
  obtain ⟨y, -, target⟩ := ok_of_bind target
  obtain ⟨q, value, target⟩ := ok_of_bind target
  obtain ⟨cell', located, target⟩ := ok_of_bind target
  cases target
  have there : q.region = some cell.region := by
    rw [Memory.locate] at located
    split at located
    · cases located
    · rename_i region there
      dsimp only at located
      split at located
      · cases located
        exact there
      · cases located
  intro i G bytes hG kind
  have other : i ≠ cell.region := by
    rintro rfl
    exact h.not_string body above code isAddress value there hG bytes kind
  simp [Memory.set, Array.getElem?_modify, Ne.symm other]

theorem memory_jump (w : World σ) (frame : Frame) (callers : List Caller) (target : BlockId) :
    (M.jump w frame callers target).world.memory = w.memory := by
  simp only [Machine.jump]
  split <;> rfl

theorem memory_actReturn (result : Option Value) (w : World σ) (mark : Nat)
    (callers : List Caller) :
    (Machine.actReturn result w mark callers).world.memory = w.memory.release mark := by
  cases callers with
  | nil => rfl
  | cons caller callers =>
    simp only [Machine.actReturn]
    split <;> rfl

theorem memory_actCall (dst : Option ValueId) (f : FunctionId) (args : List ValueId) (w : World σ)
    (frame : Frame) (callers : List Caller) :
    (M.actCall dst f args w frame callers).world.memory = w.memory := by
  simp only [Machine.actCall]
  split
  · rfl
  · split <;> rfl
  · rfl

/-- Memory at the end of a block is kept or released. -/
theorem memory_actTerminator (w : World σ) (frame : Frame) (callers : List Caller)
    (t : Option Terminator) :
    (M.actTerminator w frame callers t).world.memory = w.memory ∨
      (M.actTerminator w frame callers t).world.memory = w.memory.release frame.mark := by
  unfold Machine.actTerminator
  split
  · exact .inl rfl
  · exact .inl (memory_jump ..)
  · split
    · exact .inl rfl
    · exact .inl (memory_jump ..)
  · exact .inr (memory_actReturn ..)
  · split
    · exact .inl rfl
    · exact .inr (memory_actReturn ..)
  · exact .inl rfl

/-- No action writes to a string. -/
theorem keepsStrings_act {c : Config σ} (safe : Safe typed M.module c) :
    KeepsStrings M.module c.world.memory (M.act c).world.memory := by
  obtain ⟨⟨p, done, todo, pre, post, finished, running, stacked⟩, covers⟩ := safe
  obtain ⟨⟨memory, steps, host⟩, ⟨block, rest, values, mark⟩, callers⟩ := c
  cases rest with
  | nil =>
    show KeepsStrings M.module memory (M.actTerminator ⟨memory, steps + 1, host⟩
      ⟨block, [], values, mark⟩ callers _).world.memory
    rcases memory_actTerminator (M := M) ⟨memory, steps + 1, host⟩ ⟨block, [], values, mark⟩ callers
      ((M.module.block? block).bind (·.terminator)) with same | released
    · rw [same]
      exact .refl _ _
    · rw [released]
      exact keepsStrings_release stacked.mark_le
  | cons i rest =>
    by_cases call : ∃ d g args, i = .call d g args
    · obtain ⟨d, g, args, rfl⟩ := call
      show KeepsStrings M.module memory (M.actCall ..).world.memory
      rw [memory_actCall]
      exact .refl _ _
    · rw [Machine.act_of_notCall fun d g args same => call ⟨d, g, args, same⟩]
      have performed : KeepsStrings M.module memory (M.perform i values memory).2 := by
        cases i with
        | alloca dst ty =>
          simp only [Machine.perform]
          split
          · exact .refl _ _
          · exact keepsStrings_allocate covers.mark _
        | store v a =>
          obtain ⟨rfl, rfl, rfl⟩ := running.of_code rfl rfl
          simp only [Machine.perform]
          split
          · exact .refl _ _
          · rename_i target
            exact keepsStrings_store running.active finished.body stacked.mark_le running.code target
        | _ => exact .refl _ _
      split <;> rename_i same <;> rw [same] at performed <;> exact performed

/-- Up to any moment of a run no string was written to. -/
theorem keepsStrings_moment (ready : M.Ready False) {w : World σ}
    (covers : w.memory.Covers False M.module) {f : FunctionId} {args : List Value} {c : Config σ}
    (moment : M.Moment f args w c) : KeepsStrings M.module w.memory c.world.memory := by
  induction moment with
  | start => exact .refl _ _
  | act moment below running ih =>
    have next := keepsStrings_act (safe_of_moment ready covers False.elim moment)
    rw [running] at next
    exact ih.trans next

/-- No run writes to a string. -/
theorem keepsStrings_call (ready : M.Ready False) {w : World σ} (covers : w.memory.Covers False M.module)
    (f : FunctionId) (args : List Value) :
    KeepsStrings M.module w.memory (M.call f args w).2.memory := by
  have reached {c : Config σ} (moment : M.Moment f args w c) :=
    keepsStrings_moment ready covers moment
  cases result : M.invoke w 0 f args with
  | error fault =>
    simp only [Machine.call, result]
    exact .refl _ _
  | ok invocation =>
    cases invocation with
    | answered x host =>
      simp only [Machine.call, result]
      exact .refl _ _
    | entered frame =>
      obtain ⟨last, v, moment, after, ending⟩ := M.last_moment result
      have before : KeepsStrings M.module w.memory v.memory := by
        rcases ending with ⟨-, -, rfl⟩ | ⟨-, acted⟩
        · exact reached moment
        · have next := keepsStrings_act (safe_of_moment ready covers False.elim moment)
          rw [acted] at next
          exact (reached moment).trans next
      rw [after]
      exact before.trans (keepsStrings_release covers.mark)

end

end Decaf.Execution
