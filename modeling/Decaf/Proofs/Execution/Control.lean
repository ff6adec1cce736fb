import Decaf.Proofs.Execution.Instructions

/-!
# Control flow of the machine

A configuration is safe when the call in progress and every call that waits are as they
should be, one above the other in memory. What an action does to a safe configuration is
shown one kind of action at a time: entering a block, taking a terminator, calling and
returning.
-/

namespace Decaf.Execution

open IR

/-- Every function of the module has a finished body or none at all. -/
def Complete (typed : Prop) (m : Module) : Prop :=
  ∀ f F, m.function? f = some F →
    F.id = f ∧ (F.entry? = none ∨ ∃ p, p.function = f ∧ m.Finished typed p)

/-- A result that a call of a function with the given return type may have. -/
def Results (ret : IR.Ty) (result : Option Value) : Prop :=
  ret ≠ .void → ∃ x, result = some x ∧ x.ty = ret

/-- With `typed` the host answers calls of functions without a body as they were declared. -/
def Faithful {σ : Type} (typed : Prop) (M : Machine σ) : Prop :=
  typed → ∀ f F, M.module.function? f = some F → F.entry? = none →
    ∀ s c result s', c.callee = F.name → M.host.answer s c = some (result, s') →
      Results F.ret result

/-- The call in progress: some slots are reserved and some are still to be, and of the code
of its block the instructions `post` are left. -/
structure Running (typed : Prop) (m : Module) (p : Plan) (memory : Memory) (f : Frame)
    (done todo : List (ValueId × IR.Ty)) (pre post : List Inst) : Prop where
  slots : m.slotsOf p.entry = done ++ todo
  code : m.codeOf f.block = pre ++ post
  rest : f.rest = todo.map (fun s => .alloca s.1 s.2) ++ post
  phase : todo = [] ∨ f.block = p.entry ∧ pre = []
  noPhi : ∀ i ∈ post, i.isPhi = false
  active : Active typed m p memory f.mark f.block f.values done pre
  top : memory.mark = f.mark + done.length

/-- A call that waits for one whose slots begin at `top` and whose result has type `ret`. -/
structure Waits (typed : Prop) (m : Module) (p : Plan) (memory : Memory) (c : Caller)
    (ret : IR.Ty) (top : Nat) : Prop where
  call : ∃ pre g args F, m.codeOf c.frame.block = pre ++ .call c.dst g args :: c.frame.rest ∧
    m.function? g = some F ∧ F.ret = ret ∧
    Active typed m p memory c.frame.mark c.frame.block c.frame.values (m.slotsOf p.entry) pre
  noPhi : ∀ i ∈ c.frame.rest, i.isPhi = false
  top : top = c.frame.mark + (m.slotsOf p.entry).length

/-- The calls that wait, the innermost first. -/
inductive Stacked (typed : Prop) (m : Module) (memory : Memory) :
    IR.Ty → Nat → List Caller → Prop where
  | bottom {ret : IR.Ty} {top : Nat} : m.globals.size ≤ top → Stacked typed m memory ret top []
  | above {p : Plan} {c : Caller} {callers : List Caller} {ret : IR.Ty} {top : Nat} :
      m.Finished typed p → Waits typed m p memory c ret top →
      Stacked typed m memory p.ret c.frame.mark callers →
      Stacked typed m memory ret top (c :: callers)

structure Safe {σ : Type} (typed : Prop) (m : Module) (c : Config σ) : Prop where
  running : ∃ p done todo pre post, m.Finished typed p ∧
    Running typed m p c.world.memory c.frame done todo pre post ∧
    Stacked typed m c.world.memory p.ret c.frame.mark c.callers
  covers : c.world.memory.Covers typed m

section

variable {typed : Prop} {m : Module} {p : Plan} {memory memory' : Memory} {ret : IR.Ty}
  {top : Nat} {callers : List Caller}

theorem Stacked.mark_le (h : Stacked typed m memory ret top callers) :
    m.globals.size ≤ top := by
  induction h with
  | bottom le => exact le
  | above finished waits stacked ih =>
    rw [waits.top]
    omega

/-- Calls that wait do not mind what happens above them. -/
theorem Stacked.keeps (h : Stacked typed m memory ret top callers)
    (keeps : memory.Keeps typed memory' top) : Stacked typed m memory' ret top callers := by
  induction h with
  | bottom le => exact .bottom le
  | above finished waits stacked ih =>
    have below := waits.top
    obtain ⟨pre, g, args, F, code, hF, ret, active⟩ := waits.call
    refine .above finished ⟨⟨pre, g, args, F, code, hF, ret, active.keeps ?_⟩, waits.noPhi,
      below⟩ (ih (keeps.weaken (by omega)))
    exact keeps.weaken (by omega)

namespace Running

variable {f : Frame} {done todo : List (ValueId × IR.Ty)} {pre post : List Inst}

/-- Code comes after the allocas, so by then all slots are reserved. -/
theorem of_code {i : Inst} {rest : List Inst} (h : Running typed m p memory f done todo pre post)
    (next : f.rest = i :: rest) (plain : i.isAlloca = false) :
    todo = [] ∧ done = m.slotsOf p.entry ∧ post = i :: rest := by
  cases todo with
  | nil => exact ⟨rfl, by simpa using h.slots.symm, by simpa [next] using h.rest.symm⟩
  | cons s todo =>
    have := h.rest.symm.trans next
    obtain ⟨rfl, -⟩ := List.cons.inj this
    cases plain

theorem of_end (h : Running typed m p memory f done todo pre post) (next : f.rest = []) :
    todo = [] ∧ done = m.slotsOf p.entry ∧ post = [] := by
  have none := h.rest.symm.trans next
  obtain ⟨todo', post'⟩ := List.append_eq_nil_iff.1 none
  obtain rfl : todo = [] := by simpa using todo'
  exact ⟨rfl, by simpa using h.slots.symm, post'⟩

end Running

/-- The phi with which a block may begin, and the instructions after it. -/
theorem split_code (body : m.Body typed p) {b : BlockId}
    (owned : m.functionOf? b = some p.function) :
    ∃ phis post, m.codeOf b = phis ++ post ∧ (∀ i ∈ post, i.isPhi = false) ∧
      (phis = [] ∨ ∃ i, phis = [i] ∧ m.PhiOk typed p b [] i) := by
  have plain (pre : List Inst) (i : Inst) (post : List Inst)
      (code : m.codeOf b = pre ++ i :: post) (inner : pre ≠ []) : i.isPhi = false := by
    rcases body.insts b owned pre i post code with ok | phi
    · cases i <;> first | rfl | cases ok
    · obtain ⟨-, -, -, start, -⟩ := phi
      exact absurd start inner
  cases hcode : m.codeOf b with
  | nil => exact ⟨[], [], rfl, by simp, .inl rfl⟩
  | cons i post =>
    have others : ∀ j ∈ post, j.isPhi = false := by
      intro j hj
      obtain ⟨before, after, rfl⟩ := List.append_of_mem hj
      exact plain (i :: before) j after (by simp [hcode]) (by simp)
    rcases body.insts b owned [] i post hcode with ok | phi
    · refine ⟨[], i :: post, rfl, fun j hj => ?_, .inl rfl⟩
      rcases List.mem_cons.1 hj with rfl | hj
      · cases j <;> first | rfl | cases ok
      · exact others j hj
    · exact ⟨[i], post, rfl, others, .inr ⟨i, rfl, phi⟩⟩

theorem phisOf_eq {data : IR.Block} {phis post : List Inst} (order : data.Ordered)
    (code : data.code = phis ++ post) (start : ∀ i ∈ phis, i.isPhi = true)
    (noPhi : ∀ i ∈ post, i.isPhi = false) :
    phisOf data = phis ∧ bodyOf data = data.slots.map (fun s => .alloca s.1 s.2) ++ post := by
  have slots : ∀ i ∈ data.slots.map (fun s => Inst.alloca s.1 s.2), i.isPhi = false := by
    intro i hi
    obtain ⟨s, -, rfl⟩ := List.mem_map.1 hi
    rfl
  rw [phisOf, bodyOf, order, code]
  simp only [List.filter_append]
  constructor
  · rw [List.filter_eq_nil_iff.2 (by simpa using slots), List.filter_eq_self.2 start,
      List.filter_eq_nil_iff.2 (by simpa using noPhi)]
    simp
  · rw [List.filter_eq_self.2 (by simpa using slots), List.filter_eq_nil_iff.2 (by simpa using start),
      List.filter_eq_self.2 (by simpa using noPhi)]
    simp

/-- Control goes on to a block that relies on no more than what is there. -/
theorem Active.enter (body : m.Body typed p) {mark : Nat} {q t : BlockId} {vs : Values}
    {slots : List (ValueId × IR.Ty)}
    (h : Active typed m p memory mark q vs slots (m.codeOf q)) (edge : t ∈ m.successorsOf q) :
    Active typed m p memory mark t vs slots [] where
  owned := (body.leads h.owned edge).1
  reached := .inr ⟨q, h.owned, edge⟩
  values v hv := h.values v ((body.leads h.owned edge).2.2 (by simpa using hv))
  slots := h.slots
  element _ _ _ _ last := by cases last

/-- The value that a phi takes when control comes along an edge. -/
theorem incomingValue_of_edge {q : BlockId} {vs : Values} {incoming : List (ValueId × BlockId)}
    (sources : q ∈ incoming.map Prod.snd)
    (usable : ∀ i ∈ incoming, m.Usable p (p.avail i.2 ++ defined (m.codeOf i.2)) i.1 ∧
      (typed → m.typeOf i.1 = .i1))
    (has : ∀ u ∈ p.avail q ++ defined (m.codeOf q), vs.Has typed m u) :
    ∃ x, incomingValue m vs (some q) incoming = .ok x ∧ (typed → x.ty = .i1) := by
  obtain ⟨i, hi, same⟩ := List.mem_map.1 sources
  cases found : incoming.find? fun i => some i.2 = some q with
  | none => exact absurd (by simpa using same) (List.find?_eq_none.1 found i hi)
  | some j =>
    obtain ⟨v, q'⟩ := j
    obtain rfl : q' = q := by simpa using List.find?_some found
    obtain ⟨use, type⟩ := usable _ (List.mem_of_find?_eq_some found)
    obtain ⟨x, hx, xty⟩ := operand_of_usable use has
    refine ⟨x, ?_, fun t => (xty t).trans (type t)⟩
    simp only [incomingValue, found, hx]

/-- Along an edge the next block is entered, and its phi, if it has one, takes its value. -/
theorem running_enter (body : m.Body typed p) {q t : BlockId} {f : Frame}
    (h : Active typed m p memory f.mark q f.values (m.slotsOf p.entry) (m.codeOf q))
    (edge : t ∈ m.successorsOf q) (top : memory.mark = f.mark + (m.slotsOf p.entry).length) :
    ∃ next pre post, f.enter m (some q) t = .ok next ∧ next.mark = f.mark ∧
      Running typed m p memory next (m.slotsOf p.entry) [] pre post := by
  have leads := body.leads h.owned edge
  have entered := h.enter body edge
  obtain ⟨data, hdata, -⟩ := Module.functionOf?_eq_some.1 leads.1
  have order := body.order t leads.1 data hdata
  have codeAt : m.codeOf t = data.code := by simp [Module.codeOf, hdata]
  have noSlots : data.slots = [] := by
    have := body.noSlots t leads.1 leads.2.1
    simpa [Module.slotsOf, hdata] using this
  obtain ⟨phis, post, code, noPhi, start⟩ := split_code body leads.1
  rcases start with rfl | ⟨i, rfl, phi⟩
  · obtain ⟨phis, rest⟩ := phisOf_eq order (codeAt ▸ code) (by simp) noPhi
    refine ⟨⟨t, post, f.values, f.mark⟩, [], post, ?_, rfl, ?_⟩
    · simp [Frame.enter, hdata, phis, rest, noSlots, mergePhis, bind, Except.bind]
    · exact ⟨(List.append_nil _).symm, code, rfl, .inl rfl, noPhi, entered, top⟩
  · obtain ⟨dst, incoming, rfl, -, inner, defines, -, sources, usable⟩ := phi
    obtain ⟨phis, rest⟩ := phisOf_eq order (codeAt ▸ code) (by simp [Inst.isPhi]) noPhi
    obtain ⟨x, hx, type⟩ := incomingValue_of_edge
      ((sources q).2 ⟨h.owned, edge⟩) usable h.values
    refine ⟨⟨t, post, f.values.set dst x, f.mark⟩, [.phi dst .i1 incoming], post, ?_, rfl, ?_⟩
    · simp [Frame.enter, hdata, phis, rest, noSlots, mergePhis, hx, bind, Except.bind]
    · exact ⟨(List.append_nil _).symm, code, rfl, .inl rfl, noPhi,
        entered.define (fun _ mem => mem) defines type rfl fun _ _ _ _ same => (by cases same), top⟩

end

end Decaf.Execution
