import Decaf.Proofs.Execution.Advances
import Decaf.Proofs.Execution.Compiled
import Decaf.Proofs.Generation.Shape
import Decaf.Proofs.Meaning.Tracking

/-!
# Standing at a place

The machine stands at a place of the code when the call in progress has come there and memory,
the host and the slots of the variables in scope are as the evaluation has them. Each kind of
instruction leads from the place before it to the place after it, and each way of leaving a
block to the start of another one.
-/

namespace Decaf.Meaning

open IR Execution

/-- The values numbered below a bound are as they were. -/
def Kept (n : Nat) (vs vs' : Values) : Prop :=
  ∀ v : ValueId, v.index < n → vs'.get? v = vs.get? v

/-- The operand is a datum, and recorded with its type. -/
structure Carries (m : Module) (vs : Values) (v : ValueId) (d : Datum) : Prop where
  value : ∃ x, operand m vs v = .ok x ∧ Represents m d x
  type : m.typeOf v = d.ty.repr

section Values

variable {m : Module} {n k : Nat} {vs vs' vs'' : Values} {v : ValueId} {d : Datum}

theorem Kept.refl (n : Nat) (vs : Values) : Kept n vs vs :=
  fun _ _ => rfl

theorem Kept.trans (h : Kept n vs vs') (h' : Kept k vs' vs'') (le : n ≤ k) : Kept n vs vs'' :=
  fun v hv => (h' v (Nat.lt_of_lt_of_le hv le)).trans (h v hv)

theorem Kept.set (h : Kept n vs vs') (new : n ≤ v.index) (x : Value) : Kept n vs (vs'.set v x) := by
  intro w hw
  have other : w ≠ v := by
    rintro rfl
    omega
  rw [Values.get?_set, if_neg other, h w hw]

theorem Kept.operand_eq (h : Kept n vs vs') (old : v.index < n) :
    operand m vs' v = operand m vs v := by
  simp only [operand, h v old]

theorem Kept.carries (h : Kept n vs vs') (old : v.index < n) (there : Carries m vs v d) :
    Carries m vs' v d where
  value := by
    rw [h.operand_eq old]
    exact there.value
  type := there.type

end Values

section Entering

variable {typed : Prop} {m : Module} {p : Plan} {memory : Memory} {f : Frame} {q t : BlockId}
  (body : m.Body typed p)
  (h : Active typed m p memory f.mark q f.values (m.slotsOf p.entry) (m.codeOf q))
  (edge : t ∈ m.successorsOf q) (top : memory.mark = f.mark + (m.slotsOf p.entry).length)

include body h edge top

/-- What control finds in a block of which the phis are known. -/
theorem running_enter_of_code {phis post : List Inst} (code : m.codeOf t = phis ++ post)
    (start : ∀ i ∈ phis, i.isPhi = true) (noPhi : ∀ i ∈ post, i.isPhi = false) {vs : Values}
    (merged : mergePhis m f.values (some q) phis f.values = .ok vs) :
    f.enter m (some q) t = .ok ⟨t, post, vs, f.mark⟩ ∧
      Running typed m p memory ⟨t, post, vs, f.mark⟩ (m.slotsOf p.entry) [] phis post := by
  have leads := body.leads h.owned edge
  obtain ⟨data, hdata, -⟩ := Module.functionOf?_eq_some.1 leads.1
  have codeAt : data.code = phis ++ post := by
    rw [← code]
    simp [Module.codeOf, hdata]
  have noSlots : data.slots = [] := by
    have := body.noSlots t leads.1 leads.2.1
    simpa [Module.slotsOf, hdata] using this
  obtain ⟨phisAt, rest⟩ := phisOf_eq (body.order t leads.1 data hdata) codeAt start noPhi
  have entered : f.enter m (some q) t = .ok ⟨t, post, vs, f.mark⟩ := by
    simp [Frame.enter, hdata, phisAt, rest, noSlots, merged, bind, Except.bind]
  obtain ⟨next, pre, post', same, -, running⟩ := running_enter body h edge top
  rw [entered] at same
  cases same
  obtain rfl : post = post' := running.rest
  obtain rfl : phis = pre := List.append_cancel_right (code.symm.trans running.code)
  exact ⟨entered, running⟩

/-- Control enters a block without phis, and nothing changes. -/
theorem running_enter_plain (plain : Shape.Plain m t) :
    f.enter m (some q) t = .ok ⟨t, m.codeOf t, f.values, f.mark⟩ ∧
      Running typed m p memory ⟨t, m.codeOf t, f.values, f.mark⟩ (m.slotsOf p.entry) [] []
        (m.codeOf t) :=
  running_enter_of_code body h edge top rfl (by simp) plain rfl

/-- Control enters a block that begins with a phi, which takes its value. -/
theorem running_enter_phi {dst : ValueId} {ty : IR.Ty} {incoming : List (ValueId × BlockId)}
    {post : List Inst} (code : m.codeOf t = .phi dst ty incoming :: post) {x : Value}
    (taken : incomingValue m f.values (some q) incoming = .ok x) :
    f.enter m (some q) t = .ok ⟨t, post, f.values.set dst x, f.mark⟩ ∧
      Running typed m p memory ⟨t, post, f.values.set dst x, f.mark⟩ (m.slotsOf p.entry) []
        [.phi dst ty incoming] post := by
  -- a block has no phis but the first
  have noPhi : ∀ i ∈ post, i.isPhi = false := by
    obtain ⟨phis, post', split, others, rfl | ⟨i, rfl, -⟩⟩ :=
      split_code body (body.leads h.owned edge).1
    · have phi := others (.phi dst ty incoming) (by rw [← List.nil_append post', ← split, code]; simp)
      cases phi
    · rw [code, List.singleton_append] at split
      obtain ⟨-, rfl⟩ := List.cons.inj split
      exact others
  have merged : mergePhis m f.values (some q) [.phi dst ty incoming] f.values =
      .ok (f.values.set dst x) := by
    simp [mergePhis, taken, bind, Except.bind]
  exact running_enter_of_code body h edge top code (by simp [Inst.isPhi]) noPhi merged

end Entering

/-- A call in progress: its body, where its slots begin, the calls that wait for it, and what
memory holds between the globals and its slots. -/
structure Activation (X : Setting) where
  plan : Plan
  finished : X.module.Finished False plan
  mark : Nat
  above : X.module.globals.size ≤ mark
  callers : List Caller
  below : Nat → Option (Array Value)

namespace Activation

variable {X : Setting}

def slots (A : Activation X) : List (ValueId × IR.Ty) :=
  X.module.slotsOf A.plan.entry

/-- The call has come to the place, with the variables in scope as they are. -/
structure Stands (A : Activation X) (scopes : ScopeStack) (locals : Locals) (s : Situation)
    (a : Place) (c : Config (List HostCall)) : Prop where
  block : c.frame.block = a.block
  running : ∃ post, Running False X.module A.plan c.world.memory c.frame A.slots [] a.before post
  mark : c.frame.mark = A.mark
  callers : c.callers = A.callers
  below : ∀ r, X.module.globals.size ≤ r → r < A.mark → c.world.memory.regions[r]? = A.below r
  holds : X.Holds s c.world
  package : scopes.package = X.scopes.package
  distinct : (scopes.inner.flatten.map (·.2.handle)).Nodup
  locals : List.Forall₂ (Binds X.module A.plan.entry A.mark c.world.memory)
    scopes.inner.flatten locals

section

variable {A : Activation X} {scopes : ScopeStack} {locals : Locals} {s : Situation} {a z : Place}
  {c : Config (List HostCall)} {i : Inst} {dst : ValueId} {x : Value}

theorem Stands.owned (h : A.Stands scopes locals s a c) :
    X.module.functionOf? a.block = some A.plan.function := by
  obtain ⟨post, running⟩ := h.running
  rw [← h.block]
  exact running.active.owned

/-- The place matters only as a point in the code. -/
theorem Stands.stays (h : A.Stands scopes locals s a c) (stays : Shape.Stays a z) :
    A.Stands scopes locals s z c :=
  { h with
    block := h.block.trans stays.block.symm
    running := stays.before ▸ h.running }

/-- At the start of a block it does not matter from where values are numbered. -/
theorem Stands.renumber {b : BlockId} {n : Nat} (h : A.Stands scopes locals s (.start b n) c)
    (k : Nat) : A.Stands scopes locals s (.start b k) c :=
  { h with }

/-- The instruction at the place is the next one. -/
theorem Stands.next (h : A.Stands scopes locals s a c) (does : Shape.Does X.module a i z) :
    ∃ after, c.frame.rest = i :: after ∧ X.module.codeOf a.block = a.before ++ i :: after ∧
      Running False X.module A.plan c.world.memory c.frame A.slots [] a.before (i :: after) := by
  obtain ⟨post, running⟩ := h.running
  obtain ⟨after, code⟩ := does.next
  have same := running.code
  rw [h.block, code] at same
  obtain rfl := List.append_cancel_left same
  exact ⟨after, running.rest, code, running⟩

/-- What is known of the instruction at the place, and it is no phi. -/
theorem Stands.inst_ok (h : A.Stands scopes locals s a c) (does : Shape.Does X.module a i z) :
    X.module.InstOk False A.plan a.block a.before i := by
  obtain ⟨after, -, code, running⟩ := h.next does
  rcases A.finished.body.insts a.block h.owned a.before i after code with ok | phi
  · exact ok
  · obtain ⟨_, _, rfl, -⟩ := phi
    have := running.noPhi _ List.mem_cons_self
    cases this

theorem Stands.covers (h : A.Stands scopes locals s a c) :
    c.world.memory.Covers False X.module := by
  refine h.holds.fields.covers X.linked ?_
  obtain ⟨post, running⟩ := h.running
  have := A.above
  rw [running.top, h.mark]
  omega

/-- The address of a reserved slot. -/
theorem Stands.operand_slot (h : A.Stands scopes locals s a c) {i : Nat} {slot : ValueId}
    {ty : IR.Ty} (there : A.slots[i]? = some (slot, ty)) :
    operand X.module c.frame.values slot = .ok (.pointer (.start (A.mark + i))) := by
  obtain ⟨post, running⟩ := h.running
  obtain ⟨name, value⟩ := (A.finished.body.slots _ (List.mem_of_getElem? there)).2
  refine operand_of_owner? (f := A.plan.function) ?_
    (h.mark ▸ (running.active.slots i _ there).1)
  simp only [Module.owner?, value]
  exact A.finished.body.entry_owned

/-- The instruction at the place was carried out. -/
theorem Stands.proceed (h : A.Stands scopes locals s a c) (does : Shape.Does X.module a i z)
    {after : List Inst} (rest : c.frame.rest = i :: after) (c' : Config (List HostCall))
    (frame : c'.frame = ⟨c.frame.block, after, c'.frame.values, c.frame.mark⟩)
    (callers : c'.callers = c.callers) (top : c'.world.memory.mark = c.world.memory.mark)
    (active : Active False X.module A.plan c'.world.memory c.frame.mark c.frame.block
      c'.frame.values A.slots (a.before ++ [i]))
    (below : ∀ r, X.module.globals.size ≤ r → r < A.mark →
      c'.world.memory.regions[r]? = c.world.memory.regions[r]?)
    {s' : Situation} {locals' : Locals} (holds : X.Holds s' c'.world)
    (held : List.Forall₂ (Binds X.module A.plan.entry A.mark c'.world.memory)
      scopes.inner.flatten locals') : A.Stands scopes locals' s' z c' := by
  obtain ⟨after', rest', code, running⟩ := h.next does
  obtain rfl : after = after' := (List.cons.inj (rest.symm.trans rest')).2
  obtain ⟨world, ⟨block, left, values, mark⟩, callers'⟩ := c'
  cases frame
  exact {
    block := h.block.trans does.block.symm
    running := ⟨after, running.slots, by
        rw [does.before, List.append_assoc]
        exact running.code, rfl, .inl rfl, fun j hj => running.noPhi j (by simp [hj]),
      by rw [does.before]; exact active, top.trans running.top⟩
    mark := h.mark
    callers := callers.trans h.callers
    below := fun r above under => (below r above under).trans (h.below r above under)
    holds := holds
    package := h.package
    distinct := h.distinct
    locals := held }

/-- After an instruction that reads memory at most, the value it defines is there. -/
theorem Stands.evaluate (h : A.Stands scopes locals s a c) (emits : Shape.Emits X.module a dst i z)
    (notStore : ∀ v w, i ≠ .store v w) (notCall : ∀ d g args, i ≠ .call d g args)
    (evaluated : Execution.evaluate X.module c.frame.values c.world.memory i =
      .ok (c.frame.values.set dst x)) :
    ∃ c', X.machine.after 1 c = .running c' ∧ A.Stands scopes locals s z c' ∧
      c'.frame.values = c.frame.values.set dst x := by
  obtain ⟨after, rest, code, running⟩ := h.next emits.toDoes
  have ok := h.inst_ok emits.toDoes
  have notAlloca : i.isAlloca = false := by cases i <;> first | rfl | cases ok
  have judged := running.active.judged_evaluate A.finished.body h.covers
    running.code (h.block ▸ ok) notStore notCall
  rw [evaluated] at judged
  refine ⟨c.proceed c.world.memory after (c.frame.values.set dst x), ?_,
    h.proceed emits.toDoes rest (c.proceed c.world.memory after (c.frame.values.set dst x)) rfl
      rfl rfl judged (fun _ _ _ => rfl) ⟨h.holds.1, h.holds.2⟩ h.locals, rfl⟩
  rw [Machine.after_one, Machine.advance_evaluate rest notAlloca notStore notCall]
  rw [X.module_machine, evaluated]

/-- An instruction that reads memory at most ends the run if it cannot be carried out. -/
theorem Stands.evaluate_error (h : A.Stands scopes locals s a c)
    (does : Shape.Does X.module a i z) (notStore : ∀ v w, i ≠ .store v w)
    (notCall : ∀ d g args, i ≠ .call d g args) {fault : Fault}
    (failed : Execution.evaluate X.module c.frame.values c.world.memory i = .error fault) :
    ∃ w, X.machine.after 1 c = .finished (.error fault) w ∧ X.Holds s w := by
  obtain ⟨after, rest, -, -⟩ := h.next does
  have ok := h.inst_ok does
  have notAlloca : i.isAlloca = false := by cases i <;> first | rfl | cases ok
  refine ⟨c.world.tick, ?_, ⟨h.holds.1, h.holds.2⟩⟩
  rw [Machine.after_one, Machine.advance_evaluate rest notAlloca notStore notCall]
  rw [X.module_machine, failed]

/-- After a store its cell has the value. -/
theorem Stands.store (h : A.Stands scopes locals s a c) {v w : ValueId}
    (does : Shape.Does X.module a (.store v w) z) {cell : Cell}
    (target : storeTarget X.module c.frame.values c.world.memory v w = .ok (x, cell))
    (apart : cell.region < X.module.globals.size ∨ A.mark ≤ cell.region) {s' : Situation}
    {locals' : Locals} (holds : X.Holds s' { c.world with memory := c.world.memory.set cell x })
    (held : List.Forall₂ (Binds X.module A.plan.entry A.mark (c.world.memory.set cell x))
      scopes.inner.flatten locals') :
    ∃ c', X.machine.after 1 c = .running c' ∧ A.Stands scopes locals' s' z c' ∧
      c'.frame.values = c.frame.values ∧ c'.world.memory = c.world.memory.set cell x := by
  obtain ⟨after, rest, code, running⟩ := h.next does
  have judged := running.active.judged_store A.finished.body h.covers running.code
    (h.block ▸ h.inst_ok does)
  rw [target] at judged
  refine ⟨c.proceed (c.world.memory.set cell x) after c.frame.values, ?_,
    h.proceed does rest (c.proceed (c.world.memory.set cell x) after c.frame.values) rfl
      rfl (Memory.mark_set ..) judged.2 (fun r above under => ?_) ⟨holds.1, holds.2⟩ held, rfl, rfl⟩
  · rw [Machine.after_one, Machine.advance_store rest]
    rw [X.module_machine, target]
  · exact regions_set_of_ne (c := cell) (by omega)

/-- A store ends the run if its address is none. -/
theorem Stands.store_error (h : A.Stands scopes locals s a c) {v w : ValueId}
    (does : Shape.Does X.module a (.store v w) z) {fault : Fault}
    (failed : storeTarget X.module c.frame.values c.world.memory v w = .error fault) :
    ∃ w, X.machine.after 1 c = .finished (.error fault) w ∧ X.Holds s w := by
  obtain ⟨after, rest, -, -⟩ := h.next does
  refine ⟨c.world.tick, ?_, ⟨h.holds.1, h.holds.2⟩⟩
  rw [Machine.after_one, Machine.advance_store rest]
  rw [X.module_machine, failed]

/-- At the end of a block nothing of its code is left. -/
theorem Stands.ended (h : A.Stands scopes locals s a c) {t : Terminator}
    (exits : Shape.Exits X.module a t) : c.frame.rest = [] ∧
      X.machine.advance c = X.machine.actTerminator c.world.tick c.frame c.callers (some t) ∧
      Active False X.module A.plan c.world.memory c.frame.mark a.block c.frame.values A.slots
        (X.module.codeOf a.block) ∧
      c.world.memory.mark = c.frame.mark + A.slots.length := by
  obtain ⟨post, running⟩ := h.running
  have code := running.code
  rw [h.block, exits.code] at code
  obtain rfl : post = [] := by simpa using code
  refine ⟨running.rest, ?_, ?_, running.top⟩
  · rw [Machine.advance_end running.rest]
    show _ = _
    rw [h.block]
    exact congrArg _ exits.leaves
  · rw [exits.code, ← h.block]
    exact running.active

/-- The call has gone on to another block. -/
theorem Stands.enters (h : A.Stands scopes locals s a c) {next : Frame} {post : List Inst}
    (running : Running False X.module A.plan c.world.memory next A.slots [] z.before post)
    (block : next.block = z.block) (mark : next.mark = c.frame.mark) :
    A.Stands scopes locals s z ⟨c.world.tick, next, c.callers⟩ where
  block := block
  running := ⟨post, running⟩
  mark := mark.trans h.mark
  callers := h.callers
  below := h.below
  holds := ⟨h.holds.1, h.holds.2⟩
  package := h.package
  distinct := h.distinct
  locals := h.locals

/-- A block ends, and another one without phis begins. -/
theorem Stands.jump (h : A.Stands scopes locals s a c) {t : Terminator} {b : BlockId}
    (exits : Shape.Exits X.module a t) (leads : b ∈ t.successors)
    (acts : X.machine.actTerminator c.world.tick c.frame c.callers (some t) =
      X.machine.jump c.world.tick c.frame c.callers b)
    (plain : Shape.Plain X.module b) (n : Nat) :
    ∃ c', X.machine.after 1 c = .running c' ∧ A.Stands scopes locals s (.start b n) c' ∧
      c'.frame.values = c.frame.values := by
  obtain ⟨last, advance, active, top⟩ := h.ended exits
  have edge : b ∈ X.module.successorsOf a.block :=
    Module.mem_successorsOf.2 ⟨t, exits.leaves, leads⟩
  obtain ⟨entered, running⟩ := running_enter_plain A.finished.body active edge top plain
  refine ⟨_, ?_, h.enters (z := .start b n) running rfl rfl, rfl⟩
  rw [Machine.after_one, advance, acts, Machine.jump, h.block]
  rw [X.module_machine, entered]

theorem Stands.br (h : A.Stands scopes locals s a c) {b : BlockId}
    (exits : Shape.Exits X.module a (.br b)) (plain : Shape.Plain X.module b) (n : Nat) :
    ∃ c', X.machine.after 1 c = .running c' ∧ A.Stands scopes locals s (.start b n) c' ∧
      c'.frame.values = c.frame.values :=
  h.jump exits (by simp [Terminator.successors]) rfl plain n

/-- What a conditional branch does. -/
theorem actTerminator_condBr {v : ValueId} {b : Bool} {onTrue onFalse : BlockId}
    (tested : operand X.module c.frame.values v = .ok (.bool b)) :
    X.machine.actTerminator c.world.tick c.frame c.callers (some (.condBr v onTrue onFalse)) =
      X.machine.jump c.world.tick c.frame c.callers (if b then onTrue else onFalse) := by
  have cond : boolOperand X.module c.frame.values v = .ok b := by
    simp [boolOperand, tested, bind, Except.bind]
  rw [Machine.actTerminator]
  simp only [X.module_machine, cond]

theorem Stands.condBr (h : A.Stands scopes locals s a c) {v : ValueId} {b : Bool}
    {onTrue onFalse : BlockId} (exits : Shape.Exits X.module a (.condBr v onTrue onFalse))
    (tested : operand X.module c.frame.values v = .ok (.bool b))
    (plain : Shape.Plain X.module (if b then onTrue else onFalse)) (n : Nat) :
    ∃ c', X.machine.after 1 c = .running c' ∧
      A.Stands scopes locals s (.start (if b then onTrue else onFalse) n) c' ∧
      c'.frame.values = c.frame.values :=
  h.jump exits (by cases b <;> simp [Terminator.successors]) (actTerminator_condBr tested) plain n

/-- A block ends, and another one begins with a phi. -/
theorem Stands.merge (h : A.Stands scopes locals s a c) {t : Terminator} {b : BlockId} {n : Nat}
    (exits : Shape.Exits X.module a t) (leads : b ∈ t.successors)
    (acts : X.machine.actTerminator c.world.tick c.frame c.callers (some t) =
      X.machine.jump c.world.tick c.frame c.callers b) {ty : IR.Ty}
    {incoming : List (ValueId × BlockId)}
    (emits : Shape.Emits X.module (.start b n) dst (.phi dst ty incoming) z)
    (taken : incomingValue X.module c.frame.values (some a.block) incoming = .ok x) :
    ∃ c', X.machine.after 1 c = .running c' ∧ A.Stands scopes locals s z c' ∧
      c'.frame.values = c.frame.values.set dst x := by
  obtain ⟨last, advance, active, top⟩ := h.ended exits
  have edge : b ∈ X.module.successorsOf a.block :=
    Module.mem_successorsOf.2 ⟨t, exits.leaves, leads⟩
  obtain ⟨post, code⟩ := emits.next
  obtain ⟨entered, running⟩ := running_enter_phi A.finished.body active edge top code taken
  replace running : Running False X.module A.plan c.world.memory
      ⟨b, post, c.frame.values.set dst x, c.frame.mark⟩ A.slots [] z.before post := by
    rw [emits.before]
    exact running
  refine ⟨_, ?_, h.enters running emits.block.symm rfl, rfl⟩
  rw [Machine.after_one, advance, acts, Machine.jump, h.block]
  rw [X.module_machine, entered]

/-- A call that returns hands over its result. -/
theorem Stands.ret (h : A.Stands scopes locals s a c) {v : Option ValueId} {result : Option Value}
    (exits : Shape.Exits X.module a (.ret v))
    (found : resultOf X.module c.frame.values v = .ok result) :
    X.machine.advance c = Machine.actReturn result c.world.tick A.mark A.callers := by
  obtain ⟨-, advance, -⟩ := h.ended exits
  rw [advance, ← h.mark, ← h.callers]
  cases v with
  | none =>
    cases found
    rfl
  | some v =>
    rw [Machine.actTerminator]
    simp only [X.module_machine]
    rw [resultOf] at found
    cases value : operand X.module c.frame.values v with
    | error fault =>
      rw [value] at found
      cases found
    | ok x =>
      rw [value] at found
      cases found
      rfl

end

end Activation

end Decaf.Meaning
