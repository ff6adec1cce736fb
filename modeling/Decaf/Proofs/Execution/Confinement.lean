import Mathlib.Data.List.Forall2
import Decaf.Proofs.Building.Verified
import Decaf.Proofs.Execution.Actions
import Decaf.Proofs.Execution.Compiled
import Decaf.Proofs.Execution.Faults

/-!
# Verified modules keep control inside functions

While a verified module runs, every call in progress stays at blocks of its own function, and
what is left to do there is the end of the block. So no run reaches a block without terminator,
and no call in the module passes the wrong number of arguments.
-/

namespace Decaf.Execution

open IR

/-- The module passes the check, and its functions and blocks agree about owners. -/
structure Accepted (m : Module) : Prop where
  owned : m.Owned
  ok : m.check = .ok ()

/-- The call is at a block of `f` and has the end of that block still to do. -/
structure Frame.Inside (m : Module) (f : FunctionId) (frame : Frame) : Prop where
  block : frame.block ∈ m.blocksOf f
  rest : ∃ data, m.block? frame.block = some data ∧ frame.rest <:+ bodyOf data

/-- Each call in progress is inside its function. -/
def Config.Confined {σ : Type} (m : Module) (c : Config σ) (fs : List FunctionId) : Prop :=
  List.Forall₂ (Frame.Inside m) fs (c.frame :: c.callers.map (·.frame))

/-- A block without terminator was reached, or a call had the wrong number of arguments. -/
def Fault.Structural : Fault → Prop
  | .unterminated _ => True
  | .arityMismatch _ _ _ => True
  | _ => False

/-- The computation does not end in a structural fault. -/
def Sturdy {α : Type} (x : Except Fault α) : Prop :=
  ∀ fault, x = .error fault → ¬ fault.Structural

section

variable {α : Type} {m : Module}

theorem sturdy_ok (a : α) : Sturdy (.ok a : Except Fault α) := by
  intro fault failed
  cases failed

theorem sturdy_error {fault : Fault} (h : ¬ fault.Structural) :
    Sturdy (.error fault : Except Fault α) := by
  intro other same
  cases same
  exact h

theorem Fault.Evaluative.not_structural {fault : Fault} (h : fault.Evaluative) :
    ¬ fault.Structural := by
  intro structural
  cases fault <;> first | exact h | exact structural

/-- Control enters any block that is there. -/
theorem sturdy_enter {frame : Frame} {source : Option BlockId} {target : BlockId}
    {data : IR.Block} (there : m.block? target = some data) :
    Sturdy (frame.enter m source target) := by
  intro fault failed
  rcases fault_of_enter failed with ⟨missing, -⟩ | evaluative | ⟨rfl, -⟩
  · rw [there] at missing
    cases missing
  · exact evaluative.not_structural
  · exact id

end

variable {σ : Type} {M : Machine σ}

theorem Frame.inside_enter {m : Module} {f : FunctionId} {frame entered : Frame}
    {source : Option BlockId} {target : BlockId} (listed : target ∈ m.blocksOf f)
    (h : frame.enter m source target = .ok entered) : entered.Inside m f := by
  obtain ⟨data, vs, there, -, rfl⟩ := Frame.enter_eq_ok h
  exact ⟨listed, data, there, List.suffix_refl _⟩

/-- Carrying out an instruction leaves a call inside its function. -/
theorem Frame.Inside.advance {m : Module} {f : FunctionId} {block : BlockId} {i : Inst}
    {rest : List Inst} {vs vs' : Values} {mark : Nat}
    (inside : Frame.Inside m f ⟨block, i :: rest, vs, mark⟩) :
    Frame.Inside m f ⟨block, rest, vs', mark⟩ := by
  obtain ⟨listed, data, there, rest⟩ := inside
  exact ⟨listed, data, there, (List.suffix_cons _ _).trans rest⟩

namespace Accepted

variable {m : Module} (accepted : Accepted m)

include accepted

theorem verified {f : FunctionId} {c : BlockId} (listed : c ∈ m.blocksOf f) :
    ∃ F data t, m.function? f = some F ∧ m.block? c = some data ∧ m.Verified f F.ret data t :=
  Module.verified_of_check accepted.ok accepted.owned ((accepted.owned.listed c f).1 listed)

/-- Control goes from a block of a function to blocks of that function. -/
theorem successor {f : FunctionId} {c s : BlockId} {t : Terminator} (listed : c ∈ m.blocksOf f)
    (ends : (m.block? c).bind (·.terminator) = some t) (leads : s ∈ t.successors) :
    s ∈ m.blocksOf f := by
  obtain ⟨F, data, t', -, there, verified⟩ := accepted.verified listed
  rw [there, Option.bind_some, verified.terminator] at ends
  cases ends
  exact (accepted.owned.listed s f).2 (verified.inside s leads)

/-- The instructions that are left to a call have operands that fit. -/
theorem operands {f : FunctionId} {frame : Frame} {i : Inst} (inside : frame.Inside m f)
    (left : i ∈ frame.rest) : m.checkOperands f i = .ok () := by
  obtain ⟨listed, data, there, rest⟩ := inside
  obtain ⟨F, data', t, -, there', verified⟩ := accepted.verified listed
  rw [there] at there'
  cases there'
  exact verified.operands i (List.mem_of_mem_filter (rest.subset left))

end Accepted

theorem entry_mem_blocksOf {m : Module} {f : FunctionId} {F : Function} {entry : BlockId}
    (there : m.function? f = some F) (body : F.entry? = some entry) : entry ∈ m.blocksOf f := by
  rw [Module.blocksOf, there]
  exact Array.mem_toList_iff.2 (Array.mem_of_getElem? body)

/-- One action leaves every call in progress inside its function. -/
theorem confined_action (accepted : Accepted M.module) {c next : Config σ}
    {fs : List FunctionId} (confined : c.Confined M.module fs) (action : M.Action c next) :
    next.Confined M.module (c.track next fs) := by
  cases action with
  | plain other performed =>
    obtain ⟨f, fs, inside, others, rfl⟩ := List.forall₂_cons_right_iff.1 confined
    rw [Config.track_stay]
    exact .cons inside.advance others
  | answer operands invoked bound =>
    obtain ⟨f, fs, inside, others, rfl⟩ := List.forall₂_cons_right_iff.1 confined
    rw [Config.track_stay]
    exact .cons inside.advance others
  | enter operands invoked =>
    obtain ⟨f, fs, inside, others, rfl⟩ := List.forall₂_cons_right_iff.1 confined
    obtain ⟨G, there, -, ⟨-, result, host, -, other⟩ | ⟨entry, frame, body, start, same⟩⟩ :=
      M.invoke_eq_ok invoked
    · cases other
    · cases same
      rw [Config.track_enter]
      exact .cons (Frame.inside_enter (entry_mem_blocksOf there body) start)
        (.cons inside.advance others)
  | jump ends leads entered =>
    obtain ⟨f, fs, inside, others, rfl⟩ := List.forall₂_cons_right_iff.1 confined
    rw [Config.track_stay]
    exact .cons (Frame.inside_enter (accepted.successor inside.block ends leads) entered) others
  | ret ends returns bound =>
    obtain ⟨f, fs, inside, waiting, rfl⟩ := List.forall₂_cons_right_iff.1 confined
    obtain ⟨g, gs, waits, others, rfl⟩ := List.forall₂_cons_right_iff.1 waiting
    rw [Config.track_return]
    exact .cons ⟨waits.block, waits.rest⟩ others

/-- Every moment of a call finds each call in progress inside its function. -/
theorem confined_of_traced (accepted : Accepted M.module) {f : FunctionId} {args : List Value}
    {w : World σ} {c : Config σ} {fs : List FunctionId} (traced : M.Traced f args w c fs) :
    c.Confined M.module fs := by
  induction traced with
  | start entered =>
    obtain ⟨F, there, -, ⟨-, result, host, -, other⟩ | ⟨entry, frame, body, start, same⟩⟩ :=
      M.invoke_eq_ok entered
    · cases other
    · cases same
      exact .cons (Frame.inside_enter (entry_mem_blocksOf there body) start) .nil
  | act _ _ running ih => exact confined_action accepted ih (M.action_of_act running)

/-- A call with as many arguments as there are parameters does not end in a structural fault. -/
theorem sturdy_invoke (accepted : Accepted M.module) {w : World σ} {depth : Nat}
    {g : FunctionId} {G : Function} {xs : List Value} (there : M.module.function? g = some G)
    (arity : G.params.length = xs.length) : Sturdy (M.invoke w depth g xs) := by
  cases body : G.entry? with
  | none =>
    rw [M.invoke_bodiless there arity body]
    cases M.host.answer w.host ⟨G.name, xs, w.memory⟩ with
    | none => exact sturdy_error id
    | some reply => exact sturdy_ok _
  | some entry =>
    rw [M.invoke_body there arity body]
    split
    · exact sturdy_error id
    · obtain ⟨F, data, t, -, block, -⟩ := accepted.verified (entry_mem_blocksOf there body)
      have enters : Sturdy (Frame.enter ⟨entry, [], .ofParams G.params xs, w.memory.mark⟩
        M.module none entry) := sturdy_enter block
      intro fault failed
      cases started : Frame.enter ⟨entry, [], .ofParams G.params xs, w.memory.mark⟩ M.module
        none entry with
      | ok frame =>
        rw [started] at failed
        cases failed
      | error early =>
        rw [started] at failed
        cases failed
        exact enters _ started

theorem length_of_mapM {α β ε : Type} {f : α → Except ε β} {as : List α} {bs : List β}
    (h : as.mapM f = .ok bs) : bs.length = as.length := by
  induction as generalizing bs with
  | nil =>
    cases h
    rfl
  | cons a as ih =>
    rw [List.mapM_cons] at h
    obtain ⟨b, -, h⟩ := ok_of_bind h
    obtain ⟨rest, mapped, h⟩ := ok_of_bind h
    cases h
    simp [ih mapped]

/-- No action that is taken inside a function ends in a structural fault. -/
theorem not_structural_of_act (accepted : Accepted M.module) {c : Config σ} {f : FunctionId}
    (inside : c.frame.Inside M.module f) {fault : Fault} {v : World σ}
    (h : M.act c = .finished (.error fault) v) : ¬ fault.Structural := by
  obtain ⟨F, data, t, -, there, verified⟩ := accepted.verified inside.block
  have ends : M.terminatorAt c.frame.block = some t := by
    rw [Machine.terminatorAt, there]
    exact verified.terminator
  cases Machine.failure_of_act h with
  | value evaluative => exact evaluative.not_structural
  | unterminated none =>
    rw [ends] at none
    cases none
  | unreachable => exact id
  | unfed => exact id
  | nowhere ends' leads missing =>
    obtain ⟨G, data', t', -, there', -⟩ :=
      accepted.verified (accepted.successor inside.block ends' leads)
    rw [missing] at there'
    cases there'
  | refused next operands refused =>
    obtain ⟨G, callee, arity, -⟩ :=
      Module.call_of_checkOperands (accepted.operands inside (next ▸ List.mem_cons_self))
    have given := (length_of_mapM operands).symm
    exact sturdy_invoke accepted callee (arity.trans given) _ refused
  | full => exact id

/-- A call with as many arguments as parameters does not come to a structural fault. -/
theorem sturdy_call (accepted : Accepted M.module) {f : FunctionId} {F : Function}
    {args : List Value} {w : World σ} (there : M.module.function? f = some F)
    (arity : F.params.length = args.length) : Sturdy (M.call f args w).1 := by
  have invoked : Sturdy (M.invoke w 0 f args) := sturdy_invoke accepted there arity
  cases start : M.invoke w 0 f args with
  | error fault =>
    simp only [Machine.call, start]
    exact sturdy_error (invoked fault start)
  | ok invocation =>
    cases invocation with
    | answered result host =>
      simp only [Machine.call, start]
      exact sturdy_ok result
    | entered frame =>
      obtain ⟨last, v, moment, -, ⟨-, spent, -⟩ | ⟨-, ending⟩⟩ := M.last_moment start
      · rw [spent]
        exact sturdy_error id
      · obtain ⟨fs, traced⟩ := M.moment_iff_traced.1 moment
        obtain ⟨g, gs, inside, -, -⟩ :=
          List.forall₂_cons_right_iff.1 (confined_of_traced accepted traced)
        intro fault failed
        rw [failed] at ending
        exact not_structural_of_act accepted inside ending

theorem functionByName?_there {m : Module} (owned : m.Owned) {name : String} {F : Function}
    (found : m.functionByName? name = some F) : m.function? F.id = some F := by
  obtain ⟨i, held⟩ := Array.mem_iff_getElem?.1 (Array.mem_of_find?_eq_some found)
  have position := owned.position ⟨i⟩ F held
  rw [position]
  exact held

theorem call_arity {f : FunctionId} {F : Function} {args : List Value} (w : World σ)
    (there : M.module.function? f = some F) (arity : F.params.length ≠ args.length) :
    M.call f args w = (.error (.arityMismatch F.name F.params.length args.length), w) := by
  have refused : M.invoke w 0 f args =
      .error (.arityMismatch F.name F.params.length args.length) := by
    simp only [Machine.invoke, there]
    rw [if_pos arity]
  simp only [Machine.call, refused]

/-- Running a verified module reaches no block without terminator, and the arguments given to
the run are the only ones that can be too few or too many. At every moment each call in
progress is inside its function. -/
theorem verified_control {b : Builder} (reachable : b.Reachable)
    (verified : b.module.check = .ok ()) (limits : Limits) (host : Host σ) (w : World σ)
    (name : String) (args : List Value) :
    let M : Machine σ := ⟨b.module, limits, host⟩
    (∀ block, (M.run name args w).1 ≠ .error (.unterminated block)) ∧
    (∀ callee expected found,
      (M.run name args w).1 = .error (.arityMismatch callee expected found) →
      ∃ F, b.module.functionByName? name = some F ∧ callee = F.name ∧
        expected = F.params.length ∧ found = args.length ∧ expected ≠ found) ∧
    ∀ f c fs, M.Traced f args w c fs → c.Confined b.module fs := by
  intro M
  have accepted : Accepted M.module := ⟨reachable.owned, verified⟩
  have outcome (fault : Fault) (structural : fault.Structural)
      (failed : (M.run name args w).1 = .error fault) :
      ∃ F, b.module.functionByName? name = some F ∧ F.params.length ≠ args.length ∧
        fault = .arityMismatch F.name F.params.length args.length := by
    cases named : b.module.functionByName? name with
    | none =>
      simp only [Machine.run, M, named] at failed
      cases failed
      cases structural
    | some F =>
      have there : M.module.function? F.id = some F := functionByName?_there accepted.owned named
      have called : (M.run name args w).1 = (M.call F.id args w).1 := by
        simp only [Machine.run, M, named]
      rw [called] at failed
      by_cases arity : F.params.length = args.length
      · exact absurd structural (sturdy_call accepted there arity fault failed)
      · rw [call_arity w there arity] at failed
        exact ⟨F, rfl, arity, (Except.error.inj failed).symm⟩
  refine ⟨fun block failed => ?_, fun callee expected found failed => ?_, fun f c fs traced =>
    confined_of_traced accepted traced⟩
  · obtain ⟨F, -, -, other⟩ := outcome (.unterminated block) trivial failed
    cases other
  · obtain ⟨F, named, arity, same⟩ :=
      outcome (.arityMismatch callee expected found) trivial failed
    cases same
    exact ⟨F, named, rfl, rfl, rfl, arity⟩

/-- Two functions, of which one calls the other and takes a branch on the answer. -/
def asking : List AnyCommand :=
  [⟨_, .declareFunction "ask" .i1 [(some "x", .i32)]⟩, ⟨_, .declareFunction "f" .i32 []⟩,
    ⟨_, .appendBlock ⟨1⟩ "entry"⟩, ⟨_, .appendBlock ⟨0⟩ "entry"⟩, ⟨_, .appendBlock ⟨1⟩ "yes"⟩,
    ⟨_, .appendBlock ⟨1⟩ "no"⟩, ⟨_, .const (.i32 7)⟩, ⟨_, .positionAtEnd ⟨0⟩⟩,
    ⟨_, .call ⟨0⟩ [⟨1⟩]⟩, ⟨_, .terminate (.condBr ⟨2⟩ ⟨2⟩ ⟨3⟩)⟩, ⟨_, .positionAtEnd ⟨1⟩⟩,
    ⟨_, .binary .sgt ⟨0⟩ ⟨1⟩ "more"⟩, ⟨_, .terminate (.ret (some ⟨3⟩))⟩,
    ⟨_, .positionAtEnd ⟨2⟩⟩, ⟨_, .terminate (.ret (some ⟨1⟩))⟩, ⟨_, .positionAtEnd ⟨3⟩⟩,
    ⟨_, .terminate .unreachable⟩]

theorem asking_control :
    let b := Builder.empty.performAll asking
    let M : Machine Unit := ⟨b.module, {}, silent⟩
    b.Reachable ∧ b.module.check = .ok () ∧
      (∀ block, (M.run "f" [] (M.start ())).1 ≠ .error (.unterminated block)) ∧
      ∀ f c fs, M.Traced f [] (M.start ()) c fs → c.Confined b.module fs := by
  intro b M
  have reachable : b.Reachable := Builder.reachable_performAll .empty (by decide)
  have verified : b.module.check = .ok () := by rfl
  obtain ⟨closed, -, confined⟩ :=
    verified_control reachable verified {} silent (M.start ()) "f" []
  exact ⟨reachable, verified, closed, confined⟩

end Decaf.Execution
