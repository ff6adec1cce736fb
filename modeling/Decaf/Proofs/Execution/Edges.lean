import Decaf.Proofs.Execution.Confinement

/-!
# Phis and the edges on which control comes

The check makes every phi name predecessors of its block only. It does not make it name all of
them, and lets an entry block have phis. Control enters a block along an edge of a function or
at the start of one, so where phis name all predecessors and entries have none, each phi that is
reached has a value; and a run can come to a phi without a value in no other way.
-/

namespace Decaf.IR

instance (source : Option BlockId) : (i : Inst) → Decidable (i.Feeds source)
  | .phi _ _ incoming => inferInstanceAs (Decidable (∃ i ∈ incoming, some i.2 = source))
  | .alloca _ _ | .load _ _ _ | .store _ _ | .elementPtr _ _ _ _ => isTrue trivial
  | .binary _ _ _ _ | .unary _ _ _ | .zext _ _ _ | .call _ _ _ => isTrue trivial

namespace Module

instance (m : Module) (source : Option BlockId) (target : BlockId) :
    Decidable (m.Feeds source target) :=
  inferInstanceAs (Decidable (∀ d ∈ m.block? target, ∀ i ∈ d.insts.toList, i.Feeds source))

/-- Every phi names each predecessor of its block, and no entry block has a phi. -/
def PhisCovered (m : Module) : Prop :=
  ∀ F ∈ m.functions.toList,
    (∀ c ∈ F.blocks.toList, ∀ p ∈ m.predecessors F.id c, m.Feeds (some p) c) ∧
    ∀ c ∈ F.entry?, ∀ d ∈ m.block? c, ∀ i ∈ d.insts.toList, i.isPhi = false

instance (m : Module) : Decidable m.PhisCovered :=
  inferInstanceAs (Decidable (∀ F ∈ m.functions.toList,
    (∀ c ∈ F.blocks.toList, ∀ p ∈ m.predecessors F.id c, m.Feeds (some p) c) ∧
    ∀ c ∈ F.entry?, ∀ d ∈ m.block? c, ∀ i ∈ d.insts.toList, i.isPhi = false))

/-- The ways in which control can come to a block, with the block that it comes from. -/
inductive Entered (m : Module) : Option BlockId → BlockId → Prop where
  | start {f : FunctionId} {F : Function} {c : BlockId} :
      m.function? f = some F → F.entry? = some c → Entered m none c
  | edge {f : FunctionId} {p c : BlockId} :
      p ∈ m.predecessors f c → c ∈ m.blocksOf f → Entered m (some p) c

variable {m : Module}

theorem PhisCovered.feeds (covered : m.PhisCovered) (owned : m.Owned) {source : Option BlockId}
    {target : BlockId} (entered : m.Entered source target) : m.Feeds source target := by
  have listed {f : FunctionId} {F : Function} (there : m.function? f = some F) :
      F ∈ m.functions.toList := Array.mem_toList_iff.2 (Array.mem_of_getElem? there)
  cases entered with
  | start there entry =>
    intro d hd i hi
    have plain := (covered _ (listed there)).2 target entry d hd i hi
    cases i with
    | phi dst ty incoming => cases plain
    | _ => trivial
  | @edge f p _ source inside =>
    rw [blocksOf] at inside
    split at inside
    · rename_i F there
      refine (covered F (listed there)).1 target inside p ?_
      rwa [owned.position f F there]
    · cases inside

theorem sources_of_checkInsts {f : FunctionId} {c : BlockId} {insts : List Inst} {started : Bool}
    (ok : m.checkInsts f c started insts = .ok ()) {dst : ValueId} {ty : Ty}
    {incoming : List (ValueId × BlockId)} (mem : .phi dst ty incoming ∈ insts) :
    ∀ i ∈ incoming, i.2 ∈ m.predecessors f c := by
  have sources {incoming : List (ValueId × BlockId)}
      (ok : m.checkIncoming f c incoming = .ok ()) : ∀ i ∈ incoming, i.2 ∈ m.predecessors f c := by
    induction incoming with
    | nil => simp
    | cons i incoming ih =>
      rw [checkIncoming] at ok
      obtain ⟨-, -, ok⟩ := ok_of_bind ok
      split at ok
      · rename_i named
        exact List.forall_mem_cons.2 ⟨named, ih ok⟩
      · cases ok
  induction insts generalizing started with
  | nil => cases mem
  | cons i rest ih =>
    cases i with
    | phi dst' ty' incoming' =>
      rw [checkInsts] at ok
      by_cases late : started = true
      · rw [if_pos late] at ok
        cases ok
      · rw [if_neg late] at ok
        obtain ⟨⟨⟩, first, ok⟩ := ok_of_bind ok
        rcases List.mem_cons.1 mem with same | later
        · cases same
          exact sources first
        · exact ih ok later
    | _ =>
      rw [checkInsts] at ok
      · obtain ⟨-, -, ok⟩ := ok_of_bind ok
        exact ih ok ((List.mem_cons.1 mem).resolve_left (by simp))
      · intro _ _ _ phi
        cases phi

end Module

end Decaf.IR

namespace Decaf.Execution

open IR

variable {σ : Type} {M : Machine σ}

/-- In a verified module the blocks that a phi names are predecessors of its block. -/
theorem Accepted.sources {m : Module} (accepted : Accepted m) {f : FunctionId} {c : BlockId}
    (owner : m.functionOf? c = some f) {d : IR.Block} (there : m.block? c = some d)
    {dst : ValueId} {ty : IR.Ty} {incoming : List (ValueId × BlockId)}
    (mem : .phi dst ty incoming ∈ d.insts.toList) :
    ∀ i ∈ incoming, i.2 ∈ m.predecessors f c := by
  obtain ⟨F, -, checked⟩ := Module.checkBlock_of_check accepted.ok accepted.owned owner
  obtain ⟨d', t, there', -, insts, -⟩ := Module.checkBlock_eq_ok checked
  rw [there] at there'
  cases there'
  exact Module.sources_of_checkInsts insts mem

/-- Where the block at which a call stands leads to is entered along an edge. -/
theorem Accepted.entered {m : Module} (accepted : Accepted m) {f : FunctionId} {frame : Frame}
    (inside : frame.Inside m f) {t : Terminator} {target : BlockId}
    (ends : (m.block? frame.block).bind (·.terminator) = some t) (leads : target ∈ t.successors) :
    m.Entered (some frame.block) target := by
  refine .edge (f := f) (Module.mem_predecessors.2 ⟨inside.block, ?_⟩)
    (accepted.successor inside.block ends leads)
  rwa [Module.successorsOf, ends]

namespace Machine

/-- A call that is refused for a phi without a value is one of a function whose entry has it. -/
theorem unfed_of_invoke {w : World σ} {depth : Nat} {f : FunctionId} {args : List Value}
    (h : M.invoke w depth f args = .error .missingPhiIncoming) :
    ∃ source target, M.module.Entered source target ∧ ¬ M.module.Feeds source target := by
  unfold invoke at h
  split at h
  · cases h
  · rename_i F there
    split at h
    · cases h
    · split at h
      · split at h <;> cases h
      · rename_i entry body
        split at h
        · cases h
        · rcases error_of_bind h with refused | ⟨_, -, entered⟩
          · rcases fault_of_enter refused with ⟨-, other⟩ | evaluative | ⟨-, unfed⟩
            · cases other
            · exact evaluative.elim
            · exact ⟨none, entry, .start there body, unfed⟩
          · cases entered

/-- An action that ends for want of an incoming value enters a block with a phi that has none. -/
theorem unfed_of_act (accepted : Accepted M.module) {c : Config σ} {f : FunctionId}
    (inside : c.frame.Inside M.module f) {v : World σ}
    (h : M.act c = .finished (.error .missingPhiIncoming) v) :
    ∃ source target, M.module.Entered source target ∧ ¬ M.module.Feeds source target := by
  cases failure_of_act h with
  | value evaluative => exact evaluative.elim
  | unfed ends leads unfed => exact ⟨_, _, accepted.entered inside ends leads, unfed⟩
  | refused _ _ refused => exact unfed_of_invoke refused

/-- A run ends for want of an incoming value only by entering a block with a phi that has none. -/
theorem unfed_of_call (accepted : Accepted M.module) {f : FunctionId} {args : List Value}
    {w : World σ} (h : (M.call f args w).1 = .error .missingPhiIncoming) :
    ∃ source target, M.module.Entered source target ∧ ¬ M.module.Feeds source target := by
  cases start : M.invoke w 0 f args with
  | error fault =>
    simp only [call, start] at h
    cases h
    exact unfed_of_invoke start
  | ok invocation =>
    cases invocation with
    | answered result host =>
      simp only [call, start] at h
      cases h
    | entered frame =>
      obtain ⟨last, v, moment, -, ⟨-, spent, -⟩ | ⟨-, ending⟩⟩ := M.last_moment start
      · rw [spent] at h
        cases h
      · obtain ⟨fs, traced⟩ := M.moment_iff_traced.1 moment
        obtain ⟨g, gs, inside, -, -⟩ :=
          List.forall₂_cons_right_iff.1 (confined_of_traced accepted traced)
        rw [h] at ending
        exact unfed_of_act accepted inside ending

theorem unfed_of_run (accepted : Accepted M.module) {name : String} {args : List Value}
    {w : World σ} (h : (M.run name args w).1 = .error .missingPhiIncoming) :
    ∃ source target, M.module.Entered source target ∧ ¬ M.module.Feeds source target := by
  unfold run at h
  split at h
  · cases h
  · exact unfed_of_call accepted h

end Machine

/-- Let phis of a verified module name all predecessors, and entry blocks have none. Then the
blocks that a phi names are just the predecessors, no run ends for want of an incoming value,
and wherever control goes at any moment of a run, each phi has an incoming value for that. -/
theorem verified_phis {b : Builder} (reachable : b.Reachable)
    (verified : b.module.check = .ok ()) (covered : b.module.PhisCovered) :
    (∀ f c d dst ty incoming, b.module.functionOf? c = some f → b.module.block? c = some d →
      .phi dst ty incoming ∈ d.insts.toList →
      ∀ p, p ∈ incoming.map (·.2) ↔ p ∈ b.module.predecessors f c) ∧
    ∀ (limits : Limits) (host : Host σ) (w : World σ),
      let M : Machine σ := ⟨b.module, limits, host⟩
      (∀ name args, (M.run name args w).1 ≠ .error .missingPhiIncoming) ∧
      (∀ f F entry, b.module.function? f = some F → F.entry? = some entry →
        b.module.Feeds none entry) ∧
      ∀ f args c fs t target, M.Traced f args w c fs →
        M.terminatorAt c.frame.block = some t → target ∈ t.successors →
        b.module.Feeds (some c.frame.block) target := by
  have accepted : Accepted b.module := ⟨reachable.owned, verified⟩
  refine ⟨fun f c d dst ty incoming owner there mem p => ?_, fun limits host w => ?_⟩
  · constructor
    · intro named
      obtain ⟨i, hi, rfl⟩ := List.mem_map.1 named
      exact accepted.sources owner there mem i hi
    · intro source
      have listed := (accepted.owned.listed c f).2 owner
      obtain ⟨i, hi, same⟩ := covered.feeds accepted.owned (.edge source listed) d there _ mem
      exact List.mem_map.2 ⟨i, hi, Option.some.inj same⟩
  · refine ⟨fun name args failed => ?_, fun f F entry there body => ?_, ?_⟩
    · obtain ⟨source, target, entered, unfed⟩ := Machine.unfed_of_run accepted failed
      exact unfed (covered.feeds accepted.owned entered)
    · exact covered.feeds accepted.owned (.start there body)
    · intro f args c fs t target traced ends leads
      obtain ⟨g, gs, inside, -, -⟩ :=
        List.forall₂_cons_right_iff.1 (confined_of_traced accepted traced)
      exact covered.feeds accepted.owned (accepted.entered inside ends leads)

/-- A function with a loop whose header has a phi, reached from the entry and from the loop. -/
def ascending : List AnyCommand :=
  [⟨_, .declareFunction "count" .i32 [(some "n", .i32)]⟩, ⟨_, .appendBlock ⟨0⟩ "entry"⟩,
    ⟨_, .appendBlock ⟨0⟩ "head"⟩, ⟨_, .appendBlock ⟨0⟩ "done"⟩, ⟨_, .const (.i32 0)⟩,
    ⟨_, .positionAtEnd ⟨0⟩⟩, ⟨_, .terminate (.br ⟨1⟩)⟩, ⟨_, .positionAtEnd ⟨1⟩⟩,
    ⟨_, .phi .i32 [(⟨1⟩, ⟨0⟩), (⟨0⟩, ⟨1⟩)] "i"⟩, ⟨_, .binary .slt ⟨2⟩ ⟨0⟩ "more"⟩,
    ⟨_, .terminate (.condBr ⟨3⟩ ⟨1⟩ ⟨2⟩)⟩, ⟨_, .positionAtEnd ⟨2⟩⟩,
    ⟨_, .terminate (.ret (some ⟨2⟩))⟩]

theorem ascending_phis :
    let b := Builder.empty.performAll ascending
    let M : Machine Unit := ⟨b.module, {}, silent⟩
    b.Reachable ∧ b.module.check = .ok () ∧ b.module.PhisCovered ∧
      (∀ n, (M.run "count" [.int n] (M.start ())).1 ≠ .error .missingPhiIncoming) ∧
      ∀ f args c fs t target, M.Traced f args (M.start ()) c fs →
        M.terminatorAt c.frame.block = some t → target ∈ t.successors →
        b.module.Feeds (some c.frame.block) target := by
  intro b M
  have reachable : b.Reachable := Builder.reachable_performAll .empty (by decide)
  have verified : b.module.check = .ok () := by rfl
  have covered : b.module.PhisCovered := by decide
  obtain ⟨runs, -, moments⟩ :=
    (verified_phis reachable verified covered).2 {} silent (M.start ())
  exact ⟨reachable, verified, covered, fun n => runs "count" [.int n], moments⟩

/-- Two functions: a phi that names one of the two blocks from which control comes, and a phi in
an entry block, which names the only predecessor. -/
def sparing : List AnyCommand :=
  [⟨_, .declareFunction "f" .i32 [(some "c", .i1)]⟩, ⟨_, .declareFunction "g" .void []⟩,
    ⟨_, .appendBlock ⟨0⟩ "entry"⟩, ⟨_, .appendBlock ⟨0⟩ "side"⟩, ⟨_, .appendBlock ⟨0⟩ "done"⟩,
    ⟨_, .appendBlock ⟨1⟩ "entry"⟩, ⟨_, .const (.i32 7)⟩, ⟨_, .positionAtEnd ⟨0⟩⟩,
    ⟨_, .terminate (.condBr ⟨0⟩ ⟨2⟩ ⟨1⟩)⟩, ⟨_, .positionAtEnd ⟨1⟩⟩, ⟨_, .terminate (.br ⟨2⟩)⟩,
    ⟨_, .positionAtEnd ⟨2⟩⟩, ⟨_, .phi .i32 [(⟨1⟩, ⟨1⟩)] "x"⟩, ⟨_, .terminate (.ret (some ⟨2⟩))⟩,
    ⟨_, .positionAtEnd ⟨3⟩⟩, ⟨_, .phi .i32 [(⟨1⟩, ⟨3⟩)] "y"⟩, ⟨_, .terminate (.br ⟨3⟩)⟩]

/-- They pass the check, and both come to a phi that has no value. -/
theorem sparing_misses_incoming :
    let b := Builder.empty.performAll sparing
    let M : Machine Unit := ⟨b.module, {}, silent⟩
    b.Reachable ∧ b.module.check = .ok () ∧
      (M.run "f" [.bool true] (M.start ())).1 = .error .missingPhiIncoming ∧
      (M.run "g" [] (M.start ())).1 = .error .missingPhiIncoming := by
  intro b M
  refine ⟨Builder.reachable_performAll .empty (by decide), by rfl, ?_, ?_⟩
  · rfl
  · rfl

end Decaf.Execution
