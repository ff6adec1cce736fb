import Decaf.Proofs.Execution.Allotment
import Decaf.Proofs.Execution.Compiled
import Decaf.Proofs.Execution.Halting
import Decaf.Proofs.Execution.Replies

/-!
# What runs leave behind

Runs leave the globals and the number of steps, and nothing else. After any number of runs,
whatever they came to, no body is being evaluated and memory has the regions of the globals
and no other. So worlds that agree on the contents of the globals are the same, and the next
run cannot tell how they came about.
-/

namespace Decaf.Execution

open IR

variable {σ : Type}

namespace Memory

/-- Memories of the same shape with the same values are the same. -/
theorem eq_of_get? {m m' : Memory} (shape : m.shape = m'.shape)
    (cells : ∀ c, m.get? c = m'.get? c) : m = m' := by
  obtain ⟨regions⟩ := m
  obtain ⟨regions'⟩ := m'
  refine congrArg Memory.mk (Array.ext_getElem? fun r => ?_)
  have sizes : regions[r]?.map Array.size = regions'[r]?.map Array.size := by
    simpa [Memory.shape] using congrArg (·[r]?) shape
  cases first : regions[r]? with
  | none =>
    rw [first] at sizes
    exact (Option.map_eq_none_iff.1 sizes.symm).symm
  | some own =>
    obtain ⟨other, second, -⟩ := Option.map_eq_some_iff.1 (sizes.symm.trans (by rw [first]; rfl))
    rw [second]
    refine congrArg some (Array.ext_getElem? fun i => ?_)
    simpa [Memory.get?, first, second] using cells ⟨r, i⟩

theorem regions_above (m : Memory) {region : Nat} (above : m.mark ≤ region) :
    m.regions[region]? = none :=
  Array.getElem?_eq_none above

/-- Where there is no region there is nothing to read. -/
theorem read_above (m : Memory) {region : Nat} (above : m.mark ≤ region) (offset : Int) :
    m.read ⟨some region, offset⟩ = .error (.outOfBounds offset 0) := by
  have outside : ¬ (0 ≤ offset ∧ offset < (0 : Nat)) := by omega
  simp only [read, locate, regionLength, m.regions_above above, if_neg outside]
  rfl

theorem shape_initialMemory (m : Module) :
    (initialMemory m).shape = m.globals.toList.map fun g => (initialCells g.kind).size := by
  simp [shape, initialMemory]

end Memory

namespace Machine.History

variable {M : Machine σ} {host : σ} {outcomes : List Outcome} {s : Standing σ}

theorem depth_eq (h : M.History host outcomes s) : s.depth = 0 := by
  induction h with
  | start => rfl
  | run _ runs ih => exact runs.depth_eq.trans ih

theorem shape_eq (h : M.History host outcomes s) :
    s.world.memory.shape = M.module.globals.toList.map fun g => (initialCells g.kind).size := by
  induction h with
  | start => exact Memory.shape_initialMemory M.module
  | run _ runs ih => exact runs.shape_eq.trans ih

theorem mark_eq (h : M.History host outcomes s) :
    s.world.memory.mark = M.module.globals.size := by
  rw [← Memory.length_shape, h.shape_eq, List.length_map, Array.length_toList]

/-- A run is one of the machine. -/
theorem runs_iff (h : M.History host outcomes s) {name : String} {args : List Value}
    {outcome : Outcome} {t : Standing σ} :
    M.Runs name args s outcome t ↔ t.depth = 0 ∧ M.run name args s.world = (outcome, t.world) := by
  obtain ⟨w, depth⟩ := s
  cases h.depth_eq
  exact Machine.runs_iff

/-- After any runs, the contents of the globals are all that there is in memory. -/
theorem memory_eq {host' : σ} {outcomes' : List Outcome} {s' : Standing σ}
    (h : M.History host outcomes s) (h' : M.History host' outcomes' s')
    (globals : ∀ region index, region < M.module.globals.size →
      s'.world.memory.get? ⟨region, index⟩ = s.world.memory.get? ⟨region, index⟩) :
    s'.world.memory = s.world.memory := by
  refine Memory.eq_of_get? (h'.shape_eq.trans h.shape_eq.symm) fun c => ?_
  by_cases low : c.region < M.module.globals.size
  · exact globals c.region c.index low
  · have above := s.world.memory.regions_above (h.mark_eq ▸ Nat.le_of_not_lt low)
    have above' := s'.world.memory.regions_above (h'.mark_eq ▸ Nat.le_of_not_lt low)
    simp only [Memory.get?, above, above']

/-- After any runs, however they ended, no body is being evaluated, memory has a region for
each global and no other, and a pointer to any other region points to nothing. At every
moment of the next run the regions above the globals are the slots of the calls in progress.
What the run comes to and what it asks the host depend on no more of the runs before it than
the contents of the globals, the number of steps and the state of the host. -/
theorem leaves_globals (h : M.History host outcomes s) :
    s.depth = 0 ∧
    s.world.memory.shape =
      (M.module.globals.toList.map fun g => (initialCells g.kind).size) ∧
    (∀ region offset, M.module.globals.size ≤ region →
      s.world.memory.read ⟨some region, offset⟩ = .error (.outOfBounds offset 0)) ∧
    (∀ name args outcome t, M.Runs name args s outcome t ↔
      t.depth = 0 ∧ M.run name args s.world = (outcome, t.world)) ∧
    (∀ f args c calls, M.Allotted f args s.world c calls →
      calls.length = c.callers.length + 1 ∧
      M.module.globals.size ≤ c.world.memory.mark ∧
      (calls.reverse.flatMap (·.slots)).map (·.region) = List.range' M.module.globals.size
        (c.world.memory.mark - M.module.globals.size)) ∧
    ∀ host' outcomes' s', M.History host' outcomes' s' →
      (∀ region index, region < M.module.globals.size →
        s'.world.memory.get? ⟨region, index⟩ = s.world.memory.get? ⟨region, index⟩) →
      s'.world.steps = s.world.steps → s'.world.host = s.world.host →
      ∀ name args, M.run name args s'.world = M.run name args s.world ∧
        M.exchanges name args s'.world = M.exchanges name args s.world := by
  refine ⟨h.depth_eq, h.shape_eq, fun region offset above => ?_, fun _ _ _ _ => h.runs_iff,
    fun f args c calls allotted => ?_,
    fun host' outcomes' s' h' globals steps hosts name args => ?_⟩
  · exact Memory.read_above _ (h.mark_eq ▸ above) offset
  · have places := allotted.stacks
    rw [h.mark_eq] at places
    exact ⟨allotted.length_eq, places.base_le, places.regions_eq⟩
  · have memory := h.memory_eq h' globals
    have same : s'.world = s.world := by
      cases s' with | mk w' depth' =>
      cases s with | mk w depth =>
      cases w
      cases w'
      cases memory
      cases steps
      cases hosts
      rfl
    rw [same]
    exact ⟨rfl, rfl⟩

end Machine.History

/-- A function that calls itself without end, with a slot in each call, and one that goes round
in a circle. -/
def spiralling : List AnyCommand :=
  [⟨_, .globalScalar "g" .i32 (.i32 7)⟩, ⟨_, .declareFunction "dive" .void []⟩,
    ⟨_, .appendBlock ⟨0⟩ "entry"⟩, ⟨_, .const (.i32 8)⟩, ⟨_, .positionAtEnd ⟨0⟩⟩,
    ⟨_, .alloca .i32 "x"⟩, ⟨_, .store ⟨1⟩ ⟨2⟩⟩, ⟨_, .store ⟨1⟩ ⟨0⟩⟩, ⟨_, .call ⟨0⟩ []⟩,
    ⟨_, .terminate (.ret none)⟩, ⟨_, .declareFunction "spin" .void []⟩,
    ⟨_, .appendBlock ⟨1⟩ "entry"⟩, ⟨_, .positionAtEnd ⟨1⟩⟩, ⟨_, .terminate (.br ⟨1⟩)⟩]

def spiral : Machine Unit :=
  ⟨(Builder.empty.performAll spiralling).module, ⟨60, 5, 3⟩, silent⟩

theorem history_spiral : ∃ s, spiral.History ()
    [.error (.stackSlotsExceeded 3), .error (.stepLimitExceeded 60)] s := by
  have first : fault? (spiral.run "dive" [] (spiral.start ())).1 =
      some (.stackSlotsExceeded 3) := by decide +kernel
  have second : fault? (spiral.run "spin" [] (spiral.run "dive" [] (spiral.start ())).2).1 =
      some (.stepLimitExceeded 60) := by decide +kernel
  have dived := spiral.runs_run "dive" [] (spiral.start ())
  have spun := spiral.runs_run "spin" [] (spiral.run "dive" [] (spiral.start ())).2
  rw [eq_error_of_fault? first] at dived
  rw [eq_error_of_fault? second] at spun
  exact ⟨_, .run (.run .start dived) spun⟩

theorem spiral_leaves_globals : ∃ s, spiral.History ()
      [.error (.stackSlotsExceeded 3), .error (.stepLimitExceeded 60)] s ∧
    s.depth = 0 ∧ s.world.memory.shape = [1] ∧
    s.world.memory.read ⟨some 2, 0⟩ = .error (.outOfBounds 0 0) := by
  obtain ⟨s, history⟩ := history_spiral
  obtain ⟨depth, shape, read, -⟩ := history.leaves_globals
  exact ⟨s, history, depth, shape, read 2 0 (by decide)⟩

end Decaf.Execution
