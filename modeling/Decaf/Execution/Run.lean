import Decaf.Execution.Step

/-!
# Runs

A run calls a function by name in a world and yields an outcome and the world after it.
However a run ends, its stack slots are gone afterwards. Steps add up over the runs, so a
world in which the limit was reached admits no further step.
-/

namespace Decaf.Execution

open IR

variable {σ : Type}

namespace Machine

variable (M : Machine σ)

/-- The world before the first run. -/
def start (host : σ) : World σ :=
  ⟨initialMemory M.module, 0, host⟩

/-- The steps that may still be taken in a world. -/
def remainingSteps (w : World σ) : Nat :=
  M.limits.steps - w.steps

/-- Calls a function with arguments. -/
def call (f : FunctionId) (args : List Value) (w : World σ) : Outcome × World σ :=
  match M.invoke w 0 f args with
  | .error fault => (.error fault, w)
  | .ok (.answered result host) => (.ok result, { w with host })
  | .ok (.entered frame) =>
    let mark := w.memory.mark
    let (outcome, w) := M.drive (M.remainingSteps w) ⟨w, frame, []⟩
    (outcome, { w with memory := w.memory.release mark })

def run (name : String) (args : List Value) (w : World σ) : Outcome × World σ :=
  match M.module.functionByName? name with
  | none => (.error (.unknownFunction name), w)
  | some function => M.call function.id args w

/-- The value of one element of a global. -/
def globalElement? (name : String) (index : Int) (w : World σ) : Option Value := do
  let g ← M.module.globalByName? name
  (w.memory.read ⟨some g.id.index, index⟩).toOption

/-- The value of a global, of an array its first element. -/
def globalValue? (name : String) (w : World σ) : Option Value :=
  M.globalElement? name 0 w

end Machine

end Decaf.Execution
