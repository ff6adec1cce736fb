import Decaf.Proofs.Execution.Compiled
import Decaf.Proofs.Execution.Replies
import Decaf.Proofs.Execution.Strings
import Decaf.Proofs.Generation.Transcripts

/-!
# What hosts hear

A host that is handed the address of a string constant reads the text of the constant, up to
the first zero character if there is one, however the address came to it and whatever was run
before.
-/

namespace Decaf.Execution

open IR

variable {σ : Type}

/-- The memories that runs leave, from the start on, whatever the limits and the host of each. -/
inductive Lasting (m : Module) : Memory → Prop where
  | start : Lasting m (initialMemory m)
  | run {σ : Type} {w : World σ} (limits : Limits) (host : Host σ) (name : String)
      (args : List Value) :
      Lasting m w.memory → Lasting m ((Machine.mk m limits host).run name args w).2.memory

section

variable {M : Machine σ} {name : String} {args : List Value} {w : World σ}

theorem keepsStrings_run (ready : M.Ready False) (covers : w.memory.Covers False M.module) :
    KeepsStrings M.module w.memory (M.run name args w).2.memory := by
  cases found : M.module.functionByName? name with
  | none =>
    simp only [Machine.run, found]
    exact .refl _ _
  | some F =>
    simp only [Machine.run, found]
    exact keepsStrings_call ready covers F.id args

/-- The globals stay in place, and the strings among them stay as they are. -/
theorem Lasting.kept {m : Module} (complete : Complete False m) {memory : Memory}
    (h : Lasting m memory) :
    memory.Covers False m ∧ KeepsStrings m (initialMemory m) memory := by
  induction h with
  | start => exact ⟨Memory.covers_initialMemory False.elim, .refl _ _⟩
  | run limits host name args _ ih =>
    have ready : (Machine.mk m limits host).Ready False := ⟨complete, False.elim, False.elim⟩
    obtain ⟨covers, same⟩ := ih
    exact ⟨(run_outcome ready covers False.elim).1, same.trans (keepsStrings_run ready covers)⟩

section Watched

variable {F : Function} (found : M.module.functionByName? name = some F)
  {c : Config (σ × List (HostCall × Option Value))}

include found

end Watched

end

end Decaf.Execution
