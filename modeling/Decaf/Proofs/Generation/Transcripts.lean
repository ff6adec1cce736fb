import Decaf.Proofs.Building.Ownership
import Decaf.Proofs.Execution.Texts
import Decaf.Proofs.Generation.Spelling
import Decaf.Proofs.Generation.StringTables

/-!
# Transcripts

What code generation asks of a builder can be written down, and whoever carries it out again
from the start has the same module. The transcript shows which value stands for which string
constant of the program.
-/

namespace Decaf

open IR

namespace IR

/-- The recorder has written down all that was asked of the builder. -/
structure Transcribes (t : Recorder) (b : Builder) : Prop where
  builder : t.builder = b
  sighted : t.blind = false
  commands : b = Builder.empty.performAll t.commands.toList

theorem Transcribes.perform {t : Recorder} {b : Builder} (h : Transcribes t b) {r : Reply}
    (c : Command r) : (t.perform c).1 = (b.perform c).1 ∧
      Transcribes (t.perform c).2 (b.perform c).2 := by
  obtain ⟨rfl, sighted, commands⟩ := h
  refine ⟨rfl, rfl, sighted, ?_⟩
  show _ = Builder.empty.performAll (t.commands.push ⟨r, c⟩).toList
  rw [Array.toList_push, Builder.performAll_concat, ← commands]

end IR

section

variable {o : Options} {P : Program} {m : Module} {ws : List Warning}

end

namespace IR.Builder

/-- The string for which a command asks, with the value that comes back. -/
def spelling? (b : Builder) : AnyCommand → Option (String × ValueId)
  | ⟨_, .globalString contents⟩ => some (contents, (b.perform (.globalString contents)).1)
  | _ => none

/-- The strings for which the commands ask, each with the value that stands for it. -/
def spelled (b : Builder) : List AnyCommand → List (String × ValueId)
  | [] => []
  | ⟨r, c⟩ :: rest => (b.spelling? ⟨r, c⟩).toList ++ (b.perform c).2.spelled rest

end IR.Builder

namespace IR

/-- The value is the address of a string that holds the text. -/
def Module.StandsFor (m : Module) (v : ValueId) (text : String) : Prop :=
  ∃ g name G, m.value? v = some ⟨.ptr, .global g, name⟩ ∧ m.globals[g.index]? = some G ∧
    G.kind = .string (utf8 text)

theorem Module.StandsFor.perform {b : Builder} {v : ValueId} {text : String}
    (h : b.module.StandsFor v text) {r : Reply} (c : Command r) :
    (b.perform c).2.module.StandsFor v text := by
  obtain ⟨g, name, G, value, hG, kind⟩ := h
  obtain ⟨more, values, -⟩ := b.values_perform c
  refine ⟨g, name, G, ?_, ?_, kind⟩
  · have there : b.module.values.toList[v.index]? = some _ := (Array.getElem?_toList ..).trans value
    show (b.perform c).2.module.values[v.index]? = _
    rw [← Array.getElem?_toList, values]
    exact List.getElem?_append_left (List.getElem?_eq_some_iff.1 there).1 ▸ there
  · rw [b.globals_perform c]
    cases c.global? with
    | none => exact hG
    | some added =>
      show (b.module.globals.push _)[g.index]? = _
      rw [Array.getElem?_push, if_neg (Nat.ne_of_lt (Array.getElem?_eq_some_iff.1 hG).1), hG]

end IR

end Decaf
