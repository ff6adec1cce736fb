import Decaf.IR.Builder
import Decaf.IR.Check

/-!
# Targets of code generation

Code is generated into any type that carries out building commands and answers a few
questions about what it has built. The builder is one such target. A recorder is another:
it passes everything on to a builder and keeps the commands. A recorder can be blind, and
then does not tell where its insertion point is.
-/

namespace Decaf.IR

class Target (τ : Type) where
  perform : τ → {r : Reply} → Command r → r.Carrier × τ
  parameter? : τ → FunctionId → Nat → Option ValueId
  insertion? : τ → Option BlockId
  /-- No instruction can be inserted where the target stands. -/
  isTerminated : τ → Bool
  typeOf : τ → ValueId → Ty
  checkFunction : τ → FunctionId → Except CheckError Unit

instance : Target Builder where
  perform b _ c := b.perform c
  parameter? b := b.parameter?
  insertion? b := b.insertion
  isTerminated b := b.isTerminated
  typeOf b := b.module.typeOf
  checkFunction b := b.module.checkFunction

structure Recorder where
  builder : Builder
  /-- The commands in the order in which they came. -/
  commands : Array AnyCommand
  blind : Bool

namespace Recorder

def empty (blind : Bool) : Recorder := ⟨Builder.empty, #[], blind⟩

def perform (t : Recorder) (c : Command r) : r.Carrier × Recorder :=
  let (reply, builder) := t.builder.perform c
  (reply, { t with builder, commands := t.commands.push ⟨r, c⟩ })

end Recorder

instance : Target Recorder where
  perform t _ c := t.perform c
  parameter? t := t.builder.parameter?
  insertion? t := if t.blind then none else t.builder.insertion
  isTerminated t := t.builder.isTerminated
  typeOf t := t.builder.module.typeOf
  checkFunction t := t.builder.module.checkFunction

end Decaf.IR
