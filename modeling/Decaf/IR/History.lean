import Decaf.IR.Builder

/-!
# Histories of builders

A builder that is only ever given ids it has handed out itself has a history: it comes
from the empty builder by commands each of which mentions nothing but what the builder
holds by then. `Reachable` says this of a builder. Nothing else is asked of the commands;
they may emit instructions where there is no place for them.
-/

namespace Decaf.IR

namespace Builder

def HasValue (b : Builder) (v : ValueId) : Prop := v.index < b.module.values.size

def HasBlock (b : Builder) (block : BlockId) : Prop := block.index < b.module.blocks.size

def HasFunction (b : Builder) (f : FunctionId) : Prop := f.index < b.module.functions.size

instance (b : Builder) (v : ValueId) : Decidable (b.HasValue v) :=
  inferInstanceAs (Decidable (_ < _))

instance (b : Builder) (block : BlockId) : Decidable (b.HasBlock block) :=
  inferInstanceAs (Decidable (_ < _))

instance (b : Builder) (f : FunctionId) : Decidable (b.HasFunction f) :=
  inferInstanceAs (Decidable (_ < _))

/-- Everything that a terminator mentions is held by the builder. -/
def KnowsTerminator (b : Builder) : Terminator → Prop
  | .br target => b.HasBlock target
  | .condBr cond thenBlock elseBlock =>
    b.HasValue cond ∧ b.HasBlock thenBlock ∧ b.HasBlock elseBlock
  | .ret none => True
  | .ret (some v) => b.HasValue v
  | .unreachable => True

/-- Everything that a command mentions is held by the builder. -/
def Knows (b : Builder) : Command r → Prop
  | .setModuleName _ => True
  | .declareFunction _ _ _ => True
  | .appendBlock f _ => b.HasFunction f
  | .positionAtEnd block => b.HasBlock block
  | .terminate terminator => b.KnowsTerminator terminator
  | .alloca _ _ => True
  | .load _ address _ => b.HasValue address
  | .store value address => b.HasValue value ∧ b.HasValue address
  | .elementPtr _ base index => b.HasValue base ∧ b.HasValue index
  | .binary _ lhs rhs _ => b.HasValue lhs ∧ b.HasValue rhs
  | .unary _ operand _ => b.HasValue operand
  | .zext value _ => b.HasValue value
  | .phi _ incoming _ => ∀ i ∈ incoming, b.HasValue i.1 ∧ b.HasBlock i.2
  | .call callee args => b.HasFunction callee ∧ ∀ v ∈ args, b.HasValue v
  | .globalScalar _ _ _ => True
  | .globalArray _ _ _ => True
  | .globalString _ => True
  | .const _ => True

instance (b : Builder) : (t : Terminator) → Decidable (b.KnowsTerminator t)
  | .br target => inferInstanceAs (Decidable (b.HasBlock target))
  | .condBr cond thenBlock elseBlock =>
    inferInstanceAs (Decidable (b.HasValue cond ∧ b.HasBlock thenBlock ∧ b.HasBlock elseBlock))
  | .ret none => .isTrue trivial
  | .ret (some v) => inferInstanceAs (Decidable (b.HasValue v))
  | .unreachable => .isTrue trivial

instance (b : Builder) : (c : Command r) → Decidable (b.Knows c)
  | .appendBlock f _ => inferInstanceAs (Decidable (b.HasFunction f))
  | .positionAtEnd block => inferInstanceAs (Decidable (b.HasBlock block))
  | .terminate terminator => inferInstanceAs (Decidable (b.KnowsTerminator terminator))
  | .load _ address _ => inferInstanceAs (Decidable (b.HasValue address))
  | .store value address => inferInstanceAs (Decidable (b.HasValue value ∧ b.HasValue address))
  | .elementPtr _ base index => inferInstanceAs (Decidable (b.HasValue base ∧ b.HasValue index))
  | .binary _ lhs rhs _ => inferInstanceAs (Decidable (b.HasValue lhs ∧ b.HasValue rhs))
  | .unary _ operand _ => inferInstanceAs (Decidable (b.HasValue operand))
  | .zext value _ => inferInstanceAs (Decidable (b.HasValue value))
  | .phi _ incoming _ =>
    inferInstanceAs (Decidable (∀ i ∈ incoming, b.HasValue i.1 ∧ b.HasBlock i.2))
  | .call callee args =>
    inferInstanceAs (Decidable (b.HasFunction callee ∧ ∀ v ∈ args, b.HasValue v))
  | .setModuleName _ | .declareFunction _ _ _ | .alloca _ _ => .isTrue trivial
  | .globalScalar _ _ _ | .globalArray _ _ _ | .globalString _ | .const _ => .isTrue trivial

inductive Reachable : Builder → Prop where
  | empty : Reachable Builder.empty
  | perform {b : Builder} {r : Reply} (c : Command r) :
      Reachable b → b.Knows c → Reachable (b.perform c).2

/-- Carries out several commands, one after the other. -/
def performAll (b : Builder) : List AnyCommand → Builder
  | [] => b
  | ⟨_, c⟩ :: rest => (b.perform c).2.performAll rest

/-- Each command of a list mentions only what the builder holds when its turn comes. -/
def KnowsAll (b : Builder) : List AnyCommand → Prop
  | [] => True
  | ⟨_, c⟩ :: rest => b.Knows c ∧ (b.perform c).2.KnowsAll rest

instance decidableKnowsAll (b : Builder) : (commands : List AnyCommand) →
    Decidable (b.KnowsAll commands)
  | [] => .isTrue trivial
  | ⟨_, c⟩ :: rest =>
    have := decidableKnowsAll (b.perform c).2 rest
    inferInstanceAs (Decidable (b.Knows c ∧ (b.perform c).2.KnowsAll rest))

theorem reachable_performAll {b : Builder} {commands : List AnyCommand}
    (h : b.Reachable) (known : b.KnowsAll commands) : (b.performAll commands).Reachable := by
  induction commands generalizing b with
  | nil => exact h
  | cons first rest ih =>
    obtain ⟨r, c⟩ := first
    exact ih (h.perform c known.1) known.2

theorem performAll_concat (b : Builder) (commands : List AnyCommand) {r : Reply}
    (c : Command r) :
    b.performAll (commands ++ [⟨r, c⟩]) = ((b.performAll commands).perform c).2 := by
  induction commands generalizing b with
  | nil => rfl
  | cons first rest ih => exact ih _

theorem knowsAll_concat {b : Builder} {commands : List AnyCommand} {r : Reply}
    {c : Command r} (all : b.KnowsAll commands) (known : (b.performAll commands).Knows c) :
    b.KnowsAll (commands ++ [⟨r, c⟩]) := by
  induction commands generalizing b with
  | nil => exact ⟨known, trivial⟩
  | cons first rest ih => exact ⟨all.1, ih all.2 known⟩

/-- A builder is reachable exactly when some list of commands is its history. -/
theorem reachable_iff {b : Builder} :
    b.Reachable ↔ ∃ commands, Builder.empty.KnowsAll commands ∧
      b = Builder.empty.performAll commands := by
  constructor
  · intro h
    induction h with
    | empty => exact ⟨[], trivial, rfl⟩
    | perform c _ known ih =>
      obtain ⟨commands, all, rfl⟩ := ih
      exact ⟨commands ++ [⟨_, c⟩], knowsAll_concat all known, (performAll_concat _ _ c).symm⟩
  · rintro ⟨commands, all, rfl⟩
    exact reachable_performAll .empty all

end Builder

end Decaf.IR
