import Decaf.Proofs.Building.Verified

/-!
# Code that was dropped

A command for which there is no place in the module leaves an issue behind. An issue that was
recorded inside a function makes the check fail, whatever is built afterwards. An issue that
was recorded before there was an insertion point belongs to no function, and the check of a
module takes no notice of it.
-/

namespace Decaf.IR

namespace Builder

variable {b : Builder} {r : Reply}

/-- Code was asked for, but no block has changed. -/
def Drops (b : Builder) (c : Command r) : Prop :=
  c.emits = true ∧ (b.perform c).2.module.blocks = b.module.blocks

instance (b : Builder) (c : Command r) : Decidable (b.Drops c) :=
  inferInstanceAs (Decidable (_ ∧ _))

/-- A block that gains an instruction or its terminator is not what it was. -/
theorem modify_ne {blocks : Array Block} {c : BlockId} {data : Block} {change : Block → Block}
    (there : blocks[c.index]? = some data) (differs : change data ≠ data) :
    blocks.modify c.index change ≠ blocks := by
  intro same
  have look := congrArg (·[c.index]?) same
  simp only [Array.getElem?_modify, if_pos, there, Option.map_some, Option.some.injEq] at look
  exact differs look

/-- Whatever is dropped is recorded, for the function of the insertion point. -/
theorem Reachable.issue_of_drops (reachable : b.Reachable) {c : Command r} (known : b.Knows c)
    (drops : b.Drops c) : ∃ issue, (b.perform c).2.module.issues =
      b.module.issues.push (b.insertionFunction?, issue) := by
  obtain ⟨emits, blocks⟩ := drops
  have effect := reachable.effect known
  rw [emits] at effect
  cases effect with
  | insert d i change there gains records functions changed issues =>
    obtain ⟨data, held⟩ : ∃ data, b.module.blocks[d.index]? = some data :=
      ⟨_, Array.getElem?_eq_getElem there⟩
    refine absurd (changed.symm.trans blocks) (modify_ne held fun same => ?_)
    have longer := (gains data).insts.length_eq
    rw [same, List.length_cons] at longer
    omega
  | close d t isOpen functions changed issues =>
    cases held : b.module.block? d with
    | none => simp [isClosed, held] at isOpen
    | some data =>
      refine absurd (changed.symm.trans blocks) (modify_ne held fun same => ?_)
      have closed : data.terminator = some t := (congrArg Block.terminator same).symm
      simp [isClosed, held, closed] at isOpen
  | drop issue functions same issues => exact ⟨issue, issues⟩

/-- Code that is dropped at an insertion point is reported by every later check. -/
theorem drop_reported (reachable : b.Reachable) {c : Command r} (known : b.Knows c)
    (drops : b.Drops c) (placed : b.insertion ≠ none) (rest : List AnyCommand)
    (knownRest : (b.perform c).2.KnowsAll rest) :
    ((b.perform c).2.performAll rest).module.check ≠ .ok () := by
  obtain ⟨d, here⟩ := Option.ne_none_iff_exists'.1 placed
  obtain ⟨f, owner⟩ := reachable.placed here
  obtain ⟨issue, pushed⟩ := reachable.issue_of_drops known drops
  have next := reachable.perform c known
  have kept := next.later_performAll knownRest
  have function : b.insertionFunction? = some f := by
    rw [insertionFunction?, here]
    exact owner
  have recorded : (some f, issue) ∈ ((b.perform c).2.performAll rest).module.issues := by
    refine Array.mem_toList_iff.1 (kept.issues.subset (Array.mem_toList_iff.2 ?_))
    rw [pushed, function]
    exact Array.mem_push_self
  have stays := kept.owners d f ((reachable.later_perform known).owners d f owner)
  exact Module.check_ne_ok_of_issue (reachable_performAll next knownRest).owned stays recorded

/-- The commands that build a function `f` of one block, in which it returns. -/
def returning : List AnyCommand :=
  [⟨_, .declareFunction "f" .void []⟩, ⟨_, .appendBlock ⟨0⟩ "entry"⟩, ⟨_, .positionAtEnd ⟨0⟩⟩,
    ⟨_, .terminate (.ret none)⟩]

/-- A second return in the same block is dropped and reported. -/
theorem second_return_reported :
    Builder.empty.KnowsAll returning ∧
      (Builder.empty.performAll returning).Drops (.terminate (.ret none)) ∧
      ((Builder.empty.performAll returning).perform (.terminate (.ret none))).2.module.check
        ≠ .ok () := by
  have known : Builder.empty.KnowsAll returning := by decide
  have drops : (Builder.empty.performAll returning).Drops (.terminate (.ret none)) := by decide
  refine ⟨known, drops, ?_⟩
  exact drop_reported (reachable_performAll .empty known) (by decide) drops (by decide) [] trivial

/-- A return before any block was chosen is dropped, and the module passes the check. -/
theorem unplaced_return_unreported :
    Builder.empty.KnowsAll (⟨_, .terminate (.ret none)⟩ :: returning) ∧
      Builder.empty.Drops (.terminate (.ret none)) ∧
      (Builder.empty.performAll (⟨_, .terminate (.ret none)⟩ :: returning)).module.check
        = .ok () := by
  refine ⟨by decide, by decide, by rfl⟩

end Builder

end Decaf.IR
