import Decaf.Proofs.Generation.Commands
import Decaf.Proofs.Generation.Outcome

/-!
# Reserving slots

`Building` says where a builder is within a function: whether the block it stands at is open,
which blocks wait for code, and how many slots the entry of the function has. `Reserves` says of
a computation how it gets from one such place to another one, and comes with one rule for each
command and for each way in which computations are put together. Allocas count wherever the
builder stands; nothing else does.
-/

namespace Decaf

open IR

namespace IR

/-- The command emits an instruction that is not an alloca, or names a constant or a string. -/
def Command.isPlain : Command r → Bool
  | .load _ _ _ | .store _ _ | .elementPtr _ _ _ | .binary _ _ _ _ | .unary _ _ _ => true
  | .zext _ _ | .phi _ _ _ | .call _ _ | .globalString _ | .const _ => true
  | _ => false

namespace Builder

/-- The builder is at work on a function with the given entry, in a block that is open or closed
as the flag says, while the blocks of the list wait for their code. So many slots are reserved. -/
structure Building (b : Builder) (f : FunctionId) (entry : BlockId) (closed : Bool)
    (waiting : List BlockId) (slots : Nat) : Prop where
  first : (b.module.function? f).bind Function.entry? = some entry
  owned : b.module.functionOf? entry = some f
  order : b.module.OrderedAt entry
  slots : (b.module.slotsOf entry).length = slots
  here : ∃ c, b.insertion = some c ∧ b.module.functionOf? c = some f ∧
    (b.module.terminator? c).isSome = closed ∧ c ∉ waiting
  waits : ∀ c ∈ waiting, b.module.functionOf? c = some f ∧ b.module.terminator? c = none
  distinct : waiting.Nodup

/-- A plain command leaves all slots as they are. -/
theorem StandsAt.edit_perform {b : Builder} {c : BlockId} {f : FunctionId} (at_ : b.StandsAt c f)
    {r : Reply} {command : Command r} (plain : command.isPlain = true) :
    ∃ code, b.module.Edit (b.perform command).2.module c [] code none ∧
      (b.perform command).2.insertion = some c := by
  have emitted (ty : Ty) (hint : String) (inst : ValueId → Inst)
      (other : ∀ v, (inst v).isAlloca = false) :
      ∃ code, b.module.Edit (b.emit ty hint inst).2.module c [] code none ∧
        (b.emit ty hint inst).2.insertion = some c :=
    have emits := at_.emit ty hint inst other
    ⟨_, emits.2.2.1, emits.2.1⟩
  have pushed {i : Inst} (other : i.isAlloca = false) :
      ∃ code, b.module.Edit (b.extend (Block.push i)).module c [] code none ∧
        (b.extend (Block.push i)).insertion = some c :=
    ⟨_, at_.push other, (insertion_extend ..).trans at_.here⟩
  cases command with
  | setModuleName | declareFunction | appendBlock | positionAtEnd | terminate => cases plain
  | alloca | globalScalar | globalArray => cases plain
  | store value address => exact pushed rfl
  | globalString contents => exact ⟨_, b.edit_pushString c ".str" _, at_.here⟩
  | const k => exact ⟨_, (b.edit_pushValue c _).1, at_.here⟩
  | call callee args =>
    have emits := emitted (((b.module.function? callee).map (·.ret)).getD .void) "call"
      (fun dst => .call (some dst) callee args) fun _ => rfl
    simp only [perform, call]
    split
    · exact pushed rfl
    · exact emits
  | _ => exact emitted _ _ _ fun _ => rfl

namespace Building

variable {b t : Builder} {f : FunctionId} {entry c : BlockId} {closed : Bool}
  {waiting : List BlockId} {n : Nat}

theorem stands (h : b.Building f entry false waiting n) :
    ∃ c, b.StandsAt c f ∧ c ∉ waiting := by
  obtain ⟨c, here, owned, isOpen, apart⟩ := h.here
  exact ⟨c, ⟨here, owned, by simpa using isOpen⟩, apart⟩

theorem isTerminated (h : b.Building f entry closed waiting n) : b.isTerminated = closed := by
  obtain ⟨c, here, owned, isClosed, -⟩ := h.here
  rw [Builder.isTerminated, here]
  exact (isClosed_eq owned).trans isClosed

/-- What an edit adds to the entry is counted, and the block at which the builder stands is the
only one that it can close. -/
theorem edit {d : BlockId} {slots : List (ValueId × Ty)} {code : List Inst}
    {terminator : Option Terminator} (h : b.Building f entry closed waiting n)
    (e : b.module.Edit t.module d slots code terminator) (same : t.insertion = b.insertion)
    (counted : slots = [] ∨ d = entry) (closes : terminator = none ∨ b.insertion = some d) :
    t.Building f entry (closed || terminator.isSome) waiting (n + slots.length) := by
  obtain ⟨c, here, owned, isClosed, apart⟩ := h.here
  have terms (g : BlockId) (other : g ≠ c) : t.module.terminator? g = b.module.terminator? g := by
    rw [e.terms]
    rcases closes with rfl | at_
    · simp
    · rw [here] at at_
      cases at_
      rw [if_neg other]
  exact {
    first := by
      rw [Module.function?, e.functions]
      exact h.first
    owned := (e.owners entry).trans h.owned
    order := e.order entry h.order
    slots := by
      rw [e.slots, List.length_append, h.slots]
      rcases counted with rfl | rfl
      · simp
      · simp
    here := by
      refine ⟨c, same.trans here, (e.owners c).trans owned, ?_, apart⟩
      rw [e.terms, ← isClosed]
      rcases closes with rfl | at_
      · simp
      · rw [here] at at_
        cases at_
        cases terminator <;> simp
    waits := fun g hg => by
      rw [e.owners, terms g fun same => apart (same ▸ hg)]
      exact h.waits g hg
    distinct := h.distinct }

theorem perform (h : b.Building f entry false waiting n) {r : Reply} {command : Command r}
    (plain : command.isPlain = true) :
    (b.perform command).2.Building f entry false waiting n := by
  obtain ⟨c, at_, -⟩ := h.stands
  obtain ⟨code, e, here⟩ := at_.edit_perform plain
  exact h.edit e (here.trans at_.here.symm) (.inl rfl) (.inl rfl)

theorem alloca (h : b.Building f entry false waiting n) (ty : Ty) (hint : String) :
    (b.alloca ty hint).2.Building f entry false waiting (n + 1) := by
  obtain ⟨c, at_, -⟩ := h.stands
  obtain ⟨F, hF, first⟩ := Option.bind_eq_some_iff.1 h.first
  obtain ⟨-, here, e, -⟩ := at_.alloca hF first h.owned h.order ty hint
  exact h.edit e (here.trans at_.here.symm) (.inr rfl) (.inl rfl)

theorem terminate (h : b.Building f entry false waiting n) (u : Terminator) :
    (b.extend (Block.close u)).Building f entry true waiting n := by
  obtain ⟨c, at_, -⟩ := h.stands
  exact h.edit (at_.close u) (insertion_extend ..) (.inl rfl) (.inr at_.here)

/-- A new block waits among those that do already. -/
theorem append {own outer : List BlockId} (h : b.Building f entry closed (own ++ outer) n)
    (hint : String) :
    (b.appendBlock f hint).2.Building f entry closed
      (own ++ (b.appendBlock f hint).1 :: outer) n := by
  obtain ⟨a, same⟩ := b.appendBlock_append f hint
  have old {g : BlockId} (held : b.module.functionOf? g = some f) :
      g ≠ (b.appendBlock f hint).1 := by
    rintro rfl
    rw [a.not_owned] at held
    cases held
  have fresh : (b.appendBlock f hint).1 ∉ own ++ outer :=
    fun mem => old (h.waits _ mem).1 rfl
  obtain ⟨F, hF, first⟩ := Option.bind_eq_some_iff.1 h.first
  obtain ⟨c, here, owned, isClosed, apart⟩ := h.here
  have among (g : BlockId) : g ∈ own ++ (b.appendBlock f hint).1 :: outer ↔
      g = (b.appendBlock f hint).1 ∨ g ∈ own ++ outer := by
    simp only [List.mem_append, List.mem_cons]
    exact or_left_comm
  exact {
    first := by
      rw [a.function F hF]
      show Function.entry? _ = some entry
      rw [Function.entry?, Array.getElem?_push,
        if_neg (Nat.ne_of_lt (Array.getElem?_eq_some_iff.1 first).1)]
      exact first
    owned := by
      rw [a.functionOf?_of_ne (old h.owned)]
      exact h.owned
    order := fun data held => h.order data (by rwa [← a.others _ (old h.owned)])
    slots := by rw [a.slotsOf, h.slots]
    here := by
      refine ⟨c, same.trans here, ?_, by rw [a.terminator?, isClosed], fun mem => ?_⟩
      · rw [a.functionOf?_of_ne (old owned), owned]
      · rcases (among c).1 mem with new | mem
        · exact old owned new
        · exact apart mem
    waits := fun g hg => by
      rw [a.terminator?]
      rcases (among g).1 hg with rfl | hg
      · exact ⟨a.functionOf?, by rw [← a.terminator?, a.terminator?_self]⟩
      · obtain ⟨held, isOpen⟩ := h.waits g hg
        exact ⟨by rw [a.functionOf?_of_ne (old held), held], isOpen⟩
    distinct := List.perm_middle.nodup_iff.2 (List.nodup_cons.2 ⟨fresh, h.distinct⟩) }

/-- The builder moves to the first of the blocks that wait. -/
theorem position (h : b.Building f entry closed (c :: waiting) n) :
    Building { b with insertion := some c } f entry false waiting n where
  first := h.first
  owned := h.owned
  order := h.order
  slots := h.slots
  here := by
    obtain ⟨owned, isOpen⟩ := h.waits c (List.mem_cons_self ..)
    exact ⟨c, rfl, owned, by rw [show _ = none from isOpen]; rfl,
      (List.nodup_cons.1 h.distinct).1⟩
  waits d hd := h.waits d (List.mem_cons_of_mem _ hd)
  distinct := (List.nodup_cons.1 h.distinct).2

end Building

end Builder

end IR

namespace Gen

/-- From any place in the function of the first kind, inside the given loops, the computation
comes, unless it fails, to a place of the second kind, and reserves `n` slots on the way. -/
def Reserves {α : Type} (f : FunctionId) (entry : BlockId) (loops : LoopStack) (closed : Bool)
    (waiting : List BlockId) (x : Gen Builder α) (n : Nat) (closed' : Bool)
    (waiting' : List BlockId) : Prop :=
  ∀ k s, s.loops = loops → s.target.Building f entry closed waiting k →
    Ends x s (fun _ s' => s'.loops = loops ∧
      s'.target.Building f entry closed' waiting' (k + n)) fun _ => True

section

variable {f : FunctionId} {entry c : BlockId} {loops : LoopStack} {closed closed' closed'' : Bool}
  {waiting waiting' waiting'' own : List BlockId} {n n' : Nat} {α β : Type} {m : MethodContext}

theorem Reserves.bind {x : Gen Builder α} {g : α → Gen Builder β}
    (first : Reserves f entry loops closed waiting x n closed' waiting')
    (rest : ∀ a, Reserves f entry loops closed' waiting' (g a) n' closed'' waiting'') :
    Reserves f entry loops closed waiting (x >>= g) (n + n') closed'' waiting'' := by
  intro k s inside at_
  refine ends_bind (first k s inside at_) fun a s' ⟨inside', at'⟩ => ?_
  rw [← Nat.add_assoc]
  exact rest a (k + n) s' inside' at'

/-- The first part reserves nothing. -/
theorem Reserves.then {x : Gen Builder α} {g : α → Gen Builder β}
    (first : Reserves f entry loops closed waiting x 0 closed' waiting')
    (rest : ∀ a, Reserves f entry loops closed' waiting' (g a) n closed'' waiting'') :
    Reserves f entry loops closed waiting (x >>= g) n closed'' waiting'' := by
  have both := first.bind rest
  rwa [Nat.zero_add] at both

/-- The second part reserves nothing. -/
theorem Reserves.before {x : Gen Builder α} {g : α → Gen Builder β}
    (first : Reserves f entry loops closed waiting x n closed' waiting')
    (rest : ∀ a, Reserves f entry loops closed' waiting' (g a) 0 closed'' waiting'') :
    Reserves f entry loops closed waiting (x >>= g) n closed'' waiting'' :=
  first.bind rest

theorem Reserves.map {x : Gen Builder α} {g : α → β}
    (h : Reserves f entry loops closed waiting x n closed' waiting') :
    Reserves f entry loops closed waiting (g <$> x) n closed' waiting' :=
  fun k s inside at_ => ends_map (h k s inside at_)

theorem reserves_pure (a : α) : Reserves f entry loops closed waiting (pure a) 0 closed waiting :=
  fun _ _ inside at_ => ends_pure ⟨inside, at_⟩

theorem reserves_throw (e : CompileError) :
    Reserves f entry loops closed waiting (throw e : Gen Builder α) n closed' waiting' :=
  fun _ _ _ _ => ends_throw trivial

theorem reserves_typeOf (v : ValueId) :
    Reserves f entry loops closed waiting (typeOf v) 0 closed waiting :=
  fun _ _ inside at_ => ends_get (ends_pure ⟨inside, at_⟩)

theorem reserves_parameter? (index : Nat) :
    Reserves f entry loops closed waiting (parameter? f index) 0 closed waiting :=
  fun _ _ inside at_ => ends_get (ends_pure ⟨inside, at_⟩)

theorem reserves_fromScopes (query : ScopeStack → Except CompileError α) :
    Reserves f entry loops closed waiting (fromScopes query) 0 closed waiting :=
  fun _ _ inside at_ => ends_fromScopes (fun _ _ => ⟨inside, at_⟩) fun _ _ => trivial

theorem reserves_bindName (name : String) (d : Descriptor) :
    Reserves f entry loops closed waiting (bindName name d) 0 closed waiting :=
  fun _ _ inside at_ => ends_bindName (fun _ => ⟨inside, at_⟩) fun _ _ => trivial

theorem reserves_warn (w : Warning) :
    Reserves f entry loops closed waiting (warn w) 0 closed waiting :=
  fun _ _ inside at_ => ends_warn ⟨inside, at_⟩

theorem reserves_emit {r : Reply} (command : Command r) (plain : command.isPlain = true) :
    Reserves f entry loops false waiting (emit command) 0 false waiting :=
  fun _ _ inside at_ => ends_emit ⟨inside, at_.perform plain⟩

theorem reserves_alloca (ty : IR.Ty) (hint : String) :
    Reserves f entry loops false waiting (emit (.alloca ty hint)) 1 false waiting :=
  fun _ _ inside at_ => ends_emit ⟨inside, at_.alloca ty hint⟩

theorem reserves_terminate (t : Terminator) :
    Reserves f entry loops false waiting (emit (.terminate t)) 0 true waiting :=
  fun _ _ inside at_ => ends_emit ⟨inside, at_.terminate t⟩

theorem reserves_position :
    Reserves f entry loops closed (c :: waiting) (emit (.positionAtEnd c)) 0 false waiting :=
  fun _ _ inside at_ => ends_emit ⟨inside, at_.position⟩

/-- A block is appended to those that wait already. -/
theorem Reserves.append (own : List BlockId) {hint : String} {g : BlockId → Gen Builder β}
    (rest : ∀ c, Reserves m.function entry loops closed (own ++ c :: waiting) (g c) n closed'
      waiting') :
    Reserves m.function entry loops closed (own ++ waiting) (appendBlock m hint >>= g) n closed'
      waiting' := by
  intro k s inside at_
  exact ends_bind (P := fun c s' => s'.loops = loops ∧
      s'.target.Building m.function entry closed (own ++ c :: waiting) k)
    (ends_emit ⟨inside, at_.append hint⟩) fun c s' ⟨inside', at'⟩ => rest c k s' inside' at'

theorem reserves_insertionBlock :
    Reserves f entry loops closed waiting (insertionBlock m) 0 closed waiting := by
  intro k s inside at_
  obtain ⟨c, here, -⟩ := at_.here
  refine ends_get ?_
  rw [show Target.insertion? s.target = some c from here]
  exact ends_pure ⟨inside, at_⟩

theorem Reserves.ask {g : Bool → Gen Builder β}
    (rest : Reserves f entry loops closed waiting (g closed) n closed' waiting') :
    Reserves f entry loops closed waiting (isTerminated >>= g) n closed' waiting' := by
  intro k s inside at_
  apply ends_isTerminated
  rw [show Target.isTerminated s.target = closed from at_.isTerminated]
  exact rest k s inside at_

/-- The branch is taken if the block is open, and afterwards it is closed. -/
theorem Reserves.branch {next : BlockId} {g : Bool → Gen Builder β}
    (rest : Reserves f entry loops true waiting (g (!closed)) n closed' waiting') :
    Reserves f entry loops closed waiting (branchIfOpen next >>= g) n closed' waiting' := by
  rw [branchIfOpen, bind_assoc]
  apply Reserves.ask
  cases closed with
  | true => exact rest
  | false =>
    rw [if_neg Bool.false_ne_true, bind_assoc]
    exact (reserves_terminate (.br next)).then fun _ => rest

theorem Reserves.inScope {x : Gen Builder Unit}
    (h : Reserves f entry loops closed waiting x n closed' waiting') :
    Reserves f entry loops closed waiting (inScope x) n closed' waiting' :=
  fun k _ inside at_ => ends_inScope (h k _ inside at_)

theorem Reserves.inLoop {x : Gen Builder Unit} {targets : LoopTargets}
    (h : Reserves f entry (loops.push targets) closed waiting x n closed' waiting') :
    Reserves f entry loops closed waiting (inLoop targets x) n closed' waiting' := by
  intro k s inside at_
  refine ends_inLoop ((h k { s with loops := s.loops.push targets }
    (congrArg (LoopStack.push · targets) inside) at_).mono ?_ fun _ h => h)
  rintro _ s' ⟨inside', at'⟩
  exact ⟨congrArg LoopStack.pop inside', at'⟩

end

end Gen

end Decaf
