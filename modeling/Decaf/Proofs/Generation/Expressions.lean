import Decaf.Proofs.Generation.Branches

/-!
# Generating expressions

Code for an expression advances from one open block to another and leaves an operand. The
connectives are the only expressions that branch: both ways meet in a block that nothing
else leads to, so its phi names each predecessor once.
-/

namespace Decaf

open IR

section Types

/-- If the operands have one type, so does the instruction; else both become integers. -/
theorem BinaryOp.result?_same {op : BinaryOp} {bin : BinOp} {hint : String} {l r ty : Ty}
    (strategy : op.strategy = .instruction bin hint) (result : op.result? l r = some ty)
    (same : l.repr = r.repr) :
    (l.repr = .i32 ∨ l.repr = .i1 ∧ (bin = .eq ∨ bin = .ne)) ∧
      bin.resultTy l.repr = ty.repr := by
  cases op <;> cases strategy <;> revert same result <;> cases l <;> cases r <;>
    simp [BinaryOp.result?, Ty.isNumeric, Ty.mixes, Ty.repr, BinOp.resultTy,
      BinOp.isComparison] <;> rintro rfl <;> rfl

theorem BinaryOp.result?_mixed {op : BinaryOp} {bin : BinOp} {hint : String} {l r ty : Ty}
    (strategy : op.strategy = .instruction bin hint) (result : op.result? l r = some ty)
    (differ : l.repr ≠ r.repr) :
    Ty.int.accepts l = true ∧ Ty.int.accepts r = true ∧ bin.resultTy .i32 = ty.repr := by
  cases op <;> cases strategy <;> revert differ result <;> cases l <;> cases r <;>
    simp [BinaryOp.result?, Ty.isNumeric, Ty.mixes, Ty.repr, BinOp.resultTy,
      BinOp.isComparison, Ty.accepts] <;> rintro rfl <;> rfl

theorem BinaryOp.result?_connective {op : BinaryOp} {c : Connective} {l r ty : Ty}
    (strategy : op.strategy = .connective c) (result : op.result? l r = some ty) :
    l = .bool ∧ r = .bool ∧ ty = .bool := by
  cases op <;> cases strategy <;> revert result <;> cases l <;> cases r <;>
    simp [BinaryOp.result?] <;> exact fun h => h.symm

theorem BinaryOp.result?_value {op : BinaryOp} {l r ty : Ty} (result : op.result? l r = some ty) :
    l ≠ .void ∧ r ≠ .void ∧ ty ≠ .void := by
  revert result
  cases op <;> cases l <;> cases r <;>
    simp [BinaryOp.result?, Ty.isNumeric, Ty.mixes] <;> rintro rfl <;> simp

end Types

namespace Gen

section

variable {typed : Prop} {mc : MethodContext} {scopes : ScopeStack}

/-- An operator that is carried out by one instruction. -/
theorem leaves_instruction {lhs rhs : Gen Builder ValueId} {op : BinaryOp} {bin : BinOp}
    {hint : String} {l r ty : Ty} (strategy : op.strategy = .instruction bin hint)
    (result : typed → op.result? l r = some ty) (left : Leaves typed mc scopes lhs l.repr)
    (right : Leaves typed mc scopes rhs r.repr) :
    Leaves typed mc scopes (instruction bin hint lhs rhs) ty.repr := by
  intro p s b site isOpen serves here
  refine ends_bind (left p s b site isOpen serves here) ?_
  rintro v s₁ ⟨p₁, b₁, a₁, lv⟩
  have serves₁ := serves.refines a₁.reached.plan
  refine ends_bind (right p₁ s₁ b₁ a₁.reached.site a₁.isOpen serves₁
    (a₁.reached.scopes.trans here)) ?_
  rintro w s₂ ⟨p₂, b₂, a₂, rw₂⟩
  have lv₂ := a₂.operand lv
  have a₁₂ := a₁.next a₂
  apply ends_typeOf
  apply ends_typeOf
  split
  · rename_i same
    change s₂.target.module.typeOf v = s₂.target.module.typeOf w at same
    refine (ends_emit_inst a₂.reached.site a₂.isOpen (bin.resultTy (s₂.target.module.typeOf v))
      hint (fun dst => .binary dst bin v w) rfl (fun _ => ⟨rfl, rfl⟩) (fun _ => rfl)
      (fun m' u ext defines new => ?_) fun t => ?_).mono
        (fun _ _ h => ⟨p₂, b₂, a₁₂.next h.1, h.2.1⟩) fun _ h => h
    · simp only [Module.InstOk, lv₂.usable.typeOf ext, rw₂.usable.typeOf ext]
      refine ⟨defines, lv₂.usable.mono ext fun _ mem => mem,
        rw₂.usable.mono ext fun _ mem => mem, fun t => ⟨same, ?_⟩⟩
      rw [lv₂.type t, rw₂.type t] at same
      rw [lv₂.type t]
      exact (BinaryOp.result?_same strategy (result t) same).1
    · rw [lv₂.type t, rw₂.type t] at same
      rw [lv₂.type t]
      exact (BinaryOp.result?_same strategy (result t) same).2
  · rename_i differ
    change s₂.target.module.typeOf v ≠ s₂.target.module.typeOf w at differ
    have mixed (t : typed) := BinaryOp.result?_mixed strategy (result t)
      (by rwa [lv₂.type t, rw₂.type t] at differ)
    refine ends_bind (ends_coerce a₂.reached.site a₂.isOpen lv₂.usable .int
      fun t => ⟨l, lv₂.type t, (mixed t).1⟩) ?_
    rintro v' s₃ ⟨a₃, lv₃⟩
    have rw₃ := a₃.operand rw₂
    refine ends_bind (ends_coerce a₃.reached.site a₃.isOpen rw₃.usable .int
      fun t => ⟨r, rw₃.type t, (mixed t).2.1⟩) ?_
    rintro w' s₄ ⟨a₄, rw₄⟩
    have lv₄ := a₄.operand lv₃
    refine (ends_emit_inst a₄.reached.site a₄.isOpen (bin.resultTy (s₄.target.module.typeOf v'))
      hint (fun dst => .binary dst bin v' w') rfl (fun _ => ⟨rfl, rfl⟩) (fun _ => rfl)
      (fun m' u ext defines new => ?_) fun t => ?_).mono
        (fun _ _ h => ⟨p₂, b₂, ((a₁₂.next a₃).next a₄).next h.1, h.2.1⟩) fun _ h => h
    · simp only [Module.InstOk, lv₄.usable.typeOf ext, rw₄.usable.typeOf ext]
      exact ⟨defines, lv₄.usable.mono ext fun _ mem => mem,
        rw₄.usable.mono ext fun _ mem => mem, fun t =>
          ⟨(lv₄.type t).trans (rw₄.type t).symm, .inl (lv₄.type t)⟩⟩
    · rw [lv₄.type t]
      exact (mixed t).2.2

/-- The phi of a connective is put into the block where both ways meet. -/
theorem ends_merge {p₀ p : Plan} {s₀ s : GenState Builder} {b₀ b : BlockId}
    (r : Reached typed p₀ s₀ b₀ p s b []) (isOpen : s.target.module.terminator? b = none)
    (new : s₀.target.module.blocks.size ≤ b.index) (empty : s.target.module.codeOf b = [])
    {incoming : List (ValueId × BlockId)} {hint : String}
    (once : (incoming.map Prod.snd).Nodup)
    (sources : ∀ q, q ∈ incoming.map Prod.snd ↔
      s.target.module.functionOf? q = some p.function ∧ b ∈ s.target.module.successorsOf q)
    (usable : ∀ i ∈ incoming, s.target.module.Usable p (s.target.module.there p i.2) i.1 ∧
      (typed → s.target.module.typeOf i.1 = .i1)) :
    Ends (emit (.phi .i1 incoming hint)) s
      (fun v s' => ∃ p' b', Advances typed p₀ s₀ b₀ p' s' b' ∧
        Operand typed s'.target.module p' b' .i1 v) (Refusal typed) := by
  apply ends_emit
  obtain ⟨id, here, e, name, value⟩ := (r.site.stands isOpen).emit .i1 hint
    (fun dst => .phi dst .i1 incoming) fun _ => rfl
  have inner : b ≠ p.entry := by
    rintro rfl
    have := Module.index_lt_of_functionOf? r.base.body.entry_owned
    rw [← r.plan.entry] at this
    omega
  have code : (s.target.emit .i1 hint fun dst => .phi dst .i1 incoming).2.module.codeOf b =
      [.phi ⟨s.target.module.values.size⟩ .i1 incoming] := by
    rw [e.code, if_pos rfl, empty]
    rfl
  have defines := r.site.body.defines_new e value
  have phi : (s.target.emit .i1 hint fun dst => .phi dst .i1 incoming).2.module.PhiOk typed p b
      [] (.phi ⟨s.target.module.values.size⟩ .i1 incoming) := by
    refine ⟨_, incoming, rfl, rfl, inner, defines, once, fun q => ?_, fun i hi => ?_⟩
    · rw [e.owners, e.successorsOf (by simp), sources]
      simp
    · obtain ⟨use, type⟩ := usable i hi
      exact ⟨use.mono e.ext (Module.there_prefix (e.codeOf_prefix i.2)),
        fun t => (use.typeOf e.ext).trans (type t)⟩
  have reached := r.edit here e
    (r.site.body.edit e (fun _ => isOpen) (by simp) List.nodup_nil
      (fun pre i post hi => by
        cases pre with
        | nil =>
          obtain ⟨rfl, -⟩ := List.cons.inj hi
          rw [empty]
          exact .inr phi
        | cons k pre => simp at hi) (by simp))
    r.site.owned (.inl rfl) (by simp)
    (fun same => by
      have := r.base.index_lt
      rw [same] at new
      omega) (by simp)
  refine ⟨p, b, ⟨reached, ?_⟩, ?_⟩
  · exact (e.terms b).trans (by simp [isOpen])
  · change Operand typed (s.target.emit .i1 hint fun dst => .phi dst .i1 incoming).2.module p b
      .i1 (s.target.emit .i1 hint fun dst => .phi dst .i1 incoming).1
    rw [id]
    refine ⟨.inr ⟨?_, ?_⟩, fun _ => Module.typeOf_of_value? value⟩
    · rw [Module.there, code]
      exact List.mem_append_right _ (by simp [defined, Inst.defined?])
    · simp [Module.owner?, value, (e.owners b).trans r.site.owned]

/-- A connective branches to the right operand and to the end, in one order or the other. -/
theorem branches_mem {c : Connective} {r d x y : BlockId} (h : c.branches r d = (x, y)) :
    x ∈ [r, d] ∧ y ∈ [r, d] ∧ (d = x ∨ d = y) := by
  cases c <;> cases h <;> simp

/-- The right operand is evaluated in a block of its own, and both ways meet at a phi. -/
theorem ends_onDemand {c : Connective} {rhs : Gen Builder ValueId} {p : Plan}
    {s : GenState Builder} {b : BlockId} {l : ValueId} (right : Leaves typed mc scopes rhs .i1)
    (site : Site typed p s b) (isOpen : s.target.module.terminator? b = none)
    (serves : mc.Serves p) (here : s.scopes = scopes)
    (left : Operand typed s.target.module p b .i1 l) :
    Ends (do
      let rhsBlock ← appendBlock mc (c.name ++ ".rhs")
      let doneBlock ← appendBlock mc (c.name ++ ".end")
      let lhsExit ← insertionBlock mc
      let (onTrue, onFalse) := c.branches rhsBlock doneBlock
      emit (.terminate (.condBr l onTrue onFalse))
      emit (.positionAtEnd rhsBlock)
      let r ← rhs
      let rhsExit ← insertionBlock mc
      let _ ← branchIfOpen doneBlock
      emit (.positionAtEnd doneBlock)
      emit (.phi .i1 [(l, lhsExit), (r, rhsExit)] c.name)) s
      (fun v s' => ∃ p' b', Advances typed p s b p' s' b' ∧
        Operand typed s'.target.module p' b' .i1 v) (Refusal typed) := by
  refine ends_bind (ends_appendBlock (.refl site) serves _) ?_
  rintro rhsBlock s₁ ⟨r₁, new₁⟩
  refine ends_bind (ends_appendBlock r₁ (serves.refines r₁.plan) _) ?_
  rintro doneBlock s₂ ⟨r₂, new₂⟩
  have r₂ : Reached typed p s b _ s₂ b [rhsBlock, doneBlock] := r₂
  have opened : s.target.module.Appends p.function s₂.target.module :=
    .append (.append .refl new₁) new₂
  have open₂ := (opened.terminator? b).trans isOpen
  refine ends_insertionBlock (show Target.insertion? s₂.target = some b from r₂.site.here) ?_
  rcases hb : c.branches rhsBlock doneBlock with ⟨onTrue, onFalse⟩
  obtain ⟨true_mem, false_mem, leads⟩ := branches_mem hb
  obtain ⟨closes, joins⟩ := r₂.closes_condBr (r₂.operand left) true_mem false_mem
  refine ends_goOn r₂ open₂ closes joins fun s₃ moved => ?_
  have r₃ := moved.reached
  refine ends_bind (right _ s₃ rhsBlock r₃.site moved.isOpen (serves.refines r₃.plan)
    (r₃.scopes.trans here)) ?_
  rintro r s₄ ⟨p₄, b₄, a₄, right⟩
  have r₄ := r₃.next a₄.reached
  refine ends_insertionBlock (show Target.insertion? s₄.target = some b₄ from r₄.site.here) ?_
  have done_new := (r₄.waiting doneBlock (by simp)).2.2
  refine ends_bind (ends_branchIfOpen r₄ (r₄.joinable (by simp)) done_new) ?_
  rintro fell s₅ ⟨r₅, closed₅, -, e₅, falls, -⟩
  obtain rfl : fell = true := by simpa [a₄.isOpen] using falls
  refine ends_bind (ends_position r₅ closed₅) ?_
  rintro _ s₆ ⟨r₆, same₆, open₆, empty₆⟩
  -- of the code before the end only the block with the branch leads to it
  have apart : b ≠ rhsBlock := (r₂.waiting rhsBlock (by simp)).2.1.symm
  have free := Module.Append.unjoined r₁.site.body new₂
  have only := moved.joinedBy r₂.site open₂ free
    (by simpa [Terminator.successors] using leads) (by simp) apart a₄.reached
  have exits : b ≠ b₄ :=
    (a₄.reached.exit_ne (Module.index_lt_of_functionOf? ((moved.edit.owners b).trans r₂.site.owned))
      apart).symm
  refine ends_merge r₆ open₆ done_new empty₆ (by simpa using exits) (fun q => ?_) fun i hi => ?_
  · rw [same₆, r₅.plan.function]
    exact only.close_br e₅ a₄.isOpen (r₄.grown.ext.blocks _ _ site.owned)
      (r₄.plan.function ▸ r₄.site.owned) q
  · rw [same₆]
    rcases List.mem_cons.1 hi with rfl | hi
    · have operand := r₅.operand_start left
      exact ⟨operand.usable, operand.type⟩
    · obtain rfl := List.mem_singleton.1 hi
      have operand := right.edit e₅
      exact ⟨operand.usable, operand.type⟩

/-- An operator that evaluates its right operand only on demand. -/
theorem leaves_connective {c : Connective} {lhs rhs : Gen Builder ValueId}
    (left : Leaves typed mc scopes lhs .i1) (right : Leaves typed mc scopes rhs .i1) :
    Leaves typed mc scopes (connective mc c lhs rhs) .i1 := by
  intro p s b site isOpen serves here
  refine ends_bind (left p s b site isOpen serves here) ?_
  rintro l s₁ ⟨p₁, b₁, a₁, operand⟩
  -- what follows is a construct of its own, which begins after the left operand
  refine (ends_onDemand right a₁.reached.site a₁.isOpen (serves.refines a₁.reached.plan)
    (a₁.reached.scopes.trans here) operand).mono ?_ fun _ h => h
  rintro v s₂ ⟨p₂, b₂, a₂, operand⟩
  exact ⟨p₂, b₂, a₁.next a₂, operand⟩

/-- A scalar variable is loaded from its slot. -/
theorem leaves_variableValue (name : String) (line : Nat) {ty : Ty}
    (type : typed → scopes.context.find? name = some (.variable ty)) :
    Leaves typed mc scopes (variableValue name line) ty.repr := by
  intro p s b site isOpen serves here
  refine ends_bind (P := fun x s' => s' = s ∧ s.scopes.resolveScalar name line = .ok x)
    (ends_fromScopes (fun x found => ⟨rfl, found⟩) fun e refused => ?_) ?_
  · obtain ⟨acceptable, unfit⟩ := site.scopes.resolveScalar_error refused
    exact ⟨fun t => unfit ty (here ▸ type t), acceptable⟩
  · rintro ⟨found, address⟩ _ ⟨rfl, resolved⟩
    obtain ⟨slot, entity⟩ := site.scopes.resolveScalar_ok resolved
    refine (ends_emit_inst site isOpen found.repr name (fun dst => .load dst found.repr address)
      rfl (fun _ => ⟨rfl, rfl⟩) (fun _ => rfl)
      (fun m' u ext defines new => ⟨defines, .inl (slot.mono ext)⟩) fun t => ?_).mono
        (fun _ _ h => ⟨p, b, h.1, h.2.1⟩) fun _ h => h
    have := type t
    rw [← here, entity] at this
    cases this
    rfl

/-- The expression may leave no value, as a call of a void function does. -/
def MayLeave (typed : Prop) (mc : MethodContext) (scopes : ScopeStack)
    (g : Gen Builder (Option ValueId)) (ty : Ty) : Prop :=
  ∀ p s b, Site typed p s b → s.target.module.terminator? b = none → mc.Serves p →
    s.scopes = scopes → Ends g s
      (fun r s' => ∃ p' b', Advances typed p s b p' s' b' ∧
        (∀ v, r = some v → Operand typed s'.target.module p' b' ty.repr v) ∧
        (typed → ty ≠ .void → r ≠ none))
      (Refusal typed)

theorem MayLeave.of_leaves {g : Gen Builder ValueId} {ty : Ty}
    (h : Leaves typed mc scopes g ty.repr) : MayLeave typed mc scopes (some <$> g) ty := by
  intro p s b site isOpen serves here
  refine ends_map ((h p s b site isOpen serves here).mono ?_ fun _ h => h)
  rintro v s' ⟨p', b', advances, operand⟩
  exact ⟨p', b', advances, fun w hw => Option.some.inj hw ▸ operand, fun _ _ none => by cases none⟩

theorem leaves_asValue {g : Gen Builder (Option ValueId)} {ty : Ty} (line : Nat)
    (h : MayLeave typed mc scopes g ty) (value : typed → ty ≠ .void) :
    Leaves typed mc scopes (asValue line g) ty.repr := by
  intro p s b site isOpen serves here
  refine ends_bind (h p s b site isOpen serves here) ?_
  rintro (_ | v) s' ⟨p', b', advances, operand, some⟩
  · exact ends_throw ⟨fun t => some t (value t) rfl, trivial⟩
  · exact ends_pure ⟨p', b', advances, operand v rfl⟩

/-- An element is loaded through its address. -/
theorem mayLeave_element {array : String} {line : Nat} {index : Gen Builder ValueId} {ty : Ty}
    (type : typed → scopes.context.find? array = some (.array ty))
    (position : Leaves typed mc scopes index .i32) :
    MayLeave typed mc scopes (do
      let (ty, base) ← fromScopes fun s => s.resolveArray array line
      let i ← index
      let address ← emit (.elementPtr ty.repr base i)
      some <$> emit (.load ty.repr address (array ++ ".elem"))) ty := by
  intro p s b site isOpen serves here
  refine ends_bind (P := fun x s' => s' = s ∧ s.scopes.resolveArray array line = .ok x)
    (ends_fromScopes (fun x found => ⟨rfl, found⟩) fun e refused => ?_) ?_
  · obtain ⟨acceptable, unfit⟩ := site.scopes.resolveArray_error refused
    exact ⟨fun t => unfit ty (here ▸ type t), acceptable⟩
  rintro ⟨found, base⟩ _ ⟨rfl, resolved⟩
  obtain ⟨⟨length, isGlobal⟩, entity⟩ := site.scopes.resolveArray_ok resolved
  have same (t : typed) : found = ty := by
    have := type t
    rw [← here, entity] at this
    cases this
    rfl
  refine ends_bind (position p _ b site isOpen serves here) ?_
  rintro i s₁ ⟨p₁, b₁, a₁, iv⟩
  refine ends_bind (ends_emit_inst a₁.reached.site a₁.isOpen .ptr "elem"
    (fun dst => .elementPtr dst found.repr base i) rfl (fun _ => ⟨rfl, rfl⟩) (fun _ => rfl)
    (fun m' u ext defines new => ?_) (fun _ => rfl : typed → IR.Ty.ptr = .ptr)) ?_
  · exact ⟨defines, iv.usable.ne_of_new new, ⟨length, (isGlobal.mono a₁.reached.grown.ext).mono ext⟩,
      iv.usable.mono ext fun _ mem => mem, fun t => (iv.usable.typeOf ext).trans (iv.type t)⟩
  rintro address s₂ ⟨a₂, -, code⟩
  refine ends_map ((ends_emit_inst a₂.reached.site a₂.isOpen found.repr
    (array ++ ".elem") (fun dst => .load dst found.repr address) rfl (fun _ => ⟨rfl, rfl⟩)
    (fun _ => rfl) (fun m' u ext defines new => ?_)
    (fun t => by rw [same t] : typed → found.repr = ty.repr)).mono ?_ fun _ h => h)
  · refine ⟨defines, .inr ⟨base, i, ?_⟩⟩
    rw [code, List.getLast?_concat]
  · rintro v s₃ ⟨a₃, operand, -⟩
    exact ⟨p₁, b₁, (a₁.next a₂).next a₃, fun w hw => Option.some.inj hw ▸ operand,
      fun _ _ none => by cases none⟩

/-- The call of a function with the right number of operands. -/
theorem ends_emit_call {p : Plan} {s : GenState Builder} {b : BlockId} (site : Site typed p s b)
    (isOpen : s.target.module.terminator? b = none) {f : FunctionId} {F : Function} {ret : Ty}
    {params : List Ty} {vs : List ValueId} (hF : s.target.module.function? f = some F)
    (hret : F.ret = ret.repr) (types : F.params.map (·.ty) = params.map Ty.repr)
    (arity : vs.length = params.length)
    (usable : ∀ v ∈ vs, s.target.module.Usable p (s.target.module.there p b) v)
    (typeOf : typed → vs.map s.target.module.typeOf = params.map Ty.repr) :
    Ends (emit (.call f vs)) s (fun r s' => Advances typed p s b p s' b ∧
      (∀ v, r = some v → Operand typed s'.target.module p b ret.repr v) ∧
      (typed → ret ≠ .void → r ≠ none)) (Refusal typed) := by
  apply ends_emit
  have count : F.params.length = vs.length := by
    rw [arity, ← List.length_map (f := (·.ty)), types, List.length_map]
  have ok (m' : Module) (dst : Option ValueId) (ext : s.target.module.Extends m')
      (defines : ∀ d, dst = some d → F.ret ≠ .void ∧ m'.Defines p b d F.ret)
      (none : dst = none → F.ret = .void) :
      m'.InstOk typed p b (s.target.module.codeOf b) (.call dst f vs) := by
    obtain ⟨F', hF', -, ret', params'⟩ := ext.functions f F hF
    refine ⟨F', hF', by rw [params', count], fun v hv => (usable v hv).mono ext fun _ mem => mem,
      by rwa [ret'], by rwa [ret'], fun t => ?_⟩
    rw [params', types, ← typeOf t]
    exact List.map_congr_left fun v hv => (usable v hv).typeOf ext
  have callee : ((s.target.module.function? f).map (·.ret)).getD .void = F.ret := by simp [hF]
  by_cases void : F.ret = .void
  · have perform : s.target.perform (.call f vs) =
        (none, s.target.extend (Block.push (.call none f vs))) := by
      simp only [Builder.perform, Builder.call, callee, void, if_true]
    change Advances typed p s b p { s with target := (s.target.perform (.call f vs)).2 } b ∧
      (∀ v, (s.target.perform (.call f vs)).1 = some v →
        Operand typed (s.target.perform (.call f vs)).2.module p b ret.repr v) ∧
      (typed → ret ≠ .void → (s.target.perform (.call f vs)).1 ≠ none)
    rw [perform]
    have e := (site.stands isOpen).push (i := .call none f vs) rfl
    refine ⟨⟨(Reached.refl site).push isOpen ((Builder.insertion_extend ..).trans site.here) e
      rfl (ok _ none e.ext (fun _ same => by cases same) fun _ => void), ?_⟩,
      fun _ same => (by cases same), fun _ value => ?_⟩
    · exact (e.terms b).trans (by simp [isOpen])
    · rw [hret] at void
      exact absurd (by revert void; cases ret <;> decide) value
  · have perform : s.target.perform (.call f vs) =
        (some (s.target.emit F.ret "call" fun dst => .call (some dst) f vs).1,
          (s.target.emit F.ret "call" fun dst => .call (some dst) f vs).2) := by
      simp only [Builder.perform, Builder.call, callee, void, if_false]
    change Advances typed p s b p { s with target := (s.target.perform (.call f vs)).2 } b ∧
      (∀ v, (s.target.perform (.call f vs)).1 = some v →
        Operand typed (s.target.perform (.call f vs)).2.module p b ret.repr v) ∧
      (typed → ret ≠ .void → (s.target.perform (.call f vs)).1 ≠ none)
    rw [perform]
    obtain ⟨advances, operand, -⟩ := advance_emit site isOpen F.ret "call"
      (fun dst => .call (some dst) f vs) (fun _ => ⟨rfl, rfl⟩) (fun _ => rfl)
      (fun m' v ext defines _ => ok m' (some v) ext
        (fun d hd => by cases hd; exact ⟨void, defines⟩) fun same => by cases same)
      (fun _ => hret : typed → F.ret = ret.repr)
    exact ⟨advances, fun v hv => Option.some.inj hv ▸ operand, fun _ _ none => by cases none⟩

/-- Operands for parameters of the given types, from left to right. -/
def LeaveAll (typed : Prop) (mc : MethodContext) (scopes : ScopeStack)
    (g : Gen Builder (List ValueId)) (tys : List Ty) : Prop :=
  ∀ p s b, Site typed p s b → s.target.module.terminator? b = none → mc.Serves p →
    s.scopes = scopes → Ends g s
      (fun vs s' => ∃ p' b', Advances typed p s b p' s' b' ∧ vs.length = tys.length ∧
        (∀ v ∈ vs, s'.target.module.Usable p' (s'.target.module.there p' b') v) ∧
        (typed → vs.map s'.target.module.typeOf = tys.map Ty.repr))
      (Refusal typed)

theorem leaveAll_cons {first : Gen Builder ValueId} {others : Gen Builder (List ValueId)}
    {found ty : Ty} {tys : List Ty} (accepts : typed → ty.accepts found = true)
    (head : Leaves typed mc scopes first found.repr)
    (tail : LeaveAll typed mc scopes others tys) :
    LeaveAll typed mc scopes (do
      let v ← first
      let v ← coerce v ty
      let vs ← others
      return v :: vs) (ty :: tys) := by
  intro p s b site isOpen serves here
  refine ends_bind (head p s b site isOpen serves here) ?_
  rintro v s₁ ⟨p₁, b₁, a₁, operand⟩
  refine ends_bind (ends_coerce a₁.reached.site a₁.isOpen operand.usable ty
    fun t => ⟨found, operand.type t, accepts t⟩) ?_
  rintro w s₂ ⟨a₂, widened⟩
  have a₁₂ := a₁.next a₂
  refine ends_bind (tail p₁ s₂ b₁ a₂.reached.site a₂.isOpen
    (serves.refines a₁.reached.plan) (a₁₂.reached.scopes.trans here)) ?_
  rintro vs s₃ ⟨p₃, b₃, a₃, arity, usable, type⟩
  have kept := a₃.operand widened
  refine ends_pure ⟨p₃, b₃, a₁₂.next a₃, by simp [arity], ?_, fun t => ?_⟩
  · intro u hu
    rcases List.mem_cons.1 hu with rfl | hu
    · exact kept.usable
    · exact usable u hu
  · rw [List.map_cons, List.map_cons, kept.type t, type t]

theorem mayLeave_call {callee : String} {args line : Nat}
    {arguments : List Ty → Gen Builder (List ValueId)} {ty : Ty}
    (type : typed → ∃ params, scopes.context.find? callee = some (.function ty params) ∧
      params.length = args)
    (operands : ∀ tys, tys.length = args →
      (typed → ∃ ret, scopes.context.find? callee = some (.function ret tys)) →
      LeaveAll typed mc scopes (arguments tys) tys) :
    MayLeave typed mc scopes (do
      let (f, params) ← fromScopes fun s => s.resolveCall callee args line
      let values ← arguments params
      emit (.call f values)) ty := by
  intro p s b site isOpen serves here
  refine ends_bind (P := fun x s' => s' = s ∧ s.scopes.resolveCall callee args line = .ok x)
    (ends_fromScopes (fun x found => ⟨rfl, found⟩) fun e refused => ?_) ?_
  · obtain ⟨acceptable, unfit⟩ := site.scopes.resolveCall_error refused
    refine ⟨fun t => ?_, acceptable⟩
    obtain ⟨params, entity, arity⟩ := type t
    exact unfit ty params (here ▸ entity) arity
  rintro ⟨f, params⟩ _ ⟨rfl, resolved⟩
  obtain ⟨F, ret, hF, hret, types, arity, entity⟩ := site.scopes.resolveCall_ok resolved
  rw [here] at entity
  refine ends_bind (operands params arity (fun _ => ⟨ret, entity⟩) p _ b site isOpen serves
    here) ?_
  rintro vs s₁ ⟨p₁, b₁, a₁, count, usable, typeOf⟩
  obtain ⟨F₁, hF₁, -, ret₁, params₁⟩ := a₁.reached.grown.ext.functions f F hF
  refine (ends_emit_call a₁.reached.site a₁.isOpen hF₁ (ret₁.trans hret)
    (by rw [params₁, types]) count usable typeOf).mono ?_ fun _ h => h
  rintro r s₂ ⟨a₂, operand, some⟩
  refine ⟨p₁, b₁, a₁.next a₂, fun v hv => ?_, fun t => ?_⟩
  · refine ⟨(operand v hv).usable, fun t => ?_⟩
    obtain ⟨params', entity', -⟩ := type t
    rw [entity] at entity'
    cases entity'
    exact (operand v hv).type t
  · obtain ⟨params', entity', -⟩ := type t
    rw [entity] at entity'
    cases entity'
    exact some t

theorem exists_of_typed {α : Type} {P : α → Prop} (default : α) (h : typed → ∃ a, P a) :
    ∃ a, typed → P a := by
  by_cases t : typed
  · obtain ⟨a, ha⟩ := h t
    exact ⟨a, fun _ => ha⟩
  · exact ⟨default, fun t' => absurd t' t⟩

theorem type?_binary {Γ : Context} {op : BinaryOp} {lhs rhs : Expr} {line : Nat} {ty : Ty}
    (h : (Expr.binary op lhs rhs line).type? Γ = some ty) :
    ∃ tys : Ty × Ty, lhs.type? Γ = some tys.1 ∧ rhs.type? Γ = some tys.2 ∧
      op.result? tys.1 tys.2 = some ty := by
  rw [Expr.type?] at h
  split at h
  · exact ⟨(_, _), ‹_›, ‹_›, h⟩
  · cases h

theorem type?_unary {Γ : Context} {op : UnaryOp} {operand : Expr} {line : Nat} {ty : Ty}
    (h : (Expr.unary op operand line).type? Γ = some ty) :
    ∃ found, operand.type? Γ = some found ∧ op.result? found = some ty := by
  rw [Expr.type?] at h
  split at h
  · exact ⟨_, ‹_›, h⟩
  · cases h

theorem type?_element {Γ : Context} {array : String} {index : Expr} {line : Nat} {ty : Ty}
    (h : (Expr.element array index line).type? Γ = some ty) :
    Γ.find? array = some (.array ty) ∧ index.type? Γ = some .int := by
  rw [Expr.type?] at h
  split at h
  · cases h
    exact ⟨‹_›, ‹_›⟩
  · cases h

theorem type?_call {Γ : Context} {callee : String} {args : List Expr} {line : Nat} {ty : Ty}
    (h : (Expr.call callee args line).type? Γ = some ty) :
    ∃ params, Γ.find? callee = some (.function ty params) ∧
      Expr.passes Γ args params = true := by
  rw [Expr.type?] at h
  split at h
  · split at h <;> cases h
    exact ⟨_, ‹_›, ‹_›⟩
  · cases h

theorem type?_var {Γ : Context} {name : String} {line : Nat} {ty : Ty}
    (h : (Expr.var name line).type? Γ = some ty) : Γ.find? name = some (.variable ty) := by
  rw [Expr.type?] at h
  split at h <;> cases h
  assumption

theorem length_of_passes {Γ : Context} : ∀ {es : List Expr} {tys : List Ty},
    Expr.passes Γ es tys = true → tys.length = es.length
  | [], [], _ => rfl
  | e :: es, ty :: tys, h => by
    rw [Expr.passes, Bool.and_eq_true] at h
    simp [length_of_passes h.2]
  | [], _ :: _, h => by simp [Expr.passes] at h
  | _ :: _, [], h => by simp [Expr.passes] at h

/-- Negation and complement take integers, the latter also truth values. -/
theorem leaves_unary {g : Gen Builder ValueId} {op : UnaryOp} (un : UnOp) (hint : String)
    {found ty : Ty} (same : un = .not ↔ op = .not)
    (result : typed → op.result? found = some ty) (operand : Leaves typed mc scopes g found.repr) :
    Leaves typed mc scopes (do
      let v ← g
      emit (.unary un v hint)) ty.repr := by
  intro p s b site isOpen serves here
  refine ends_bind (operand p s b site isOpen serves here) ?_
  rintro v s₁ ⟨p₁, b₁, a₁, ov⟩
  refine (ends_emit_inst a₁.reached.site a₁.isOpen (s₁.target.module.typeOf v) hint
    (fun dst => .unary dst un v) rfl (fun _ => ⟨rfl, rfl⟩) (fun _ => rfl)
    (fun m' u ext defines new => ?_) fun t => ?_).mono
      (fun _ _ h => ⟨p₁, b₁, a₁.next h.1, h.2.1⟩) fun _ h => h
  · simp only [Module.InstOk, ov.usable.typeOf ext]
    refine ⟨defines, ov.usable.mono ext fun _ mem => mem, fun t => ?_⟩
    rw [ov.type t, same]
    have := result t
    revert this
    cases op <;> cases found <;> simp [UnaryOp.result?, Ty.repr]
  · rw [ov.type t]
    have := result t
    revert this
    cases op <;> cases found <;> simp [UnaryOp.result?] <;> rintro rfl <;> rfl

theorem UnaryOp.result?_value {op : UnaryOp} {found ty : Ty} (h : op.result? found = some ty) :
    found ≠ .void := by
  rintro rfl
  cases op <;> cases h

mutual

/-- Code for an expression leaves its value. -/
theorem mayLeave_expr : ∀ (e : Expr) {ty : Ty}, (typed → e.type? scopes.context = some ty) →
    MayLeave typed mc scopes (expr mc e) ty
  | .binary op lhs rhs line, ty, type => by
    obtain ⟨⟨l, r⟩, parts⟩ := exists_of_typed (.int, .int) fun t => type?_binary (type t)
    have values (t : typed) := BinaryOp.result?_value (parts t).2.2
    have left := leaves_asValue lhs.line (mayLeave_expr lhs fun t => (parts t).1)
      fun t => (values t).1
    have right := leaves_asValue rhs.line (mayLeave_expr rhs fun t => (parts t).2.1)
      fun t => (values t).2.1
    rw [expr]
    cases strategy : op.strategy with
    | instruction bin hint =>
      exact .of_leaves (leaves_instruction strategy (fun t => (parts t).2.2) left right)
    | connective c =>
      have bools (t : typed) := BinaryOp.result?_connective strategy (parts t).2.2
      have ofType {g : Gen Builder ValueId} {from_ to_ : IR.Ty} (same : typed → from_ = to_)
          (h : Leaves typed mc scopes g from_) : Leaves typed mc scopes g to_ :=
        fun p s b site isOpen serves here => (h p s b site isOpen serves here).mono
          (fun _ _ ⟨p', b', a, o⟩ => ⟨p', b', a, o.usable, fun t => (o.type t).trans (same t)⟩)
          fun _ h => h
      exact .of_leaves (ofType (fun t => by rw [(bools t).2.2]; rfl)
        (leaves_connective (c := c) (ofType (fun t => by rw [(bools t).1]; rfl) left)
          (ofType (fun t => by rw [(bools t).2.1]; rfl) right)))
  | .unary op operand line, ty, type => by
    obtain ⟨found, parts⟩ := exists_of_typed .int fun t => type?_unary (type t)
    have value := leaves_asValue operand.line (mayLeave_expr operand fun t => (parts t).1)
      fun t => UnaryOp.result?_value (parts t).2
    rw [expr]
    cases op with
    | not =>
      have leaves := leaves_unary .not "not" (by simp) (fun t => (parts t).2)
        value
      simpa only [map_bind] using MayLeave.of_leaves leaves
    | neg =>
      have leaves := leaves_unary .neg "neg" (by simp) (fun t => (parts t).2)
        value
      simpa only [map_bind] using MayLeave.of_leaves leaves
  | .var name line, ty, type => by
    rw [expr]
    exact .of_leaves (leaves_variableValue name line fun t => type?_var (type t))
  | .element array index line, ty, type => by
    rw [expr]
    exact mayLeave_element (fun t => (type?_element (type t)).1)
      (leaves_asValue index.line (mayLeave_expr index fun t => (type?_element (type t)).2)
        (fun _ => Ty.int_ne_void))
  | .call callee args line, ty, type => by
    rw [expr]
    refine mayLeave_call (fun t => ?_) fun tys arity entity =>
      leaveAll_arguments args tys arity fun t => ?_
    · obtain ⟨params, entity, passes⟩ := type?_call (type t)
      exact ⟨params, entity, length_of_passes passes⟩
    · obtain ⟨params, entity', passes⟩ := type?_call (type t)
      obtain ⟨ret, entity⟩ := entity t
      rw [entity] at entity'
      cases entity'
      exact passes
  | .constant c, ty, type => by
    rw [expr]
    refine .of_leaves fun p s b site isOpen serves here => ?_
    refine (ends_constant site isOpen c.value).mono ?_ fun _ h => h
    rintro v s' ⟨advances, operand⟩
    refine ⟨p, b, advances, operand.usable, fun t => ?_⟩
    have same : some c.ty = some ty := type t
    cases same
    exact operand.type t

theorem leaveAll_arguments : ∀ (es : List Expr) (tys : List Ty), tys.length = es.length →
    (typed → Expr.passes scopes.context es tys = true) →
    LeaveAll typed mc scopes (arguments mc es tys) tys
  | [], [], _, _ => by
    rw [arguments]
    · intro p s b site isOpen serves here
      exact ends_pure ⟨p, b, ⟨.refl site, isOpen⟩, rfl, by simp, fun _ => rfl⟩
    · intro e es ty tys same
      cases same
  | e :: es, ty :: tys, arity, passes => by
    have parts (t : typed) : ∃ found, e.type? scopes.context = some found ∧
        ty.accepts found = true := by
      have := passes t
      rw [Expr.passes, Bool.and_eq_true] at this
      cases found : e.type? scopes.context with
      | none => simp [found] at this
      | some found' => exact ⟨found', rfl, by simpa [found] using this.1⟩
    obtain ⟨found, parts⟩ := exists_of_typed .int parts
    rw [arguments]
    refine leaveAll_cons (fun t => (parts t).2 : typed → ty.accepts found = true)
      (leaves_asValue e.line (mayLeave_expr e fun t => (parts t).1) fun t void => ?_)
      (leaveAll_arguments es tys (by simpa using arity) fun t => ?_)
    · have := (parts t).2
      rw [void] at this
      simp [Ty.accepts] at this
    · have := passes t
      rw [Expr.passes, Bool.and_eq_true] at this
      exact this.2

end

theorem yields_eq_true {Γ : Context} {e : Expr} {wanted : Ty} (h : e.yields Γ wanted = true) :
    ∃ found, e.type? Γ = some found ∧ wanted.accepts found = true := by
  rw [Expr.yields] at h
  split at h
  · exact ⟨_, ‹_›, h⟩
  · cases h

theorem value_of_accepts {wanted found : Ty} (h : wanted.accepts found = true) :
    found ≠ .void := by
  rintro rfl
  cases wanted <;> cases h

theorem leaves_value {e : Expr} {ty : Ty} (type : typed → e.type? scopes.context = some ty)
    (value : typed → ty ≠ .void) : Leaves typed mc scopes (Gen.value mc e) ty.repr :=
  leaves_asValue e.line (mayLeave_expr e type) value

end

end Gen

end Decaf
