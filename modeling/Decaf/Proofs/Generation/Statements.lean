import Decaf.Proofs.Generation.Expressions

/-!
# Generating statements

Code for a statement begins at an open block and ends where the builder then stands, which
is open or, if control has left, closed. Every block that was appended on the way has been
filled, so the block where the builder stands is the only one that may still be open.
-/

namespace Decaf

open IR

/-- The computation generates one construct, wherever it is started with the given scopes.
With `loop` it may only be started inside a loop. -/
def Completes (typed : Prop) (mc : MethodContext) (scopes : ScopeStack) (loop : Bool)
    (g : Gen Builder Unit) : Prop :=
  ∀ p s b, Site typed p s b → s.target.module.terminator? b = none → mc.Serves p →
    s.scopes = scopes → (loop = true → s.loops.innermost? ≠ none) → Gen.Ends g s
      (fun _ s' => ∃ p' b', Reached typed p s b p' s' b' [])
      (Refusal typed)

namespace Gen

section

variable {typed : Prop} {mc : MethodContext} {scopes : ScopeStack} {loop : Bool}
  {p : Plan} {s : GenState Builder} {b : BlockId}

theorem ends_emit_store (site : Site typed p s b)
    (isOpen : s.target.module.terminator? b = none) {v a : ValueId} {ty : IR.Ty}
    (operand : Operand typed s.target.module p b ty v)
    (address : s.target.module.IsAddress p (s.target.module.codeOf b) a ty) :
    Ends (emit (.store v a)) s (fun _ s' => Advances typed p s b p s' b) (Refusal typed) := by
  apply ends_emit
  have e := (site.stands isOpen).push (i := .store v a) rfl
  refine ⟨(Reached.refl site).push isOpen ((Builder.insertion_extend ..).trans site.here) e rfl
    ?_, (e.terms b).trans (by simp [isOpen])⟩
  exact ⟨operand.usable.mono e.ext fun _ mem => mem, ty, address.mono e.ext,
    fun t => (operand.usable.typeOf e.ext).trans (operand.type t)⟩

/-- A new slot for a variable. -/
theorem ends_emit_alloca (site : Site typed p s b)
    (isOpen : s.target.module.terminator? b = none) (ty : IR.Ty) (hint : String)
    (type : typed → ty ≠ .void) :
    Ends (emit (.alloca ty hint)) s (fun a s' => Advances typed p s b p s' b ∧
      s'.target.module.IsSlot p a ty) (Refusal typed) := by
  apply ends_emit
  obtain ⟨F, hF, -, entry, -⟩ := site.body.declared
  have owned := site.body.entry_owned
  obtain ⟨id, here, e, value⟩ :=
    (site.stands isOpen).alloca hF entry owned (site.body.order _ owned) ty hint
  refine ⟨⟨(Reached.refl site).slot here e (Nat.le_refl _) type value, ?_⟩, .inl ?_⟩
  · exact (e.terms b).trans (by simp [isOpen])
  · change ((s.target.alloca ty hint).1, ty) ∈
      (s.target.alloca ty hint).2.module.slotsOf p.entry
    rw [id, e.slots, if_pos rfl]
    simp

theorem ends_zeroValue (site : Site typed p s b)
    (isOpen : s.target.module.terminator? b = none) (ty : Ty) (line : Nat)
    (value : typed → ty ≠ .void) :
    Ends (zeroValue ty line) s (fun v s' => Advances typed p s b p s' b ∧
      Operand typed s'.target.module p b ty.repr v) (Refusal typed) := by
  rw [zeroValue]
  cases h : Const.zero? ty.repr with
  | none => exact ends_throw ⟨fun t => value t (by revert h; cases ty <;> simp [Ty.repr,
      Const.zero?]), trivial⟩
  | some c => exact ends_emit_const site isOpen c fun _ => Const.ty_of_zero? h

theorem ends_defaultValue (site : Site typed p s b)
    (isOpen : s.target.module.terminator? b = none) (ty : Ty) (line : Nat)
    (value : typed → ty ≠ .void) :
    Ends (defaultValue ty line) s (fun v s' => Advances typed p s b p s' b ∧
      Operand typed s'.target.module p b ty.repr v) (Refusal typed) := by
  rw [defaultValue]
  split
  · rename_i h
    exact ends_emit_const site isOpen _ fun _ => by rw [h]; rfl
  · exact ends_zeroValue site isOpen ty line value

/-- The state as it would be in other scopes. -/
theorem Site.rescope (site : Site typed p s b) {other : ScopeStack}
    (fits : other.Fits s.target.module p) : Site typed p { s with scopes := other } b :=
  ⟨site.body, site.here, site.owned, fits, site.loops⟩

end

end Gen

theorem context_add (scopes : ScopeStack) (name : String) (d : Descriptor) :
    scopes.context.add? name d.entity =
      if (scopes.innermost.lookup name).isSome then none
      else some (scopes.add name d).context := by
  obtain ⟨package, inner⟩ := scopes
  cases inner <;>
    simp only [ScopeStack.context, ScopeStack.scopes, ScopeStack.add, ScopeStack.innermost,
      Context.add?, lookup_map_entity, Option.isSome_map, List.nil_append, List.cons_append,
      List.map_cons, List.map_nil, List.headD_nil, List.headD_cons]

/-- Declarations were generated; only the innermost scope has changed. -/
structure Declares (typed : Prop) (p : Plan) (s : GenState Builder) (b : BlockId)
    (s' : GenState Builder) : Prop where
  advances : Advances typed p s b p { s' with scopes := s.scopes } b
  fits : s'.scopes.Fits s'.target.module p
  outer : s'.scopes.pop = s.scopes.pop
  inner : s'.scopes.inner ≠ []

namespace Declares

variable {typed : Prop} {p : Plan} {s s' s'' : GenState Builder} {b : BlockId}

theorem site (d : Declares typed p s b s') : Site typed p s' b :=
  Gen.Site.rescope d.advances.reached.site d.fits

theorem next (d : Declares typed p s b s') (c : Declares typed p s' b s'') :
    Declares typed p s b s'' where
  advances := ⟨d.advances.reached.trans c.advances.reached rfl (fun _ mem => mem)
    (fun _ mem => .inl mem) rfl rfl c.advances.reached.loops, c.advances.isOpen⟩
  fits := c.fits
  outer := c.outer.trans d.outer
  inner := c.inner

theorem refl (site : Site typed p s b) (isOpen : s.target.module.terminator? b = none)
    (inner : s.scopes.inner ≠ []) : Declares typed p s b s :=
  ⟨⟨.refl site, isOpen⟩, site.scopes, rfl, inner⟩

/-- A name is bound after the code for its slot. -/
theorem bind (a : Advances typed p s b p s' b) (inner : s.scopes.inner ≠ []) {name : String}
    {d : Descriptor} (fits : d.Fits s'.target.module p) :
    Declares typed p s b { s' with scopes := s'.scopes.add name d } := by
  have scopes := a.reached.scopes
  rw [← scopes] at inner
  obtain ⟨outer, inner'⟩ := ScopeStack.pop_add inner name d
  refine ⟨⟨?_, a.isOpen⟩, a.reached.site.scopes.add fits, by rw [outer, scopes], inner'⟩
  rw [← scopes]
  exact a.reached

end Declares

namespace Gen

section

variable {typed : Prop} {mc : MethodContext} {scopes : ScopeStack} {loop : Bool}

theorem declare?_cons {Γ Γ' : Context} {var : VarDecl} {vars : List VarDecl}
    (h : Γ.declare? (var :: vars) = some Γ') : var.ty ≠ .void ∧
      match var.name with
      | none => Γ.declare? vars = some Γ'
      | some name => ∃ Γ₁, Γ.add? name (.variable var.ty) = some Γ₁ ∧
          Γ₁.declare? vars = some Γ' := by
  rw [Context.declare?] at h
  split at h
  · cases h
  · rename_i value
    refine ⟨value, ?_⟩
    cases hn : var.name with
    | none => simpa only [hn] using h
    | some name =>
      simp only [hn] at h
      exact Option.bind_eq_some_iff.1 h

/-- A name that the typing rules admit is free in the innermost scope. -/
theorem add?_eq_some {name : String} {d : Descriptor} {Γ : Context}
    (h : scopes.context.add? name d.entity = some Γ) :
    scopes.innermost.lookup name = none ∧ (scopes.add name d).context = Γ := by
  rw [context_add] at h
  split at h
  · cases h
  · rename_i free
    exact ⟨Option.not_isSome_iff_eq_none.1 free, Option.some.inj h⟩

theorem ends_bindName_declares {p : Plan} {s s' : GenState Builder} {b : BlockId}
    (a : Advances typed p s b p s' b) (inner : s.scopes.inner ≠ []) {name : String}
    {d : Descriptor} {Γ : Context} (fits : d.Fits s'.target.module p)
    (type : typed → s.scopes.context.add? name d.entity = some Γ) :
    Ends (bindName name d) s' (fun _ s'' => Declares typed p s b s'' ∧
      (typed → s''.scopes.context = Γ)) (Refusal typed) := by
  have same := a.reached.scopes
  refine ends_bindName (fun _ => ⟨.bind a inner fits, fun t => ?_⟩) fun previous taken =>
    ⟨fun t => ?_, trivial⟩
  · rw [same]
    exact (add?_eq_some (type t)).2
  · have := (add?_eq_some (type t)).1
    rw [same, this] at taken
    cases taken

/-- Each named variable gets a slot that starts with zero. -/
theorem ends_declareLocals : ∀ (vars : List VarDecl) {p : Plan} {s : GenState Builder}
    {b : BlockId} {Γ : Context}, Site typed p s b → s.target.module.terminator? b = none →
    s.scopes.inner ≠ [] → (typed → s.scopes.context.declare? vars = some Γ) →
    Ends (declareLocals vars) s (fun _ s' => Declares typed p s b s' ∧
      (typed → s'.scopes.context = Γ)) (Refusal typed)
  | [], p, s, b, Γ, site, isOpen, inner, type => by
    refine ends_pure ⟨.refl site isOpen inner, fun t => ?_⟩
    have : some s.scopes.context = some Γ := type t
    exact Option.some.inj this
  | ⟨none, ty, line⟩ :: vars, p, s, b, Γ, site, isOpen, inner, type =>
    ends_declareLocals vars site isOpen inner fun t => (declare?_cons (type t)).2
  | ⟨some name, ty, line⟩ :: vars, p, s, b, Γ, site, isOpen, inner, type => by
    obtain ⟨Γ₁, parts⟩ := exists_of_typed Γ fun t => (declare?_cons (type t)).2
    rw [declareLocals]
    refine ends_bind (ends_emit_alloca site isOpen ty.repr name
      fun t => Ty.repr_ne_void (declare?_cons (type t)).1) ?_
    rintro slot s₁ ⟨a₁, isSlot⟩
    refine ends_bind (ends_zeroValue a₁.reached.site a₁.isOpen ty line
      fun t => (declare?_cons (type t)).1) ?_
    rintro zero s₂ ⟨a₂, operand⟩
    have isSlot₂ := isSlot.mono a₂.reached.grown.ext
    refine ends_bind (ends_emit_store a₂.reached.site a₂.isOpen operand (.inl isSlot₂)) ?_
    rintro _ s₃ a₃
    have a := (a₁.next a₂).next a₃
    refine ends_bind (ends_bindName_declares (d := .scalar .localVariable ty slot line) a inner
      ⟨rfl, isSlot₂.mono a₃.reached.grown.ext⟩ fun t => (parts t).1) ?_
    rintro _ s₄ ⟨d, context⟩
    refine (ends_declareLocals vars d.site d.advances.isOpen d.inner
      fun t => by rw [context t]; exact (parts t).2).mono ?_ fun _ h => h
    rintro _ s₅ ⟨d', context'⟩
    exact ⟨d.next d', context'⟩

theorem ends_ret {p : Plan} {s : GenState Builder} {b : BlockId} (site : Site typed p s b)
    (isOpen : s.target.module.terminator? b = none) {v : Option ValueId}
    (ok : s.target.module.TermOk typed p (s.target.module.there p b) (.ret v)) :
    Ends (emit (.terminate (.ret v))) s
      (fun _ s' => ∃ p' b', Reached typed p s b p' s' b' [] ∧
        s'.target.module.terminator? b' ≠ none) (Refusal typed) := by
  refine (ends_terminate (.refl site) isOpen ⟨ok, fun _ hd => (by cases hd), fun same => by cases same⟩
    fun _ hd => by cases hd).mono ?_ fun _ h => h
  rintro _ s' ⟨reached, -, closed⟩
  exact ⟨p, b, reached, by simp [closed]⟩

/-- A result that fits is handed back. -/
theorem ends_ret_operand {p : Plan} {s s' : GenState Builder} {b b' : BlockId} {p' : Plan}
    {v : ValueId} (a : Advances typed p s b p' s' b') (serves : mc.Serves p')
    (value : mc.ret ≠ .void) (operand : Operand typed s'.target.module p' b' mc.ret.repr v) :
    Ends (emit (.terminate (.ret (some v)))) s'
      (fun _ s'' => ∃ p'' b'', Reached typed p s b p'' s'' b'' [] ∧
        s''.target.module.terminator? b'' ≠ none) (Refusal typed) := by
  have ok : s'.target.module.TermOk typed p' (s'.target.module.there p' b') (.ret (some v)) := by
    refine ⟨?_, operand.usable, by rw [serves.ret]; exact operand.type⟩
    rw [serves.ret]
    exact Ty.repr_ne_void value
  refine (ends_ret a.reached.site a.isOpen ok).mono ?_ fun _ h => h
  rintro _ s'' ⟨p'', b'', reached, closed⟩
  exact ⟨p'', b'', a.reached.next reached, closed⟩

/-- A warning changes nothing else. -/
theorem advances_warned {p : Plan} {s : GenState Builder} {b : BlockId} (site : Site typed p s b)
    (isOpen : s.target.module.terminator? b = none) (warnings : List Warning) :
    Advances typed p s b p { s with warnings } b :=
  ⟨(Reached.refl site).trans (Reached.refl site) rfl (fun _ mem => mem) (fun _ mem => .inl mem)
    rfl rfl rfl, isOpen⟩

theorem ends_returnDefault {p : Plan} {s : GenState Builder} {b : BlockId}
    (site : Site typed p s b) (isOpen : s.target.module.terminator? b = none)
    (serves : mc.Serves p) (line : Nat) (value : mc.ret ≠ .void)
    (lenient : typed → mc.options.missingReturn = .synthesize) :
    Ends (returnDefault mc line) s
      (fun _ s' => ∃ p' b', Reached typed p s b p' s' b' [] ∧
        s'.target.module.terminator? b' ≠ none) (Refusal typed) := by
  rw [returnDefault]
  split
  · rename_i strict
    refine ends_throw ⟨fun t => ?_, trivial⟩
    rw [lenient t] at strict
    cases strict
  · refine ends_bind (ends_warn (P := fun _ s' =>
      s' = { s with warnings := s.warnings ++ [.synthesizedReturn mc.name line] }) rfl) ?_
    rintro _ _ rfl
    have start := advances_warned site isOpen
      (s.warnings ++ [.synthesizedReturn mc.name line])
    refine ends_bind (ends_defaultValue start.reached.site isOpen mc.ret line fun _ => value) ?_
    rintro v s₁ ⟨a, operand⟩
    exact ends_ret_operand (start.next a) serves value operand

/-- Without a result a method that owes one hands back the default. -/
theorem completes_returnStmt (result : Option Expr) (line : Nat)
    (lenient : typed → mc.options.missingReturn = .synthesize)
    (type : typed → ∀ e, result = some e → mc.ret ≠ .void ∧ e.yields scopes.context mc.ret) :
    Completes typed mc scopes loop (returnStmt mc result line) := by
  intro p s b site isOpen serves here inside
  refine Ends.mono (P := fun _ s' => ∃ p' b', Reached typed p s b p' s' b' [] ∧
    s'.target.module.terminator? b' ≠ none) ?_
    (fun _ _ ⟨p', b', reached, _⟩ => ⟨p', b', reached⟩) fun _ h => h
  cases result with
  | none =>
    rw [returnStmt]
    split
    · rename_i void
      exact ends_ret site isOpen (by rw [Module.TermOk, serves.ret, void]; rfl)
    · rename_i value
      exact ends_returnDefault site isOpen serves line value lenient
  | some e =>
    rw [returnStmt]
    split
    · rename_i void
      exact ends_throw ⟨fun t => (type t e rfl).1 void, trivial⟩
    · rename_i value
      obtain ⟨found, parts⟩ := exists_of_typed .int fun t => yields_eq_true (type t e rfl).2
      refine ends_bind (leaves_value (fun t => (parts t).1)
        (fun t => value_of_accepts (parts t).2) p s b site isOpen serves here) ?_
      rintro v s₁ ⟨p₁, b₁, a₁, operand⟩
      refine ends_bind (ends_coerce a₁.reached.site a₁.isOpen operand.usable mc.ret
        fun t => ⟨found, operand.type t, (parts t).2⟩) ?_
      rintro w s₂ ⟨a₂, widened⟩
      exact ends_ret_operand (a₁.next a₂) (serves.refines a₁.reached.plan) value widened

theorem mem_blocks_of_innermost {s : LoopStack} {t : LoopTargets} (h : s.innermost? = some t)
    (kind : Jump) : t.target kind ∈ s.blocks := by
  have mem : t ∈ s.loops := List.mem_of_head? h
  refine List.mem_flatMap.2 ⟨t, mem, ?_⟩
  cases kind <;> simp [LoopTargets.target]

/-- A jump goes to a target of the loop around it. -/
theorem completes_jumpStmt (kind : Jump) (line : Nat) (inside : typed → loop = true) :
    Completes typed mc scopes loop (jumpStmt mc kind line) := by
  intro p s b site isOpen serves here loops
  apply ends_innermostLoop?
  cases h : s.loops.innermost? with
  | some targets =>
    have mem := mem_blocks_of_innermost h kind
    refine (ends_terminate (.refl site) isOpen (site.loops _ mem).1.closes_br
      fun d hd => ?_).mono ?_ fun _ h => h
    · obtain rfl : d = targets.target kind := by simpa [Terminator.successors] using hd
      exact .inl mem
    · rintro _ s' ⟨reached, -, -⟩
      exact ⟨p, b, reached⟩
  | none =>
    cases mc.options.strayJump with
    | error => exact ends_throw ⟨fun t => loops (inside t) h, trivial⟩
    | ignore => exact ends_warn ⟨p, b, (advances_warned site isOpen _).reached⟩

/-- The computation generates code after which control goes on. -/
def GoesOn (typed : Prop) (mc : MethodContext) (scopes : ScopeStack) (g : Gen Builder Unit) :
    Prop :=
  ∀ p s b, Site typed p s b → s.target.module.terminator? b = none → mc.Serves p →
    s.scopes = scopes → Ends g s (fun _ s' => ∃ p' b', Advances typed p s b p' s' b')
      (Refusal typed)

theorem GoesOn.completes {g : Gen Builder Unit} (h : GoesOn typed mc scopes g) :
    Completes typed mc scopes loop g :=
  fun p s b site isOpen serves here _ => (h p s b site isOpen serves here).mono
    (fun _ _ ⟨p', b', a⟩ => ⟨p', b', a.reached⟩) fun _ h => h

theorem goesOn_assignScalar (name : String) (e : Expr) (line : Nat)
    (type : typed → (Assignment.scalar name e line).wellTyped scopes.context = true) :
    GoesOn typed mc scopes (assignment mc (.scalar name e line)) := by
  intro p s b site isOpen serves here
  have parts (t : typed) : ∃ tys : Ty × Ty,
      scopes.context.find? name = some (.variable tys.1) ∧
        e.type? scopes.context = some tys.2 ∧ tys.1.accepts tys.2 = true := by
    have := type t
    rw [Assignment.wellTyped] at this
    split at this
    · obtain ⟨found, hfound, accepts⟩ := yields_eq_true this
      exact ⟨(_, found), ‹_›, hfound, accepts⟩
    · cases this
  obtain ⟨⟨ty, found⟩, parts⟩ := exists_of_typed (.int, .int) parts
  rw [assignment]
  refine ends_bind (P := fun x s' => s' = s ∧ s.scopes.resolveScalar name line = .ok x)
    (ends_fromScopes (fun x found => ⟨rfl, found⟩) fun err refused => ?_) ?_
  · obtain ⟨acceptable, unfit⟩ := site.scopes.resolveScalar_error refused
    exact ⟨fun t => unfit ty (here ▸ (parts t).1), acceptable⟩
  rintro ⟨wanted, slot⟩ _ ⟨rfl, resolved⟩
  obtain ⟨isSlot, entity⟩ := site.scopes.resolveScalar_ok resolved
  have same (t : typed) : wanted = ty := by
    have := (parts t).1
    rw [← here, entity] at this
    cases this
    rfl
  refine ends_bind (leaves_value (fun t => (parts t).2.1)
    (fun t => value_of_accepts (parts t).2.2) p _ b site isOpen serves here) ?_
  rintro v s₁ ⟨p₁, b₁, a₁, operand⟩
  refine ends_bind (ends_coerce a₁.reached.site a₁.isOpen operand.usable wanted
    fun t => ⟨found, operand.type t, by rw [same t]; exact (parts t).2.2⟩) ?_
  rintro w s₂ ⟨a₂, widened⟩
  have a₁₂ := a₁.next a₂
  refine (ends_emit_store a₂.reached.site a₂.isOpen widened (.inl ?_)).mono
    (fun _ _ a₃ => ⟨p₁, b₁, a₁₂.next a₃⟩) fun _ h => h
  exact a₁₂.reached.isSlot isSlot

theorem goesOn_assignElement (array : String) (index e : Expr) (line : Nat)
    (type : typed → (Assignment.element array index e line).wellTyped scopes.context = true) :
    GoesOn typed mc scopes (assignment mc (.element array index e line)) := by
  intro p s b site isOpen serves here
  have parts (t : typed) : ∃ tys : Ty × Ty,
      scopes.context.find? array = some (.array tys.1) ∧
        index.type? scopes.context = some .int ∧
        e.type? scopes.context = some tys.2 ∧ tys.1.accepts tys.2 = true := by
    have := type t
    rw [Assignment.wellTyped] at this
    split at this
    · rw [Bool.and_eq_true, beq_iff_eq] at this
      obtain ⟨found, hfound, accepts⟩ := yields_eq_true this.2
      exact ⟨(_, found), ‹_›, this.1, hfound, accepts⟩
    · cases this
  obtain ⟨⟨ty, found⟩, parts⟩ := exists_of_typed (.int, .int) parts
  rw [assignment]
  refine ends_bind (P := fun x s' => s' = s ∧ s.scopes.resolveArray array line = .ok x)
    (ends_fromScopes (fun x found => ⟨rfl, found⟩) fun err refused => ?_) ?_
  · obtain ⟨acceptable, unfit⟩ := site.scopes.resolveArray_error refused
    exact ⟨fun t => unfit ty (here ▸ (parts t).1), acceptable⟩
  rintro ⟨wanted, base⟩ _ ⟨rfl, resolved⟩
  obtain ⟨⟨length, isGlobal⟩, entity⟩ := site.scopes.resolveArray_ok resolved
  have same (t : typed) : wanted = ty := by
    have := (parts t).1
    rw [← here, entity] at this
    cases this
    rfl
  refine ends_bind (leaves_value (fun t => (parts t).2.1)
    (fun _ => Ty.int_ne_void) p _ b
    site isOpen serves here) ?_
  rintro i s₁ ⟨p₁, b₁, a₁, iv⟩
  refine ends_bind (leaves_value (fun t => (parts t).2.2.1)
    (fun t => value_of_accepts (parts t).2.2.2) p₁ s₁ b₁ a₁.reached.site a₁.isOpen
    (serves.refines a₁.reached.plan) (a₁.reached.scopes.trans here)) ?_
  rintro v s₂ ⟨p₂, b₂, a₂, operand⟩
  refine ends_bind (ends_coerce a₂.reached.site a₂.isOpen operand.usable wanted
    fun t => ⟨found, operand.type t, by rw [same t]; exact (parts t).2.2.2⟩) ?_
  rintro w s₃ ⟨a₃, widened⟩
  have a₁₃ := (a₁.next a₂).next a₃
  have iv₃ := (a₂.next a₃).operand iv
  refine ends_bind (ends_emit_inst a₃.reached.site a₃.isOpen .ptr "elem"
    (fun dst => .elementPtr dst wanted.repr base i) rfl (fun _ => ⟨rfl, rfl⟩) (fun _ => rfl)
    (fun m' u ext defines new => ?_) (fun _ => rfl : typed → IR.Ty.ptr = .ptr)) ?_
  · exact ⟨defines, iv₃.usable.ne_of_new new, ⟨length, (isGlobal.mono a₁₃.reached.grown.ext).mono ext⟩,
      iv₃.usable.mono ext fun _ mem => mem, fun t => (iv₃.usable.typeOf ext).trans (iv₃.type t)⟩
  rintro address s₄ ⟨a₄, -, code⟩
  refine (ends_emit_store a₄.reached.site a₄.isOpen (a₄.operand widened) (.inr ?_)).mono
    (fun _ _ a₅ => ⟨p₂, b₂, (a₁₃.next a₄).next a₅⟩) fun _ h => h
  exact ⟨base, i, by rw [code, List.getLast?_concat]⟩

theorem goesOn_assignment : ∀ (a : Assignment),
    (typed → a.wellTyped scopes.context = true) → GoesOn typed mc scopes (assignment mc a)
  | .scalar name e line, type => goesOn_assignScalar name e line type
  | .element array index e line, type => goesOn_assignElement array index e line type

theorem goesOn_assignments : ∀ (as : List Assignment),
    (typed → as.all (Assignment.wellTyped scopes.context) = true) →
    GoesOn typed mc scopes (assignments mc as)
  | [], _ => fun p s b site isOpen _ _ => ends_pure ⟨p, b, .refl site, isOpen⟩
  | a :: as, type => by
    intro p s b site isOpen serves here
    have parts (t : typed) : a.wellTyped scopes.context = true ∧
        as.all (Assignment.wellTyped scopes.context) = true := by
      simpa only [List.all_cons, Bool.and_eq_true] using type t
    rw [assignments]
    refine ends_bind (goesOn_assignment a (fun t => (parts t).1) p s b site isOpen serves
      here) ?_
    rintro _ s₁ ⟨p₁, b₁, a₁⟩
    refine (goesOn_assignments as (fun t => (parts t).2) p₁ s₁ b₁ a₁.reached.site a₁.isOpen
      (serves.refines a₁.reached.plan) (a₁.reached.scopes.trans here)).mono ?_ fun _ h => h
    rintro _ s₂ ⟨p₂, b₂, a₂⟩
    exact ⟨p₂, b₂, a₁.next a₂⟩

end

end Gen

end Decaf
