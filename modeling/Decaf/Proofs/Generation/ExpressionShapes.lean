import Decaf.Proofs.Generation.Expressions
import Decaf.Proofs.Generation.Settling

/-!
# Shapes of expressions

Code that is generated for an expression has the shape of the expression in every module
that comes of it. That it leaves an operand and advances to an open block is known already;
each lemma here goes along the commands once more and looks at what they put where.
-/

namespace Decaf

open IR

/-- The computation leaves an operand, and what it generates has the shape. -/
def Codes (mc : MethodContext) (scopes : ScopeStack) (g : Gen Builder ValueId)
    (L : Module → Shape.Operand) : Prop :=
  ∀ p s b, Site False p s b → s.target.module.terminator? b = none → mc.Serves p →
    s.scopes = scopes → Gen.Ends g s
      (fun v s' => ∃ p' b', Advances False p s b p' s' b' ∧
        s'.target.module.Usable p' (s'.target.module.there p' b') v ∧
        ∀ M, s'.target.module.Settles mc.function b' M → L M (s.place b) v (s'.place b'))
      (Refusal False)

/-- The same for computations that may leave no value. -/
def CodesResult (mc : MethodContext) (scopes : ScopeStack) (g : Gen Builder (Option ValueId))
    (L : Module → Shape.Result) : Prop :=
  ∀ p s b, Site False p s b → s.target.module.terminator? b = none → mc.Serves p →
    s.scopes = scopes → Gen.Ends g s
      (fun r s' => ∃ p' b', Advances False p s b p' s' b' ∧
        (∀ v, r = some v → s'.target.module.Usable p' (s'.target.module.there p' b') v) ∧
        ∀ M, s'.target.module.Settles mc.function b' M → L M (s.place b) r (s'.place b'))
      (Refusal False)

section

variable {mc : MethodContext} {scopes : ScopeStack} {p p' : Plan} {s s' : GenState Builder}
  {b b' : BlockId} {v : ValueId} {M : Module}

theorem Advances.stands (a : Advances False p s b p' s' b') (serves : mc.Serves p) :
    s'.target.StandsAt b' mc.function := by
  have := a.reached.site.stands a.isOpen
  rwa [a.reached.plan.function, serves.function] at this

theorem Advances.settles (a : Advances False p s b p' s' b') (serves : mc.Serves p)
    (isOpen : s.target.module.terminator? b = none)
    (h : s'.target.module.Settles mc.function b' M) :
    s.target.module.Settles mc.function b M :=
  a.reached.settles isOpen serves.function h

theorem Advances.values_le (a : Advances False p s b p' s' b') :
    s.target.module.values.size ≤ s'.target.module.values.size :=
  a.reached.values_le

theorem IR.Module.Usable.index_lt {m : Module} {there : List ValueId}
    (h : m.Usable p there v) : v.index < m.values.size := by
  obtain ⟨info, value⟩ := h.value?
  exact (Array.getElem?_eq_some_iff.1 value).1

theorem IR.Module.Settles.typeOf {m : Module} {f : FunctionId} (h : m.Settles f b M)
    (held : v.index < m.values.size) : M.typeOf v = m.typeOf v :=
  h.ext.typeOf (Array.getElem?_eq_getElem held)

theorem Codes.leaves {g : Gen Builder ValueId} {L : Module → Shape.Operand}
    (h : Codes mc scopes g L) (ty : IR.Ty) : Leaves False mc scopes g ty :=
  fun p s b site isOpen serves here => (h p s b site isOpen serves here).mono
    (fun _ _ ⟨p', b', a, usable, _⟩ => ⟨p', b', a, usable, False.elim⟩) fun _ h => h

/-- A computation that leaves an operand, together with the shape of its code. -/
theorem Codes.of_leaves {g : Gen Builder ValueId} {L : Module → Shape.Operand} {ty : IR.Ty}
    (h : Leaves False mc scopes g ty)
    (shape : ∀ p s b, Site False p s b → s.target.module.terminator? b = none → mc.Serves p →
      s.scopes = scopes → Gen.Ends g s (fun v s' => ∃ b', s'.target.insertion = some b' ∧
        ∀ M, s'.target.module.Settles mc.function b' M → L M (s.place b) v (s'.place b'))
      fun _ => True) : Codes mc scopes g L := by
  intro p s b site isOpen serves here
  refine ((h p s b site isOpen serves here).and (shape p s b site isOpen serves here)).imp ?_
  rintro v s' ⟨⟨p', b', a, operand⟩, b'', at_, shaped⟩
  obtain rfl : b' = b'' := Option.some.inj (a.reached.site.here.symm.trans at_)
  exact ⟨p', b', a, operand.usable, shaped⟩

theorem CodesResult.of_mayLeave {g : Gen Builder (Option ValueId)} {L : Module → Shape.Result}
    {ty : Ty} (h : Gen.MayLeave False mc scopes g ty)
    (shape : ∀ p s b, Site False p s b → s.target.module.terminator? b = none → mc.Serves p →
      s.scopes = scopes → Gen.Ends g s (fun r s' => ∃ b', s'.target.insertion = some b' ∧
        ∀ M, s'.target.module.Settles mc.function b' M → L M (s.place b) r (s'.place b'))
      fun _ => True) : CodesResult mc scopes g L := by
  intro p s b site isOpen serves here
  refine ((h p s b site isOpen serves here).and (shape p s b site isOpen serves here)).imp ?_
  rintro r s' ⟨⟨p', b', a, operand, -⟩, b'', at_, shaped⟩
  obtain rfl : b' = b'' := Option.some.inj (a.reached.site.here.symm.trans at_)
  exact ⟨p', b', a, fun v hv => (operand v hv).usable, shaped⟩

theorem CodesResult.of_codes {g : Gen Builder ValueId} {L : Module → Shape.Operand}
    (h : Codes mc scopes g L) :
    CodesResult mc scopes (some <$> g) fun M a r z => ∃ v, r = some v ∧ L M a v z := by
  intro p s b site isOpen serves here
  refine Gen.ends_map ((h p s b site isOpen serves here).mono ?_ fun _ h => h)
  rintro v s' ⟨p', b', a, usable, shaped⟩
  exact ⟨p', b', a, fun w hw => Option.some.inj hw ▸ usable, fun M h => ⟨v, rfl, shaped M h⟩⟩

theorem codes_asValue {g : Gen Builder (Option ValueId)} {L : Module → Shape.Result}
    (line : Nat) (h : CodesResult mc scopes g L) :
    Codes mc scopes (Gen.asValue line g) fun M => Shape.asValue (L M) := by
  intro p s b site isOpen serves here
  refine Gen.ends_bind (h p s b site isOpen serves here) ?_
  rintro (_ | v) s' ⟨p', b', a, usable, shaped⟩
  · exact Gen.ends_throw ⟨nofun, trivial⟩
  · exact Gen.ends_pure ⟨p', b', a, usable v rfl, shaped⟩

end

namespace Gen

section

variable {mc : MethodContext} {scopes : ScopeStack}

theorem codes_instruction {lhs rhs : Gen Builder ValueId} {op : BinaryOp} {bin : BinOp}
    {hint : String} (strategy : op.strategy = .instruction bin hint)
    {L R : Module → Shape.Operand} (left : Codes mc scopes lhs L)
    (right : Codes mc scopes rhs R) :
    Codes mc scopes (instruction bin hint lhs rhs)
      fun M => Shape.instruction M bin (L M) (R M) := by
  have structured : Leaves False mc scopes (instruction bin hint lhs rhs) (Ty.repr .int) :=
    leaves_instruction (l := .int) (r := .int) strategy False.elim (left.leaves _)
      (right.leaves _)
  refine .of_leaves structured ?_
  intro p s b site isOpen serves here
  refine ends_bind (left p s b site isOpen serves here).lax ?_
  rintro l s₁ ⟨p₁, b₁, a₁, usableL, shapedL⟩
  have serves₁ := serves.refines a₁.reached.plan
  refine ends_bind ((right p₁ s₁ b₁ a₁.reached.site a₁.isOpen serves₁
    (a₁.reached.scopes.trans here)).lax) ?_
  rintro r s₂ ⟨p₂, b₂, a₂, usableR, shapedR⟩
  have at₂ := a₂.stands serves₁
  have heldL := Nat.lt_of_lt_of_le usableL.index_lt a₂.values_le
  have heldR := usableR.index_lt
  have back (M : Module) (h : s₂.target.module.Settles mc.function b₂ M) :=
    a₂.settles serves₁ a₁.isOpen h
  apply ends_typeOf
  apply ends_typeOf
  split
  · rename_i same
    change s₂.target.module.typeOf l = s₂.target.module.typeOf r at same
    refine (puts_emit at₂ (bin.resultTy (s₂.target.module.typeOf l)) hint
      (fun dst => .binary dst bin l r) rfl fun _ => ⟨rfl, rfl⟩).imp ?_
    rintro v s₃ ⟨puts, -, emits⟩
    refine ⟨b₂, puts.stands.here, fun M h => ?_⟩
    have h₂ := puts.settles M h
    refine ⟨l, s₁.place b₁, r, s₂.place b₂, shapedL M (back M h₂), a₁.values_le, shapedR M h₂,
      a₂.values_le, ?_⟩
    rw [h₂.typeOf heldL, h₂.typeOf heldR, if_pos same]
    exact emits M h
  · rename_i differ
    change s₂.target.module.typeOf l ≠ s₂.target.module.typeOf r at differ
    refine ends_bind (ends_coerced at₂ l .int heldL) ?_
    rintro l' s₃ ⟨at₃, -, ext₃, -, shaped₃⟩
    refine ends_bind (ends_coerced at₃ r .int (Nat.lt_of_lt_of_le heldR ext₃.size_le)) ?_
    rintro r' s₄ ⟨at₄, -, -, -, shaped₄⟩
    refine (puts_emit at₄ (bin.resultTy (s₄.target.module.typeOf l')) hint
      (fun dst => .binary dst bin l' r') rfl fun _ => ⟨rfl, rfl⟩).imp ?_
    rintro v s₅ ⟨puts, -, emits⟩
    refine ⟨b₂, puts.stands.here, fun M h => ?_⟩
    obtain ⟨h₃, widenR⟩ := shaped₄ M (puts.settles M h)
    obtain ⟨h₂, widenL⟩ := shaped₃ M h₃
    refine ⟨l, s₁.place b₁, r, s₂.place b₂, shapedL M (back M h₂), a₁.values_le, shapedR M h₂,
      a₂.values_le, ?_⟩
    rw [h₂.typeOf heldL, h₂.typeOf heldR, if_neg differ]
    exact ⟨l', _, r', _, widenL, widenR, emits M h⟩

theorem codes_unary {g : Gen Builder ValueId} (op : UnaryOp) (hint : String)
    {L : Module → Shape.Operand} (operand : Codes mc scopes g L) :
    Codes mc scopes (do
      let v ← g
      emit (.unary op.instruction v hint)) fun M => Shape.unary M op (L M) := by
  have same : op.instruction = .not ↔ op = .not := by
    cases op <;> simp [UnaryOp.instruction]
  have structured : Leaves False mc scopes (do
      let v ← g
      emit (.unary op.instruction v hint)) (Ty.repr .int) :=
    leaves_unary op.instruction hint same False.elim (operand.leaves (Ty.repr .int))
  refine .of_leaves structured ?_
  intro p s b site isOpen serves here
  refine ends_bind (operand p s b site isOpen serves here).lax ?_
  rintro u s₁ ⟨p₁, b₁, a₁, -, shaped⟩
  refine (puts_emit (a₁.stands serves) (s₁.target.module.typeOf u) hint
    (fun dst => .unary dst op.instruction u) rfl fun _ => ⟨rfl, rfl⟩).imp ?_
  rintro v s₂ ⟨puts, -, emits⟩
  exact ⟨b₁, puts.stands.here, fun M h =>
    ⟨u, _, shaped M (puts.settles M h), a₁.values_le, emits M h⟩⟩

theorem codes_variableValue (name : String) (line : Nat) :
    Codes mc scopes (variableValue name line)
      fun M => Shape.variableValue M scopes name line := by
  have structured : Leaves False mc scopes (variableValue name line) (Ty.repr .int) :=
    leaves_variableValue name line False.elim
  refine .of_leaves structured ?_
  intro p s b site isOpen serves here
  refine ends_bind (P := fun x s' => s' = s ∧ s.scopes.resolveScalar name line = .ok x)
    (ends_fromScopes (fun x found => ⟨rfl, found⟩) fun _ _ => trivial) ?_
  rintro ⟨ty, address⟩ _ ⟨rfl, resolved⟩
  have at_ := site.stands isOpen
  rw [serves.function] at at_
  refine (puts_emit at_ ty.repr name (fun dst => .load dst ty.repr address) rfl
    fun _ => ⟨rfl, rfl⟩).imp ?_
  rintro v s' ⟨puts, -, emits⟩
  exact ⟨b, puts.stands.here, fun M h => ⟨ty, address, here ▸ resolved, emits M h⟩⟩

theorem codes_constant (c : Literal) :
    Codes mc scopes (constant c) fun M => Shape.constant M c := by
  have structured : Leaves False mc scopes (constant c) c.ty.repr :=
    fun p s b site isOpen _ _ =>
      (ends_constant site isOpen c).mono (fun _ _ h => ⟨p, b, h⟩) fun _ h => h
  refine .of_leaves structured ?_
  intro p s b site isOpen serves here
  have at_ := site.stands isOpen
  rw [serves.function] at at_
  have number (c : Const) : Ends (emit (.const c)) s (fun v s' => ∃ b',
      s'.target.insertion = some b' ∧ ∀ M, s'.target.module.Settles mc.function b' M →
        Shape.Constant M c (s.place b) v (s'.place b')) fun _ => True :=
    (ends_emit_constant at_ c).imp (fun _ _ ⟨at', _, _, shaped⟩ =>
      ⟨b, at'.here, fun M h => (shaped M h).2⟩)
  cases c with
  | int n => exact number (.i32 n)
  | bool x => exact number (.bool x)
  | string text => exact (ends_emit_text at_ text).imp fun _ _ h => ⟨b, h⟩

theorem codesResult_element {array : String} {line : Nat} {index : Gen Builder ValueId}
    {L : Module → Shape.Operand} (position : Codes mc scopes index L) :
    CodesResult mc scopes (do
      let (ty, base) ← fromScopes fun s => s.resolveArray array line
      let i ← index
      let address ← emit (.elementPtr ty.repr base i)
      some <$> emit (.load ty.repr address (array ++ ".elem"))) fun M a r z =>
        ∃ v, r = some v ∧ Shape.element M scopes array line (L M) a v z := by
  have structured : MayLeave False mc scopes (do
      let (ty, base) ← fromScopes fun s => s.resolveArray array line
      let i ← index
      let address ← emit (.elementPtr ty.repr base i)
      some <$> emit (.load ty.repr address (array ++ ".elem"))) .int :=
    mayLeave_element False.elim (position.leaves _)
  refine .of_mayLeave structured ?_
  intro p s b site isOpen serves here
  refine ends_bind (P := fun x s' => s' = s ∧ s.scopes.resolveArray array line = .ok x)
    (ends_fromScopes (fun x found => ⟨rfl, found⟩) fun _ _ => trivial) ?_
  rintro ⟨ty, base⟩ _ ⟨rfl, resolved⟩
  refine ends_bind (position p _ b site isOpen serves here).lax ?_
  rintro i s₁ ⟨p₁, b₁, a₁, -, shaped⟩
  refine ends_bind (puts_emit (a₁.stands serves) .ptr "elem"
    (fun dst => .elementPtr dst ty.repr base i) rfl fun _ => ⟨rfl, rfl⟩) ?_
  rintro address s₂ ⟨puts₂, -, emits₂⟩
  refine ends_map ((puts_emit puts₂.stands ty.repr (array ++ ".elem")
    (fun dst => .load dst ty.repr address) rfl fun _ => ⟨rfl, rfl⟩).imp ?_)
  rintro v s₃ ⟨puts₃, -, emits₃⟩
  refine ⟨b₁, puts₃.stands.here, fun M h => ?_⟩
  have h₂ := puts₃.settles M h
  exact ⟨v, rfl, ty, base, i, _, address, _, here ▸ resolved, shaped M (puts₂.settles M h₂),
    a₁.values_le, emits₂ M h₂, emits₃ M h⟩

/-- A call puts one instruction where the builder stands; it defines a value if there is a
result. -/
theorem puts_call {f : FunctionId} {s : GenState Builder} {b : BlockId}
    (at_ : s.target.StandsAt b f) (g : FunctionId) (vs : List ValueId) :
    Ends (emit (.call g vs)) s (fun r s' => Puts f s b (.call r g vs) s' ∧
      ∀ M, s'.target.module.Settles f b M → ∀ v, r = some v →
        Shape.Emits M (s.place b) v (.call (some v) g vs) (s'.place b)) fun _ => True := by
  by_cases void : ((s.target.module.function? g).map (·.ret)).getD .void = .void
  · have perform : s.target.perform (.call g vs) =
        (none, s.target.extend (Block.push (.call none g vs))) := by
      simp only [Builder.perform, Builder.call, void, if_true]
    refine ends_emit_of perform ?_
    exact ⟨.of_edit at_ ((Builder.insertion_extend ..).trans at_.here)
      (at_.push (i := .call none g vs) rfl) rfl, fun _ _ _ same => by cases same⟩
  · have perform : s.target.perform (.call g vs) =
        (some (s.target.emit (((s.target.module.function? g).map (·.ret)).getD .void) "call"
            fun dst => .call (some dst) g vs).1,
          (s.target.emit (((s.target.module.function? g).map (·.ret)).getD .void) "call"
            fun dst => .call (some dst) g vs).2) := by
      simp only [Builder.perform, Builder.call, void, if_false]
    refine ends_emit_of perform ?_
    obtain ⟨id, here, e, name, value⟩ := at_.emit
      (((s.target.module.function? g).map (·.ret)).getD .void) "call"
      (fun dst => .call (some dst) g vs) fun _ => rfl
    rw [id]
    have puts := Puts.of_edit at_ here e rfl
    refine ⟨puts, fun M h v same => ?_⟩
    cases same
    exact ⟨puts.does h, Nat.le_refl _, (Array.getElem?_eq_some_iff.1 value).1⟩

/-- Operands for all arguments, and the shape of their code. -/
def CodesAll (mc : MethodContext) (scopes : ScopeStack) (g : Gen Builder (List ValueId))
    (L : Module → Place → List ValueId → Place → Prop) : Prop :=
  ∀ p s b, Site False p s b → s.target.module.terminator? b = none → mc.Serves p →
    s.scopes = scopes → Ends g s
      (fun vs s' => ∃ p' b', Advances False p s b p' s' b' ∧
        ∀ M, s'.target.module.Settles mc.function b' M → L M (s.place b) vs (s'.place b'))
      fun _ => True

theorem codesAll_cons {first : Gen Builder ValueId} {others : Gen Builder (List ValueId)}
    {ty : Ty} {L : Module → Shape.Operand} {K : Module → Place → List ValueId → Place → Prop}
    (head : Codes mc scopes first L) (tail : CodesAll mc scopes others K) :
    CodesAll mc scopes (do
      let v ← first
      let v ← coerce v ty
      let vs ← others
      return v :: vs) fun M a vs z => ∃ v b w c ws, vs = w :: ws ∧ L M a v b ∧
        a.values ≤ b.values ∧ Shape.coerce M ty b v w c ∧ K M c ws z ∧ c.values ≤ z.values := by
  intro p s b site isOpen serves here
  refine ends_bind (head p s b site isOpen serves here).lax ?_
  rintro v s₁ ⟨p₁, b₁, a₁, usable, shaped⟩
  have serves₁ := serves.refines a₁.reached.plan
  refine ends_bind ((ends_coerce a₁.reached.site a₁.isOpen usable ty False.elim).and
    (ends_coerced (a₁.stands serves) v ty usable.index_lt)).lax ?_
  rintro w s₂ ⟨⟨a₂, -⟩, -, -, -, -, widened⟩
  refine ends_bind (tail p₁ s₂ b₁ a₂.reached.site a₂.isOpen serves₁
    ((a₁.next a₂).reached.scopes.trans here)) ?_
  rintro vs s₃ ⟨p₃, b₃, a₃, shaped₃⟩
  refine ends_pure ⟨p₃, b₃, (a₁.next a₂).next a₃, fun M h => ?_⟩
  obtain ⟨h₁, shape⟩ := widened M (a₃.settles serves₁ a₂.isOpen h)
  exact ⟨v, _, w, _, vs, rfl, shaped M h₁, a₁.values_le, shape, shaped₃ M h, a₃.values_le⟩

theorem codesResult_call {callee : String} {args line : Nat}
    {arguments : List Ty → Gen Builder (List ValueId)}
    {K : List Ty → Module → Place → List ValueId → Place → Prop}
    (structured : MayLeave False mc scopes (do
      let (f, params) ← fromScopes fun s => s.resolveCall callee args line
      let values ← arguments params
      emit (.call f values)) .int)
    (operands : ∀ tys, tys.length = args → CodesAll mc scopes (arguments tys) (K tys)) :
    CodesResult mc scopes (do
      let (f, params) ← fromScopes fun s => s.resolveCall callee args line
      let values ← arguments params
      emit (.call f values)) fun M a r z => ∃ f params vs b,
        scopes.resolveCall callee args line = .ok (f, params) ∧ K params M a vs b ∧
        a.values ≤ b.values ∧ Shape.Does M b (.call r f vs) z ∧
        ∀ v, r = some v → Shape.Emits M b v (.call (some v) f vs) z := by
  refine .of_mayLeave structured ?_
  intro p s b site isOpen serves here
  refine ends_bind (P := fun x s' => s' = s ∧ s.scopes.resolveCall callee args line = .ok x)
    (ends_fromScopes (fun x found => ⟨rfl, found⟩) fun _ _ => trivial) ?_
  rintro ⟨f, params⟩ _ ⟨rfl, resolved⟩
  obtain ⟨-, -, -, -, -, arity, -⟩ := site.scopes.resolveCall_ok resolved
  refine ends_bind (operands params arity p _ b site isOpen serves here) ?_
  rintro vs s₁ ⟨p₁, b₁, a₁, shaped⟩
  refine (puts_call (a₁.stands serves) f vs).imp ?_
  rintro r s₂ ⟨puts, emits⟩
  refine ⟨b₁, puts.stands.here, fun M h => ?_⟩
  exact ⟨f, params, vs, _, here ▸ resolved, shaped M (puts.settles M h), a₁.values_le,
    puts.does h, emits M h⟩

/-- A phi at the start of a block, and the way back to a block that was closed before. -/
theorem ends_emit_phi {f : FunctionId} {s : GenState Builder} {b : BlockId}
    (at_ : s.target.StandsAt b f) (empty : s.target.module.codeOf b = []) (ty : IR.Ty)
    (incoming : List (ValueId × BlockId)) (hint : String) {n : Nat}
    (le : n ≤ s.target.module.values.size) {E : CompileError → Prop} :
    Ends (emit (.phi ty incoming hint)) s (fun v s' => s'.target.insertion = some b ∧
      (∀ c, s.target.module.functionOf? c = some f → s.target.module.terminator? c ≠ none →
        ∀ M, s'.target.module.Settles f b M → s.target.module.Settles f c M) ∧
      ∀ M, s'.target.module.Settles f b M →
        Shape.Emits M (.start b n) v (.phi v ty incoming) (s'.place b)) E := by
  have perform : s.target.perform (.phi ty incoming hint) =
    s.target.emit ty hint fun dst => .phi dst ty incoming := rfl
  refine ends_emit_of perform ?_
  obtain ⟨id, here, e, name, value⟩ := at_.emit ty hint (fun dst => .phi dst ty incoming)
    fun _ => rfl
  rw [id]
  refine ⟨here, fun c owned closed M h => h.fill e at_.isOpen owned closed, fun M h => ?_⟩
  obtain ⟨more, code, -⟩ := h.code b ((e.owners b).trans at_.owned)
  have start : (s.target.emit ty hint fun dst => .phi dst ty incoming).2.module.codeOf b =
      [.phi ⟨s.target.module.values.size⟩ ty incoming] := by
    rw [e.code, if_pos rfl, empty]
    rfl
  rw [start] at code
  exact {
    next := ⟨more, code⟩
    block := rfl
    before := start
    values := Nat.le_trans le e.ext.size_le
    new := le
    held := (Array.getElem?_eq_some_iff.1 value).1 }

theorem codes_connective {k : Connective} {lhs rhs : Gen Builder ValueId}
    {L R : Module → Shape.Operand} (left : Codes mc scopes lhs L)
    (right : Codes mc scopes rhs R) :
    Codes mc scopes (connective mc k lhs rhs)
      fun M => Shape.connective M k (L M) (R M) := by
  refine .of_leaves (leaves_connective (left.leaves _) (right.leaves _)) ?_
  intro p s b site isOpen serves here
  refine ends_bind (left p s b site isOpen serves here).lax ?_
  rintro l s₁ ⟨p₁, b₁, a₁, usable, shapedL⟩
  have serves₁ := serves.refines a₁.reached.plan
  refine ends_bind (ends_appendBlock (.refl a₁.reached.site) serves₁ _) ?_
  rintro rhsBlock s₂ ⟨r₂, new₂⟩
  refine ends_bind (ends_appendBlock r₂ (serves₁.refines r₂.plan) _) ?_
  rintro doneBlock s₃ ⟨r₃, new₃⟩
  have r₃ : Reached False p₁ s₁ b₁ _ s₃ b₁ [rhsBlock, doneBlock] := r₃
  have opened : s₁.target.module.Appends p₁.function s₃.target.module :=
    .append (.append .refl new₂) new₃
  have open₃ := (opened.terminator? b₁).trans a₁.isOpen
  refine ends_insertionBlock (show Target.insertion? s₃.target = some b₁ from r₃.site.here) ?_
  rcases hb : k.branches rhsBlock doneBlock with ⟨onTrue, onFalse⟩
  obtain ⟨true_mem, false_mem, -⟩ := branches_mem hb
  obtain ⟨closes, joins⟩ := r₃.closes_condBr ⟨r₃.usable usable, False.elim⟩ true_mem false_mem
  refine ends_bind (ends_exits r₃ serves₁ open₃ closes joins) ?_
  rintro _ s₄ ⟨r₄, closed₄, -, exits₄⟩
  refine ends_bind (ends_moves r₄ serves₁ closed₄) ?_
  rintro _ s₅ ⟨r₅, moved₅⟩
  have serves₅ := serves₁.refines r₅.plan
  refine ends_bind (right _ s₅ rhsBlock r₅.site moved₅.isOpen serves₅
    (r₅.scopes.trans (a₁.reached.scopes.trans here))).lax ?_
  rintro r s₆ ⟨p₆, b₆, a₆, -, shapedR⟩
  have r₆ := r₅.next a₆.reached
  refine ends_insertionBlock (show Target.insertion? s₆.target = some b₆ from r₆.site.here) ?_
  refine ends_bind (ends_falls r₆ serves₁ (r₆.joinable (by simp))
    (r₃.waiting doneBlock (by simp)).2.2) ?_
  rintro fell s₇ ⟨r₇, closed₇, e₇, -, falls₇⟩
  refine ends_bind (ends_moves r₇ serves₁ closed₇) ?_
  rintro _ s₈ ⟨r₈, moved₈⟩
  have size : s₆.target.module.values.size ≤ s₈.target.module.values.size :=
    Nat.le_trans e₇.ext.size_le moved₈.values_le
  have at₈ : s₈.target.StandsAt doneBlock mc.function :=
    (serves₁.refines r₈.plan).function ▸ r₈.site.stands moved₈.isOpen
  refine (ends_emit_phi at₈ moved₈.empty .i1 [(l, b₁), (r, b₆)] k.name size).imp ?_
  rintro v s₉ ⟨here₉, back, emits⟩
  refine ⟨doneBlock, here₉, fun M h => ?_⟩
  -- back from the phi to the start of the connective
  rw [moved₈.same] at back
  have owned₇ : s₇.target.module.functionOf? b₆ = some mc.function :=
    (serves₁.refines r₇.plan).function ▸ r₇.site.owned
  obtain ⟨h₆, fallsR⟩ := falls₇ M (back b₆ owned₇ closed₇ M h)
  have h₅ := a₆.settles serves₅ moved₅.isOpen h₆
  obtain ⟨h₄, plain⟩ := moved₅.settles M h₅
  obtain ⟨h₃, exitL⟩ := exits₄ M h₄
  have h₁ := h₃.appends (serves₁.function ▸ opened)
  have size₅ : s₁.target.module.values.size ≤ s₅.target.module.values.size := r₅.values_le
  have shapeR := shapedR M h₆
  rw [GenState.place_start moved₅.empty] at shapeR
  refine ⟨l, _, rhsBlock, doneBlock, _, r, s₆.place b₆, shapedL M h₁, a₁.values_le, ?_, plain,
    size₅, shapeR, a₆.values_le, fallsR _ (GenState.exit_open a₆.isOpen), emits M h⟩
  rw [hb]
  exact ⟨exitL.code.trans (opened.codeOf b₁), exitL.leaves⟩

mutual

/-- Code for an expression has its shape. -/
theorem codesResult_expr : ∀ (e : Expr),
    CodesResult mc scopes (expr mc e) fun M => Shape.expr M scopes e
  | .binary op lhs rhs line => by
    have left := codes_asValue lhs.line (codesResult_expr lhs)
    have right := codes_asValue rhs.line (codesResult_expr rhs)
    simp only [expr, Shape.expr]
    cases strategy : op.strategy with
    | instruction bin hint => exact .of_codes (codes_instruction strategy left right)
    | connective k => exact .of_codes (codes_connective left right)
  | .unary op operand line => by
    have value := codes_asValue operand.line (codesResult_expr operand)
    rw [expr]
    simp only [Shape.expr]
    cases op with
    | not =>
      have codes := CodesResult.of_codes (codes_unary .not "not" value)
      simp only [map_bind] at codes
      exact codes
    | neg =>
      have codes := CodesResult.of_codes (codes_unary .neg "neg" value)
      simp only [map_bind] at codes
      exact codes
  | .var name line => by
    rw [expr]
    simp only [Shape.expr]
    exact .of_codes (codes_variableValue name line)
  | .element array index line => by
    rw [expr]
    simp only [Shape.expr]
    exact codesResult_element (codes_asValue index.line (codesResult_expr index))
  | .call callee args line => by
    have structured : MayLeave False mc scopes (expr mc (.call callee args line)) .int :=
      mayLeave_expr (.call callee args line) False.elim
    rw [expr] at structured ⊢
    simp only [Shape.expr]
    exact codesResult_call structured fun tys arity => codesAll_arguments args tys arity
  | .constant c => by
    rw [expr]
    simp only [Shape.expr]
    exact .of_codes (codes_constant c.value)

theorem codesAll_arguments : ∀ (es : List Expr) (tys : List Ty), tys.length = es.length →
    CodesAll mc scopes (arguments mc es tys) fun M => Shape.arguments M scopes es tys
  | [], [], _ => by
    intro p s b site isOpen serves here
    rw [arguments]
    · simp only [Shape.arguments]
      exact ends_pure ⟨p, b, ⟨.refl site, isOpen⟩, fun _ _ => ⟨rfl, rfl⟩⟩
    · intro e es ty tys same
      cases same
  | e :: es, ty :: tys, arity => by
    simp only [arguments, Shape.arguments]
    exact codesAll_cons (codes_asValue e.line (codesResult_expr e))
      (codesAll_arguments es tys (by simpa using arity))

end

theorem codes_value (e : Expr) : Codes mc scopes (value mc e) fun M => Shape.value M scopes e :=
  codes_asValue e.line (codesResult_expr e)

end

end Gen

end Decaf
