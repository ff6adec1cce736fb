import Decaf.Proofs.Generation.Outcome
import Decaf.Proofs.Generation.Resolution

/-!
# Generating operands

The steps from which code for expressions is put together. Each begins at an open block and
ends at an open block, and the value it leaves can be used there. With `typed` the value has
the type that the typing rules give it and there is no error; without, an error is never
about the structure of the code.
-/

namespace Decaf

open IR

theorem Ty.int_ne_void : Ty.int ≠ .void := by decide

theorem Ty.bool_ne_void : Ty.bool ≠ .void := by decide

theorem Ty.repr_ne_void {ty : Ty} (h : ty ≠ .void) : ty.repr ≠ .void := by
  cases ty <;> first | exact absurd rfl h | nofun

/-- The plan is for the method. -/
structure MethodContext.Serves (mc : MethodContext) (p : Plan) : Prop where
  function : p.function = mc.function
  ret : p.ret = mc.ret.repr

/-- The value can be used at the end of the block. -/
structure Operand (typed : Prop) (m : Module) (p : Plan) (b : BlockId) (ty : IR.Ty)
    (v : ValueId) : Prop where
  usable : m.Usable p (m.there p b) v
  type : typed → m.typeOf v = ty

/-- A construct was passed and control can go on. -/
structure Advances (typed : Prop) (p : Plan) (s : GenState Builder) (b : BlockId) (p' : Plan)
    (s' : GenState Builder) (b' : BlockId) : Prop where
  reached : Reached typed p s b p' s' b' []
  isOpen : s'.target.module.terminator? b' = none

/-- The computation leaves an operand of the given type, wherever it is started with the
given scopes. -/
def Leaves (typed : Prop) (mc : MethodContext) (scopes : ScopeStack) (g : Gen Builder ValueId)
    (ty : IR.Ty) : Prop :=
  ∀ p s b, Site typed p s b → s.target.module.terminator? b = none → mc.Serves p →
    s.scopes = scopes → Gen.Ends g s
      (fun v s' => ∃ p' b', Advances typed p s b p' s' b' ∧
        Operand typed s'.target.module p' b' ty v)
      (Refusal typed)

section

variable {typed : Prop} {mc : MethodContext} {p p' p'' : Plan} {s s' s'' : GenState Builder}
  {b b' b'' : BlockId} {ty : IR.Ty} {v : ValueId}

theorem MethodContext.Serves.refines {n : Nat} (h : mc.Serves p) (r : p'.Refines p n) :
    mc.Serves p' :=
  ⟨r.function.trans h.function, r.ret.trans h.ret⟩

namespace Reached

variable {rest : List BlockId}

/-- What one construct reached, a next one reaches on. -/
theorem next {p₀ : Plan} {s₀ : GenState Builder} {b₀ : BlockId}
    (r : Reached typed p₀ s₀ b₀ p s b rest) (q : Reached typed p s b p' s' b' []) :
    Reached typed p₀ s₀ b₀ p' s' b' rest :=
  r.trans q rfl (fun _ mem => mem) (fun _ mem => .inl mem) rfl q.scopes q.loops

theorem usable (q : Reached typed p s b p' s' b' rest)
    (h : s.target.module.Usable p (s.target.module.there p b) v) :
    s'.target.module.Usable p' (s'.target.module.there p' b') v :=
  (Module.Usable.congr q.plan.function).2 (h.mono q.grown.ext q.there)

theorem typeOf (q : Reached typed p s b p' s' b' rest)
    (h : s.target.module.Usable p (s.target.module.there p b) v) :
    s'.target.module.typeOf v = s.target.module.typeOf v :=
  h.typeOf q.grown.ext

theorem operand (q : Reached typed p s b p' s' b' rest)
    (h : Operand typed s.target.module p b ty v) : Operand typed s'.target.module p' b' ty v :=
  ⟨q.usable h.usable, fun t => (q.typeOf h.usable).trans (h.type t)⟩

theorem isSlot (q : Reached typed p s b p' s' b' rest) {a : ValueId}
    (h : s.target.module.IsSlot p a ty) : s'.target.module.IsSlot p' a ty := by
  rw [Module.IsSlot, q.plan.entry]
  exact h.mono q.grown.ext

end Reached

theorem Advances.next (a : Advances typed p s b p' s' b') (c : Advances typed p' s' b' p'' s'' b'') :
    Advances typed p s b p'' s'' b'' :=
  ⟨a.reached.next c.reached, c.isOpen⟩

theorem Advances.operand (a : Advances typed p s b p' s' b')
    (h : Operand typed s.target.module p b ty v) : Operand typed s'.target.module p' b' ty v :=
  a.reached.operand h

/-- A value without a place in a block can be used at once. -/
theorem operand_of_fixed {m : Module} {info : ValueInfo} (value : m.value? v = some info)
    (fixed : (∃ c, info.origin = .const c ∧ info.ty = c.ty) ∨
      ∃ g, info.origin = .global g ∧ info.ty = .ptr) (type : typed → info.ty = ty) :
    Operand typed m p b ty v :=
  ⟨.inl ⟨info, value, fixed⟩, fun t => (Module.typeOf_of_value? value).trans (type t)⟩

/-- One more instruction, and its value as an operand. -/
theorem advance_emit (site : Site typed p s b) (isOpen : s.target.module.terminator? b = none)
    (found : IR.Ty) (hint : String) (inst : ValueId → Inst)
    (plain : ∀ v, (inst v).isAlloca = false ∧ (inst v).isPhi = false)
    (dst : ∀ v, (inst v).defined? = some v)
    (ok : ∀ (m' : Module) v, s.target.module.Extends m' → m'.Defines p b v found →
      s.target.module.value? v = none →
      m'.InstOk typed p b (s.target.module.codeOf b) (inst v))
    (type : typed → found = ty) :
    Advances typed p s b p { s with target := (s.target.emit found hint inst).2 } b ∧
      Operand typed (s.target.emit found hint inst).2.module p b ty
        (s.target.emit found hint inst).1 ∧
      (s.target.emit found hint inst).2.module.codeOf b =
        s.target.module.codeOf b ++ [inst (s.target.emit found hint inst).1] := by
  obtain ⟨id, here, e, name, value⟩ :=
    (site.stands isOpen).emit found hint inst fun v => (plain v).1
  have code := e.code b
  rw [if_pos rfl] at code
  rw [id]
  have owned : (s.target.emit found hint inst).2.module.functionOf? b = some p.function :=
    (e.owners b).trans site.owned
  have defines := site.body.defines_new e value
  have new : s.target.module.value? ⟨s.target.module.values.size⟩ = none := by
    simp [Module.value?]
  refine ⟨⟨(Reached.refl site).push isOpen here e (plain _).2 (ok _ _ e.ext defines new), ?_⟩,
    ⟨.inr ⟨?_, ?_⟩, fun t => (Module.typeOf_of_value? value).trans (type t)⟩, code⟩
  · show (s.target.emit found hint inst).2.module.terminator? b = none
    rw [e.terms, if_pos rfl, isOpen]
    rfl
  · rw [Module.there, code, defined_append]
    exact List.mem_append_right _ (List.mem_append_right _ (by simp [defined, dst]))
  · simp [Module.owner?, value, owned]

end

namespace Gen

section

variable {typed : Prop} {mc : MethodContext} {p : Plan} {s : GenState Builder} {b : BlockId}
  {ty : IR.Ty} {v : ValueId}

/-- The command emits one instruction that defines a value. -/
theorem ends_emit_inst (site : Site typed p s b)
    (isOpen : s.target.module.terminator? b = none) {c : Command .value} (found : IR.Ty)
    (hint : String) (inst : ValueId → Inst)
    (perform : s.target.perform c = s.target.emit found hint inst)
    (plain : ∀ v, (inst v).isAlloca = false ∧ (inst v).isPhi = false)
    (dst : ∀ v, (inst v).defined? = some v)
    (ok : ∀ (m' : Module) v, s.target.module.Extends m' → m'.Defines p b v found →
      s.target.module.value? v = none →
      m'.InstOk typed p b (s.target.module.codeOf b) (inst v))
    (type : typed → found = ty) :
    Ends (emit c) s (fun v s' => Advances typed p s b p s' b ∧
      Operand typed s'.target.module p b ty v ∧
      s'.target.module.codeOf b = s.target.module.codeOf b ++ [inst v]) (Refusal typed) := by
  apply ends_emit
  show Advances typed p s b p { s with target := (s.target.perform c).2 } b ∧
    Operand typed (s.target.perform c).2.module p b ty (s.target.perform c).1 ∧
    (s.target.perform c).2.module.codeOf b =
      s.target.module.codeOf b ++ [inst (s.target.perform c).1]
  rw [perform]
  exact advance_emit site isOpen found hint inst plain dst ok type

theorem ends_emit_const (site : Site typed p s b)
    (isOpen : s.target.module.terminator? b = none) (c : Const) (type : typed → c.ty = ty) :
    Ends (emit (.const c)) s (fun v s' => Advances typed p s b p s' b ∧
      Operand typed s'.target.module p b ty v) (Refusal typed) := by
  apply ends_emit
  obtain ⟨e, value⟩ := s.target.edit_pushValue b ⟨c.ty, .const c, none⟩
  refine ⟨⟨(Reached.refl site).values site.here e, ?_⟩,
    operand_of_fixed value (.inl ⟨c, rfl, rfl⟩) type⟩
  exact (e.terms b).trans (by simp [isOpen])

theorem ends_emit_string (site : Site typed p s b)
    (isOpen : s.target.module.terminator? b = none) (text : String) (type : typed → .ptr = ty) :
    Ends (emit (.globalString text)) s (fun v s' => Advances typed p s b p s' b ∧
      Operand typed s'.target.module p b ty v) (Refusal typed) := by
  apply ends_emit
  have e := s.target.edit_pushString b ".str" text.toUTF8.toList
  obtain ⟨g, name, G, value, -⟩ :=
    s.target.isGlobal_pushGlobal ".str" (.string text.toUTF8.toList)
  refine ⟨⟨(Reached.refl site).values site.here e, ?_⟩,
    operand_of_fixed value (.inr ⟨g, rfl, rfl⟩) type⟩
  exact (e.terms b).trans (by simp [isOpen])

theorem ends_constant (site : Site typed p s b)
    (isOpen : s.target.module.terminator? b = none) (c : Literal) :
    Ends (constant c) s (fun v s' => Advances typed p s b p s' b ∧
      Operand typed s'.target.module p b c.ty.repr v) (Refusal typed) := by
  cases c with
  | int n => exact ends_emit_const site isOpen (.i32 n) fun _ => rfl
  | bool x => exact ends_emit_const site isOpen (.bool x) fun _ => rfl
  | string text => exact ends_emit_string site isOpen text fun _ => rfl

/-- Widening changes nothing but truth values where an integer is wanted. -/
theorem ends_coerce (site : Site typed p s b)
    (isOpen : s.target.module.terminator? b = none)
    (usable : s.target.module.Usable p (s.target.module.there p b) v) (wanted : Decaf.Ty)
    (type : typed → ∃ found, s.target.module.typeOf v = Decaf.Ty.repr found ∧
      wanted.accepts found = true) :
    Ends (coerce v wanted) s (fun w s' => Advances typed p s b p s' b ∧
      Operand typed s'.target.module p b wanted.repr w) (Refusal typed) := by
  apply ends_typeOf
  split
  · rename_i widened
    obtain ⟨rfl, source⟩ := widened
    refine (ends_emit_inst site isOpen .i32 "zext" (fun dst => .zext dst v .i32) rfl
      (fun _ => ⟨rfl, rfl⟩) (fun _ => rfl) (fun m' w ext defines _ => ?_) fun _ => rfl).mono
      (fun _ _ h => ⟨h.1, h.2.1⟩) fun _ h => h
    exact ⟨defines, usable.mono ext fun _ mem => mem, (usable.typeOf ext).trans source, rfl⟩
  · rename_i kept
    change ¬ (wanted = .int ∧ s.target.module.typeOf v = .i1) at kept
    refine ends_pure ⟨⟨.refl site, isOpen⟩, usable, fun t => ?_⟩
    obtain ⟨found, type, accepts⟩ := type t
    rw [type] at kept ⊢
    revert kept accepts
    cases wanted <;> cases found <;> decide

end

end Gen

end Decaf
