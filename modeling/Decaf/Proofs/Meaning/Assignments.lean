import Decaf.Proofs.Meaning.Expressions

/-!
# Assignments

Code for assignments stores what the evaluation assigns, in the slot of a variable or in the
region of a field.
-/

namespace Decaf.Meaning

open IR Execution

variable {X : Setting}

/-- Code after which the variables are as the evaluation leaves them. -/
def Assigns (A : Activation X) (rounds : Nat) (scopes : ScopeStack) (e : Locals → Eval Locals)
    (S : Shape.Step) : Prop :=
  ∀ a z locals s c, S a z → A.Stands scopes locals s a c →
    X.Tracks rounds (e locals) s c fun locals' s' c' => A.Stands scopes locals' s' z c'

section

variable {A : Activation X} {rounds : Nat} {scopes : ScopeStack} {locals : Locals}
  {s : Situation} {a z : Place} {c : Config (List HostCall)} {v w : ValueId} {d : Datum}

/-- The address of a scalar is good for a store. -/
theorem storeTarget_start {m : Module} {vs : Values} {memory : Memory} {region : Nat} {x y : Value}
    (value : operand m vs v = .ok x) (address : operand m vs w = .ok (.pointer (.start region)))
    (cell : memory.regions[region]? = some #[y]) :
    storeTarget m vs memory v w = .ok (x, ⟨region, 0⟩) := by
  simp [storeTarget, value, pointerOperand_of_operand address, Memory.locate, Memory.regionLength,
    Pointer.start, cell, bind, Except.bind]

theorem assigns_scalar {name : String} {line : Nat} {e : Locals → Eval Datum} {O : Shape.Operand}
    (value : Yields A rounds scopes e O) :
    Assigns A rounds scopes (fun locals => Eval.assignScalar X.source locals name (e locals))
      fun a z => ∃ ty slot v b w c, scopes.resolveScalar name line = .ok (ty, slot) ∧ O a v b ∧
        a.values ≤ b.values ∧ Shape.coerce X.module ty b v w c ∧
        Shape.Does X.module c (.store w slot) z := by
  rintro a z locals s c ⟨ty, slot, v, b, w, k, resolved, shape, le, coerces, stores⟩ stands
  obtain ⟨_, _, _, before⟩ := stands.scalar resolved
  simp only [Eval.assignScalar, before.type, pure_bind]
  refine Setting.tracks_bind (value a v b locals s c shape stands) fun d s₁ c₁ y₁ => ?_
  refine tracks_convert y₁ coerces le fun d' c₂ _ y₂ => ?_
  obtain ⟨region, old, x, scalar⟩ := y₂.stands.scalar resolved
  obtain ⟨y, there, represents⟩ := y₂.carries.value
  obtain ⟨locals', s', written, holds, bound⟩ := scalar.write d' y represents
  obtain ⟨c₃, running, stands₃, -⟩ := y₂.stands.store stores
    (storeTarget_start there scalar.address scalar.cell) scalar.apart holds bound
  rw [Setting.Tracks, written]
  exact ⟨1, c₃, running, stands₃⟩

theorem assigns_element {name : String} {line : Nat} {e e' : Locals → Eval Datum}
    {I O : Shape.Operand} (index : Yields A rounds scopes e I) (value : Yields A rounds scopes e' O) :
    Assigns A rounds scopes
      (fun locals => Eval.assignElement X.source locals name (e locals) (e' locals))
      fun a z => ∃ ty base i b v c w d address x,
        scopes.resolveArray name line = .ok (ty, base) ∧ I a i b ∧ a.values ≤ b.values ∧
        O b v c ∧ b.values ≤ c.values ∧ Shape.coerce X.module ty c v w d ∧
        Shape.Emits X.module d address (.elementPtr address ty.repr base i) x ∧
        Shape.Does X.module x (.store w address) z := by
  rintro a z locals s c
    ⟨ty, base, i, b, v, k, w, l, address, x, resolved, first, le, second, le', coerces, locates,
      stores⟩ stands
  obtain ⟨g, f, length, label, array, rfl, size, hf, global⟩ := stands.array resolved
  simp only [Eval.assignElement, array, pure_bind]
  refine Setting.tracks_bind (index a i b locals s c first stands) fun d s₁ c₁ y₁ => ?_
  refine Setting.tracks_bind (P := fun n s' c' => s' = s₁ ∧ c' = c₁ ∧ d = .int n)
    (Setting.tracks_integer fun n same => ⟨rfl, rfl, same⟩) ?_
  rintro n _ _ ⟨rfl, rfl, rfl⟩
  refine Setting.tracks_bind (value b v k locals _ _ second y₁.stands) fun d s₂ c₂ y₂ => ?_
  refine tracks_convert y₂ coerces le' fun d' c₃ _ y₃ => ?_
  obtain ⟨c₄, running₄, y₄⟩ := element_address y₃.stands locates global
    (y₃.kept.carries y₁.held y₁.carries).int
  refine Setting.Tracks.step ?_ running₄
  obtain ⟨y, there, represents⟩ := (y₄.kept.carries y₃.held y₃.carries).value
  obtain ⟨cells, at_, count, each, located⟩ := elements y₄.stands hf size
  have target : storeTarget X.module c₄.frame.values c₄.world.memory w address =
      if 0 ≤ n.toInt ∧ n.toInt < length then .ok (y, ⟨g, n.toInt.toNat⟩)
      else .error (.outOfBounds n.toInt length) := by
    simp only [storeTarget, there, pointerOperand_of_operand y₄.carries.address, located, bind,
      Except.bind]
    by_cases inside : 0 ≤ n.toInt ∧ n.toInt < length
    · rw [if_pos inside, if_pos inside]
    · rw [if_neg inside, if_neg inside]
  rw [Eval.within]
  split
  · rename_i inside
    rw [if_pos inside] at target
    have below := X.linked.field_lt hf
    have above := A.above
    have written : X.Holds ⟨fun name k => if name = f.name ∧ k = n.toInt.toNat then d'
          else s₂.fields name k, s₂.requests⟩
        { c₄.world with memory := c₄.world.memory.set ⟨g, n.toInt.toNat⟩ y } :=
      ⟨y₄.stands.holds.fields.write X.linked hf represents, y₄.stands.holds.requests⟩
    obtain ⟨c₅, running₅, stands₅, -⟩ := y₄.stands.store stores target (.inl below) written
      (y₄.stands.locals.imp fun x y binds => binds.congr fun r high =>
        regions_set_of_ne (c := ⟨g, n.toInt.toNat⟩) (show r ≠ g by omega))
    rw [pure_bind]
    refine Setting.tracks_bind (P := fun _ s' c' => A.Stands scopes locals s' z c')
      (Setting.Tracks.step (Setting.tracks_modify ?_) running₅)
      fun _ s' c' held => Setting.tracks_pure held
    exact stands₅
  · rename_i outside
    rw [if_neg outside] at target
    obtain ⟨w, ended, holds⟩ := y₄.stands.store_error stores target
    exact Setting.tracks_failure (f := .outOfBounds n.toInt length) ended holds

section Calls

variable {call : Eval.Callee → List Datum → Eval (Option Datum)}

theorem yields_value (follows : Follows X rounds call) (e : Expr) :
    Yields A rounds scopes (fun locals => Eval.value X.source call locals e)
      (Shape.value X.module scopes e) :=
  (gives_expr follows e).asValue

theorem assigns_assignment (follows : Follows X rounds call) : ∀ x : Assignment,
    Assigns A rounds scopes (Eval.assignment X.source call x) (Shape.assignment X.module scopes x)
  | .scalar _ e _ => assigns_scalar (yields_value follows e)
  | .element _ index e _ => assigns_element (yields_value follows index) (yields_value follows e)

theorem assigns_assignments (follows : Follows X rounds call) : ∀ xs : List Assignment,
    Assigns A rounds scopes (Eval.assignments X.source call xs)
      (Shape.assignments X.module scopes xs)
  | [] => by
    rintro a _ locals s c rfl stands
    exact Setting.tracks_pure stands
  | x :: xs => by
    rintro a z locals s c ⟨b, first, le, others⟩ stands
    refine Setting.tracks_bind (assigns_assignment follows x a b locals s c first stands)
      fun locals' s' c' next => ?_
    exact assigns_assignments follows xs b z locals' s' c' others next

end Calls

end

end Decaf.Meaning
