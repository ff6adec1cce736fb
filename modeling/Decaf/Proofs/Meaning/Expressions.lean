import Decaf.Proofs.Meaning.Names
import Decaf.Proofs.Meaning.Operators

/-!
# Expressions

Code that has the shape of an expression leaves the datum to which the expression evaluates.
The machine passes from the place before the code to the place after it, and the values that
were there before are kept.
-/

namespace Decaf.Meaning

open IR Execution

variable {X : Setting}

/-- The machine has come to a place where the operand is the datum. -/
structure Yielded (A : Activation X) (scopes : ScopeStack) (locals : Locals) (n : Nat)
    (vs : Values) (v : ValueId) (z : Place) (d : Datum) (s : Situation)
    (c : Config (List HostCall)) : Prop where
  stands : A.Stands scopes locals s z c
  kept : Kept n vs c.frame.values
  held : v.index < z.values
  carries : Carries X.module c.frame.values v d

/-- Code that leaves the datum of an evaluation. -/
def Yields (A : Activation X) (rounds : Nat) (scopes : ScopeStack) (e : Locals → Eval Datum)
    (O : Shape.Operand) : Prop :=
  ∀ a v z locals s c, O a v z → A.Stands scopes locals s a c →
    X.Tracks rounds (e locals) s c (Yielded A scopes locals a.values c.frame.values v z)

/-- The machine has come to a place where the result is the datum, if there is one. -/
structure Given (A : Activation X) (scopes : ScopeStack) (locals : Locals) (n : Nat) (vs : Values)
    (r : Option ValueId) (z : Place) (o : Option Datum) (s : Situation)
    (c : Config (List HostCall)) : Prop where
  stands : A.Stands scopes locals s z c
  kept : Kept n vs c.frame.values
  result : ∀ v, r = some v → v.index < z.values ∧ ∃ d, o = some d ∧
    Carries X.module c.frame.values v d

/-- Code that leaves the datum of an evaluation, if there is one. -/
def Gives (A : Activation X) (rounds : Nat) (scopes : ScopeStack)
    (e : Locals → Eval (Option Datum)) (O : Shape.Result) : Prop :=
  ∀ a r z locals s c, O a r z → A.Stands scopes locals s a c →
    X.Tracks rounds (e locals) s c (Given A scopes locals a.values c.frame.values r z)

/-- The machine follows a call from the instruction for it. -/
def Follows (X : Setting) (rounds : Nat)
    (call : Eval.Callee → List Datum → Eval (Option Datum)) : Prop :=
  ∀ (A : Activation X) scopes locals s c a r f vs z callee ds,
    Shape.Does X.module a (.call r f vs) z →
    (∀ v, r = some v → Shape.Emits X.module a v (.call (some v) f vs) z) →
    A.Stands scopes locals s a c → callee.At X.source f →
    List.Forall₂ (Carries X.module c.frame.values) vs ds →
    X.Tracks rounds (call callee ds) s c (Given A scopes locals a.values c.frame.values r z)

section

variable {A : Activation X} {rounds : Nat} {scopes : ScopeStack} {locals : Locals}
  {s : Situation} {a z : Place} {c : Config (List HostCall)} {v w : ValueId} {d : Datum}

theorem Gives.asValue {e : Locals → Eval (Option Datum)} {R : Shape.Result}
    (h : Gives A rounds scopes e R) :
    Yields A rounds scopes (fun locals => Eval.asValue (e locals)) (Shape.asValue R) := by
  intro a v z locals s c shape stands
  refine Setting.tracks_asValue ((h a (some v) z locals s c shape stands).imp ?_)
  rintro o s' c' ⟨there, kept, result⟩
  obtain ⟨held, d, same, carries⟩ := result v rfl
  exact ⟨d, same, there, kept, held, carries⟩

theorem Yields.gives {e : Locals → Eval Datum} {O : Shape.Operand}
    (h : Yields A rounds scopes e O) :
    Gives A rounds scopes (fun locals => some <$> e locals)
      fun a r z => ∃ v, r = some v ∧ O a v z := by
  rintro a r z locals s c ⟨v, rfl, shape⟩ stands
  refine Setting.tracks_map ((h a v z locals s c shape stands).imp fun d s' c' yielded => ?_)
  refine ⟨yielded.stands, yielded.kept, fun w same => ?_⟩
  cases same
  exact ⟨yielded.held, d, rfl, yielded.carries⟩

/-- A value that was just defined is there. -/
theorem yielded_of_set (h : A.Stands scopes locals s z c) {n : Nat} {vs : Values} {x : Value}
    (values : c.frame.values = vs.set v x) (new : n ≤ v.index) (held : v.index < z.values)
    (defines : X.module.Defines A.plan z.block v d.ty.repr) (represents : Represents X.module d x) :
    Yielded A scopes locals n vs v z d s c := by
  obtain ⟨⟨name, value⟩, -⟩ := defines
  refine ⟨h, values ▸ (Kept.refl _ _).set new x, held, ⟨x, ?_, represents⟩,
    Module.typeOf_of_value? value⟩
  refine operand_of_owner? (f := A.plan.function) ?_ (by rw [values, Values.get?_set, if_pos rfl])
  simp only [Module.owner?, value]
  exact h.owned

/-- The value that an instruction defines is there after it. -/
theorem yielded_define (h : A.Stands scopes locals s a c) {i : Inst}
    (emits : Shape.Emits X.module a v i z) (notStore : ∀ u w, i ≠ .store u w)
    (notCall : ∀ d g args, i ≠ .call d g args) {x : Value}
    (evaluated : evaluate X.module c.frame.values c.world.memory i = .ok (c.frame.values.set v x))
    (defines : X.module.Defines A.plan a.block v d.ty.repr) (represents : Represents X.module d x) :
    ∃ c', X.machine.after 1 c = .running c' ∧
      Yielded A scopes locals a.values c.frame.values v z d s c' ∧
      c'.frame.values = c.frame.values.set v x := by
  obtain ⟨c', running, stands, values⟩ := h.evaluate emits notStore notCall evaluated
  exact ⟨c', running, yielded_of_set stands values emits.new emits.held
    (emits.block.symm ▸ defines) represents, values⟩

/-- The same where the instruction ends an evaluation. -/
theorem tracks_define (h : A.Stands scopes locals s a c) {i : Inst}
    (emits : Shape.Emits X.module a v i z) (notStore : ∀ u w, i ≠ .store u w)
    (notCall : ∀ d g args, i ≠ .call d g args) {x : Value}
    (evaluated : evaluate X.module c.frame.values c.world.memory i = .ok (c.frame.values.set v x))
    (defines : X.module.Defines A.plan a.block v d.ty.repr) (represents : Represents X.module d x) :
    X.Tracks rounds (pure d) s c (Yielded A scopes locals a.values c.frame.values v z) := by
  obtain ⟨c', running, yielded, -⟩ :=
    yielded_define h emits notStore notCall evaluated defines represents
  exact (Setting.tracks_pure yielded).step running

theorem yields_constant (l : Literal) :
    Yields A rounds scopes (fun _ => pure (.ofLiteral l)) (Shape.constant X.module l) := by
  intro a v z locals s c shape stands
  refine Setting.tracks_pure ?_
  have fixed {k : Const} {d : Datum} (constant : Shape.Constant X.module k a v z)
      (represents : Represents X.module d (.ofConst k)) (ty : d.ty.repr = k.ty) :
      Yielded A scopes locals a.values c.frame.values v z d s c := by
    obtain ⟨name, value⟩ := constant.value
    exact ⟨stands.stays constant.toStays, .refl _ _, constant.held,
      ⟨_, by simp [operand, value], represents⟩, (Module.typeOf_of_value? value).trans ty.symm⟩
  cases l with
  | int n => exact fixed shape (.int n) rfl
  | bool b => exact fixed shape (.bool b) rfl
  | string t =>
    obtain ⟨toStays, ⟨g, name, G, value, hG, kind⟩, held⟩ := shape
    exact ⟨stands.stays toStays, .refl _ _, held, ⟨_, operand_global value, .text hG kind⟩,
      Module.typeOf_of_value? value⟩

/-- What is read from the only cell of a region. -/
theorem read_start {memory : Memory} {region : Nat} {x : Value}
    (cell : memory.regions[region]? = some #[x]) : memory.read (.start region) = .ok x := by
  simp [Memory.read, Memory.locate, Memory.regionLength, Memory.get?, Pointer.start, cell, bind,
    Except.bind]

theorem yields_variable (name : String) (line : Nat) :
    Yields A rounds scopes (fun locals => Eval.readScalar X.source locals name)
      (Shape.variableValue X.module scopes name line) := by
  rintro a v z locals s c ⟨ty, address, resolved, emits⟩ stands
  obtain ⟨region, d, x, scalar⟩ := stands.scalar resolved
  have read : X.Tracks rounds (Eval.expect ty d) s c
      (Yielded A scopes locals a.values c.frame.values v z) := by
    rw [Eval.expect]
    split
    · rename_i fits
      have ok := stands.inst_ok emits.toDoes
      refine tracks_define stands emits (by simp) (by simp) (x := x) ?_ (fits ▸ ok.1)
        scalar.represents
      simp only [evaluate, pointerOperand_of_operand scalar.address, bind, Except.bind,
        read_start scalar.cell, scalar.represents.ty_eq, fits, if_true]
    · exact Setting.tracks_mistyped
  rw [Setting.Tracks] at read ⊢
  rw [scalar.read]
  exact read

/-- The address of an element is computed without regard to the bounds. -/
theorem element_address (h : A.Stands scopes locals s a c) {base index : ValueId} {ty : IR.Ty}
    (emits : Shape.Emits X.module a v (.elementPtr v ty base index) z) {g : Nat}
    {label : Option String} (value : X.module.value? base = some ⟨.ptr, .global ⟨g⟩, label⟩)
    {n : Int32} (there : operand X.module c.frame.values index = .ok (.int n)) :
    ∃ c', X.machine.after 1 c = .running c' ∧
      Yielded A scopes locals a.values c.frame.values v z (.string (.address ⟨some g, n.toInt⟩)) s c' := by
  have evaluated : evaluate X.module c.frame.values c.world.memory (.elementPtr v ty base index) =
      .ok (c.frame.values.set v (.pointer ⟨some g, n.toInt⟩)) := by
    simp [evaluate, pointerOperand_of_operand (operand_global value), intOperand, there, bind,
      Except.bind, Pointer.start, Pointer.advance]
  obtain ⟨c', running, yielded, -⟩ := yielded_define (d := .string (.address ⟨some g, n.toInt⟩)) h
    emits (by simp) (by simp) evaluated (h.inst_ok emits.toDoes).1 (.address _)
  exact ⟨c', running, yielded⟩

theorem Carries.address {vs : Values} {p : Pointer}
    (h : Carries X.module vs v (.string (.address p))) :
    operand X.module vs v = .ok (.pointer p) := by
  obtain ⟨x, value, represents⟩ := h.value
  cases represents
  exact value

theorem Carries.int {vs : Values} {n : Int32} (h : Carries X.module vs v (.int n)) :
    operand X.module vs v = .ok (.int n) := by
  obtain ⟨x, value, represents⟩ := h.value
  cases represents
  exact value

theorem Carries.bool {vs : Values} {b : Bool} (h : Carries X.module vs v (.bool b)) :
    operand X.module vs v = .ok (.bool b) := by
  obtain ⟨x, value, represents⟩ := h.value
  cases represents
  exact value

/-- The elements of an array are in its region, and nothing else. -/
theorem elements (h : A.Stands scopes locals s a c) {g length : Nat} {f : FieldDecl}
    (hf : X.source.package.fields[g]? = some f) (size : f.size = .array length) :
    ∃ cells, c.world.memory.regions[g]? = some cells ∧ cells.size = length ∧
      (∀ (j : Nat) x, cells[j]? = some x → Represents X.module (s.fields f.name j) x) ∧
      ∀ n : Int32, c.world.memory.locate ⟨some g, n.toInt⟩ =
        if 0 ≤ n.toInt ∧ n.toInt < length then .ok ⟨g, n.toInt.toNat⟩
        else .error (.outOfBounds n.toInt length) := by
  obtain ⟨cells, there, count, each⟩ := h.holds.fields.elements g f hf
  have many : cells.size = length := by
    rw [count, FieldDecl.kind, size]
    rfl
  exact ⟨cells, there, many, each, fun n => by
    simp only [Memory.locate, Memory.regionLength, there, many]⟩

theorem yields_element {e : Locals → Eval Datum} {O : Shape.Operand} {name : String} {line : Nat}
    (index : Yields A rounds scopes e O) :
    Yields A rounds scopes (fun locals => Eval.element X.source locals name (e locals))
      (Shape.element X.module scopes name line O) := by
  rintro a v z locals s c ⟨ty, base, i, b, address, k, resolved, shape, le, locates, loads⟩ stands
  obtain ⟨g, f, length, label, array, rfl, size, hf, value⟩ := stands.array resolved
  simp only [Eval.element, array, pure_bind]
  refine Setting.tracks_bind (index a i b locals s c shape stands) fun d s₁ c₁ y₁ => ?_
  refine Setting.tracks_bind (P := fun n s' c' => s' = s₁ ∧ c' = c₁ ∧ d = .int n)
    (Setting.tracks_integer fun n same => ⟨rfl, rfl, same⟩) ?_
  rintro n _ _ ⟨rfl, rfl, rfl⟩
  obtain ⟨c₂, running, y₂⟩ := element_address y₁.stands locates value y₁.carries.int
  refine Setting.Tracks.step ?_ running
  have kept := y₁.kept.trans y₂.kept le
  have loaded := y₂.carries.address
  obtain ⟨cells, there, count, each, located⟩ := elements y₂.stands hf size
  rw [Eval.within]
  split
  · rename_i inside
    rw [pure_bind, Eval.readField]
    refine Setting.tracks_get ?_
    have held : n.toInt.toNat < cells.size := by omega
    rw [Eval.expect]
    split
    · rename_i fits
      have represents := each n.toInt.toNat _ (Array.getElem?_eq_getElem held)
      refine (tracks_define y₂.stands loads (by simp) (by simp) ?_
        (fits ▸ (y₂.stands.inst_ok loads.toDoes).1) represents).imp fun d' s' c' y => ?_
      · simp only [evaluate, pointerOperand_of_operand loaded, bind, Except.bind, Memory.read,
          located, inside, if_true, and_self, Memory.get?, there, Option.bind_some,
          Array.getElem?_eq_getElem held, represents.ty_eq, fits]
      · exact ⟨y.stands, kept.trans y.kept (Nat.le_trans le locates.values), y.held, y.carries⟩
    · exact Setting.tracks_mistyped
  · rename_i outside
    have failed : evaluate X.module c₂.frame.values c₂.world.memory (.load v f.ty.repr address) =
        .error (.outOfBounds n.toInt length) := by
      simp only [evaluate, pointerOperand_of_operand loaded, bind, Except.bind, Memory.read,
        located, outside, if_false]
    obtain ⟨w, ended, holds⟩ :=
      y₂.stands.evaluate_error loads.toDoes (by simp) (by simp) failed
    exact Setting.tracks_failure (f := .outOfBounds n.toInt length) ended holds

theorem coerce_values {wanted : Decaf.Ty} (h : Shape.coerce X.module wanted a v w z) :
    a.values ≤ z.values := by
  rw [Shape.coerce] at h
  split at h
  · exact h.values
  · exact Nat.le_of_eq (by rw [h.2])

/-- Where an integer is wanted a truth value is taken as one. -/
theorem coerced (h : A.Stands scopes locals s a c) {wanted : Decaf.Ty}
    (shape : Shape.coerce X.module wanted a v w z) (held : v.index < a.values)
    (carries : Carries X.module c.frame.values v d) :
    ∃ n c', X.machine.after n c = .running c' ∧ Yielded A scopes locals a.values c.frame.values w z
      (if wanted = .int then d.widen else d) s c' := by
  rw [Shape.coerce] at shape
  split at shape
  · rename_i widened
    obtain ⟨rfl, type⟩ := widened
    have isBool : d.ty.repr = .i1 := carries.type.symm.trans type
    cases d with
    | int n => cases isBool
    | string t => cases isBool
    | bool b =>
      have evaluated : evaluate X.module c.frame.values c.world.memory (.zext w v .i32) =
          .ok (c.frame.values.set w (.int (if b then 1 else 0))) := by
        simp [evaluate, boolOperand, carries.bool, bind, Except.bind]
      obtain ⟨c', running, yielded, -⟩ := yielded_define (d := .int (if b then 1 else 0)) h shape
        (by simp) (by simp) evaluated (h.inst_ok shape.toDoes).1 (.int _)
      exact ⟨1, c', running, yielded⟩
  · rename_i kept
    obtain ⟨rfl, rfl⟩ := shape
    refine ⟨0, c, rfl, h, .refl _ _, held, ?_⟩
    split
    · rename_i int
      rw [represents_widen]
      · exact carries
      · intro isBool
        exact kept ⟨int, by rw [carries.type, isBool]; rfl⟩
    · exact carries

/-- A datum is converted where its value is coerced. -/
theorem tracks_convert {α : Type} {n : Nat} {vs : Values} {b : Place}
    (y : Yielded A scopes locals n vs v b d s c) {wanted : Decaf.Ty}
    (shape : Shape.coerce X.module wanted b v w z) (le : n ≤ b.values) {f : Datum → Eval α}
    {Q : α → Situation → Config (List HostCall) → Prop}
    (rest : ∀ d' c', d'.ty = wanted → Yielded A scopes locals n vs w z d' s c' →
      X.Tracks rounds (f d') s c' Q) :
    X.Tracks rounds (Eval.convert wanted d >>= f) s c Q := by
  obtain ⟨k, c', running, y'⟩ := coerced y.stands shape y.held y.carries
  refine Setting.Tracks.step ?_ running
  refine Setting.tracks_bind (P := fun d' s'' c'' => s'' = s ∧ c'' = c' ∧ d'.ty = wanted ∧
    Yielded A scopes locals n vs w z d' s c') (Setting.tracks_convert fun d' found => ?_) ?_
  · refine ⟨rfl, rfl, ty_of_convert? found, ?_⟩
    obtain ⟨-, same⟩ := Option.ite_none_right_eq_some.1 found
    obtain rfl := Option.some.inj same
    exact ⟨y'.stands, y.kept.trans y'.kept le, y'.held, y'.carries⟩
  · rintro d' _ _ ⟨rfl, rfl, type, y''⟩
    exact rest d' _ type y''

/-- The instruction for an operator, on operands of one type. -/
theorem tracks_binary (h : A.Stands scopes locals s a c) {op : BinaryOp} {bin : BinOp}
    {hint : String} (strategy : op.strategy = .instruction bin hint) {l r : ValueId} {dl dr : Datum}
    (emits : Shape.Emits X.module a v (.binary v bin l r) z)
    (left : Carries X.module c.frame.values l dl) (right : Carries X.module c.frame.values r dr)
    (same : dl.ty = dr.ty) : X.Tracks rounds (liftM (onData op dl dr)) s c
      (Yielded A scopes locals a.values c.frame.values v z) := by
  obtain ⟨x, hx, leftIs⟩ := left.value
  obtain ⟨y, hy, rightIs⟩ := right.value
  have answers := answers_onData strategy leftIs rightIs same
  have defines := (h.inst_ok emits.toDoes).1
  rw [left.type] at defines
  cases result : onData op dl dr with
  | ok d =>
    rw [result] at answers
    obtain ⟨u, computed, represents, ty⟩ := answers
    refine tracks_define h emits (by simp) (by simp) ?_ (ty ▸ defines) represents
    simp [evaluate, hx, hy, computed, bind, Except.bind]
  | error stop =>
    rw [result] at answers
    cases stop with
    | mistyped => trivial
    | meaningless => exact answers.elim
    | unfinished => exact answers.elim
    | failure f =>
      have computed : Execution.binary bin x y = .error f.fault := answers
      have failed : evaluate X.module c.frame.values c.world.memory (.binary v bin l r) =
          .error f.fault := by
        simp [evaluate, hx, hy, computed, bind, Except.bind]
      obtain ⟨w, ended, holds⟩ := h.evaluate_error emits.toDoes (by simp) (by simp) failed
      exact Setting.tracks_failure ended holds

theorem repr_injective {t u : Decaf.Ty} (h : t.repr = u.repr) : t = u := by
  cases t <;> cases u <;> first | rfl | cases h

theorem yields_instruction {op : BinaryOp} {bin : BinOp} {hint : String}
    (strategy : op.strategy = .instruction bin hint) {l r : Locals → Eval Datum}
    {L R : Shape.Operand} (left : Yields A rounds scopes l L) (right : Yields A rounds scopes r R) :
    Yields A rounds scopes (fun locals => Eval.binary op (l locals) (r locals))
      (Shape.instruction X.module bin L R) := by
  rintro a v z locals s c ⟨lv, b, rv, k, first, le, second, le', last⟩ stands
  show X.Tracks rounds (Eval.binary op (l locals) (r locals)) s c _
  rw [binary_of_instruction strategy]
  refine Setting.tracks_bind (left a lv b locals s c first stands) fun dl s₁ c₁ y₁ => ?_
  refine Setting.tracks_bind (right b rv k locals s₁ c₁ second y₁.stands) fun dr s₂ c₂ y₂ => ?_
  have kept := y₁.kept.trans y₂.kept le
  have carried := y₂.kept.carries y₁.held y₁.carries
  have heldLeft : lv.index < k.values := Nat.lt_of_lt_of_le y₁.held le'
  have types : X.module.typeOf lv = X.module.typeOf rv ↔ dl.ty = dr.ty := by
    rw [carried.type, y₂.carries.type]
    exact ⟨repr_injective, congrArg _⟩
  split at last
  · rename_i same
    exact (tracks_binary y₂.stands strategy last carried y₂.carries (types.1 same)).imp
      fun d s' c' y => ⟨y.stands, kept.trans y.kept (Nat.le_trans le le'), y.held, y.carries⟩
  · rename_i differ
    obtain ⟨l', p, r', q, widenLeft, widenRight, emits⟩ := last
    obtain ⟨n₃, c₃, running₃, y₃⟩ := coerced y₂.stands widenLeft heldLeft carried
    have le₃ := coerce_values widenLeft
    obtain ⟨n₄, c₄, running₄, y₄⟩ := coerced y₃.stands widenRight
      (Nat.lt_of_lt_of_le y₂.held le₃) (y₃.kept.carries y₂.held y₂.carries)
    rw [onData_widen fun same => differ (types.2 same)]
    refine (Setting.Tracks.step ?_ running₄).step running₃
    by_cases same : dl.widen.ty = dr.widen.ty
    · refine (tracks_binary y₄.stands strategy emits (y₄.kept.carries y₃.held y₃.carries) y₄.carries
        same).imp fun d s' c' y => ⟨y.stands, ?_, y.held, y.carries⟩
      have le₄ := coerce_values widenRight
      exact ((kept.trans y₃.kept (by omega)).trans y₄.kept (by omega)).trans y.kept (by omega)
    · rw [onData_mistyped same]
      trivial

theorem yields_unary (op : UnaryOp) {e : Locals → Eval Datum} {O : Shape.Operand}
    (operand : Yields A rounds scopes e O) :
    Yields A rounds scopes (fun locals => Eval.unary op (e locals))
      (Shape.unary X.module op O) := by
  rintro a v z locals s c ⟨u, b, shape, le, emits⟩ stands
  refine Setting.tracks_bind (operand a u b locals s c shape stands) fun d s₁ c₁ y₁ => ?_
  obtain ⟨x, hx, represents⟩ := y₁.carries.value
  have answers := answers_onDatum op represents
  have defines := (y₁.stands.inst_ok emits.toDoes).1
  rw [y₁.carries.type] at defines
  cases result : onDatum op d with
  | ok d' =>
    rw [result] at answers
    obtain ⟨y, computed, represents', ty⟩ := answers
    refine (tracks_define y₁.stands emits (by simp) (by simp) ?_ (ty ▸ defines) represents').imp
      fun d s' c' y => ⟨y.stands, y₁.kept.trans y.kept le, y.held, y.carries⟩
    simp [evaluate, hx, computed, bind, Except.bind]
  | error stop =>
    rw [result] at answers
    cases stop with
    | mistyped => trivial
    | meaningless => exact answers.elim
    | unfinished => exact answers.elim
    | failure f =>
      have computed : Execution.unary op.instruction x = .error f.fault := answers
      have failed : evaluate X.module c₁.frame.values c₁.world.memory
          (.unary v op.instruction u) = .error f.fault := by
        simp [evaluate, hx, computed, bind, Except.bind]
      obtain ⟨w, ended, holds⟩ := y₁.stands.evaluate_error emits.toDoes (by simp) (by simp) failed
      exact Setting.tracks_failure ended holds

/-- Where both ways meet the phi takes the value from the one that was taken. -/
theorem yielded_merge (h : A.Stands scopes locals s a c) {t : Terminator} {done : BlockId} {n : Nat}
    (exits : Shape.Exits X.module a t) (leads : done ∈ t.successors)
    (acts : X.machine.actTerminator c.world.tick c.frame c.callers (some t) =
      X.machine.jump c.world.tick c.frame c.callers done)
    {incoming : List (ValueId × BlockId)}
    (emits : Shape.Emits X.module (.start done n) v (.phi v .i1 incoming) z) {b : Bool}
    (taken : incomingValue X.module c.frame.values (some a.block) incoming = .ok (.bool b)) :
    ∃ c', X.machine.after 1 c = .running c' ∧
      Yielded A scopes locals n c.frame.values v z (.bool b) s c' := by
  obtain ⟨c', running, stands, values⟩ := h.merge exits leads acts emits taken
  refine ⟨c', running, yielded_of_set stands values emits.new emits.held ?_ (.bool b)⟩
  obtain ⟨after, code⟩ := emits.next
  have owned := stands.owned
  rw [emits.block] at owned ⊢
  rcases A.finished.body.insts done owned [] _ after code with ok | phi
  · cases ok
  · obtain ⟨dst, incoming', same, -, -, defines, -⟩ := phi
    cases same
    exact defines

theorem yields_connective {op : BinaryOp} {k : Connective} (strategy : op.strategy = .connective k)
    {l r : Locals → Eval Datum} {L R : Shape.Operand} (left : Yields A rounds scopes l L)
    (right : Yields A rounds scopes r R) :
    Yields A rounds scopes (fun locals => Eval.binary op (l locals) (r locals))
      (Shape.connective X.module k L R) := by
  rintro a v z locals s c ⟨lv, b, rightBlock, done, n, rv, e, first, le, splits, plain, le', second,
    le'', joins, emits⟩ stands
  show X.Tracks rounds (Eval.binary op (l locals) (r locals)) s c _
  rw [binary_of_connective strategy]
  refine Setting.tracks_bind (left a lv b locals s c first stands) fun dl s₁ c₁ y₁ => ?_
  refine Setting.tracks_bind (P := fun x s' c' => s' = s₁ ∧ c' = c₁ ∧ dl = .bool x)
    (Setting.tracks_truth fun x same => ⟨rfl, rfl, same⟩) ?_
  rintro x _ _ ⟨rfl, rfl, rfl⟩
  have target := branches_asks k rightBlock done x
  by_cases asked : x = asks k
  · rw [if_pos asked] at target ⊢
    obtain ⟨c₂, running₂, stands₂, values₂⟩ := y₁.stands.condBr splits y₁.carries.bool
      (target.symm ▸ plain) n
    rw [target] at stands₂
    refine Setting.Tracks.step ?_ running₂
    refine Setting.tracks_bind (right _ rv e locals _ c₂ second stands₂) fun dr s₃ c₃ y₃ => ?_
    refine Setting.tracks_bind (P := fun x s' c' => s' = s₃ ∧ c' = c₃ ∧ dr = .bool x)
      (Setting.tracks_truth fun x same => ⟨rfl, rfl, same⟩) ?_
    rintro y _ _ ⟨rfl, rfl, rfl⟩
    -- the two blocks end in different ways
    have apart : b.block ≠ e.block := fun same => by
      have left := splits.leaves
      rw [same, joins.leaves] at left
      cases left
    obtain ⟨c₄, running₄, y₄⟩ := yielded_merge y₃.stands joins (by simp [Terminator.successors]) rfl
      emits (b := y) (by simp [incomingValue, apart, y₃.carries.bool])
    refine (Setting.tracks_pure ⟨y₄.stands, ?_, y₄.held, y₄.carries⟩).step running₄
    have kept := y₁.kept.trans (values₂ ▸ y₃.kept) (Nat.le_trans le le')
    exact kept.trans y₄.kept (by omega)
  · rw [if_neg asked] at target ⊢
    have leads : done ∈ (Terminator.condBr lv (k.branches rightBlock done).1
        (k.branches rightBlock done).2).successors := by
      cases k <;> simp [Terminator.successors, Connective.branches]
    obtain ⟨c₂, running₂, y₂⟩ := yielded_merge y₁.stands splits
      leads ((Activation.actTerminator_condBr y₁.carries.bool).trans (by rw [target])) emits
      (b := x) (by simp [incomingValue, y₁.carries.bool])
    refine (Setting.tracks_pure ⟨y₂.stands, ?_, y₂.held, y₂.carries⟩).step running₂
    exact y₁.kept.trans y₂.kept (by omega)

section Calls

variable {call : Eval.Callee → List Datum → Eval (Option Datum)}

mutual

/-- Code for an expression gives what it evaluates to. -/
theorem gives_expr (follows : Follows X rounds call) : ∀ e : Expr, Gives A rounds scopes
    (fun locals => Eval.expr X.source call locals e) (Shape.expr X.module scopes e)
  | .binary op lhs rhs line => by
    have left := (gives_expr follows lhs).asValue
    have right := (gives_expr follows rhs).asValue
    simp only [Eval.expr, Shape.expr]
    cases strategy : op.strategy with
    | instruction bin hint => exact (yields_instruction strategy left right).gives
    | connective k => exact (yields_connective strategy left right).gives
  | .unary op operand line => by
    simp only [Eval.expr, Shape.expr]
    exact (yields_unary op (gives_expr follows operand).asValue).gives
  | .var name line => by
    simp only [Eval.expr, Shape.expr]
    exact (yields_variable name line).gives
  | .element array index line => by
    simp only [Eval.expr, Shape.expr]
    exact (yields_element (gives_expr follows index).asValue).gives
  | .call name args line => by
    rintro a r z locals s c ⟨f, tys, vs, b, resolved, shape, le, does, emits⟩ stands
    obtain ⟨callee, found, rfl, there⟩ := stands.callee resolved
    simp only [Eval.expr, found, pure_bind]
    refine Setting.tracks_bind
      (passes_arguments follows args callee.params a vs b locals s c shape stands)
      fun ds s₁ c₁ ⟨stands₁, kept, each⟩ => ?_
    refine (follows A scopes locals s₁ c₁ b r f vs z callee ds does emits stands₁ there
      (each.imp fun v d carried => carried.2)).imp fun o s' c' given => ?_
    exact ⟨given.stands, kept.trans given.kept le, given.result⟩
  | .constant c => by
    simp only [Eval.expr, Shape.expr]
    have yields : Yields A rounds scopes (fun _ => pure (.ofLiteral c.value))
      (Shape.constant X.module c.value) := yields_constant c.value
    simpa only [map_pure] using yields.gives

/-- Code for arguments leaves what they evaluate to. -/
theorem passes_arguments (follows : Follows X rounds call) : ∀ (es : List Expr)
    (tys : List Decaf.Ty) a vs z locals s c, Shape.arguments X.module scopes es tys a vs z →
    A.Stands scopes locals s a c →
    X.Tracks rounds (Eval.arguments X.source call locals es tys) s c fun ds s' c' =>
      A.Stands scopes locals s' z c' ∧ Kept a.values c.frame.values c'.frame.values ∧
      List.Forall₂ (fun v d => v.index < z.values ∧ Carries X.module c'.frame.values v d) vs ds
  | e :: es, ty :: tys, a, vs, z, locals, s, c, shape, stands => by
    obtain ⟨v, b, w, d, ws, rfl, first, le, coerces, others, le'⟩ := shape
    simp only [Eval.arguments]
    refine Setting.tracks_bind ((gives_expr follows e).asValue a v b locals s c first stands)
      fun x s₁ c₁ y₁ => ?_
    refine tracks_convert y₁ coerces le fun x' c₂ _ y₂ => ?_
    refine Setting.tracks_bind (passes_arguments follows es tys d ws z locals _ _ others y₂.stands)
      fun xs s₃ c₃ ⟨stands₃, kept, each⟩ => Setting.tracks_pure ⟨stands₃, ?_, .cons ?_ each⟩
    · exact y₂.kept.trans kept (Nat.le_trans le (coerce_values coerces))
    · exact ⟨Nat.lt_of_lt_of_le y₂.held le', kept.carries y₂.held y₂.carries⟩
  | [], _, a, vs, z, locals, s, c, shape, stands => by
    obtain ⟨rfl, rfl⟩ := shape
    exact Setting.tracks_pure ⟨stands, .refl _ _, .nil⟩
  | _ :: _, [], a, vs, z, locals, s, c, shape, stands => by
    obtain ⟨rfl, rfl⟩ := shape
    exact Setting.tracks_pure ⟨stands, .refl _ _, .nil⟩

end

end Calls

end

end Decaf.Meaning
