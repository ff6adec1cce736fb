import Decaf.Proofs.Meaning.Statements

/-!
# Calls

A method that is entered reserves its slots, binds its parameters and follows its body; when it
returns, the call that waits for it goes on with the result, and memory above the globals is as
before. Since every call inside has one round less, the machine follows all calls by induction
on the rounds.
-/

namespace Decaf.Meaning

open IR Execution

variable {X : Setting}

/-- The slots of the entry are reserved, and nothing else changes. -/
theorem after_reserve {σ : Type} {M : Machine σ} {p : Plan} (body : M.module.Body False p) :
    ∀ (todo : List (ValueId × IR.Ty)) {done : List (ValueId × IR.Ty)} {post : List Inst}
      {c : Config σ}, Running False M.module p c.world.memory c.frame done todo [] post →
      c.frame.block = p.entry → ∃ c', M.after todo.length c = .running c' ∧
        Running False M.module p c'.world.memory c'.frame (M.module.slotsOf p.entry) [] [] post ∧
        c'.frame.block = p.entry ∧ c'.frame.mark = c.frame.mark ∧ c'.callers = c.callers ∧
        c'.world.host = c.world.host ∧
        (∀ r < c.frame.mark, c'.world.memory.regions[r]? = c.world.memory.regions[r]?) ∧
        ∀ v, v ∉ todo.map Prod.fst → c'.frame.values.get? v = c.frame.values.get? v
  | [], done, post, c, running, entry => by
    refine ⟨c, rfl, ?_, entry, rfl, rfl, rfl, fun _ _ => rfl, fun _ _ => rfl⟩
    have slots := running.slots
    rw [List.append_nil] at slots
    rwa [slots]
  | (dst, ty) :: todo, done, post, c, running, entry => by
    have next : c.frame.rest = .alloca dst ty :: (todo.map (fun s => Inst.alloca s.1 s.2) ++ post) :=
      running.rest
    have active := running.active
    rw [entry] at active
    have top := running.top
    have stepped : Running False M.module p (c.world.memory.allocate #[Value.zero ty])
        ⟨c.frame.block, todo.map (fun s => Inst.alloca s.1 s.2) ++ post,
          c.frame.values.set dst (.pointer (.start c.world.memory.mark)), c.frame.mark⟩
        (done ++ [(dst, ty)]) todo [] post :=
      ⟨by simpa using running.slots, running.code, rfl, .inr ⟨entry, rfl⟩, running.noPhi,
        entry ▸ active.reserve body running.slots top,
        by rw [Memory.mark_allocate, top, List.length_append]; rfl⟩
    obtain ⟨c', later, running', entry', mark, callers, host, below, kept⟩ :=
      after_reserve body todo (c := c.proceed (c.world.memory.allocate #[Value.zero ty])
        (todo.map (fun s => Inst.alloca s.1 s.2) ++ post)
        (c.frame.values.set dst (.pointer (.start c.world.memory.mark)))) stepped entry
    refine ⟨c', ?_, running', entry', mark, callers, host, fun r low => ?_, fun v other => ?_⟩
    · rw [List.length_cons, Machine.after, Machine.advance_alloca next]
      exact later
    · refine (below r low).trans ?_
      have under : r < c.world.memory.regions.size := by
        have : c.world.memory.regions.size = c.frame.mark + done.length := top
        omega
      show (c.world.memory.regions.push _)[r]? = _
      rw [Array.getElem?_push, if_neg (Nat.ne_of_lt under)]
    · rw [List.map_cons, List.mem_cons, not_or] at other
      refine (kept v other.2).trans ?_
      show (c.frame.values.set _ _).get? v = _
      rw [Values.get?_set, if_neg other.1]

/-- Each parameter has its argument. -/
theorem get?_ofParams : ∀ {params : List Param} {args : List Value},
    (params.map (·.value)).Nodup → params.length = args.length →
    List.Forall₂ (fun q x => (Values.ofParams params args).get? q.value = some x) params args
  | [], [], _, _ => .nil
  | q :: params, x :: args, distinct, length => by
    rw [List.map_cons, List.nodup_cons] at distinct
    refine .cons (by rw [Values.ofParams, Values.get?_set, if_pos rfl]) ?_
    have others : List.Forall₂ _ params args := get?_ofParams distinct.2 (by simpa using length)
    rw [List.forall₂_iff_get] at others ⊢
    refine ⟨others.1, fun i hi hi' => ?_⟩
    have apart : (params.get ⟨i, hi⟩).value ≠ q.value := fun same => distinct.1 <| by
      rw [← same]
      exact List.mem_map_of_mem (List.get_mem params ⟨i, hi⟩)
    rw [Values.ofParams, Values.get?_set, if_neg apart]
    exact others.2 i hi hi'

section

variable {A : Activation X} {rounds : Nat} {scopes : ScopeStack} {locals : Locals}
  {s : Situation} {a z : Place} {c : Config (List HostCall)}

/-- The operand for a parameter is what was passed. -/
def Passed (X : Setting) (c : Config (List HostCall)) (q : Param) (d : Datum) : Prop :=
  ∃ x, operand X.module c.frame.values q.value = .ok x ∧ Represents X.module d x

/-- Parameters are declared, and start with what was passed. -/
theorem Activation.Stands.bindParams {p : Bindings} {outer : List Bindings} {params : List Param} :
    ∀ (decls : List VarDecl) {args : List Datum} {index : Nat} {b : Bindings} {locals : Locals}
      {a z : Place} {c : Config (List HostCall)} {scopes : ScopeStack},
    Shape.bindParams X.module A.plan.entry params index decls ⟨p, b :: outer⟩ a scopes z →
    A.Stands ⟨p, b :: outer⟩ locals s a c → List.Forall₂ (Passed X c) (params.drop index) args →
    args.length = decls.length → ∃ b' n c', scopes = ⟨p, b' :: outer⟩ ∧
      X.machine.after n c = .running c' ∧ A.Stands scopes (locals.bind decls args) s z c'
  | [], [], index, b, locals, a, z, c, scopes, shape, stands, _, _ => by
    obtain ⟨rfl, rfl⟩ := shape
    exact ⟨b, 0, c, rfl, rfl, stands⟩
  | param :: decls, d :: args, index, b, locals, a, z, c, scopes, shape, stands, passed, length => by
    have inside : index < params.length := by
      have := passed.length_eq
      rw [List.length_drop, List.length_cons] at this
      omega
    rw [List.drop_eq_getElem_cons inside, List.forall₂_cons] at passed
    obtain ⟨⟨x, there, represents⟩, others⟩ := passed
    have fewer : args.length = decls.length := by simpa using length
    rw [Shape.bindParams] at shape
    rw [Locals.bind]
    cases named : param.name with
    | none =>
      rw [named] at shape
      exact Activation.Stands.bindParams decls shape stands others fewer
    | some name =>
      rw [named] at shape
      obtain ⟨slot, q, e, f, at_, stays, declares, rest⟩ := shape
      rw [List.getElem?_eq_getElem inside] at at_
      obtain rfl := Option.some.inj at_
      obtain ⟨c₁, running₁, stands₁, values⟩ := (stands.stays stays).declares (x := d) rfl declares
        there represents
      obtain ⟨b', n, c₂, same, running₂, stands₂⟩ :=
        Activation.Stands.bindParams decls rest stands₁
          (others.imp fun q d passed => by rwa [Passed, values]) fewer
      exact ⟨b', 1 + n, c₂, same, (Machine.after_add running₁ n).trans running₂, stands₂⟩

/-- A method has been entered with the arguments. -/
structure Entered (A : Activation X) (d : Method) (ds : List Datum) (s : Situation)
    (c : Config (List HostCall)) : Prop where
  method : ∃ i : Nat, X.source.package.methods[i]? = some d ∧
    A.plan.function = ⟨X.source.externs.length + i⟩
  arguments : ∃ F xs, X.module.function? A.plan.function = some F ∧
    F.params.length = xs.length ∧ c.frame.values = .ofParams F.params xs ∧
    List.Forall₂ (Represents X.module) ds xs
  arity : ds.length = d.params.length
  block : c.frame.block = A.plan.entry
  running : ∃ post, Running False X.module A.plan c.world.memory c.frame [] A.slots [] post
  mark : c.frame.mark = A.mark
  callers : c.callers = A.callers
  below : ∀ r, X.module.globals.size ≤ r → r < A.mark → c.world.memory.regions[r]? = A.below r
  holds : X.Holds s c.world

/-- After the slots are reserved the call stands at the start of its entry. -/
theorem Entered.stands {d : Method} {ds : List Datum} (h : Entered A d ds s c) (n : Nat) :
    ∃ F k c', X.module.function? A.plan.function = some F ∧ X.machine.after k c = .running c' ∧
      A.Stands X.scopes [] s (.start A.plan.entry n) c' ∧
      List.Forall₂ (Passed X c') F.params ds := by
  obtain ⟨post, running⟩ := h.running
  obtain ⟨F, xs, hF, length, values, represents⟩ := h.arguments
  obtain ⟨c', later, running', block, mark, callers, host, below, kept⟩ :=
    after_reserve (M := X.machine) A.finished.body A.slots running h.block
  have above := A.above
  refine ⟨F, _, c', hF, later, ?_, ?_⟩
  · exact {
      block := block
      running := ⟨post, running'⟩
      mark := mark.trans h.mark
      callers := callers.trans h.callers
      below := fun r high low =>
        (below r (h.mark ▸ low)).trans (h.below r high low)
      holds := h.holds.congr X.linked
        (fun r low => below r (by rw [h.mark]; omega)) host
      package := rfl
      distinct := by
        rw [X.linked.inner]
        exact List.nodup_nil
      locals := by
        rw [X.linked.inner]
        exact .nil }
  · obtain ⟨G, hG, -, -, -, -, origins⟩ := A.finished.body.declared
    rw [hF] at hG
    cases hG
    have given := get?_ofParams (X.linked.params _ F hF) length
    rw [← values] at given
    rw [List.forall₂_iff_get] at given represents ⊢
    refine ⟨given.1.trans represents.1.symm, fun i hi hi' => ?_⟩
    have held : i < xs.length := given.1 ▸ hi
    obtain ⟨k, name, value⟩ := origins _ (List.get_mem F.params ⟨i, hi⟩)
    refine ⟨_, ?_, represents.2 i hi' held⟩
    refine operand_of_owner? (f := A.plan.function) (by simp only [Module.owner?, value]) ?_
    rw [kept _ fun slot => ?_]
    · exact given.2 i hi held
    · obtain ⟨x, hx, same⟩ := List.mem_map.1 slot
      obtain ⟨-, name', value'⟩ := A.finished.body.slots x hx
      rw [same, value] at value'
      simp at value'

/-- The machine follows a method from its entry to its return. -/
theorem tracks_method {d : Method} {ds : List Datum}
    (follows : Follows X rounds (Eval.invoke X.source X.replies rounds)) (h : Entered A d ds s c) :
    X.Tracks rounds (Eval.invoke X.source X.replies (rounds + 1) (.method d) ds) s c
      (Returns A d.ret) := by
  obtain ⟨i, hd, function⟩ := h.method
  obtain ⟨F, entry, n, hF, first, shape⟩ := X.linked.coded i d hd
  obtain ⟨s₁, b, s₂, e, y, binds, -, declares, -, body, ends⟩ := shape _ ⟨0⟩ (.refl ..)
  obtain ⟨F', k, c₁, hF', running₁, stands₁, passed⟩ := h.stands n
  obtain ⟨G, hG, -, entry', -⟩ := A.finished.body.declared
  rw [function] at hF' hG
  rw [hF] at hF' hG
  cases hF'
  cases hG
  rw [first] at entry'
  obtain rfl := Option.some.inj entry'
  obtain ⟨package, inner⟩ : ∃ package, X.scopes = ⟨package, []⟩ := ⟨_, by
    rw [← X.linked.inner]⟩
  rw [inner] at binds stands₁
  obtain ⟨b₁, k₂, c₂, rfl, running₂, stands₂⟩ :=
    stands₁.push.bindParams d.params binds passed h.arity
  obtain ⟨b₂, k₃, c₃, rfl, running₃, stands₃⟩ := stands₂.declareLocals d.body.vars declares
  refine ((Setting.Tracks.step ?_ running₃).step running₂).step running₁
  have goes : Goes A rounds d.ret .empty ⟨package, [b₂]⟩ _ _ :=
    goes_stmts follows d.body.stmts .empty ⟨package, [b₂]⟩ (fun t none => by cases none)
  refine Setting.tracks_bind (goes e y _ s c₃ body stands₃) ?_
  rintro ⟨signal, locals'⟩ s' c' left
  cases signal with
  | next =>
    obtain ⟨p, rfl, stands'⟩ := left
    refine Setting.tracks_pure ?_
    have finish := ends p rfl
    by_cases void : d.ret = .void
    · rw [if_pos void] at finish ⊢
      exact stands'.returns finish rfl (.none void)
    · rw [if_neg void] at finish ⊢
      exact returns_default void finish stands'
  | jump kind =>
    obtain ⟨targets, none, -⟩ := left
    cases none
  | «return» result => exact Setting.tracks_pure left

/-- After a call the instruction that made it is done, and its result is there. -/
theorem Activation.Stands.called (h : A.Stands scopes locals s a c) {r : Option ValueId}
    {f : FunctionId} {vs : List ValueId} {z : Place} (does : Shape.Does X.module a (.call r f vs) z)
    (emits : ∀ v, r = some v → Shape.Emits X.module a v (.call (some v) f vs) z)
    {F : Function} (hF : X.module.function? f = some F) {ret : Decaf.Ty} (type : F.ret = ret.repr)
    {rest : List Inst} (next : c.frame.rest = .call r f vs :: rest) {o : Option Datum}
    {x : Option Value} (handed : Handed X.module ret o x) {s' : Situation}
    {w : World (List HostCall)} (top : w.memory.mark = c.world.memory.mark)
    (same : ∀ region, X.module.globals.size ≤ region →
      w.memory.regions[region]? = c.world.memory.regions[region]?) (holds : X.Holds s' w)
    (callee : String) : ∃ values, Machine.bindResult callee r x c.frame.values = .ok values ∧
      Given A scopes locals a.values c.frame.values r z o s'
        ⟨w, { c.frame with rest, values }, c.callers⟩ := by
  obtain ⟨after, rest', code, running⟩ := h.next does
  have above := A.above
  obtain ⟨G, hG, -, -, defines, undefined, -⟩ := h.inst_ok does
  rw [hF] at hG
  cases hG
  have size : c.world.memory.mark = c.frame.mark + A.slots.length := running.top
  have covers := holds.fields.covers X.linked (by rw [top]; exact h.covers.mark)
  have keeps : c.world.memory.Keeps False w.memory (c.frame.mark + A.slots.length) := by
    rintro region length ty - ⟨cells, there, count, -⟩
    by_cases low : region < X.module.globals.size
    · have hG := Array.getElem?_eq_getElem low
      obtain ⟨old, at_, size, -⟩ := h.covers.regions region _ hG
      obtain ⟨new, at_', size', -⟩ := covers.regions region _ hG
      rw [there] at at_
      cases at_
      exact ⟨new, at_', by rw [size', ← size, count], False.elim⟩
    · exact ⟨cells, (same region (Nat.le_of_not_lt low)).trans there, count, False.elim⟩
  have bound := judged_bindResult A.finished.body (running.active.keeps keeps) running.code hF
    (show False → Results F.ret x from False.elim) callee
  have stands (values : Values) (bind : Machine.bindResult callee r x c.frame.values = .ok values) :
      A.Stands scopes locals s' z ⟨w, { c.frame with rest, values }, c.callers⟩ := by
    rw [bind] at bound
    exact h.proceed does next ⟨w, { c.frame with rest, values }, c.callers⟩ rfl rfl top bound
      (fun region high low => same region high) holds
      (h.locals.imp fun y z binds => binds.congr fun region high => same region (by omega))
  cases r with
  | none => exact ⟨_, rfl, stands _ rfl, .refl _ _, fun v none => by cases none⟩
  | some v =>
    obtain ⟨nonvoid, ⟨name, value⟩, -⟩ := defines v rfl
    cases handed with
    | none void =>
      rw [type, void] at nonvoid
      exact absurd rfl nonvoid
    | @some d y _ ty represents =>
      have there := stands _ rfl
      refine ⟨_, rfl, there, (Kept.refl _ _).set (emits v rfl).new y, fun u same => ?_⟩
      cases same
      refine ⟨(emits v rfl).held, d, rfl, ⟨y, ?_, represents⟩, ?_⟩
      · refine operand_of_owner? (f := A.plan.function) ?_
          (by show (c.frame.values.set v y).get? v = _; rw [Values.get?_set, if_pos rfl])
        simp only [Module.owner?, value]
        exact h.owned
      · rw [Module.typeOf_of_value? value, type, ty]

/-- The operands of a call are what it is called with. -/
theorem operands_of_carries {m : Module} {values : Values} {vs : List ValueId} {ds : List Datum}
    (h : List.Forall₂ (Carries m values) vs ds) : ∃ xs, vs.mapM (operand m values) = .ok xs ∧
      xs.length = vs.length ∧ List.Forall₂ (Represents m) ds xs := by
  induction h with
  | nil => exact ⟨[], rfl, rfl, .nil⟩
  | cons first _ ih =>
    obtain ⟨x, value, represents⟩ := first.value
    obtain ⟨xs, others, length, each⟩ := ih
    refine ⟨x :: xs, ?_, by simp [length], .cons represents each⟩
    simp [List.mapM_cons, value, others, bind, Except.bind, pure, Except.pure]

theorem function_of_foreign {X : Setting} {e : ExternDecl} {f : FunctionId}
    (there : (Eval.Callee.foreign e).At X.source f) : ∃ F, X.module.function? f = some F ∧
      F.name = e.name ∧ F.ret = e.ret.repr ∧ F.entry? = none := by
  obtain ⟨i, he, rfl⟩ := there
  have bodiless := X.linked.generated.foreign he
  obtain ⟨F, hF, ⟨-, name⟩, ret, -⟩ := bodiless.function
  exact ⟨F, hF, name, ret, bodiless.entry?_eq_none hF⟩

theorem function_of_method {X : Setting} {d : Method} {f : FunctionId}
    (there : (Eval.Callee.method d).At X.source f) : ∃ F p, X.module.function? f = some F ∧
      F.name = d.name ∧ F.id = f ∧ F.ret = d.ret.repr ∧ F.params.length = d.params.length ∧
      p.function = f ∧ X.module.Finished False p ∧ F.entry? = some p.entry := by
  obtain ⟨i, hd, rfl⟩ := there
  have implements := X.linked.generated.method hd
  obtain ⟨F, hF, id, name, ret, params⟩ := implements.header
  obtain ⟨p, function, finished, -, -, entry, -⟩ := implements.declared hF
  have count := congrArg List.length params
  rw [List.length_map, Method.signature, List.length_map] at count
  exact ⟨F, p, hF, name, id, ret, count, function, finished, entry⟩

/-- A method is entered whenever it is called, above the memory that is in use. -/
theorem exists_entered {X : Setting} {d : Method} {f : FunctionId}
    (there : (Eval.Callee.method d).At X.source f) {ds : List Datum} {xs : List Value}
    (represents : List.Forall₂ (Represents X.module) ds xs) (arity : xs.length = d.params.length)
    {memory : Memory} (above : X.module.globals.size ≤ memory.mark) (callers : List Caller) :
    ∃ F entry frame, (X.module.function? f = some F ∧ F.name = d.name ∧ F.id = f ∧
        F.ret = d.ret.repr ∧ F.params.length = xs.length ∧ F.entry? = some entry ∧
        Frame.enter ⟨entry, [], .ofParams F.params xs, memory.mark⟩ X.module none entry =
          .ok frame) ∧
      ∃ A : Activation X, A.mark = memory.mark ∧ A.callers = callers ∧
        (∀ r, A.below r = memory.regions[r]?) ∧ ∀ s w, w.memory = memory → X.Holds s w →
          Entered A d ds s ⟨w, frame, callers⟩ := by
  obtain ⟨F, p, hF, name, id, ret, params, rfl, finished, entry⟩ := function_of_method there
  have count : F.params.length = xs.length := params.trans arity.symm
  obtain ⟨G, declared⟩ := finished.body.declared
  have hG := declared.1
  rw [hF] at hG
  cases hG
  obtain ⟨left, post, entered, running⟩ :=
    running_start memory finished.body declared count False.elim
  refine ⟨F, p.entry, _, ⟨hF, name, id, ret, count, entry, entered⟩,
    ⟨p, finished, memory.mark, above, callers, fun r => memory.regions[r]?⟩, rfl, rfl,
    fun _ => rfl, ?_⟩
  rintro s w rfl holds
  exact {
    method := there
    arguments := ⟨F, xs, hF, count, rfl, represents⟩
    arity := represents.length_eq.trans arity
    block := rfl
    running := ⟨post, running⟩
    mark := rfl
    callers := rfl
    below := fun _ _ _ => rfl
    holds := holds }

section

variable {d : Method} {e : ExternDecl} (stands : A.Stands scopes locals s a c) {r : Option ValueId}
  {f : FunctionId} {vs : List ValueId} {z : Place}
  (does : Shape.Does X.module a (.call r f vs) z)
  (emits : ∀ v, r = some v → Shape.Emits X.module a v (.call (some v) f vs) z) {ds : List Datum}
  (carried : List.Forall₂ (Carries X.module c.frame.values) vs ds)

include stands does carried

/-- The host is asked next, and there is a reply or none. -/
theorem advance_ask (there : (Eval.Callee.foreign e).At X.source f) :
    ∃ F xs rest, X.module.function? f = some F ∧ F.name = e.name ∧ F.ret = e.ret.repr ∧
      c.frame.rest = .call r f vs :: rest ∧ List.Forall₂ (Represents X.module) ds xs ∧
      X.machine.advance c = match X.replies s.requests.length with
        | none => .finished (.error (.unboundExtern e.name)) c.world.tick
        | some reply =>
          match Machine.bindResult (X.machine.calleeName f) r reply c.frame.values with
          | .error fault => .finished (.error fault)
              { c.world.tick with host := c.world.host ++ [⟨F.name, xs, c.world.memory⟩] }
          | .ok values => .running
              ⟨{ c.world.tick with host := c.world.host ++ [⟨F.name, xs, c.world.memory⟩] },
                { c.frame with rest, values }, c.callers⟩ := by
  obtain ⟨F, hF, name, ret, bodiless⟩ := function_of_foreign there
  obtain ⟨xs, operands, count, represents⟩ := operands_of_carries carried
  obtain ⟨rest, next, -⟩ := stands.next does
  obtain ⟨G, hG, arity, -⟩ := stands.inst_ok does
  rw [hF] at hG
  cases hG
  refine ⟨F, xs, rest, hF, name, ret, next, represents, ?_⟩
  have answer : X.machine.host.answer c.world.host ⟨F.name, xs, c.world.memory⟩ =
      (X.replies s.requests.length).map fun reply =>
        (reply, c.world.host ++ [⟨F.name, xs, c.world.memory⟩]) := by
    rw [show s.requests.length = c.world.host.length from stands.holds.requests.length_eq]
    rfl
  rw [Machine.advance_bodiless (M := X.machine) next operands hF (arity.trans count.symm) bodiless,
    answer, name]
  cases X.replies s.requests.length <;> rfl

include emits

/-- After the reply the call is done. -/
theorem Activation.Stands.replied (there : (Eval.Callee.foreign e).At X.source f)
    {reply : Option Value} (given : X.replies s.requests.length = some reply) {o : Option Datum}
    {x : Option Value} (handed : Handed X.module e.ret o x)
    (same : e.ret ≠ .void → x = reply) : ∃ c', X.machine.after 1 c = .running c' ∧
      Given A scopes locals a.values c.frame.values r z o
        { s with requests := s.requests ++ [⟨e.name, ds⟩] } c' := by
  obtain ⟨F, xs, rest, hF, name, ret, next, represents, advance⟩ :=
    advance_ask stands does carried there
  have holds : X.Holds { s with requests := s.requests ++ [⟨e.name, ds⟩] }
      { c.world.tick with host := c.world.host ++ [⟨F.name, xs, c.world.memory⟩] } :=
    ⟨stands.holds.fields, List.rel_append stands.holds.requests
      (.cons ⟨name.symm, represents, stands.holds.fields.texts⟩ .nil)⟩
  obtain ⟨values, bound, there'⟩ := stands.called does emits hF ret next handed (w :=
    { c.world.tick with host := c.world.host ++ [⟨F.name, xs, c.world.memory⟩] }) rfl
    (fun _ _ => rfl) holds (X.machine.calleeName f)
  -- if there is a reply although nothing is wanted, it is not used
  have unused : Machine.bindResult (X.machine.calleeName f) r reply c.frame.values =
      Machine.bindResult (X.machine.calleeName f) r x c.frame.values := by
    cases r with
    | none => rfl
    | some v =>
      obtain ⟨G, hG, -, -, defines, -⟩ := stands.inst_ok does
      rw [hF] at hG
      cases hG
      have nonvoid : e.ret ≠ .void := fun void => (defines v rfl).1 (ret.trans (congrArg _ void))
      rw [same nonvoid]
  rw [given] at advance
  simp only [unused, bound] at advance
  exact ⟨_, (Machine.after_one _ _).trans advance, there'⟩

/-- The machine asks what the evaluation asks, and goes on with the reply. -/
theorem tracks_ask (there : (Eval.Callee.foreign e).At X.source f) :
    X.Tracks rounds (Eval.ask X.replies e ds) s c
      (Given A scopes locals a.values c.frame.values r z) := by
  refine Setting.tracks_get ?_
  cases given : X.replies s.requests.length with
  | none =>
    obtain ⟨F, xs, rest, -, -, -, -, -, advance⟩ := advance_ask stands does carried there
    rw [given] at advance
    exact Setting.tracks_failure (f := .unboundExtern e.name) (n := 1) (w := c.world.tick)
      ((Machine.after_one _ _).trans advance) ⟨stands.holds.1, stands.holds.2⟩
  | some reply =>
    refine Setting.tracks_bind (P := fun _ s' c' => c = c' ∧
      { s with requests := s.requests ++ [⟨e.name, ds⟩] } = s') (Setting.tracks_modify ⟨rfl, rfl⟩) ?_
    rintro _ _ _ ⟨rfl, rfl⟩
    split
    · rename_i void
      obtain ⟨c', later, there'⟩ := stands.replied does emits carried there given (.none void)
        fun nonvoid => absurd void nonvoid
      exact (Setting.tracks_pure there').step later
    · rename_i nonvoid
      cases reply with
      | none => exact Setting.tracks_mistyped
      | some x =>
        refine Setting.tracks_bind (P := fun d s' c' => c = c' ∧
          { s with requests := s.requests ++ [⟨e.name, ds⟩] } = s' ∧ d = .ofValue x ∧ d.ty = e.ret)
          (Setting.tracks_expect fun type => ⟨rfl, rfl, rfl, type⟩) ?_
        rintro _ _ _ ⟨rfl, rfl, rfl, type⟩
        obtain ⟨c', later, there'⟩ := stands.replied does emits carried there given
          (.some nonvoid type (represents_ofValue x)) fun _ => rfl
        exact (Setting.tracks_pure there').step later

/-- The machine follows a call of a method, if it follows the calls that this makes. -/
theorem tracks_call (there : (Eval.Callee.method d).At X.source f)
    (follows : Follows X rounds (Eval.invoke X.source X.replies rounds)) :
    X.Tracks (rounds + 1) (Eval.invoke X.source X.replies (rounds + 1) (.method d) ds) s c
      (Given A scopes locals a.values c.frame.values r z) := by
  obtain ⟨xs, operands, count, represents⟩ := operands_of_carries carried
  obtain ⟨rest, next, -⟩ := stands.next does
  obtain ⟨G, hG, arity, -⟩ := stands.inst_ok does
  have above : X.module.globals.size ≤ c.world.memory.mark := stands.covers.mark
  have params : xs.length = d.params.length := by
    obtain ⟨F, p, hF, -, -, -, params, -⟩ := function_of_method there
    rw [hF] at hG
    cases hG
    rw [count, ← arity, params]
  obtain ⟨F, entry, frame, ⟨hF, -, -, ret, arity', body, entered⟩, B, mark, callers, below, begun⟩ :=
    exists_entered there represents params above
      (⟨{ c.frame with rest := rest }, r, X.machine.calleeName f⟩ :: c.callers)
  have advance := Machine.advance_enter (M := X.machine) next operands hF arity' body entered
  refine Setting.Tracks.after ?_ ((Machine.after_one _ _).trans advance)
  refine (tracks_method follows (begun s c.world.tick rfl
    ⟨stands.holds.1, stands.holds.2⟩)).onward fun o s' c' returns => ?_
  obtain ⟨x, ends, handed⟩ := returns.result
  rw [mark, callers] at ends
  -- what the method has put on the stack is gone, and below it only globals have changed
  have same (region : Nat) (high : X.module.globals.size ≤ region) :
      (c'.world.memory.release c.world.memory.mark).regions[region]? =
        c.world.memory.regions[region]? := by
    rw [Memory.regions_release]
    split
    · rename_i low
      exact (returns.below region high (mark ▸ low)).trans (below region)
    · rename_i beyond
      exact (Array.getElem?_eq_none (Nat.le_of_not_lt beyond)).symm
  have holds : X.Holds s' { c'.world.tick with
      memory := c'.world.memory.release c.world.memory.mark } :=
    returns.holds.congr X.linked (fun region low => by
      show (c'.world.memory.release c.world.memory.mark).regions[region]? = _
      rw [Memory.regions_release, if_pos (Nat.lt_of_lt_of_le low above)]) rfl
  obtain ⟨values, bound, given⟩ := stands.called does emits hF ret next handed
    (by rw [Memory.mark_release]; exact Nat.min_eq_left (mark ▸ returns.top)) same holds
    (X.machine.calleeName f)
  refine ⟨1, _, (Machine.after_one _ _).trans (ends.trans ?_), given⟩
  simp only [Machine.actReturn, bound]
  rfl

end

/-- The machine follows all calls, by induction on the rounds. -/
theorem follows_invoke : ∀ rounds, Follows X rounds (Eval.invoke X.source X.replies rounds)
  | rounds, A, scopes, locals, s, c, a, r, f, vs, z, .foreign e, ds, does, emits, stands, there,
      carried => by
    rw [Eval.invoke]
    exact tracks_ask stands does emits carried there
  | 0, A, scopes, locals, s, c, a, r, f, vs, z, .method d, ds, does, emits, stands, there,
      carried => by
    rw [Eval.invoke]
    exact ⟨0, c, Nat.le_refl _, rfl⟩
  | rounds + 1, A, scopes, locals, s, c, a, r, f, vs, z, .method d, ds, does, emits, stands, there,
      carried =>
    tracks_call stands does emits carried there (follows_invoke rounds)

end

end Decaf.Meaning
