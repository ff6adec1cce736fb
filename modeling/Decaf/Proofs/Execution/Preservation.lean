import Decaf.Proofs.Building.Records
import Decaf.Proofs.Execution.Confinement

/-!
# Verified modules keep to their types

While a verified module runs, every value that a call in progress holds has the type recorded
for it, provided that the incoming values of phis are recorded with the types of the phis. The
check does not look at the types of incoming values, so without that proviso a function may
return a value of another type than the one it was declared with.
-/

namespace Decaf.Execution

open IR

/-- What the host answers for a function without a body has the declared return type. -/
def Host.Honest {σ : Type} (host : Host σ) (m : Module) : Prop :=
  ∀ f F, m.function? f = some F → F.entry? = none → ∀ s c x s', c.callee = F.name →
    host.answer s c = some (some x, s') → x.ty = F.ret

/-- Every value is of the type recorded for it. -/
def Values.Typed (m : Module) (vs : Values) : Prop :=
  ∀ v x, vs.get? v = some x → m.Holds v x.ty

/-- The result of each call in progress is awaited as a value of the callee's return type. The
functions are those of the calls, from the one on top of the callers. -/
def Awaited (m : Module) : List Caller → List FunctionId → Prop
  | [], _ => True
  | _ :: _, [] => False
  | caller :: callers, g :: fs =>
    (∀ d, caller.dst = some d → ∃ G, m.function? g = some G ∧ m.Holds d G.ret) ∧
      Awaited m callers fs

structure Config.Typed {σ : Type} (m : Module) (c : Config σ) (fs : List FunctionId) :
    Prop where
  values : ∀ frame ∈ c.frame :: c.callers.map (·.frame), frame.values.Typed m
  awaited : Awaited m c.callers fs

section

variable {m : Module} {vs vs' : Values}

theorem Values.Typed.set (h : vs.Typed m) {dst : ValueId} {x : Value} (holds : m.Holds dst x.ty) :
    (vs.set dst x).Typed m := by
  intro v y got
  rw [Values.get?_set] at got
  by_cases same : v = dst
  · rw [if_pos same] at got
    cases got
    rwa [same]
  · rw [if_neg same] at got
    exact h v y got

theorem holds_of_operand (recorded : m.Recorded) (typed : vs.Typed m) {v : ValueId} {x : Value}
    (h : operand m vs v = .ok x) : m.Holds v x.ty := by
  unfold operand at h
  split at h
  · rename_i ty k name there
    cases h
    exact ⟨_, there, by rw [Value.ty_ofConst]; exact recorded.fixed v _ there⟩
  · rename_i ty g name there
    cases h
    exact ⟨_, there, recorded.fixed v _ there⟩
  · split at h
    · rename_i y got
      cases h
      exact typed v _ got
    · cases h

theorem typeOf_of_operand (recorded : m.Recorded) (typed : vs.Typed m) {v : ValueId} {x : Value}
    (h : operand m vs v = .ok x) : m.typeOf v = x.ty :=
  (holds_of_operand recorded typed h).typeOf

theorem typeOf_of_checkedType {f : FunctionId} {v : ValueId} {ty : IR.Ty}
    (h : m.checkedType f v = .ok ty) : m.typeOf v = ty := by
  unfold Module.checkedType at h
  split at h
  · split at h
    · cases h
      rfl
    · cases h
  · cases h
    rfl

theorem ty_intBinary {op : BinOp} {a b : Int32} {x : Value} (h : intBinary op a b = .ok x) :
    x.ty = op.resultTy .i32 := by
  have divided {n : Value} (int : n.ty = .i32)
      (h : (if Divides a b then .ok n else .error .divisionByZero : Except Fault Value) = .ok x) :
      x.ty = .i32 := by
    split at h
    · cases h
      exact int
    · cases h
  cases op with
  | sdiv => exact divided rfl h
  | srem => exact divided rfl h
  | _ =>
    cases h
    rfl

theorem ty_binary {op : BinOp} {l r x : Value} (h : binary op l r = .ok x) :
    x.ty = op.resultTy l.ty := by
  unfold binary at h
  split at h
  · exact ty_intBinary h
  · unfold boolBinary at h
    split at h
    · cases h
      rfl
    · cases h
      rfl
    · cases h
  · cases h

theorem ty_unary {op : UnOp} {y x : Value} (h : unary op y = .ok x) : x.ty = y.ty := by
  unfold unary at h
  split at h
  · cases h
    rfl
  · cases h
    rfl
  · cases h
    rfl
  · cases h

/-- An instruction that leaves memory as it is defines a value of the recorded type. -/
theorem typed_evaluate (recorded : m.Recorded) {f : FunctionId} {i : Inst} (records : m.Records i)
    (fits : m.checkOperands f i = .ok ()) (typed : vs.Typed m) {memory : Memory}
    (h : evaluate m vs memory i = .ok vs') : vs'.Typed m := by
  cases i with
  | load dst ty address =>
    obtain ⟨p, -, h⟩ := ok_of_bind h
    obtain ⟨x, -, h⟩ := ok_of_bind h
    split at h
    · rename_i type
      cases h
      exact typed.set (type ▸ records)
    · cases h
  | elementPtr dst ty base index =>
    obtain ⟨p, -, h⟩ := ok_of_bind h
    obtain ⟨n, -, h⟩ := ok_of_bind h
    cases h
    exact typed.set records
  | binary dst op lhs rhs =>
    obtain ⟨l, left, h⟩ := ok_of_bind h
    obtain ⟨r, right, h⟩ := ok_of_bind h
    obtain ⟨x, result, h⟩ := ok_of_bind h
    cases h
    obtain ⟨ty, used, defined⟩ := records
    refine typed.set ?_
    rw [ty_binary result, ← typeOf_of_operand recorded typed left, used.typeOf]
    exact defined
  | unary dst op v =>
    obtain ⟨y, given, h⟩ := ok_of_bind h
    obtain ⟨x, result, h⟩ := ok_of_bind h
    cases h
    obtain ⟨ty, used, defined⟩ := records
    refine typed.set ?_
    rw [ty_unary result, ← typeOf_of_operand recorded typed given, used.typeOf]
    exact defined
  | zext dst v ty =>
    obtain ⟨b, -, h⟩ := ok_of_bind h
    cases h
    -- the check admits only the widening to integers
    obtain ⟨source, -, widens⟩ := ok_of_bind fits
    split at widens
    · rename_i both
      obtain ⟨-, rfl⟩ := both
      exact typed.set records
    · cases widens
  | alloca dst ty =>
    cases h
    exact typed
  | store value address =>
    cases h
    exact typed
  | phi dst ty incoming =>
    cases h
    exact typed
  | call dst g args =>
    cases h
    exact typed

theorem typed_perform {σ : Type} {M : Machine σ} (recorded : M.module.Recorded) {f : FunctionId}
    {i : Inst} (records : M.module.Records i) (fits : M.module.checkOperands f i = .ok ())
    (typed : vs.Typed M.module) {memory memory' : Memory}
    (h : M.perform i vs memory = (.ok vs', memory')) : vs'.Typed M.module := by
  have plain (same : M.perform i vs memory = (evaluate M.module vs memory i, memory)) :
      vs'.Typed M.module := by
    rw [same] at h
    exact typed_evaluate recorded records fits typed (congrArg Prod.fst h)
  cases i with
  | alloca dst ty =>
    simp only [Machine.perform] at h
    split at h
    · cases h
    · cases h
      exact typed.set records
  | store value address =>
    simp only [Machine.perform] at h
    split at h
    · cases h
    · cases h
      exact typed
  | _ => exact plain rfl

/-- The phis of a block take values of their types. -/
theorem typed_mergePhis (recorded : m.Recorded) (typed : vs.Typed m) {source : Option BlockId} :
    ∀ {phis : List Inst} {merged : Values}, (∀ dst ty incoming, .phi dst ty incoming ∈ phis →
      m.Holds dst ty ∧ ∀ i ∈ incoming, m.typeOf i.1 = ty) → merged.Typed m →
    mergePhis m vs source phis merged = .ok vs' → vs'.Typed m
  | [], merged, _, before, h => by
    cases h
    exact before
  | i :: rest, merged, phis, before, h => by
    have others (dst : ValueId) (ty : IR.Ty) (incoming : List (ValueId × BlockId))
        (mem : .phi dst ty incoming ∈ rest) := phis dst ty incoming (List.mem_cons_of_mem _ mem)
    cases i with
    | phi dst ty incoming =>
      rw [mergePhis] at h
      obtain ⟨x, taken, h⟩ := ok_of_bind h
      obtain ⟨defined, agree⟩ := phis dst ty incoming (by simp)
      refine typed_mergePhis recorded typed others (before.set ?_) h
      unfold incomingValue at taken
      split at taken
      · rename_i v s found
        rw [← typeOf_of_operand recorded typed taken, agree _ (List.mem_of_find?_eq_some found)]
        exact defined
      · cases taken
    | _ => exact typed_mergePhis recorded typed others before h

theorem typed_enter (recorded : m.Recorded) (phis : m.PhisTyped) {frame entered : Frame}
    {source : Option BlockId} {target : BlockId} (typed : frame.values.Typed m)
    (h : frame.enter m source target = .ok entered) : entered.values.Typed m := by
  obtain ⟨data, vs, there, merged, rfl⟩ := Frame.enter_eq_ok h
  refine typed_mergePhis recorded typed (fun dst ty incoming mem => ?_) typed merged
  have listed := List.mem_of_mem_filter mem
  exact ⟨recorded.insts target data there _ listed,
    phis data (Array.mem_of_getElem? there) _ (Array.mem_toList_iff.1 listed)⟩

theorem typed_ofParams : ∀ {params : List Param} {args : List Value},
    (∀ q ∈ params, m.Holds q.value q.ty) → args.map Value.ty = params.map (·.ty) →
    (Values.ofParams params args).Typed m
  | [], _, _, _, v, x, got => by
    cases got
  | q :: params, [], _, types, _, _, _ => by cases types
  | q :: params, x :: args, records, types, v, y, got => by
    obtain ⟨first, others⟩ := List.forall_mem_cons.1 records
    obtain ⟨type, types⟩ := List.cons.inj types
    exact (typed_ofParams others types).set (type ▸ first) v y got

/-- The arguments of a call that fits have the types of the parameters. -/
theorem types_of_checkArgs (recorded : m.Recorded) (typed : vs.Typed m) {f : FunctionId}
    {callee : String} : ∀ {params : List Param} {args : List ValueId} {xs : List Value},
    m.checkArgs f callee params args = .ok () → args.mapM (operand m vs) = .ok xs →
    xs.map Value.ty = params.map (·.ty)
  | [], [], _, _, mapped => by
    cases mapped
    rfl
  | [], _ :: _, _, fits, _ => by cases fits
  | _ :: _, [], _, fits, _ => by cases fits
  | param :: params, arg :: args, xs, fits, mapped => by
    obtain ⟨ty, found, fits⟩ := ok_of_bind fits
    rw [List.mapM_cons] at mapped
    obtain ⟨x, given, mapped⟩ := ok_of_bind mapped
    obtain ⟨rest, mappedRest, mapped⟩ := ok_of_bind mapped
    cases mapped
    split at fits
    · rename_i type
      have first : x.ty = param.ty := by
        rw [← typeOf_of_operand recorded typed given, typeOf_of_checkedType found, type]
      simp [first, types_of_checkArgs recorded typed fits mappedRest]
    · cases fits

theorem typed_bindResult {callee : String} {dst : Option ValueId} {result : Option Value}
    (typed : vs.Typed m) (holds : ∀ d x, dst = some d → result = some x → m.Holds d x.ty)
    (h : Machine.bindResult callee dst result vs = .ok vs') : vs'.Typed m := by
  unfold Machine.bindResult at h
  split at h
  · cases h
    exact typed
  · cases h
    exact typed.set (holds _ _ rfl rfl)
  · cases h

end

section

variable {σ : Type} {M : Machine σ}

theorem typed_entered (recorded : M.module.Recorded) (phis : M.module.PhisTyped) {w : World σ}
    {depth : Nat} {f : FunctionId} {F : Function} {args : List Value} {frame : Frame}
    (there : M.module.function? f = some F) (types : args.map Value.ty = F.params.map (·.ty))
    (h : M.invoke w depth f args = .ok (.entered frame)) : frame.values.Typed M.module := by
  obtain ⟨F', there', -, ⟨-, result, host, -, other⟩ | ⟨entry, entered, -, start, same⟩⟩ :=
    M.invoke_eq_ok h
  · cases other
  · rw [there] at there'
    cases there'
    cases same
    exact typed_enter recorded phis (typed_ofParams (recorded.params f F there) types) start

/-- The instructions that are left to a call are recorded. -/
theorem Frame.Inside.records {m : Module} (recorded : m.Recorded) {f : FunctionId} {frame : Frame}
    (inside : frame.Inside m f) {i : Inst} (left : i ∈ frame.rest) : m.Records i := by
  obtain ⟨-, data, there, rest⟩ := inside
  exact recorded.insts _ data there i (List.mem_of_mem_filter (rest.subset left))

/-- What a call returns has the return type of its function. -/
theorem ty_of_return (accepted : Accepted M.module) (recorded : M.module.Recorded)
    {f : FunctionId} {block : BlockId} {vs : Values} {v : Option ValueId} {x : Value}
    (listed : block ∈ M.module.blocksOf f) (typed : vs.Typed M.module)
    (ends : M.terminatorAt block = some (.ret v))
    (returns : resultOf M.module vs v = .ok (some x)) :
    ∃ F, M.module.function? f = some F ∧ x.ty = F.ret := by
  obtain ⟨F, data, t, there, held, verified⟩ := accepted.verified listed
  rw [Machine.terminatorAt, held, Option.bind_some, verified.terminator] at ends
  cases ends
  refine ⟨F, there, ?_⟩
  cases v with
  | none => cases returns
  | some v =>
    obtain ⟨found, type, same⟩ := ok_of_bind verified.leaves
    cases given : operand M.module vs v with
    | error fault =>
      rw [resultOf, given] at returns
      cases returns
    | ok y =>
      rw [resultOf, given] at returns
      cases returns
      beta_reduce at same
      split at same
      · rename_i agree
        rw [← typeOf_of_operand recorded typed given, typeOf_of_checkedType type, agree]
      · cases same

/-- One action keeps every value to its recorded type. -/
theorem typed_action (accepted : Accepted M.module) (recorded : M.module.Recorded)
    (phis : M.module.PhisTyped) (honest : M.host.Honest M.module) {c next : Config σ}
    {fs : List FunctionId} (confined : c.Confined M.module fs) (typed : c.Typed M.module fs)
    (action : M.Action c next) : next.Typed M.module (c.track next fs) := by
  obtain ⟨f, gs, inside, waiting, rfl⟩ := List.forall₂_cons_right_iff.1 confined
  obtain ⟨values, awaited⟩ := typed
  obtain ⟨here, others⟩ := List.forall_mem_cons.1 values
  cases action with
  | plain other performed =>
    rw [Config.track_stay]
    refine ⟨List.forall_mem_cons.2 ⟨?_, others⟩, awaited⟩
    exact typed_perform recorded (inside.records recorded (by simp))
      (accepted.operands inside (by simp)) here performed
  | @answer memory steps host host' block dst g args xs rest vs vs' mark callers result operands
      invoked bound =>
    rw [Config.track_stay]
    refine ⟨List.forall_mem_cons.2 ⟨?_, others⟩, awaited⟩
    obtain ⟨G, there, -, ⟨body, result', reply, answer, same⟩ | ⟨entry, frame, -, -, other⟩⟩ :=
      M.invoke_eq_ok invoked
    · cases same
      refine typed_bindResult here (fun d x defines found => ?_) bound
      subst defines found
      have records := inside.records (i := .call (some d) g args) recorded (by simp)
      obtain ⟨G', there', holds⟩ := records
      rw [there] at there'
      cases there'
      rw [honest g G there body _ _ _ _ rfl answer]
      exact holds
    · cases other
  | @enter memory steps host block dst g args xs rest vs mark callers callee operands invoked =>
    rw [Config.track_enter]
    obtain ⟨G, there, -, fits⟩ :=
      Module.call_of_checkOperands (accepted.operands inside (i := .call dst g args) (by simp))
    have types := types_of_checkArgs recorded here fits operands
    refine ⟨List.forall_mem_cons.2 ⟨typed_entered recorded phis there types invoked,
      List.forall_mem_cons.2 ⟨here, others⟩⟩, fun d defines => ?_, awaited⟩
    subst defines
    exact inside.records (i := .call (some d) g args) recorded (by simp)
  | jump ends leads entered =>
    rw [Config.track_stay]
    exact ⟨List.forall_mem_cons.2 ⟨typed_enter recorded phis here entered, others⟩, awaited⟩
  | ret ends returns bound =>
    rw [Config.track_return]
    obtain ⟨g, hs, waits, others', rfl⟩ := List.forall₂_cons_right_iff.1 waiting
    obtain ⟨top, below⟩ := List.forall_mem_cons.1 others
    obtain ⟨result, rest⟩ := awaited
    refine ⟨List.forall_mem_cons.2 ⟨?_, below⟩, rest⟩
    refine typed_bindResult top (fun d x defines found => ?_) bound
    obtain ⟨G, there, holds⟩ := result d defines
    subst found
    obtain ⟨F, there', type⟩ := ty_of_return accepted recorded inside.block here ends returns
    rw [there] at there'
    cases there'
    rw [type]
    exact holds

/-- The outermost of the calls in progress stays the same. -/
theorem getLast?_track {c next : Config σ} {fs : List FunctionId}
    (confined : c.Confined M.module fs) (action : M.Action c next) :
    (c.track next fs).getLast? = fs.getLast? := by
  obtain ⟨f, gs, -, waiting, rfl⟩ := List.forall₂_cons_right_iff.1 confined
  cases action with
  | plain other performed => rw [Config.track_stay]
  | answer operands invoked bound => rw [Config.track_stay]
  | jump ends leads entered => rw [Config.track_stay]
  | enter operands invoked => rw [Config.track_enter, List.getLast?_cons_cons]
  | ret ends returns bound =>
    obtain ⟨g, hs, -, -, rfl⟩ := List.forall₂_cons_right_iff.1 waiting
    rw [Config.track_return, List.tail_cons, List.getLast?_cons_cons]

/-- Every moment of a call finds all values of their recorded types. -/
theorem typed_of_traced (accepted : Accepted M.module) (recorded : M.module.Recorded)
    (phis : M.module.PhisTyped) (honest : M.host.Honest M.module) {f : FunctionId} {F : Function}
    {args : List Value} {w : World σ} (there : M.module.function? f = some F)
    (types : args.map Value.ty = F.params.map (·.ty)) {c : Config σ} {fs : List FunctionId}
    (traced : M.Traced f args w c fs) : c.Typed M.module fs ∧ fs.getLast? = some f := by
  induction traced with
  | start entered =>
    refine ⟨⟨fun frame mem => ?_, trivial⟩, rfl⟩
    obtain rfl := List.mem_singleton.1 mem
    exact typed_entered recorded phis there types entered
  | act before _ running ih =>
    have confined := confined_of_traced accepted before
    have action := M.action_of_act running
    exact ⟨typed_action accepted recorded phis honest confined ih.1 action,
      (getLast?_track confined action).trans ih.2⟩

/-- A call that returns a value returns one of the declared return type. -/
theorem ty_of_call (accepted : Accepted M.module) (recorded : M.module.Recorded)
    (phis : M.module.PhisTyped) (honest : M.host.Honest M.module) {f : FunctionId} {F : Function}
    {args : List Value} {w : World σ} (there : M.module.function? f = some F)
    (types : args.map Value.ty = F.params.map (·.ty)) {x : Value}
    (returns : (M.call f args w).1 = .ok (some x)) : x.ty = F.ret := by
  cases start : M.invoke w 0 f args with
  | error fault =>
    simp only [Machine.call, start] at returns
    cases returns
  | ok invocation =>
    cases invocation with
    | answered result host =>
      simp only [Machine.call, start] at returns
      obtain ⟨F', there', -, ⟨body, result', reply, answer, same⟩ | ⟨entry, frame, -, -, other⟩⟩ :=
        M.invoke_eq_ok start
      · rw [there] at there'
        cases there'
        cases same
        cases returns
        exact honest f F there body _ _ _ _ rfl answer
      · cases other
    | entered frame =>
      obtain ⟨last, v, moment, -, ⟨-, spent, -⟩ | ⟨-, ending⟩⟩ := M.last_moment start
      · rw [spent] at returns
        cases returns
      · rw [returns] at ending
        obtain ⟨fs, traced⟩ := M.moment_iff_traced.1 moment
        obtain ⟨outermost, u, ends, handed⟩ := M.result_of_act ending
        obtain ⟨typed, root⟩ :=
          typed_of_traced accepted recorded phis honest there types traced
        obtain ⟨g, gs, inside, waiting, rfl⟩ :=
          List.forall₂_cons_right_iff.1 (confined_of_traced accepted traced)
        rw [outermost] at waiting
        cases waiting
        have same : g = f := by simpa using root
        subst same
        obtain ⟨G, there', type⟩ := ty_of_return accepted recorded inside.block
          (typed.values _ (by simp)) ends handed
        rw [there] at there'
        cases there'
        exact type

/-- While a verified module runs whose phis take values of their types, every value that is
held has the type recorded for it, and a run yields a value of the declared return type. -/
theorem verified_types {b : Builder} (reachable : b.Reachable)
    (verified : b.module.check = .ok ()) (phis : b.module.PhisTyped) (limits : Limits)
    {host : Host σ} (honest : host.Honest b.module) (w : World σ) {name : String} {F : Function}
    (named : b.module.functionByName? name = some F) {args : List Value}
    (types : args.map Value.ty = F.params.map (·.ty)) :
    let M : Machine σ := ⟨b.module, limits, host⟩
    (∀ c, M.Moment F.id args w c → ∀ frame ∈ c.frame :: c.callers.map (·.frame),
      ∀ v x, frame.values.get? v = some x → b.module.Holds v x.ty) ∧
    ∀ x, (M.run name args w).1 = .ok (some x) → x.ty = F.ret := by
  intro M
  have accepted : Accepted M.module := ⟨reachable.owned, verified⟩
  have there : M.module.function? F.id = some F := functionByName?_there accepted.owned named
  refine ⟨fun c moment => ?_, fun x returns => ?_⟩
  · obtain ⟨fs, traced⟩ := M.moment_iff_traced.1 moment
    exact (typed_of_traced accepted reachable.recorded phis honest there types traced).1.values
  · have called : (M.run name args w).1 = (M.call F.id args w).1 := by
      simp only [Machine.run, M, named]
    exact ty_of_call accepted reachable.recorded phis honest there types (called ▸ returns)

/-- A function of one integer, which a phi makes at least zero. -/
def clamping : List AnyCommand :=
  [⟨_, .declareFunction "f" .i32 [(some "x", .i32)]⟩, ⟨_, .appendBlock ⟨0⟩ "entry"⟩,
    ⟨_, .appendBlock ⟨0⟩ "low"⟩, ⟨_, .appendBlock ⟨0⟩ "done"⟩, ⟨_, .const (.i32 0)⟩,
    ⟨_, .positionAtEnd ⟨0⟩⟩, ⟨_, .binary .slt ⟨0⟩ ⟨1⟩ "negative"⟩,
    ⟨_, .terminate (.condBr ⟨2⟩ ⟨1⟩ ⟨2⟩)⟩, ⟨_, .positionAtEnd ⟨1⟩⟩,
    ⟨_, .terminate (.br ⟨2⟩)⟩, ⟨_, .positionAtEnd ⟨2⟩⟩,
    ⟨_, .phi .i32 [(⟨0⟩, ⟨0⟩), (⟨1⟩, ⟨1⟩)] "x"⟩, ⟨_, .terminate (.ret (some ⟨3⟩))⟩]

theorem clamping_types :
    let b := Builder.empty.performAll clamping
    let M : Machine Unit := ⟨b.module, {}, silent⟩
    b.Reachable ∧ b.module.check = .ok () ∧ b.module.PhisTyped ∧ silent.Honest b.module ∧
      ∀ x, (M.run "f" [.int 5] (M.start ())).1 = .ok (some x) → x.ty = .i32 := by
  intro b M
  have reachable : b.Reachable := Builder.reachable_performAll .empty (by decide)
  have verified : b.module.check = .ok () := by rfl
  have phis : b.module.PhisTyped := by decide
  have honest : silent.Honest b.module := fun f F _ _ s c x s' _ answer => by cases answer
  refine ⟨reachable, verified, phis, honest, ?_⟩
  exact (verified_types reachable verified phis {} honest (M.start ())
    (rfl : b.module.functionByName? "f" = some _) rfl).2

/-- A function that returns an integer, of which the only phi takes a truth value. -/
def mixing : List AnyCommand :=
  [⟨_, .declareFunction "f" .i32 []⟩, ⟨_, .appendBlock ⟨0⟩ "entry"⟩,
    ⟨_, .appendBlock ⟨0⟩ "done"⟩, ⟨_, .positionAtEnd ⟨0⟩⟩, ⟨_, .terminate (.br ⟨1⟩)⟩,
    ⟨_, .const (.bool true)⟩, ⟨_, .positionAtEnd ⟨1⟩⟩, ⟨_, .phi .i32 [(⟨0⟩, ⟨0⟩)] "x"⟩,
    ⟨_, .terminate (.ret (some ⟨1⟩))⟩]

/-- It passes the check and returns the truth value. -/
theorem mixing_returns_bool :
    let b := Builder.empty.performAll mixing
    let M : Machine Unit := ⟨b.module, {}, silent⟩
    b.Reachable ∧ b.module.check = .ok () ∧ silent.Honest b.module ∧
      (∃ F, b.module.functionByName? "f" = some F ∧ F.params = [] ∧ F.ret = .i32) ∧
      (M.run "f" [] (M.start ())).1 = .ok (some (.bool true)) := by
  intro b M
  refine ⟨Builder.reachable_performAll .empty (by decide), by rfl, ?_, ?_, ?_⟩
  · intro f F _ _ s c x s' _ answer
    cases answer
  · exact ⟨_, rfl, rfl, rfl⟩
  · exact ok_of_toOption (by decide +kernel)

end

end Decaf.Execution
