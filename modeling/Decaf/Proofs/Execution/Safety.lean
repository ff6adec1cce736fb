import Decaf.Proofs.Execution.Control

/-!
# Safety of the machine

Every action leads from a safe configuration to a safe one, or ends the run for an excused
reason. So a run that starts in a safe configuration can end in no other way.
-/

namespace Decaf.Execution

open IR

/-- What an action may come to. -/
def Progress.Good {σ : Type} (typed : Prop) (m : Module) (overruns : Int → Nat → Prop) :
    Progress σ → Prop
  | .running c => Safe typed m c
  | .finished outcome w => w.memory.Covers typed m ∧
    ∀ fault, outcome = .error fault → Excused typed overruns fault

/-- The next instruction accesses an array outside of its bounds. -/
def Config.Overruns {σ : Type} (m : Module) (c : Config σ) (offset : Int) (length : Nat) :
    Prop :=
  ∃ pre access rest a, m.codeOf c.frame.block = pre ++ access :: rest ∧
    c.frame.rest = access :: rest ∧ access.access? = some a ∧
    Execution.Overruns m c.frame.values pre a offset length

section

variable {typed : Prop} {m : Module} {p : Plan} {memory : Memory} {vs : Values}

theorem Excused.mono {E F : Int → Nat → Prop} (le : ∀ offset length, E offset length → F offset length)
    {fault : Fault} (h : Excused typed E fault) : Excused typed F fault := by
  cases fault with
  | outOfBounds offset length => exact le _ _ h
  | _ => exact h

theorem Progress.Good.mono {σ : Type} {E F : Int → Nat → Prop} {o : Progress σ}
    (h : o.Good typed m E) (le : ∀ offset length, E offset length → F offset length) :
    o.Good typed m F := by
  cases o with
  | running c => exact h
  | finished outcome w => exact ⟨h.1, fun fault failed => (h.2 fault failed).mono le⟩

theorem operands_of_usable {there : List ValueId} (has : ∀ u ∈ there, vs.Has typed m u) :
    ∀ (args : List ValueId), (∀ v ∈ args, m.Usable p there v) →
    ∃ xs, args.mapM (operand m vs) = .ok xs ∧ xs.length = args.length ∧
      (typed → xs.map Value.ty = args.map m.typeOf)
  | [], _ => ⟨[], rfl, rfl, fun _ => rfl⟩
  | v :: args, usable => by
    obtain ⟨x, hx, type⟩ := operand_of_usable (usable v (by simp)) has
    obtain ⟨xs, hxs, length, types⟩ :=
      operands_of_usable has args fun u hu => usable u (by simp [hu])
    refine ⟨x :: xs, ?_, by simp [length], fun t => by simp [type t, types t]⟩
    rw [List.mapM_cons, hx]
    show (do let ys ← args.mapM (operand m vs); pure (x :: ys)) = Except.ok (x :: xs)
    rw [hxs]
    rfl

/-- The parameters of a call start with its arguments. -/
theorem has_ofParams : ∀ {params : List Param} {args : List Value},
    params.length = args.length → (typed → args.map Value.ty = params.map (·.ty)) →
    (∀ q ∈ params, m.typeOf q.value = q.ty) →
    ∀ v ∈ params.map (·.value), (Values.ofParams params args).Has typed m v
  | [], _, _, _, _, v, hv => by cases hv
  | q :: params, [], length, _, _, _, _ => by cases length
  | q :: params, x :: args, length, types, recorded, v, hv => by
    rw [Values.ofParams, Values.Has, Values.get?_set]
    split
    · rename_i same
      subst same
      refine ⟨x, rfl, fun t => ?_⟩
      rw [recorded q (by simp)]
      exact (List.cons.inj (types t)).1
    · rename_i other
      refine has_ofParams (by simpa using length) (fun t => (List.cons.inj (types t)).2)
        (fun q' hq' => recorded q' (by simp [hq'])) v ?_
      rw [List.map_cons] at hv
      exact (List.mem_cons.1 hv).resolve_left other

end

section

variable {σ : Type} {typed : Prop} {M : Machine σ} {p : Plan} {w : World σ}

theorem Machine.invoke_bodiless {f : FunctionId} {F : Function} {args : List Value} {depth : Nat}
    (hF : M.module.function? f = some F) (arity : F.params.length = args.length)
    (entry : F.entry? = none) :
    M.invoke w depth f args =
      (M.host.answer w.host ⟨F.name, args, w.memory⟩).elim (.error (.unboundExtern F.name))
        fun reply => .ok (.answered reply.1 reply.2) := by
  simp only [Machine.invoke, hF, entry]
  rw [if_neg (fun other => other arity)]
  cases M.host.answer w.host ⟨F.name, args, w.memory⟩ <;> rfl

theorem Machine.invoke_body {f : FunctionId} {F : Function} {args : List Value} {depth : Nat}
    {entry : BlockId} (hF : M.module.function? f = some F) (arity : F.params.length = args.length)
    (body : F.entry? = some entry) :
    M.invoke w depth f args =
      if M.limits.callDepth ≤ depth then .error (.callDepthExceeded M.limits.callDepth)
      else (Frame.enter ⟨entry, [], .ofParams F.params args, w.memory.mark⟩ M.module none
        entry).map .entered := by
  simp only [Machine.invoke, hF, body]
  rw [if_neg (fun other => other arity)]
  split
  · rfl
  · cases Frame.enter ⟨entry, [], .ofParams F.params args, w.memory.mark⟩ M.module none entry <;>
      rfl

/-- A body begins with its parameters, and the slots of its entry are still to be reserved. -/
theorem running_start {m : Module} (memory : Memory) (body : m.Body typed p) {F : Function}
    (declared : m.Declared p F) {args : List Value} (arity : F.params.length = args.length)
    (types : typed → args.map Value.ty = F.params.map (·.ty)) :
    ∃ rest post, Frame.enter ⟨p.entry, [], .ofParams F.params args, memory.mark⟩ m none p.entry =
        .ok ⟨p.entry, rest, .ofParams F.params args, memory.mark⟩ ∧
      Running typed m p memory ⟨p.entry, rest, .ofParams F.params args, memory.mark⟩ []
        (m.slotsOf p.entry) [] post := by
  obtain ⟨-, -, -, -, avail, params⟩ := declared
  have owned := body.entry_owned
  obtain ⟨data, hdata, -⟩ := Module.functionOf?_eq_some.1 owned
  have order := body.order _ owned data hdata
  have code : m.codeOf p.entry = data.code := by simp [Module.codeOf, hdata]
  have slots : m.slotsOf p.entry = data.slots := by simp [Module.slotsOf, hdata]
  -- no edge leads to the entry, so it begins with no phi
  obtain ⟨phis, post, split, noPhi, start⟩ := split_code body owned
  obtain rfl : phis = [] := by
    rcases start with none | ⟨i, -, phi⟩
    · exact none
    · obtain ⟨-, -, -, -, inner, -⟩ := phi
      exact absurd rfl inner
  obtain ⟨noPhis, rest⟩ := phisOf_eq order (code ▸ split) (by simp) noPhi
  refine ⟨bodyOf data, post, ?_, ?_⟩
  · simp [Frame.enter, hdata, noPhis, mergePhis, bind, Except.bind]
  · exact {
      slots := rfl
      code := split
      rest := by rw [slots]; exact rest
      phase := .inr ⟨rfl, rfl⟩
      noPhi := noPhi
      active := {
        owned := owned
        reached := .inl rfl
        values := by
          rw [avail, defined_nil, List.append_nil]
          refine has_ofParams arity types fun q hq => ?_
          obtain ⟨i, name, value⟩ := params q hq
          exact Module.typeOf_of_value? value
        slots := by simp
        element := fun _ _ _ _ last => by cases last }
      top := rfl }

/-- A call leads to an answer of the right type, or to a body that begins. -/
def Invocation.Good (typed : Prop) (m : Module) (memory : Memory) (ret : IR.Ty) :
    Invocation σ → Prop
  | .answered result _ => typed → Results ret result
  | .entered f => f.mark = memory.mark ∧ ∃ p todo post, m.Finished typed p ∧ p.ret = ret ∧
    Running typed m p memory f [] todo [] post

theorem judged_invoke (complete : Complete typed M.module) (faithful : Faithful typed M)
    {f : FunctionId} {F : Function} (hF : M.module.function? f = some F) {args : List Value}
    (arity : F.params.length = args.length)
    (types : typed → args.map Value.ty = F.params.map (·.ty)) (depth : Nat) :
    Judged (M.invoke w depth f args) (Invocation.Good typed M.module w.memory F.ret)
      (Excused typed fun _ _ => False) := by
  obtain ⟨-, none | ⟨p, rfl, finished⟩⟩ := complete f F hF
  · rw [M.invoke_bodiless hF arity none]
    cases answer : M.host.answer w.host ⟨F.name, args, w.memory⟩ with
    | none => trivial
    | some reply =>
      obtain ⟨result, host⟩ := reply
      exact fun t => faithful t f F hF none _ _ _ _ rfl answer
  · have body := finished.body
    obtain ⟨G, declared⟩ := body.declared
    have ⟨hG, ret, entry, _⟩ := declared
    rw [hF] at hG
    cases hG
    rw [M.invoke_body hF arity entry]
    split
    · trivial
    obtain ⟨rest, post, entered, running⟩ := running_start w.memory body declared arity
      types
    rw [entered]
    exact ⟨rfl, p, _, _, finished, ret.symm, running⟩

/-- The result of a call is bound to the value for which the caller waits. -/
theorem judged_bindResult {m : Module} {memory : Memory} {mark : Nat} {b : BlockId}
    {vs : Values} {pre post : List Inst} {dst : Option ValueId} {g : FunctionId}
    {args : List ValueId} {F : Function} (body : m.Body typed p)
    (h : Active typed m p memory mark b vs (m.slotsOf p.entry) pre)
    (code : m.codeOf b = pre ++ .call dst g args :: post) (hF : m.function? g = some F)
    {result : Option Value} (results : typed → Results F.ret result) (callee : String) :
    Judged (Machine.bindResult callee dst result vs)
      (fun vs' => Active typed m p memory mark b vs' (m.slotsOf p.entry)
        (pre ++ [.call dst g args])) (Excused typed fun _ _ => False) := by
  have ok : m.InstOk typed p b pre (.call dst g args) := by
    rcases body.insts b h.owned pre _ post code with ok | phi
    · exact ok
    · obtain ⟨_, _, other, -⟩ := phi
      cases other
  obtain ⟨G, hG, -, -, defines, -, -⟩ := ok
  rw [hF] at hG
  cases hG
  cases dst with
  | none => exact h.skip rfl
  | some d =>
    obtain ⟨value, defined⟩ := defines d rfl
    cases result with
    | none => exact fun t => by obtain ⟨x, other, -⟩ := results t value; cases other
    | some x =>
      refine h.define (fun _ mem => mem) defined (fun t => ?_) rfl fun _ _ _ _ same => by cases same
      obtain ⟨y, same, type⟩ := results t value
      cases same
      exact type

/-- A return goes back to the call that waits, or ends the run. -/
theorem good_actReturn {ret : IR.Ty} {mark : Nat} {callers : List Caller} {result : Option Value}
    {overruns : Int → Nat → Prop} (stacked : Stacked typed M.module w.memory ret mark callers)
    (covers : w.memory.Covers typed M.module) (below : mark ≤ w.memory.mark)
    (results : typed → Results ret result) :
    Progress.Good typed M.module overruns (Machine.actReturn result w mark callers) := by
  have size : (w.memory.release mark).mark = mark := by
    rw [Memory.mark_release]
    omega
  have keeps := Memory.keeps_release typed w.memory mark
  have floor := stacked.mark_le
  have covers' : (w.memory.release mark).Covers typed M.module :=
    covers.keeps keeps floor (by omega)
  cases stacked with
  | bottom => exact ⟨covers', fun _ failed => by cases failed⟩
  | @above p c callers _ _ finished waits stacked =>
    obtain ⟨pre, g, args, F, code, hF, rfl, active⟩ := waits.call
    have top := waits.top
    have bound := judged_bindResult finished.body (active.keeps (keeps.weaken (by omega))) code hF
      results c.callee
    rw [Machine.actReturn]
    revert bound
    cases Machine.bindResult c.callee c.dst result c.frame.values with
    | error fault =>
      exact fun excused => ⟨covers', fun e he => by
        cases he
        exact Excused.mono (fun _ _ => False.elim) excused⟩
    | ok values =>
      intro active
      have running : Running typed M.module p (w.memory.release mark) { c.frame with values }
          (M.module.slotsOf p.entry) [] (pre ++ [.call c.dst g args]) c.frame.rest :=
        ⟨(List.append_nil _).symm, by simpa using code, rfl, .inl rfl, waits.noPhi, active,
          by rw [size, top]⟩
      exact ⟨⟨p, _, _, _, _, finished, running, stacked.keeps (keeps.weaken (by omega))⟩, covers'⟩

/-- A call leads into the body of the callee, or is answered at once. -/
theorem good_actCall (complete : Complete typed M.module) (faithful : Faithful typed M)
    {overruns : Int → Nat → Prop} {frame : Frame} {callers : List Caller}
    {pre post : List Inst} {dst : Option ValueId} {g : FunctionId} {args : List ValueId}
    (finished : M.module.Finished typed p)
    (running : Running typed M.module p w.memory frame (M.module.slotsOf p.entry) [] pre
      (.call dst g args :: post))
    (stacked : Stacked typed M.module w.memory p.ret frame.mark callers)
    (covers : w.memory.Covers typed M.module) :
    Progress.Good typed M.module overruns
      (M.actCall dst g args w { frame with rest := post } callers) := by
  have body := finished.body
  have active := running.active
  have code := running.code
  have ok : M.module.InstOk typed p frame.block pre (.call dst g args) := by
    rcases body.insts _ active.owned pre _ post code with ok | phi
    · exact ok
    · obtain ⟨_, _, other, -⟩ := phi
      cases other
  obtain ⟨F, hF, arity, usable, -, -, types⟩ := ok
  obtain ⟨xs, hxs, length, found⟩ := operands_of_usable active.values args usable
  have invoked := judged_invoke (w := w) complete faithful hF (arity.trans length.symm)
    (fun t => (found t).trans (types t)) (callers.length + 1)
  have noPhi : ∀ i ∈ post, i.isPhi = false := fun i hi => running.noPhi i (by simp [hi])
  cases hi : M.invoke w (callers.length + 1) g xs with
  | error fault =>
    rw [hi] at invoked
    simp only [Machine.actCall, hxs, bind, Except.bind, hi]
    refine ⟨covers, fun e he => ?_⟩
    cases he
    exact Excused.mono (fun _ _ => False.elim) invoked
  | ok invocation =>
    rw [hi] at invoked
    cases invocation with
    | answered result host =>
      have bound := judged_bindResult body active code hF invoked (M.calleeName g)
      simp only [Machine.actCall, hxs, bind, Except.bind, hi]
      revert bound
      cases Machine.bindResult (M.calleeName g) dst result frame.values with
      | error fault =>
        exact fun excused => ⟨covers, fun e he => by
          cases he
          exact Excused.mono (fun _ _ => False.elim) excused⟩
      | ok values =>
        intro active
        have next : Running typed M.module p w.memory { frame with rest := post, values }
            (M.module.slotsOf p.entry) [] (pre ++ [.call dst g args]) post :=
          ⟨running.slots, by simpa using code, rfl, .inl rfl, noPhi, active, running.top⟩
        exact ⟨⟨p, _, _, _, _, finished, next, stacked⟩, covers⟩
    | entered callee =>
      obtain ⟨mark, p', todo, post', finished', ret, running'⟩ := invoked
      simp only [Machine.actCall, hxs, bind, Except.bind, hi]
      refine ⟨⟨p', _, _, _, _, finished', running', ?_⟩, covers⟩
      have waits : Waits typed M.module p w.memory
          ⟨{ frame with rest := post }, dst, M.calleeName g⟩ p'.ret callee.mark :=
        ⟨⟨pre, g, args, F, code, hF, ret.symm, active⟩, noPhi, by rw [mark, running.top]⟩
      exact .above finished waits stacked

/-- A jump along an edge. -/
theorem good_jump {overruns : Int → Nat → Prop} {frame : Frame} {callers : List Caller}
    {t : BlockId} (finished : M.module.Finished typed p)
    (active : Active typed M.module p w.memory frame.mark frame.block frame.values
      (M.module.slotsOf p.entry) (M.module.codeOf frame.block))
    (edge : t ∈ M.module.successorsOf frame.block)
    (top : w.memory.mark = frame.mark + (M.module.slotsOf p.entry).length)
    (stacked : Stacked typed M.module w.memory p.ret frame.mark callers)
    (covers : w.memory.Covers typed M.module) :
    Progress.Good typed M.module overruns (M.jump w frame callers t) := by
  obtain ⟨next, pre, post, entered, mark, running⟩ :=
    running_enter finished.body active edge top
  rw [Machine.jump, entered]
  exact ⟨⟨p, _, _, _, _, finished, running, by rw [mark]; exact stacked⟩, covers⟩

/-- At the end of a block control goes where its terminator says. -/
theorem good_actTerminator {overruns : Int → Nat → Prop} {frame : Frame}
    {callers : List Caller} (finished : M.module.Finished typed p)
    (active : Active typed M.module p w.memory frame.mark frame.block frame.values
      (M.module.slotsOf p.entry) (M.module.codeOf frame.block))
    (top : w.memory.mark = frame.mark + (M.module.slotsOf p.entry).length)
    (stacked : Stacked typed M.module w.memory p.ret frame.mark callers)
    (covers : w.memory.Covers typed M.module) :
    Progress.Good typed M.module overruns
      (M.actTerminator w frame callers (M.module.terminator? frame.block)) := by
  have body := finished.body
  have owned := active.owned
  obtain ⟨t, ht⟩ := Option.ne_none_iff_exists'.1 (finished.closed _ owned)
  have ok := body.terms _ owned t ht
  have edge {s : BlockId} (hs : s ∈ t.successors) :
      s ∈ M.module.successorsOf frame.block := Module.mem_successorsOf.2 ⟨t, ht, hs⟩
  rw [ht]
  cases t with
  | br s => exact good_jump finished active (edge (by simp [Terminator.successors])) top stacked covers
  | condBr c x y =>
    have cond : Judged (boolOperand M.module frame.values c) (fun _ => True)
        (Excused typed overruns) := active.judged_boolOperand ok.1 ok.2.1
    rw [Machine.actTerminator]
    revert cond
    cases boolOperand M.module frame.values c with
    | error fault =>
      exact fun excused => ⟨covers, fun e he => by
        cases he
        exact excused⟩
    | ok b =>
      exact fun _ => good_jump finished active
        (edge (by cases b <;> simp [Terminator.successors])) top stacked covers
  | ret v =>
    have below : frame.mark ≤ w.memory.mark := by omega
    cases v with
    | none => exact good_actReturn stacked covers below fun _ value => absurd ok value
    | some v =>
      obtain ⟨x, hx, type⟩ := active.operand ok.2.1
      rw [Machine.actTerminator, hx]
      exact good_actReturn stacked covers below
        fun t _ => ⟨x, rfl, (type t).trans (ok.2.2 t)⟩
  | unreachable =>
    -- a block that is reached is the entry or has a predecessor
    obtain ⟨inner, alone⟩ := body.dead _ ht
    rcases active.reached with same | ⟨q, hq, edge⟩
    · exact absurd same inner
    · exact absurd edge (alone q hq)

/-- The next slot of the entry is reserved. -/
theorem Active.reserve {m : Module} {memory : Memory} {mark : Nat} {vs : Values}
    {done todo : List (ValueId × IR.Ty)} {dst : ValueId} {ty : IR.Ty} (body : m.Body typed p)
    (slots : m.slotsOf p.entry = done ++ (dst, ty) :: todo)
    (h : Active typed m p memory mark p.entry vs done []) (top : memory.mark = mark + done.length) :
    Active typed m p (memory.allocate #[Value.zero ty]) mark p.entry
      (vs.set dst (.pointer (.start memory.mark))) (done ++ [(dst, ty)]) [] where
  owned := h.owned
  reached := h.reached
  values v hv := by
    obtain ⟨F, -, -, -, -, avail, params⟩ := body.declared
    have apart : v ≠ dst := by
      rintro rfl
      rw [defined_nil, List.append_nil, avail] at hv
      obtain ⟨q, hq, rfl⟩ := List.mem_map.1 hv
      obtain ⟨i, name, param⟩ := params q hq
      obtain ⟨-, name', slot⟩ := body.slots (q.value, ty) (by simp [slots])
      simp [param] at slot
    rw [Values.Has, Values.get?_set, if_neg apart]
    exact h.values v hv
  slots i s hs := by
    rw [List.getElem?_append] at hs
    split at hs
    · obtain ⟨held, region⟩ := h.slots i s hs
      have apart : s.1 ≠ dst := by
        have nodup := body.slotIds
        rw [slots, List.map_append, List.nodup_append] at nodup
        exact nodup.2.2 _ (List.mem_map_of_mem (List.mem_of_getElem? hs)) _ (by simp)
      rw [Values.get?_set, if_neg apart]
      exact ⟨held, Memory.keeps_allocate typed _ _ memory.mark _ _ _ region.lt_mark region⟩
    · obtain ⟨last, rfl⟩ : i = done.length ∧ s = (dst, ty) := by
        rw [List.getElem?_singleton] at hs
        split at hs
        · cases hs
          exact ⟨by omega, rfl⟩
        · cases hs
      rw [last, ← top, Values.get?_set, if_pos rfl]
      exact ⟨rfl, Memory.region_allocate _
        fun t => Value.ty_zero ((body.slots (dst, ty) (by simp [slots])).1 t)⟩
  element _ _ _ _ last := by cases last

theorem good_alloca {overruns : Int → Nat → Prop} {frame : Frame} {callers : List Caller}
    {done todo : List (ValueId × IR.Ty)} {post : List Inst} {dst : ValueId} {ty : IR.Ty}
    (finished : M.module.Finished typed p)
    (running : Running typed M.module p w.memory frame done ((dst, ty) :: todo) [] post)
    (stacked : Stacked typed M.module w.memory p.ret frame.mark callers)
    (covers : w.memory.Covers typed M.module) :
    Progress.Good typed M.module overruns
      (match M.perform (.alloca dst ty) frame.values w.memory with
        | (.error fault, memory) => .finished (.error fault) { w with memory }
        | (.ok values, memory) => .running ⟨{ w with memory },
          { frame with rest := todo.map (fun s => .alloca s.1 s.2) ++ post, values }, callers⟩) := by
  have entry : frame.block = p.entry := running.phase.elim (fun none => by cases none) (·.1)
  have active := running.active
  rw [entry] at active
  rw [Machine.perform]
  split
  · rename_i fault memory performed
    split at performed
    · cases performed
      exact ⟨covers, fun e he => by cases he; trivial⟩
    · cases performed
  · rename_i values memory performed
    split at performed
    · cases performed
    · cases performed
      have size := w.memory.mark_allocate #[Value.zero ty]
      have keeps (k : Nat) := Memory.keeps_allocate typed w.memory #[Value.zero ty] k
      refine ⟨⟨p, done ++ [(dst, ty)], todo, [], post, finished, ?_, stacked.keeps (keeps _)⟩, ?_⟩
      · exact ⟨by simpa using running.slots, running.code, rfl, .inr ⟨entry, rfl⟩, running.noPhi,
          entry ▸ active.reserve finished.body running.slots running.top,
          by rw [size, running.top, List.length_append]; rfl⟩
      · have floor := covers.mark
        exact covers.keeps (keeps M.module.globals.size) (Nat.le_refl _) (by rw [size]; omega)

/-- An instruction other than an alloca and a call. -/
theorem good_perform {frame : Frame} {callers : List Caller} {pre post : List Inst} {i : Inst}
    (finished : M.module.Finished typed p)
    (running : Running typed M.module p w.memory frame (M.module.slotsOf p.entry) [] pre (i :: post))
    (stacked : Stacked typed M.module w.memory p.ret frame.mark callers)
    (covers : w.memory.Covers typed M.module) (notAlloca : ∀ dst ty, i ≠ .alloca dst ty)
    (notCall : ∀ d g args, i ≠ .call d g args) :
    Progress.Good typed M.module
      (fun offset length => ∃ a, i.access? = some a ∧
        Overruns M.module frame.values pre a offset length)
      (match M.perform i frame.values w.memory with
        | (.error fault, memory) => .finished (.error fault) { w with memory }
        | (.ok values, memory) =>
          .running ⟨{ w with memory }, { frame with rest := post, values }, callers⟩) := by
  have body := finished.body
  have active := running.active
  have code := running.code
  have noPhi : ∀ j ∈ post, j.isPhi = false := fun j hj => running.noPhi j (by simp [hj])
  have ok : M.module.InstOk typed p frame.block pre i := by
    rcases body.insts _ active.owned pre i post code with ok | phi
    · exact ok
    · have := running.noPhi i (by simp)
      rw [phi.noPhi] at this
      cases this
  have next (values : Values) (memory : Memory) (keeps : ∀ k, w.memory.Keeps typed memory k)
      (mark : memory.mark = w.memory.mark)
      (active : Active typed M.module p memory frame.mark frame.block values
        (M.module.slotsOf p.entry) (pre ++ [i])) :
      Safe typed M.module
        ⟨{ w with memory }, { frame with rest := post, values }, callers⟩ := by
    have running' : Running typed M.module p memory { frame with rest := post, values }
        (M.module.slotsOf p.entry) [] (pre ++ [i]) post :=
      ⟨running.slots, by simpa using code, rfl, .inl rfl, noPhi, active,
        mark.trans running.top⟩
    have floor := covers.mark
    exact ⟨⟨p, _, _, _, _, finished, running', stacked.keeps (keeps _)⟩,
      covers.keeps (keeps M.module.globals.size) (Nat.le_refl _) (by rw [mark]; exact floor)⟩
  by_cases store : ∃ v a, i = .store v a
  · obtain ⟨v, a, rfl⟩ := store
    have stored := active.judged_store body covers code ok
    rw [Machine.perform]
    revert stored
    cases storeTarget M.module frame.values w.memory v a with
    | error fault =>
      exact fun excused => ⟨covers, fun e he => by
        cases he
        exact Excused.mono (fun _ _ overruns => ⟨a, rfl, overruns⟩) excused⟩
    | ok target =>
      obtain ⟨x, cell⟩ := target
      rintro ⟨keeps, active⟩
      exact next _ _ keeps (Memory.mark_set ..) active
  · have notStore : ∀ v a, i ≠ .store v a := fun v a same => store ⟨v, a, same⟩
    have evaluated := active.judged_evaluate body covers code ok notStore notCall
    have plain : M.perform i frame.values w.memory =
        (evaluate M.module frame.values w.memory i, w.memory) := by
      cases i <;> first | rfl | exact absurd rfl (notAlloca _ _) | exact absurd rfl (notStore _ _)
    rw [plain]
    revert evaluated
    cases evaluate M.module frame.values w.memory i with
    | error fault =>
      exact fun excused => ⟨covers, fun e he => by
        cases he
        exact excused⟩
    | ok values =>
      exact fun active => next _ _ (fun _ => .refl _ _) rfl active

theorem Machine.act_of_notCall {memory : Memory} {steps : Nat} {host : σ} {block : BlockId}
    {i : Inst} {rest : List Inst} {values : Values} {mark : Nat} {callers : List Caller}
    (notCall : ∀ d g args, i ≠ .call d g args) :
    M.act ⟨⟨memory, steps, host⟩, ⟨block, i :: rest, values, mark⟩, callers⟩ =
      match M.perform i values memory with
      | (.error fault, memory) => .finished (.error fault) ⟨memory, steps + 1, host⟩
      | (.ok values, memory) =>
        .running ⟨⟨memory, steps + 1, host⟩, ⟨block, rest, values, mark⟩, callers⟩ := by
  cases i <;> first | rfl | exact absurd rfl (notCall _ _ _)

/-- What an action does to a safe configuration. -/
theorem good_act (complete : Complete typed M.module) (faithful : Faithful typed M)
    {c : Config σ} (safe : Safe typed M.module c) :
    Progress.Good typed M.module (c.Overruns M.module) (M.act c) := by
  obtain ⟨⟨p, done, todo, pre, post, finished, running, stacked⟩, covers⟩ := safe
  obtain ⟨⟨memory, steps, host⟩, ⟨block, rest, values, mark⟩, callers⟩ := c
  cases rest with
  | nil =>
    obtain ⟨rfl, rfl, rfl⟩ := running.of_end rfl
    have code := running.code
    rw [List.append_nil] at code
    subst code
    exact good_actTerminator (w := ⟨memory, steps + 1, host⟩) finished running.active running.top
      stacked covers
  | cons i rest =>
    cases hi : i.isAlloca with
    | true =>
      obtain ⟨s, todo, rfl⟩ : ∃ s todo', todo = s :: todo' := by
        cases todo with
        | cons s todo => exact ⟨s, todo, rfl⟩
        | nil =>
          have mem : i ∈ M.module.codeOf block := by
            rw [running.code, show post = i :: rest by simpa using running.rest.symm]
            simp
          rw [Module.isAlloca_of_mem_codeOf mem] at hi
          cases hi
      obtain ⟨dst, ty⟩ := s
      obtain ⟨rfl, rfl⟩ := List.cons.inj running.rest
      obtain ⟨-, rfl⟩ := running.phase.resolve_left fun none => by cases none
      exact good_alloca (w := ⟨memory, steps + 1, host⟩) finished running stacked covers
    | false =>
      obtain ⟨rfl, rfl, rfl⟩ := running.of_code rfl hi
      by_cases call : ∃ d g args, i = .call d g args
      · obtain ⟨d, g, args, rfl⟩ := call
        exact good_actCall (w := ⟨memory, steps + 1, host⟩) complete faithful finished running
          stacked covers
      · have notAlloca (dst : ValueId) (ty : IR.Ty) : i ≠ .alloca dst ty := by
          rintro rfl
          cases hi
        have notCall (d : Option ValueId) (g : FunctionId) (args : List ValueId) :
            i ≠ .call d g args := fun same => call ⟨d, g, args, same⟩
        have performed := good_perform (w := ⟨memory, steps + 1, host⟩) finished running stacked
          covers notAlloca notCall
        rw [M.act_of_notCall notCall]
        refine performed.mono fun offset length ⟨a, access, overruns⟩ => ?_
        exact ⟨pre, i, rest, a, running.code, rfl, access, overruns⟩

end

end Decaf.Execution
