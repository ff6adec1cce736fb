import Decaf.Proofs.Execution.Compiled
import Decaf.Proofs.Typing.Declarations

/-!
# Runs of well-typed programs

A well-typed program with all jumps inside loops is compiled, and its methods, called as
they were declared, fail only for want of resources, of a host binding, of a divisor that is
not zero or of an element at the index.
-/

namespace Decaf

open IR Execution

/-- Arguments of the types of the parameters of the method of that name. -/
def Package.Admits (p : Package) (name : String) (args : List Value) : Prop :=
  ∃ d ∈ p.methods, d.name = name ∧ args.map Value.ty = d.params.map (·.ty.repr)

namespace Generated

variable {es : List ExternDecl} {p : Package} {m : Module}

theorem starts (h : Generated True Module.empty es p m) (valid : ∀ f ∈ p.fields, f.valid = true)
    {i : Nat} {G : Global} (hG : m.globals[i]? = some G) : G.kind.StartsTyped := by
  rcases h.global_cases hG with ⟨f, hf, kind⟩ | ⟨bytes, kind⟩
  · have ok := valid f (List.mem_of_getElem? hf)
    have ty : f.ty ≠ .void := by
      have := ok
      simp only [FieldDecl.valid, Bool.and_eq_true, bne_iff_ne] at this
      exact this.1
    rw [kind, FieldDecl.kind]
    cases size : f.size with
    | array length => exact Ty.repr_ne_void ty
    | scalar =>
      obtain ⟨c, hc⟩ := Gen.initial?_of_valid size ok
      show (f.initial?.getD .null).ty = f.ty.repr
      rw [hc]
      exact Gen.initial?_ty hc
  · rw [kind]
    trivial

/-- Where names are distinct, a method is found by its name. -/
theorem functionByName? (h : Generated True Module.empty es p m)
    (nodup : (es.map (·.name) ++ p.fields.map (·.name) ++ p.methods.map (·.name)).Nodup)
    {d : Method} (hd : d ∈ p.methods) :
    ∃ F, m.functionByName? d.name = some F ∧ F.params.map (·.ty) = d.params.map (·.ty.repr) := by
  obtain ⟨i, hi⟩ := List.getElem?_of_mem hd
  obtain ⟨F, hF, -, -, -, params⟩ := (h.method hi).header
  have distinct := nodup.sublist ((List.sublist_append_left _ _).append_right _)
  exact ⟨F, h.functionByName?_of_method distinct hi hF, params⟩

/-- Functions without a body are declared by the program. -/
theorem extern_of_entry? (h : Generated True Module.empty es p m) {f : FunctionId} {F : Function}
    (hF : m.function? f = some F) (open_ : F.entry? = none) :
    ∃ e ∈ es, F.name = e.name ∧ F.ret = e.ret.repr := by
  rcases h.function_cases hF with ⟨e, he, bodiless⟩ | ⟨i, d, -, -, implements⟩
  · obtain ⟨⟨-, name⟩, ret, -⟩ := bodiless.found hF
    exact ⟨e, List.mem_of_getElem? he, name, ret⟩
  · obtain ⟨plan, -, -, -, -, entry, -⟩ := implements.declared hF
    rw [open_] at entry
    cases entry

end Generated

namespace Execution

variable {σ : Type}

/-- The host answers calls of the externs with results of the types they declare. -/
def Host.Keeps (host : Host σ) (es : List ExternDecl) : Prop :=
  ∀ e ∈ es, ∀ s c result s', c.callee = e.name → host.answer s c = some (result, s') →
    Results e.ret.repr result

/-- The faults of well-typed programs. -/
def Fault.Tolerated : Fault → Prop
  | .divisionByZero | .outOfBounds _ _ | .unboundExtern _ => True
  | .stepLimitExceeded _ | .callDepthExceeded _ | .stackSlotsExceeded _ => True
  | .unknownFunction _ | .arityMismatch _ _ _ | .unterminated _ | .unreachable => False
  | .undefinedValue | .missingPhiIncoming | .nullDereference | .type _ => False

/-- A well-typed program is compiled, and its methods never go wrong. -/
theorem wellTyped_run {P : Program} (wellTyped : P.wellTyped = true)
    (jumps : P.jumpsInside = true) :
    ∃ p m warnings, P.package = some p ∧ compile {} P = .ok (m, warnings) ∧
      ∀ (limits : Limits) (host : Host σ) (s : σ) (w : World σ), host.Keeps P.externs →
        (Machine.mk m limits host).Visits p.Admits s w → ∀ name args, p.Admits name args →
        ∀ fault, ((Machine.mk m limits host).run name args w).1 = .error fault →
          fault.Tolerated := by
  obtain ⟨p, Γ, package, context, methods⟩ := Program.wellTyped_iff.1 wellTyped
  have inside : ∀ d ∈ p.methods, d.body.jumpsInside false = true := by
    simpa [Program.jumpsInside, package] using jumps
  have result := generate_cases True Builder.Reachable.empty.grounded {} P
    (fun _ none => by simp [package] at none) (fun _ => rfl) fun _ q hq => by
      rw [package] at hq
      cases hq
      exact ⟨Γ, context, methods, inside⟩
  rcases generated : generate {} P Builder.empty with ⟨e | warnings, b⟩
  · rw [generated] at result
    exact absurd trivial result.1
  rw [generated] at result
  obtain ⟨q, hq, generated'⟩ := result
  rw [package] at hq
  cases hq
  obtain ⟨valid, nodup⟩ := Package.declared_of_context? context
  refine ⟨p, b.module, warnings, package, by simp [compile, generated, Except.map], ?_⟩
  intro limits host s w keeps visited name args admitted fault failed
  have ready : (Machine.mk b.module limits host).Ready True := {
    complete := generated'.complete
    faithful := fun _ f F hF entry s' c result s'' callee answer => by
      obtain ⟨e, he, named, ret⟩ := generated'.extern_of_entry? hF entry
      rw [ret]
      exact keeps e he s' c result s'' (callee.trans named) answer
    starts := fun _ g G hG => generated'.starts valid hG }
  have known (name : String) (args : List Value) (h : p.Admits name args) :
      ∃ F, b.module.functionByName? name = some F ∧ args.map Value.ty = F.params.map (·.ty) := by
    obtain ⟨d, hd, rfl, types⟩ := h
    obtain ⟨F, found, params⟩ := generated'.functionByName? nodup hd
    exact ⟨F, found, types.trans params.symm⟩
  have covers := covers_of_visits ready (fun _ => known) visited
  obtain ⟨F, found, types⟩ := known name args admitted
  have arity : F.params.length = args.length := by
    simpa using (congrArg List.length types).symm
  rcases (run_outcome ready covers fun _ => known name args admitted).2 fault failed with
    ⟨unknown, -⟩ | ⟨G, found', ⟨other, -⟩ | ⟨-, excused⟩⟩
  · cases found.symm.trans unknown
  · rw [show (Machine.mk b.module limits host).module = b.module from rfl, found] at found'
    cases found'
    exact absurd arity other
  · cases fault with
    | type _ => exact absurd trivial excused
    | _ => trivial

theorem countdown_tolerated : countdown.wellTyped = true ∧ countdown.jumpsInside = true ∧
    silent.Keeps countdown.externs ∧ ∃ p m, countdown.package = some p ∧
      compile {} countdown = .ok (m, []) ∧ p.Admits "down" [.int 3] ∧
      ((Machine.mk m {} silent).run "down" [.int 3] ((Machine.mk m {} silent).start ())).1 =
        .error (.unboundExtern "more") ∧ Fault.Tolerated (.unboundExtern "more") := by
  have wellTyped : countdown.wellTyped = true := by decide +kernel
  have jumps : countdown.jumpsInside = true := by decide +kernel
  have keeps : silent.Keeps countdown.externs := fun _ _ _ _ _ _ _ answer => by cases answer
  have result : ((compile {} countdown).toOption.map fun c => (c.2,
      fault? ((Machine.mk c.1 {} silent).run "down" [.int 3]
        ((Machine.mk c.1 {} silent).start ())).1)) = some ([], some (.unboundExtern "more")) := by
    decide +kernel
  obtain ⟨p, m, warnings, package, compiled, tolerated⟩ := wellTyped_run (σ := Unit) wellTyped jumps
  obtain ⟨⟨m', warnings'⟩, compiled', result⟩ := Option.map_eq_some_iff.1 result
  rw [compiled] at compiled'
  cases compiled'
  obtain ⟨rfl, failed⟩ := Prod.mk.inj result
  have failed := eq_error_of_fault? failed
  have admitted : p.Admits "down" [.int 3] := by
    cases package
    exact ⟨_, List.mem_singleton_self _, rfl, rfl⟩
  exact ⟨wellTyped, jumps, keeps, p, m, package, compiled, admitted, failed,
    tolerated {} silent () _ keeps .start "down" [.int 3] admitted _ failed⟩

end Execution

end Decaf
