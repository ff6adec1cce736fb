import Decaf.Proofs.Execution.Runs
import Decaf.Proofs.Language.Relators

/-!
# Runs of compiled programs

A compiled program fails at run time only for reasons that the program or the one who runs
it is to blame for, never for how its code is put together. If the program is well typed
and is run as its declarations say, fewer reasons remain.
-/

namespace Decaf

open IR Execution

section

variable {typed : Prop} {es : List ExternDecl} {p : Package} {m : Module}

namespace Generated

theorem function_cases (h : Generated typed Module.empty es p m) {f : FunctionId} {F : Function}
    (hF : m.function? f = some F) :
    (∃ e, es[f.index]? = some e ∧ m.Bodiless f e.signature) ∨
      ∃ i d, f.index = es.length + i ∧ p.methods[i]? = some d ∧ m.Implements typed f d.signature := by
  obtain ⟨n⟩ := f
  by_cases first : n < es.length
  · have there := List.getElem?_eq_getElem first
    exact .inl ⟨_, there, h.foreign there⟩
  · by_cases second : n - es.length < p.methods.length
    · have there := List.getElem?_eq_getElem second
      have place : es.length + (n - es.length) = n := by omega
      have implements := h.method there
      rw [place] at implements
      exact .inr ⟨n - es.length, _, place.symm, there, implements⟩
    · have beyond : es.length + p.methods.length ≤ n := by omega
      rw [h.no_function (f := ⟨n⟩) beyond] at hF
      cases hF

theorem complete (h : Generated typed Module.empty es p m) : Complete typed m := by
  intro f F hF
  rcases h.function_cases hF with ⟨e, -, bodiless⟩ | ⟨i, d, -, -, implements⟩
  · exact ⟨(bodiless.found hF).1.1, .inl (bodiless.entry?_eq_none hF)⟩
  · exact ⟨(implements.found hF).1, .inr implements.finished⟩

theorem size_functions (h : Generated typed Module.empty es p m) :
    m.functions.size = es.length + p.methods.length := by
  refine Nat.le_antisymm (Nat.le_of_not_lt fun more => ?_) (Nat.le_of_not_lt fun less => ?_)
  · have none := h.no_function (f := ⟨es.length + p.methods.length⟩) (Nat.le_refl _)
    exact absurd more (Nat.not_lt.2 (Array.getElem?_eq_none_iff.1 none))
  · have none : m.function? ⟨m.functions.size⟩ = none := Array.getElem?_eq_none (Nat.le_refl _)
    rcases Nat.lt_or_ge m.functions.size es.length with first | after
    · obtain ⟨F, hF, -⟩ := (h.foreign (List.getElem?_eq_getElem first)).function
      cases none.symm.trans hF
    · obtain ⟨i, place⟩ := Nat.exists_eq_add_of_le after
      have second : i < p.methods.length := by omega
      obtain ⟨F, hF, -⟩ := (h.method (List.getElem?_eq_getElem second)).header
      rw [place] at none
      cases none.symm.trans hF

/-- The functions are those of the externs and then those of the methods. -/
theorem functions_eq (h : Generated typed Module.empty es p m) :
    ∃ Fs Gs, m.functions.toList = Fs ++ Gs ∧
      List.Forall₂ (fun e F => ∃ f, m.function? f = some F ∧ m.Bodiless f e.signature) es Fs ∧
      List.Forall₂ (fun d F => ∃ f, m.function? f = some F ∧ m.Implements typed f d.signature)
        p.methods Gs := by
  have size : m.functions.toList.length = es.length + p.methods.length := h.size_functions
  have held {k : Nat} (inside : k < m.functions.toList.length) :
      m.function? ⟨k⟩ = some m.functions.toList[k] :=
    Array.getElem?_toList.symm.trans (List.getElem?_eq_getElem inside)
  refine ⟨m.functions.toList.take es.length, m.functions.toList.drop es.length,
    (List.take_append_drop ..).symm, ?_, ?_⟩
  · refine List.forall₂_iff_get.2 ⟨by rw [List.length_take]; omega, fun i hi _ => ⟨⟨i⟩, ?_, ?_⟩⟩
    · rw [List.get_eq_getElem, List.getElem_take]
      exact held (by omega)
    · exact h.foreign (List.getElem?_eq_getElem hi)
  · refine List.forall₂_iff_get.2 ⟨by rw [List.length_drop]; omega, fun i hi _ =>
      ⟨⟨es.length + i⟩, ?_, ?_⟩⟩
    · rw [List.get_eq_getElem, List.getElem_drop]
      exact held (by omega)
    · exact h.method (List.getElem?_eq_getElem hi)

theorem functionNames_eq (h : Generated typed Module.empty es p m) :
    m.functions.toList.map (·.name) = es.map (·.name) ++ p.methods.map (·.name) := by
  obtain ⟨Fs, Gs, functions, foreign, methods⟩ := h.functions_eq
  rw [functions, List.map_append]
  exact congrArg₂ _
    (map_eq_of_forall₂ foreign fun e _ F ⟨f, hF, bodiless⟩ => (bodiless.found hF).1.2)
    (map_eq_of_forall₂ methods fun d _ F ⟨f, hF, implements⟩ => (implements.found hF).2.1)

/-- A method is found by its name if no extern and no other method has it. -/
theorem functionByName?_of_method (h : Generated typed Module.empty es p m)
    (distinct : (es.map (·.name) ++ p.methods.map (·.name)).Nodup) {i : Nat} {d : Method}
    (hd : p.methods[i]? = some d) {F : Function} (hF : m.function? ⟨es.length + i⟩ = some F) :
    m.functionByName? d.name = some F := by
  rw [← h.functionNames_eq] at distinct
  have mem : F ∈ m.functions.toList := Array.mem_toList_iff.2 (Array.mem_of_getElem? hF)
  rw [show d.name = F.name from ((h.method hd).found hF).2.1.symm, Module.functionByName?,
    ← Array.find?_toList]
  exact find?_of_mem distinct mem

/-- A global holds what a field says, or else a string. -/
theorem global_cases (h : Generated typed Module.empty es p m) {i : Nat} {G : Global}
    (hG : m.globals[i]? = some G) :
    (∃ f, p.fields[i]? = some f ∧ G.kind = f.kind) ∨ ∃ bytes, G.kind = .string bytes := by
  by_cases inside : i < p.fields.length
  · obtain ⟨G', hG', kind⟩ := h.field (List.getElem?_eq_getElem inside)
    rw [hG] at hG'
    cases hG'
    exact .inl ⟨_, List.getElem?_eq_getElem inside, kind⟩
  · exact .inr (h.string hG (Nat.le_of_not_lt inside))

/-- The array that an address names is a field of that length. -/
theorem array_field (h : Generated typed Module.empty es p m) {base : ValueId} {ty : IR.Ty}
    {length : Nat} (isGlobal : m.IsGlobal base (.array ty length)) :
    ∃ g name f, m.value? base = some ⟨.ptr, .global g, name⟩ ∧ p.fields[g.index]? = some f ∧
      f.size = .array length := by
  obtain ⟨g, name, G, value, hG, kind⟩ := isGlobal
  rcases h.global_cases hG with ⟨f, hf, same⟩ | ⟨bytes, string⟩
  · refine ⟨g, name, f, value, hf, ?_⟩
    rw [kind, FieldDecl.kind] at same
    cases hs : f.size with
    | scalar => simp [hs] at same
    | array n =>
      rw [hs] at same
      obtain ⟨-, rfl⟩ := GlobalKind.array.inj same
      rfl
  · rw [kind] at string
    cases string

end Generated

end

/-- What a compiled program came from. -/
theorem generated_of_compile {options : Options} {program : Program} {m : Module}
    {warnings : List Warning} (compiled : compile options program = .ok (m, warnings)) :
    ∃ p, program.package = some p ∧ Generated False Module.empty program.externs p m := by
  have cases := generate_cases False Builder.Reachable.empty.grounded options program False.elim
    False.elim False.elim
  rw [compile] at compiled
  revert cases
  revert compiled
  rcases generate options program Builder.empty with ⟨e | warnings', b⟩
  · intro compiled
    cases compiled
  · rintro compiled ⟨p, hp, generated⟩
    cases compiled
    exact ⟨p, hp, generated⟩

namespace Execution

variable {σ : Type}

/-- What comes next is to read or write the element of a field at the index to which the
instruction before evaluated. The index does not fit the declared length. -/
def Config.OverrunsField (m : Module) (fields : List FieldDecl) (c : Config σ) (offset : Int)
    (length : Nat) : Prop :=
  ∃ before address ty base index access rest g name field n,
    m.codeOf c.frame.block = before ++ .elementPtr address ty base index :: access :: rest ∧
    c.frame.rest = access :: rest ∧ access.access? = some address ∧
    m.value? base = some ⟨.ptr, .global g, name⟩ ∧ fields[g.index]? = some field ∧
    field.size = .array length ∧ intOperand m c.frame.values index = .ok n ∧ offset = n.toInt

/-- What a fault of a run tells about the name and the arguments that were given or about
the code that was run; some faults do not occur. -/
def Accounted (M : Machine σ) (fields : List FieldDecl) (name : String) (args : List Value)
    (w : World σ) : Fault → Prop
  | .unterminated _ | .unreachable | .undefinedValue | .missingPhiIncoming => False
  | .nullDereference => False
  | .unknownFunction name' => name' = name ∧ M.module.functionByName? name = none
  | .arityMismatch name' expected found => name' = name ∧
    ∃ F, M.module.functionByName? name = some F ∧ expected = F.params.length ∧
      found = args.length ∧ expected ≠ found
  | .outOfBounds offset length => ∃ F c v, M.module.functionByName? name = some F ∧
    M.Moment F.id args w c ∧ M.act c = .finished (.error (.outOfBounds offset length)) v ∧
    c.OverrunsField M.module fields offset length
  | .divisionByZero | .unboundExtern _ | .type _ => True
  | .stepLimitExceeded _ | .callDepthExceeded _ | .stackSlotsExceeded _ => True

theorem Config.overrunsField {typed : Prop} {es : List ExternDecl} {p : Package} {m : Module}
    (generated : Generated typed Module.empty es p m) {c : Config σ} {offset : Int} {length : Nat}
    (h : c.Overruns m offset length) : c.OverrunsField m p.fields offset length := by
  obtain ⟨pre, access, rest, a, code, next, through, ty, base, index, n, last, isGlobal, hn, rfl⟩ := h
  obtain ⟨before, rfl⟩ := List.getLast?_eq_some_iff.1 last
  obtain ⟨g, name, field, value, hfield, size⟩ := generated.array_field isGlobal
  exact ⟨before, a, ty, base, index, access, rest, g, name, field, n, by simpa using code, next,
    through, value, hfield, size, hn, rfl⟩

/-- Compiled code never fails for how it is put together, whatever the program, the options,
the host, the limits and the runs before. -/
theorem run_accounted {options : Options} {program : Program} {m : Module}
    {warnings : List Warning} (compiled : compile options program = .ok (m, warnings)) :
    ∃ p, program.package = some p ∧ ∀ (limits : Limits) (host : Host σ) (s : σ) (w : World σ),
      (Machine.mk m limits host).Visits (fun _ _ => True) s w →
      ∀ name args fault, ((Machine.mk m limits host).run name args w).1 = .error fault →
        Accounted ⟨m, limits, host⟩ p.fields name args w fault := by
  obtain ⟨p, package, generated⟩ := generated_of_compile compiled
  refine ⟨p, package, fun limits host s w visited name args fault failed => ?_⟩
  have ready : (Machine.mk m limits host).Ready False := ⟨generated.complete, False.elim, False.elim⟩
  have covers := covers_of_visits ready False.elim visited
  rcases (run_outcome ready covers False.elim).2 fault failed with
    ⟨unknown, rfl⟩ | ⟨F, found, ⟨arity, rfl⟩ | ⟨-, excused⟩⟩
  · exact ⟨rfl, unknown⟩
  · exact ⟨rfl, F, found, rfl, rfl, arity⟩
  · cases fault with
    | outOfBounds offset length =>
      obtain ⟨c, v, moment, acted, overruns⟩ := excused
      exact ⟨F, c, v, found, moment, acted, Config.overrunsField generated overruns⟩
    | _ => trivial

/-- A method that reads an element of an array of three. -/
def lookup : Program where
  externs := []
  package := some {
    name := "P"
    fields := [⟨"a", .int, .array 3, none, 2⟩]
    line := 1
    methods := [{
      name := "at"
      ret := .int
      params := [⟨some "i", .int, 3⟩]
      line := 3
      body := .mk [] [.return (some (.element "a" (.var "i" 4) 4)) 4] }] }

/-- A host that answers nothing. -/
def silent : Host Unit := ⟨fun _ _ => none⟩

def fault? (outcome : Outcome) : Option Fault :=
  match outcome with
  | .error fault => some fault
  | .ok _ => none

theorem eq_error_of_fault? {outcome : Outcome} {fault : Fault} (h : fault? outcome = some fault) :
    outcome = .error fault := by
  cases outcome <;> cases h
  rfl

theorem lookup_accounted : ∃ m, compile {} lookup = .ok (m, []) ∧
    (Machine.mk m {} silent).Visits (fun _ _ => True) () ((Machine.mk m {} silent).start ()) ∧
    ((Machine.mk m {} silent).run "at" [.int 7] ((Machine.mk m {} silent).start ())).1 =
      .error (.outOfBounds 7 3) ∧
    ∃ p, lookup.package = some p ∧ Accounted ⟨m, {}, silent⟩ p.fields "at" [.int 7]
      ((Machine.mk m {} silent).start ()) (.outOfBounds 7 3) := by
  have result : ((compile {} lookup).toOption.map fun c => (c.2,
      fault? ((Machine.mk c.1 {} silent).run "at" [.int 7]
        ((Machine.mk c.1 {} silent).start ())).1)) = some ([], some (.outOfBounds 7 3)) := by
    decide +kernel
  obtain ⟨⟨m, warnings⟩, compiled, result⟩ := Option.map_eq_some_iff.1 result
  obtain ⟨rfl, failed⟩ := Prod.mk.inj result
  have compiled := ok_of_toOption compiled
  have failed := eq_error_of_fault? failed
  obtain ⟨p, package, accounted⟩ := run_accounted (σ := Unit) compiled
  exact ⟨m, compiled, .start, failed, p, package,
    accounted {} silent () _ .start "at" [.int 7] _ failed⟩

end Execution

end Decaf
