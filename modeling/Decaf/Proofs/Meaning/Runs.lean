import Decaf.Proofs.Execution.Replies
import Decaf.Proofs.Execution.Strings
import Decaf.Proofs.Meaning.Calls

/-!
# Runs and evaluations

A run of a method begins where its evaluation begins. So if the evaluation comes to a result, the
machine without limits comes to the same, and if the evaluation does not come to an end in so
many rounds, the machine is still running after as many steps.
-/

namespace Decaf.Meaning

open IR Execution

/-- The outcome is the result of the evaluation. -/
inductive Matches (m : Module) : Except Stop (Option Datum) → Outcome → Prop where
  | none : Matches m (.ok none) (.ok none)
  | some {d : Datum} {x : Value} : Represents m d x → Matches m (.ok (some d)) (.ok (some x))
  | failure (f : Failure) : Matches m (.error (.failure f)) (.error f.fault)

theorem Matches.whole {m : Module} {result : Except Stop (Option Datum)} {outcome : Outcome}
    (h : Matches m result outcome) : ¬ CutShort outcome := by
  rintro ⟨fault, failed, scarce⟩
  cases h with
  | none => cases failed
  | some represents => cases failed
  | failure f =>
    cases failed
    cases f <;> exact scarce

/-- Between runs the fields are in memory and there are no slots. -/
structure InPlace (S : Source) (m : Module) (fields : String → Nat → Datum) (memory : Memory) :
    Prop where
  holds : HoldsFields S m fields memory
  mark : memory.mark = m.globals.size

section Start

variable {S : Source} {m : Module} {scopes : ScopeStack}

/-- The constant of a scalar field is what evaluation starts with. -/
theorem represents_initialDatum {f : FieldDecl} {c : Const} (scalar : f.size = .scalar)
    (initial : f.initial? = some c) : Represents m (initialDatum f) (.ofConst c) := by
  obtain ⟨name, ty, size, init, line⟩ := f
  obtain rfl : size = .scalar := scalar
  cases init with
  | none => exact represents_zero_const initial
  | some k =>
    obtain ⟨value, lexeme, line⟩ := k
    cases ty <;> cases value <;> cases initial <;> constructor

theorem Linked.initialFields_eq (linked : Linked S m scopes) {i : Nat} {f : FieldDecl}
    (hf : S.package.fields[i]? = some f) (j : Nat) :
    S.initialFields f.name j = initialDatum f := by
  rw [Source.initialFields, find?_of_mem linked.fields_nodup (List.mem_of_getElem? hf)]

/-- In the beginning the fields are in place. -/
theorem inPlace_start (linked : Linked S m scopes) :
    InPlace S m S.initialFields (initialMemory m) where
  holds.elements i f hf := by
    obtain ⟨G, hG, -, -, kind⟩ := linked.fields i f hf
    refine ⟨initialCells G.kind, by simp [initialMemory, hG], ?_, fun j x hx => ?_⟩
    · rw [kind]
      cases f.kind <;> simp [initialCells, GlobalKind.length]
    · rw [linked.initialFields_eq hf]
      rw [kind, FieldDecl.kind] at hx
      cases size : f.size with
      | scalar =>
        cases initial : f.initial? with
        | none => exact absurd initial (linked.valid f (List.mem_of_getElem? hf) size)
        | some c =>
          rw [size, initial] at hx
          obtain rfl := Array.mem_singleton.1 (Array.mem_of_getElem? hx)
          exact represents_initialDatum size initial
      | array length =>
        rw [size] at hx
        obtain ⟨-, rfl⟩ := Array.mem_replicate.1 (Array.mem_of_getElem? hx)
        rw [initialDatum, size]
        exact represents_zero f.ty
  holds.texts i G bytes hG kind := by simp [initialMemory, hG, kind]
  mark := by simp [initialMemory, Memory.mark]

end Start

section Names

variable {S : Source} {m : Module} {scopes : ScopeStack}

/-- A method is the only function of its name. -/
theorem Linked.functionByName? (linked : Linked S m scopes) {i : Nat} {d : Method}
    (hd : S.package.methods[i]? = some d) {F : Function}
    (hF : m.function? ⟨S.externs.length + i⟩ = some F) : m.functionByName? d.name = some F := by
  have distinct := linked.distinct
  rw [Source.names_members] at distinct
  exact linked.generated.functionByName?_of_method
    (distinct.sublist ((List.sublist_append_left _ _).append_right _)) hd hF

end Names

section

variable {X : Setting} {d : Method} {args : List Value} {fields : String → Nat → Datum}

/-- A run begins with the entered method. -/
theorem entered_of_run (hd : d ∈ X.source.package.methods) (arity : args.length = d.params.length)
    {memory : Memory} (inPlace : InPlace X.source X.module fields memory) :
    ∃ frame, Begins X.module d.name args memory frame ∧ ∃ A : Activation X,
      A.mark = memory.mark ∧ A.callers = [] ∧ ∀ steps, Entered A d (args.map .ofValue) ⟨fields, []⟩
        ⟨⟨memory, steps, []⟩, frame, []⟩ := by
  obtain ⟨i, hi⟩ := List.getElem?_of_mem hd
  have represents : List.Forall₂ (Represents X.module) (args.map .ofValue) args := by
    rw [List.forall₂_map_left_iff]
    exact List.forall₂_same.2 fun x _ => represents_ofValue x
  obtain ⟨F, entry, frame, ⟨hF, name, id, -, count, body, entered⟩, A, mark, callers, -, begun⟩ :=
    exists_entered (d := d) ⟨i, hi, rfl⟩ represents arity (Nat.le_of_eq inPlace.mark.symm) []
  exact ⟨frame, ⟨F, entry, X.linked.functionByName? hi hF, id.symm ▸ hF, count, body, entered⟩,
    A, mark, callers, fun steps => begun _ _ rfl ⟨inPlace.holds, .nil⟩⟩

variable {A : Activation X} {c : Config (List HostCall)}
  (entered : Entered A d (args.map .ofValue) ⟨fields, []⟩ c)
  {result : Except Stop (Option Datum)} {s : Situation} {rounds : Nat}

include entered

/-- If the evaluation comes to a result, so does the machine. -/
theorem finished_of_evaluate (outermost : A.callers = [])
    (evaluated : X.source.evaluate X.replies rounds d args fields = (result, s))
    (finished : result ≠ .error .unfinished) (typed : result ≠ .error .mistyped) :
    ∃ n outcome w, X.machine.after n c = .finished outcome w ∧ Matches X.module result outcome ∧
      X.Holds s w := by
  cases rounds with
  | zero =>
    cases evaluated
    exact absurd rfl finished
  | succ rounds =>
    have tracks := tracks_method (follows_invoke rounds) entered
    rw [Setting.Tracks] at tracks
    replace evaluated : ((Eval.invoke X.source X.replies (rounds + 1) (.method d)
      (args.map .ofValue)).run.run ⟨fields, []⟩ : Except Stop (Option Datum) × Situation) =
        (result, s) := evaluated
    rw [evaluated] at tracks
    cases result with
    | ok o =>
      obtain ⟨n, c', running, returns⟩ := tracks
      obtain ⟨x, ends, handed⟩ := returns.result
      rw [outermost] at ends
      refine ⟨n + 1, _, _, (Machine.after_add running 1).trans
        ((Machine.after_one _ _).trans ends), ?_, ?_⟩
      · cases handed with
        | none => exact .none
        | some nonvoid type represents => exact .some represents
      · refine returns.holds.congr X.linked (fun r low => ?_) rfl
        show (c'.world.memory.release A.mark).regions[r]? = _
        rw [Memory.regions_release, if_pos (Nat.lt_of_lt_of_le low A.above)]
    | error stop =>
      cases stop with
      | failure f =>
        obtain ⟨n, w, ended, holds⟩ := tracks
        exact ⟨n, _, w, ended, .failure f, holds⟩
      | mistyped => exact absurd rfl typed
      | meaningless => exact tracks.elim
      | unfinished => exact absurd rfl finished

/-- As long as the evaluation does not come to an end the machine runs. -/
theorem running_of_evaluate
    (evaluated : X.source.evaluate X.replies (rounds + 1) d args fields = (.error .unfinished, s)) :
    ∃ n c', rounds ≤ n ∧ X.machine.after n c = .running c' := by
  have tracks := tracks_method (follows_invoke rounds) entered
  rw [Setting.Tracks] at tracks
  replace evaluated : ((Eval.invoke X.source X.replies (rounds + 1) (.method d)
    (args.map .ofValue)).run.run ⟨fields, []⟩ : Except Stop (Option Datum) × Situation) =
      (.error .unfinished, s) := evaluated
  rw [evaluated] at tracks
  exact tracks

end

end Decaf.Meaning
