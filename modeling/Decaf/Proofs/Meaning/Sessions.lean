import Decaf.Proofs.Execution.Texts
import Decaf.Proofs.Meaning.Runs

/-!
# Compiled programs mean what their syntax means

Runs of a compiled program follow one another in a session, with any hosts and any limits. A run
that no limit cuts short has the outcome of the evaluation, asks the host what the evaluation
asks, and leaves the fields as the evaluation leaves them; and if the evaluation comes to an end,
so does the run under limits that suffice. Strings are compared as the texts that a host reads.
-/

namespace Decaf.Meaning

open IR Execution

/-- The value shows the datum. -/
inductive Shown (memory : Memory) : Datum → Value → Prop where
  | int (n : Int32) : Shown memory (.int n) (.int n)
  | bool (b : Bool) : Shown memory (.bool b) (.bool b)
  | address (p : Pointer) : Shown memory (.string (.address p)) (.pointer p)
  | text {s : String} {p : Pointer} : memory.text? p = some (untilZero s) →
      Shown memory (.string (.text s)) (.pointer p)

/-- The outcome of a run is the result of an evaluation. -/
inductive SameOutcome (memory : Memory) : Except Stop (Option Datum) → Outcome → Prop where
  | none : SameOutcome memory (.ok none) (.ok none)
  | some {d : Datum} {x : Value} : Shown memory d x →
      SameOutcome memory (.ok (some d)) (.ok (some x))
  | failure (f : Failure) : SameOutcome memory (.error (.failure f)) (.error f.fault)

/-- The host is asked what the evaluation requests. -/
structure SameCall (r : Request) (call : HostCall) : Prop where
  callee : r.callee = call.callee
  args : List.Forall₂ (Shown call.memory) r.args call.args

section

variable {σ : Type}

/-- The globals show the fields. -/
structure ShowsFields (S : Source) (M : Machine σ) (fields : String → Nat → Datum) (w : World σ) :
    Prop where
  element : ∀ f ∈ S.package.fields, ∀ j < f.kind.length, ∃ x,
    M.globalElement? f.name j w = some x ∧ Shown w.memory (fields f.name j) x
  value : ∀ f ∈ S.package.fields, 0 < f.kind.length → ∃ x,
    M.globalValue? f.name w = some x ∧ Shown w.memory (fields f.name 0) x

/-- A run does what the evaluation does that comes to the result. -/
structure Agrees (S : Source) (M : Machine σ) (name : String) (args : List Value) (w : World σ)
    (result : Except Stop (Option Datum)) (s : Situation) : Prop where
  outcome : SameOutcome (M.run name args w).2.memory result (M.run name args w).1
  calls : List.Forall₂ SameCall s.requests ((M.exchanges name args w).map Prod.fst)
  fields : ShowsFields S M s.fields (M.run name args w).2

/-- The evaluation comes to an end with the result, and nothing on the way is mistyped. -/
def Source.Comes (S : Source) (replies : Nat → Option (Option Value)) (d : Method)
    (args : List Value) (fields : String → Nat → Datum) (result : Except Stop (Option Datum))
    (s : Situation) : Prop :=
  result ≠ .error .unfinished ∧ result ≠ .error .mistyped ∧
    ∃ rounds, S.evaluate replies rounds d args fields = (result, s)

/-- What a run of a method has to do with its evaluation, for the replies of the host. -/
structure Preserved (S : Source) (m : Module) (host : Host σ) (d : Method) (args : List Value)
    (w : World σ) (fields : String → Nat → Datum) : Prop where
  replied : ∃ replies, ∀ L, (Machine.mk m L host).Replied d.name args w replies
  agrees : ∀ L replies, (Machine.mk m L host).Replied d.name args w replies →
    ¬ CutShort ((Machine.mk m L host).run d.name args w).1 →
    (∃ enough, ∀ rounds ≥ enough,
      (S.evaluate replies rounds d args fields).1 ≠ .error .unfinished) ∧
    ∀ result s, S.Comes replies d args fields result s →
      Agrees S ⟨m, L, host⟩ d.name args w result s
  terminates : ∀ replies, (∀ L, (Machine.mk m L host).Replied d.name args w replies) →
    ∀ result s, S.Comes replies d args fields result s →
    ∃ L : Limits, ∀ L' : Limits, L.steps ≤ L'.steps → L.callDepth ≤ L'.callDepth →
      L.stackSlots ≤ L'.stackSlots → ¬ CutShort ((Machine.mk m L' host).run d.name args w).1

/-- The elements of the fields as they are found. -/
def found (M : Machine σ) (w : World σ) (name : String) (j : Nat) : Datum :=
  match M.globalElement? name j w with
  | some x => .ofValue x
  | none => .int 0

/-- The worlds to which runs of methods lead, with the fields as evaluation leaves them. After a
run that was cut short evaluation goes on with the fields as they are found. -/
inductive Session (S : Source) (m : Module) : World σ → (String → Nat → Datum) → Prop where
  | start (host : σ) : Session S m ⟨initialMemory m, 0, host⟩ S.initialFields
  | run {w : World σ} {fields : String → Nat → Datum} {d : Method} {args : List Value}
      {replies : Nat → Option (Option Value)} {result : Except Stop (Option Datum)} {s : Situation}
      (L : Limits) (host : Host σ) : Session S m w fields → d ∈ S.package.methods →
      args.length = d.params.length → (Machine.mk m L host).Replied d.name args w replies →
      ¬ CutShort ((Machine.mk m L host).run d.name args w).1 →
      S.Comes replies d args fields result s →
      Session S m ((Machine.mk m L host).run d.name args w).2 s.fields
  | cut {w : World σ} {fields : String → Nat → Datum} {d : Method} {args : List Value}
      (L : Limits) (host : Host σ) : Session S m w fields → d ∈ S.package.methods →
      args.length = d.params.length → CutShort ((Machine.mk m L host).run d.name args w).1 →
      Session S m ((Machine.mk m L host).run d.name args w).2
        (found ⟨m, L, host⟩ ((Machine.mk m L host).run d.name args w).2)

end

section

variable {S : Source} {m : Module} {scopes : ScopeStack} {memory : Memory}

theorem shown_of_represents (texts : Texts m memory) {d : Datum} {x : Value}
    (h : Represents m d x) : Shown memory d x := by
  cases h with
  | int n => exact .int n
  | bool b => exact .bool b
  | address p => exact .address p
  | text hG kind => exact .text (Memory.text?_start (texts _ _ _ hG kind))

theorem Asked.sameCall {r : Request} {call : HostCall} (h : Asked m r call) : SameCall r call :=
  ⟨h.callee, h.args.imp fun _ _ => shown_of_represents h.texts⟩

theorem Matches.sameOutcome (texts : Texts m memory) {result : Except Stop (Option Datum)}
    {outcome : Outcome} (h : Matches m result outcome) : SameOutcome memory result outcome := by
  cases h with
  | none => exact .none
  | some represents => exact .some (shown_of_represents texts represents)
  | failure f => exact .failure f

/-- The global of a field is found under its name. -/
theorem Linked.globalByName? (linked : Linked S m scopes) {i : Nat} {f : FieldDecl}
    (hf : S.package.fields[i]? = some f) :
    ∃ G, m.globalByName? f.name = some G ∧ G.id = ⟨i⟩ := by
  obtain ⟨G, hG, id, name, -⟩ := linked.fields i f hf
  refine ⟨G, ?_, id⟩
  obtain ⟨held, rfl⟩ := Array.getElem?_eq_some_iff.1 hG
  refine Array.find?_eq_some_iff_getElem.2 ⟨by simp [name], i, held, rfl, fun j less => ?_⟩
  -- the globals before it belong to other fields
  have inside : j < S.package.fields.length :=
    Nat.lt_trans less (List.getElem?_eq_some_iff.1 hf).1
  obtain ⟨G', hG', -, name', -⟩ := linked.fields j _ (List.getElem?_eq_getElem inside)
  obtain ⟨_, rfl⟩ := Array.getElem?_eq_some_iff.1 hG'
  have apart : m.globals[j].name ≠ f.name := fun same =>
    absurd (linked.field_unique (List.getElem?_eq_getElem inside) hf (name'.symm.trans same))
      (Nat.ne_of_lt less)
  simpa using apart

variable {σ : Type} {M : Machine σ}

theorem globalElement?_of_cell (linked : Linked S M.module scopes) {i : Nat} {f : FieldDecl}
    (hf : S.package.fields[i]? = some f) {w : World σ} {cells : Array Value}
    (there : w.memory.regions[i]? = some cells) {j : Nat} {x : Value} (cell : cells[j]? = some x) :
    M.globalElement? f.name j w = some x := by
  obtain ⟨G, found, id⟩ := linked.globalByName? hf
  obtain ⟨inside, rfl⟩ := Array.getElem?_eq_some_iff.1 cell
  simp [Machine.globalElement?, found, id, Memory.read, Memory.locate, Memory.regionLength, there,
    inside, Memory.get?, bind, Except.bind, Except.toOption]

theorem HoldsFields.shows (linked : Linked S M.module scopes) {fields : String → Nat → Datum}
    {w : World σ} (h : HoldsFields S M.module fields w.memory) : ShowsFields S M fields w := by
  have element (f : FieldDecl) (hf : f ∈ S.package.fields) (j : Nat) (less : j < f.kind.length) :
      ∃ x, M.globalElement? f.name j w = some x ∧ Shown w.memory (fields f.name j) x := by
    obtain ⟨i, hi⟩ := List.getElem?_of_mem hf
    obtain ⟨cells, there, size, each⟩ := h.elements i f hi
    have cell := Array.getElem?_eq_getElem (size ▸ less)
    exact ⟨_, globalElement?_of_cell linked hi there cell,
      shown_of_represents h.texts (each j _ cell)⟩
  exact ⟨element, fun f hf some => element f hf 0 some⟩

end

section

variable {σ : Type} {S : Source} {m : Module} {scopes : ScopeStack} (linked : Linked S m scopes)
  {host : Host σ} {L : Limits} {d : Method} {args : List Value} {w : World σ}
  {fields : String → Nat → Datum} {replies : Nat → Option (Option Value)} {frame : Frame}
  {result : Except Stop (Option Datum)} {s : Situation}

include linked

theorem Linked.ready : (Machine.mk m L host).Ready False :=
  ⟨linked.generated.complete, False.elim, False.elim⟩

variable (hd : d ∈ S.package.methods) (arity : args.length = d.params.length)
  (inPlace : InPlace S m fields w.memory)

include hd arity inPlace

theorem begins_of_inPlace : ∃ frame, Begins m d.name args w.memory frame := by
  obtain ⟨frame, begins, -⟩ :=
    entered_of_run (X := ⟨S, m, scopes, linked, fun _ => none⟩) hd arity inPlace
  exact ⟨frame, begins⟩

section

variable (begins : Begins m d.name args w.memory frame)
  (supplies : (Machine.mk m L host).Supplies (.begun w frame) replies)

include begins supplies

/-- If the evaluation comes to a result, so does the machine with its host. -/
theorem finished_of_comes (comes : S.Comes replies d args fields result s) :
    ∃ n outcome v, (Machine.mk m L host).recorded.after n (.begun w frame) = .finished outcome v ∧
      Matches m result outcome ∧ Holds S m s (v.map Machine.asked) := by
  obtain ⟨finished, typed, rounds, evaluated⟩ := comes
  obtain ⟨frame', begins', A, -, callers, entered⟩ :=
    entered_of_run (X := ⟨S, m, scopes, linked, replies⟩) hd arity inPlace
  obtain rfl := begins.unique begins'
  obtain ⟨n, outcome, v, ended, same, holds⟩ :=
    finished_of_evaluate (entered w.steps) callers evaluated finished typed
  -- with its host the machine does the same as with the replies
  replace ended : (Machine.scripted m replies).after n ((Config.begun w frame).map Machine.asked) =
    .finished outcome v := ended
  rw [Machine.after_scripted n supplies] at ended
  cases step : (Machine.mk m L host).recorded.after n (.begun w frame) with
  | running c =>
    rw [step] at ended
    cases ended
  | finished outcome' v' =>
    rw [step] at ended
    cases ended
    exact ⟨n, outcome, v', step, same, holds⟩

/-- If the machine with its host comes to an end, so does the evaluation. -/
theorem ne_unfinished_of_finished {n : Nat} {outcome : Outcome}
    {v : World (σ × List (HostCall × Option Value))}
    (ended : (Machine.mk m L host).recorded.after n (.begun w frame) = .finished outcome v)
    {rounds : Nat} (many : n < rounds) :
    (S.evaluate replies rounds d args fields).1 ≠ .error .unfinished := by
  intro unfinished
  obtain ⟨frame', begins', A, -, callers, entered⟩ :=
    entered_of_run (X := ⟨S, m, scopes, linked, replies⟩) hd arity inPlace
  obtain rfl := begins.unique begins'
  obtain ⟨rounds, rfl⟩ := Nat.exists_eq_succ_of_ne_zero (Nat.ne_zero_of_lt many)
  obtain ⟨k, c, late, running⟩ :=
    running_of_evaluate (entered w.steps) (Prod.ext unfinished rfl)
  replace running : (Machine.scripted m replies).after k
    ((Config.begun w frame).map Machine.asked) = .running c := running
  obtain ⟨j, rfl⟩ := Nat.exists_eq_add_of_le (Nat.le_trans (Nat.le_of_lt_succ many) late)
  rw [Machine.after_scripted _ supplies, Machine.after_stays ended] at running
  cases running

end

/-- A run that is not cut short does as the evaluation does. -/
theorem run_of_comes (replied : (Machine.mk m L host).Replied d.name args w replies)
    (whole : ¬ CutShort ((Machine.mk m L host).run d.name args w).1)
    (comes : S.Comes replies d args fields result s) :
    Matches m result ((Machine.mk m L host).run d.name args w).1 ∧
      List.Forall₂ (Asked m) s.requests
        (((Machine.mk m L host).exchanges d.name args w).map Prod.fst) ∧
      InPlace S m s.fields ((Machine.mk m L host).run d.name args w).2.memory := by
  obtain ⟨frame, begins⟩ := begins_of_inPlace linked hd arity inPlace
  have supplies := Machine.supplies_of_complete begins whole replied
  obtain ⟨n, v, ended, exchanged, memory⟩ := Machine.complete_run begins whole
  obtain ⟨k, outcome, v', ended', same, holds⟩ :=
    finished_of_comes linked hd arity inPlace begins supplies comes
  -- the unlimited run ends only once
  have both : Progress.finished ((Machine.mk m L host).run d.name args w).1 v =
      .finished outcome v' := by
    rw [← Machine.after_stays ended k, ← Machine.after_stays ended' n, Nat.add_comm]
  obtain ⟨rfl, rfl⟩ := Progress.finished.inj both
  have covers : ((Machine.mk m L host).run d.name args w).2.memory.Covers False m :=
    (run_outcome linked.ready (inPlace.holds.covers linked (Nat.le_of_eq inPlace.mark.symm))
      False.elim).1
  refine ⟨same, exchanged ▸ holds.requests, ⟨?_, ?_⟩⟩
  · rw [memory]
    refine holds.fields.congr linked fun r low => ?_
    rw [Memory.regions_release, if_pos (inPlace.mark.symm ▸ low)]
    rfl
  · exact Nat.le_antisymm (inPlace.mark ▸ Machine.mark_run_le begins) covers.mark

/-- However a run ends, what is found in the fields is in place. -/
theorem inPlace_found : InPlace S m (found ⟨m, L, host⟩ ((Machine.mk m L host).run d.name args w).2)
    ((Machine.mk m L host).run d.name args w).2.memory := by
  obtain ⟨frame, begins⟩ := begins_of_inPlace linked hd arity inPlace
  have covers := inPlace.holds.covers linked (Nat.le_of_eq inPlace.mark.symm)
  have ready : (Machine.mk m L host).Ready False := linked.ready
  have after : ((Machine.mk m L host).run d.name args w).2.memory.Covers False m :=
    (run_outcome ready covers False.elim).1
  refine ⟨⟨fun i f hf => ?_, fun i G bytes hG kind => ?_⟩, ?_⟩
  · obtain ⟨G, hG, -, -, kind⟩ := linked.fields i f hf
    obtain ⟨cells, there, size, -⟩ := after.regions i G hG
    refine ⟨cells, there, kind ▸ size, fun j x hx => ?_⟩
    have element := globalElement?_of_cell (M := ⟨m, L, host⟩) linked hf there hx
    rw [found, element]
    exact represents_ofValue x
  · obtain ⟨F, entry, name, -⟩ := begins
    have kept := keepsStrings_call ready covers F.id args i G bytes hG kind
    have called : (Machine.mk m L host).run d.name args w =
        (Machine.mk m L host).call F.id args w := by
      simp only [Machine.run, name]
    rw [called, kept, inPlace.holds.texts i G bytes hG kind]
  · exact Nat.le_antisymm (inPlace.mark ▸ Machine.mark_run_le begins) after.mark

/-- A run of a method does what its evaluation does. -/
theorem preserved_of_inPlace : Preserved S m host d args w fields := by
  obtain ⟨frame, begins⟩ := begins_of_inPlace linked hd arity inPlace
  constructor
  case replied =>
    obtain ⟨replies, supplies⟩ := (Machine.mk m {} host).exists_replies (.begun w frame)
    exact ⟨replies, fun L => Machine.replied_of_supplies begins (supplies.within L)⟩
  case agrees =>
    intro L replies replied whole
    constructor
    · have supplies := Machine.supplies_of_complete begins whole replied
      obtain ⟨n, v, ended, -⟩ := Machine.complete_run begins whole
      exact ⟨n + 1, fun rounds many =>
        ne_unfinished_of_finished linked hd arity inPlace begins supplies ended many⟩
    · intro result s comes
      obtain ⟨same, asked, after⟩ := run_of_comes linked hd arity inPlace replied whole comes
      exact ⟨same.sameOutcome after.holds.texts, asked.imp fun _ _ => Asked.sameCall,
        after.holds.shows linked⟩
  case terminates =>
    intro replies replied result s comes
    have supplies := Machine.supplies_of_all (M := ⟨m, {}, host⟩) begins replied
    obtain ⟨n, outcome, v, ended, same, -⟩ :=
      finished_of_comes linked hd arity inPlace begins supplies comes
    obtain ⟨L, enough⟩ := Machine.exists_whole_run begins ended
    refine ⟨L, fun L' steps calls slots => ?_⟩
    have outcome' : ((Machine.mk m L' host).run d.name args w).1 = outcome :=
      enough L' steps calls slots
    exact outcome' ▸ same.whole

end

/-- Between the runs of a session the fields are in place. -/
theorem Session.inPlace {σ : Type} {S : Source} {m : Module} {scopes : ScopeStack}
    (linked : Linked S m scopes) {w : World σ} {fields : String → Nat → Datum}
    (h : Session S m w fields) : InPlace S m fields w.memory := by
  induction h with
  | start host => exact inPlace_start linked
  | run L host _ hd arity replied whole comes ih =>
    exact (run_of_comes linked hd arity ih replied whole comes).2.2
  | cut L host _ hd arity _ ih => exact inPlace_found linked hd arity ih

/-- Compilation preserves meaning: in every session with a compiled program every run of a method
does what the direct evaluation of the program does. -/
theorem compile_preserves_meaning {options : Options} {program : Program} {m : Module}
    {warnings : List Warning} (compiled : compile options program = .ok (m, warnings)) :
    ∃ package, program.package = some package ∧
      ((∀ x ∈ (Source.mk program.externs package).members, x.name ≠ "") →
      ∀ {σ : Type} (host : Host σ) (w : World σ) (fields : String → Nat → Datum),
        Session ⟨program.externs, package⟩ m w fields → ∀ d ∈ package.methods, ∀ args : List Value,
          args.length = d.params.length →
            Preserved ⟨program.externs, package⟩ m host d args w fields) := by
  obtain ⟨package, there, link⟩ := exists_linked compiled
  refine ⟨package, there, fun named σ host w fields session d hd args arity => ?_⟩
  obtain ⟨scopes, linked⟩ := link named
  exact preserved_of_inPlace linked hd arity (session.inPlace linked)

/-- A method that counts a field up, printing as it goes, and divides in the end. -/
def climb : Method where
  name := "climb"
  ret := .int
  params := [⟨some "k", .int, 4⟩]
  line := 4
  body := .mk [] [
    .while (.binary .lt (.var "n" 5) (.var "k" 5) 5) (.mk [] [
      .assign (.scalar "n" (.binary .add (.var "n" 6) (.constant (.ofInt 1 6)) 6) 6),
      .call "print" [.constant ⟨.string "up", "up", 7⟩] 7]) 5,
    .return (some (.binary .div (.var "n" 8)
      (.binary .sub (.var "k" 8) (.constant (.ofInt 5 8)) 8) 8)) 8]

def climbing : Source where
  externs := [⟨"print", .void, [⟨none, .string, 1⟩], 1⟩]
  package := {
    name := "P"
    fields := [⟨"n", .int, .scalar, some (.ofInt 2 3), 3⟩]
    methods := [climb]
    line := 2 }

/-- A host that counts the calls. -/
def tally : Host Nat := ⟨fun n _ => some (none, n + 1)⟩

theorem climbing_preserved : ∃ m,
    compile {} ⟨climbing.externs, some climbing.package⟩ = .ok (m, []) ∧
    Session climbing m ⟨initialMemory m, 0, 0⟩ climbing.initialFields ∧
    Preserved climbing m tally climb [.int 5] ⟨initialMemory m, 0, 0⟩ climbing.initialFields ∧
    ((Machine.mk m {} tally).run "climb" [.int 5] ⟨initialMemory m, 0, 0⟩).1 =
      .error .divisionByZero ∧
    (climbing.evaluate (fun _ => some none) 5 climb [.int 5] climbing.initialFields).1 =
      .error (.failure .divisionByZero) ∧
    (climbing.evaluate (fun _ => some none) 5 climb [.int 5] climbing.initialFields).2.requests =
      List.replicate 3 ⟨"print", [.string (.text "up")]⟩ := by
  have result : ((compile {} ⟨climbing.externs, some climbing.package⟩).toOption.map fun c => (c.2,
      fault? ((Machine.mk c.1 {} tally).run "climb" [.int 5] ⟨initialMemory c.1, 0, 0⟩).1)) =
        some ([], some .divisionByZero) := by
    decide +kernel
  obtain ⟨⟨m, warnings⟩, compiled, result⟩ := Option.map_eq_some_iff.1 result
  obtain ⟨rfl, failed⟩ := Prod.mk.inj result
  replace compiled := ok_of_toOption compiled
  obtain ⟨package, there, preserves⟩ := compile_preserves_meaning compiled
  obtain rfl := Option.some.inj there
  exact ⟨m, compiled, .start 0, preserves (by decide) tally _ _ (.start 0) climb
    (List.mem_singleton.2 rfl) [.int 5] rfl, eq_error_of_fault? failed, by decide +kernel,
    by decide +kernel⟩

end Decaf.Meaning
