import Decaf.Proofs.Generation.Incremental
import Decaf.Proofs.Generation.MethodStarts
import Decaf.Proofs.Generation.Spelling

/-!
# One method after the other

The bodies of a package are built in stages, one for each method. What a method comes to does not
depend on the stage: it is built exactly if it is built where no other body is there yet, with the
same warnings and the same strings.
-/

namespace Decaf

open IR

/-- Building the body of a method keeps up what all commands keep up. -/
theorem Gen.invariant_defineMethod {I : Builder → Prop}
    (keeps : ∀ t {r : Reply} (c : Command r), I t → I (t.perform c).2) (o : Options) (d : Method)
    (f : FunctionId) {s : GenState Builder} (loops : s.loops = .empty) (holds : I s.target) :
    I ((Gen.defineMethod o d f).run.run s).2.target := by
  have simulates := simulates_invariant (τ := Builder) keeps
  have states : s.Corresponds Matching.unlined (fun t t' => t' = t ∧ I t) s := {
    target := ⟨rfl, holds⟩
    scopes := Matching.scopes_refl (fun _ => trivial) (fun _ => rfl) (fun _ => rfl) s.scopes
    loops := by
      rw [loops]
      exact .nil
    warnings := ⟨s.warnings, s.warnings, rfl, rfl,
      forall₂_refl (Warning.like_refl fun _ => trivial) _⟩ }
  obtain ⟨-, after⟩ := simulates.inside.defineMethod (o := o) (d.like_refl fun _ => trivial)
    (simulates.bodies (rfl : f = f)) states (simulates.enter states.target rfl)
  exact after.target.2

namespace Meaning

variable {S S' : Source} {o : Options} {todo : List (Method × FunctionId)}

section

variable {d : Method} {f f' : FunctionId} {s s' u : GenState Builder}

/-- After a method the others are still to be defined. -/
theorem Underway.after (h : Underway S ((d, f) :: todo) s)
    (yields : Gen.Yields (Gen.defineMethod o d f) s () u) (other : ∀ x ∈ todo, x.2 ≠ f) :
    Underway S todo u := by
  have run : ((Gen.defineMethod o d f).run.run s).2 = u := congrArg Prod.snd yields
  have interior := Gen.interior_defineMethod o d h.table_lt h.loops
  have labelled := Gen.invariant_defineMethod (fun _ _ c held => held.perform c) o d f h.loops
    h.labelled
  have aligned := Gen.invariant_defineMethod (fun _ _ c held => held.perform c) o d f h.loops
    h.aligned
  rw [run] at interior labelled aligned
  exact h.next ((h.defined o).of_yields yields) interior labelled aligned other

/-- What the two runs are known to have in common. -/
theorem Underway.alike (h : Underway S [(d, f)] s) (h' : Underway S' [(d, f')] s')
    (same : ∀ name, S'.member? name = S.member? name)
    (yields : Gen.Yields (Gen.defineMethod o d f) s () u) :
    ∃ u', Gen.Yields (Gen.defineMethod o d f') s' () u' ∧
      (displacement S S' s s' f f').Abreast u.target u'.target ∧
      ∃ ws, u.warnings = s.warnings ++ ws ∧ u'.warnings = s'.warnings ++ ws := by
  obtain ⟨results, after⟩ := h.pair h' same o
  rw [yields] at results after
  rcases run : (Gen.defineMethod o d f').run.run s' with ⟨r, u'⟩
  rw [run] at results after
  cases results with
  | ok =>
    refine ⟨u', run, after.target.toAbreast, ?_⟩
    obtain ⟨ws, ws', now, now', alike⟩ := after.warnings
    have equal : ws = ws' := List.forall₂_eq_eq_eq ▸ alike.imp fun _ _ => Warning.eq_of_like
    exact ⟨ws, now, equal ▸ now'⟩

theorem Underway.warnings (h : Underway S [(d, f)] s)
    (yields : Gen.Yields (Gen.defineMethod o d f) s () u) :
    u.warnings = s.warnings ++ u.warnings.drop s.warnings.length := by
  obtain ⟨-, -, -, ws, now, -⟩ := h.alike h (fun _ => rfl) yields
  rw [now, List.drop_left]

theorem Underway.globals (h : Underway S [(d, f)] s)
    (yields : Gen.Yields (Gen.defineMethod o d f) s () u) :
    u.target.module.globals.toList = s.target.module.globals.toList ++
      u.target.module.globals.toList.drop s.target.module.globals.size := by
  obtain ⟨new, both⟩ := ((h.defined o).of_yields yields).outside.ext.globals
  rw [← both, ← Array.length_toList, List.drop_left]

end

/-- The methods are all defined, one after the other, exactly if each of them is where no other
body is there yet. -/
theorem Underway.yields_forM_iff {s₀ : GenState Builder} (h₀ : Underway S todo s₀) :
    ∀ {s : GenState Builder}, Underway S todo s → (todo.map Prod.snd).Nodup →
      ((∃ u, Gen.Yields (todo.forM fun x => Gen.defineMethod o x.1 x.2) s () u) ↔
        ∀ x ∈ todo, ∃ u, Gen.Yields (Gen.defineMethod o x.1 x.2) s₀ () u) := by
  induction todo with
  | nil => exact fun _ _ => ⟨fun _ => by simp, fun _ => ⟨_, rfl⟩⟩
  | cons x todo ih =>
    intro s h distinct
    obtain ⟨d, f⟩ := x
    rw [List.map_cons, List.nodup_cons] at distinct
    have other : ∀ x ∈ todo, x.2 ≠ f := fun x hx same =>
      distinct.1 (List.mem_map.2 ⟨x, hx, same⟩)
    have later₀ : Underway S todo s₀ := h₀.mono (List.subset_cons_self _ _)
    have first : Underway S [(d, f)] s := h.mono (by simp)
    have first₀ : Underway S [(d, f)] s₀ := h₀.mono (by simp)
    constructor
    · rintro ⟨u, run⟩
      obtain ⟨⟨⟩, s₁, here, later⟩ := Gen.yields_bind_iff.1 run
      refine List.forall_mem_cons.2 ⟨?_, (ih later₀ (h.after here other) distinct.2).1 ⟨u, later⟩⟩
      obtain ⟨u₀, here₀, -⟩ := first.alike first₀ (fun _ => rfl) here
      exact ⟨u₀, here₀⟩
    · intro all
      obtain ⟨⟨u₀, here₀⟩, others⟩ := List.forall_mem_cons.1 all
      obtain ⟨s₁, here, -⟩ := first₀.alike first (fun _ => rfl) here₀
      obtain ⟨u, later⟩ := (ih later₀ (h.after here other) distinct.2).2 others
      exact ⟨u, Gen.yields_bind_iff.2 ⟨(), s₁, here, later⟩⟩

/-- A method, its function, and the states between which the body was built. -/
structure Stage where
  method : Method
  function : FunctionId
  before : GenState Builder
  after : GenState Builder

namespace Stage

variable (t : Stage)

def place : Method × FunctionId := (t.method, t.function)

/-- The warnings that were given meanwhile. -/
def warnings : List Warning :=
  t.after.warnings.drop t.before.warnings.length

/-- The strings that were added meanwhile. -/
def strings : List Global :=
  t.after.target.module.globals.toList.drop t.before.target.module.globals.size

/-- The stage is one of those by which a module was built. -/
structure Of (S : Source) (o : Options) (m : Module) : Prop where
  underway : Underway S [t.place] t.before
  yields : Gen.Yields (Gen.defineMethod o t.method t.function) t.before () t.after
  labelled : t.after.target.Labelled
  keeps : t.after.target.module.Keeps t.function m

end Stage

/-- A run is made up of stages. -/
theorem Underway.exists_stages : ∀ {todo : List (Method × FunctionId)} {s u : GenState Builder},
    Underway S todo s → (todo.map Prod.snd).Nodup →
      Gen.Yields (todo.forM fun x => Gen.defineMethod o x.1 x.2) s () u →
      u.target.Labelled ∧
      (∀ (m : Module) g, g ∉ todo.map Prod.snd → m.Keeps g s.target.module →
        m.Keeps g u.target.module) ∧
      ∃ ts : List Stage, ts.map Stage.place = todo ∧ (∀ t ∈ ts, t.Of S o u.target.module) ∧
        u.warnings = s.warnings ++ ts.flatMap Stage.warnings ∧
        u.target.module.globals.toList =
          s.target.module.globals.toList ++ ts.flatMap Stage.strings
  | [], s, u, h, _, run => by
    obtain rfl : u = s := by cases run; rfl
    exact ⟨h.labelled, fun _ _ _ keeps => keeps, [], by simp⟩
  | (d, f) :: todo, s, u, h, distinct, run => by
    rw [List.map_cons, List.nodup_cons] at distinct
    have other : ∀ x ∈ todo, x.2 ≠ f := fun x hx same =>
      distinct.1 (List.mem_map.2 ⟨x, hx, same⟩)
    obtain ⟨⟨⟩, s₁, here, later⟩ := Gen.yields_bind_iff.1 run
    have first : Underway S [(d, f)] s := h.mono (by simp)
    have next := h.after here other
    have outside := ((h.defined o).of_yields here).outside
    obtain ⟨labelled, keeps, ts, places, stages, warnings, globals⟩ :=
      next.exists_stages distinct.2 later
    refine ⟨labelled, fun m g apart kept => ?_, ⟨d, f, s, s₁⟩ :: ts, ?_, ?_, ?_, ?_⟩
    · rw [List.map_cons, List.mem_cons, not_or] at apart
      exact keeps m g apart.2 (kept.outside outside apart.1)
    · rw [List.map_cons, places]
      rfl
    · refine List.forall_mem_cons.2 ⟨⟨first, here, next.labelled, ?_⟩, stages⟩
      exact keeps _ f distinct.1 (.refl _ f)
    · rw [warnings, first.warnings here, List.append_assoc]
      rfl
    · rw [globals, first.globals here, List.append_assoc]
      rfl

end Meaning

end Decaf
