import Mathlib.Data.List.Forall2
import Decaf.Proofs.Execution.Compiled
import Decaf.Proofs.Meaning.Links

/-!
# Data in memory

How the machine holds what evaluation speaks of: the value of a datum, the elements of the
fields in the lowest regions, and the variables in scope in the slots of the call in progress.
A text is held by the address of the string that was put into the module for it.
-/

namespace Decaf.Meaning

open IR Execution

/-- How the machine holds a datum. -/
inductive Represents (m : Module) : Datum → Value → Prop where
  | int (n : Int32) : Represents m (.int n) (.int n)
  | bool (b : Bool) : Represents m (.bool b) (.bool b)
  | address (p : Pointer) : Represents m (.string (.address p)) (.pointer p)
  | text {s : String} {g : Nat} {G : Global} : m.globals[g]? = some G →
      G.kind = .string s.toUTF8.toList → Represents m (.string (.text s)) (.pointer (.start g))

section Data

variable {m : Module}

theorem Represents.ty_eq {d : Datum} {x : Value} (h : Represents m d x) : x.ty = d.ty.repr := by
  cases h <;> rfl

theorem represents_ofValue (x : Value) : Represents m (.ofValue x) x := by
  cases x <;> constructor

theorem represents_zero (ty : Decaf.Ty) : Represents m (.zero ty) (.zero ty.repr) := by
  cases ty <;> constructor

theorem represents_zero_const {ty : Decaf.Ty} {c : Const} (h : Const.zero? ty.repr = some c) :
    Represents m (.zero ty) (.ofConst c) := by
  cases ty <;> cases h <;> constructor

/-- What a method returns that names no result. -/
theorem represents_default {ty : Decaf.Ty} {c : Const}
    (h : (if ty = .bool then some (.bool true) else Const.zero? ty.repr) = some c) :
    Represents m (.default ty) (.ofConst c) ∧ (Datum.default ty).ty = ty := by
  cases ty <;> cases h <;> exact ⟨by constructor, rfl⟩

theorem ty_of_convert? {wanted : Decaf.Ty} {d d' : Datum} (h : d.convert? wanted = some d') :
    d'.ty = wanted := by
  obtain ⟨same, found⟩ := Option.ite_none_right_eq_some.1 h
  rw [← Option.some.inj found]
  exact same

end Data

/-- The strings of the module are where they were put. -/
def Texts (m : Module) (memory : Memory) : Prop :=
  ∀ (i : Nat) G bytes, m.globals[i]? = some G → G.kind = .string bytes →
    memory.regions[i]? = some (initialCells (.string bytes))

/-- Memory holds the fields. -/
structure HoldsFields (S : Source) (m : Module) (fields : String → Nat → Datum)
    (memory : Memory) : Prop where
  elements : ∀ (i : Nat) f, S.package.fields[i]? = some f →
    ∃ cells, memory.regions[i]? = some cells ∧ cells.size = f.kind.length ∧
      ∀ (j : Nat) x, cells[j]? = some x → Represents m (fields f.name j) x
  texts : Texts m memory

/-- The request is what the host was asked. -/
structure Asked (m : Module) (r : Request) (call : HostCall) : Prop where
  callee : r.callee = call.callee
  args : List.Forall₂ (Represents m) r.args call.args
  texts : Texts m call.memory

/-- Memory and the host are as the situation says. -/
structure Holds (S : Source) (m : Module) (s : Situation) (w : World (List HostCall)) : Prop where
  fields : HoldsFields S m s.fields w.memory
  requests : List.Forall₂ (Asked m) s.requests w.host

/-- The slot of a variable holds its value. The slots of the call begin at the mark. -/
structure Binds (m : Module) (entry : BlockId) (mark : Nat) (memory : Memory)
    (x : String × Descriptor) (y : String × Variable) : Prop where
  name : x.1 = y.1
  kind : x.2.kind.isVariable = true
  ty : x.2.ty = y.2.ty
  slot : ∃ slot i v, x.2.handle = .slot slot ∧ (m.slotsOf entry)[i]? = some (slot, x.2.ty.repr) ∧
    memory.regions[mark + i]? = some #[v] ∧ Represents m y.2.value v

section Fields

variable {S : Source} {m : Module} {scopes : ScopeStack} {fields : String → Nat → Datum}
  {memory memory' : Memory}

theorem Linked.field_lt (linked : Linked S m scopes) {i : Nat} {f : FieldDecl}
    (hf : S.package.fields[i]? = some f) : i < m.globals.size := by
  obtain ⟨G, hG, -⟩ := linked.fields i f hf
  exact (Array.getElem?_eq_some_iff.1 hG).1

theorem Linked.fields_nodup (linked : Linked S m scopes) :
    (S.package.fields.map (·.name)).Nodup := by
  have distinct := linked.distinct
  rw [Source.names_members] at distinct
  exact (List.nodup_append.1 (List.nodup_append.1 distinct).1).2.1

/-- No two fields have one name. -/
theorem Linked.field_unique (linked : Linked S m scopes) {i j : Nat} {f g : FieldDecl}
    (hf : S.package.fields[i]? = some f) (hg : S.package.fields[j]? = some g)
    (same : f.name = g.name) : i = j := by
  have held := (List.getElem?_eq_some_iff.1 hf).1
  refine (List.getElem?_inj (by simpa using held) linked.fields_nodup).1 ?_
  simp [hf, hg, same]

theorem Texts.congr (h : Texts m memory)
    (same : ∀ r < m.globals.size, memory'.regions[r]? = memory.regions[r]?) :
    Texts m memory' := by
  intro i G bytes hG kind
  rw [same i (Array.getElem?_eq_some_iff.1 hG).1, h i G bytes hG kind]

/-- The fields do not mind what happens above the globals. -/
theorem HoldsFields.congr (linked : Linked S m scopes) (h : HoldsFields S m fields memory)
    (same : ∀ r < m.globals.size, memory'.regions[r]? = memory.regions[r]?) :
    HoldsFields S m fields memory' where
  elements i f hf := by
    rw [same i (linked.field_lt hf)]
    exact h.elements i f hf
  texts := h.texts.congr same

/-- The regions of the globals are there. -/
theorem HoldsFields.covers (linked : Linked S m scopes) (h : HoldsFields S m fields memory)
    (mark : m.globals.size ≤ memory.mark) : memory.Covers False m where
  regions g G hG := by
    rcases linked.generated.global_cases hG with ⟨f, hf, kind⟩ | ⟨bytes, kind⟩
    · obtain ⟨cells, there, size, -⟩ := h.elements g f hf
      exact ⟨cells, there, size.trans (congrArg _ kind.symm), False.elim⟩
    · refine ⟨_, h.texts g G bytes hG kind, ?_, False.elim⟩
      rw [kind]
      simp [initialCells, GlobalKind.length]
  mark := mark

/-- Writing a cell leaves the other regions as they are. -/
theorem regions_set_of_ne {c : Cell} {x : Value} {r : Nat} (other : r ≠ c.region) :
    (memory.set c x).regions[r]? = memory.regions[r]? := by
  simp [Memory.set, Array.getElem?_modify, Ne.symm other]

theorem regions_set {c : Cell} {x : Value} {cells : Array Value}
    (there : memory.regions[c.region]? = some cells) :
    (memory.set c x).regions[c.region]? = some (cells.setIfInBounds c.index x) := by
  simp [Memory.set, Array.getElem?_modify, there]

/-- A field and the cell for it are assigned the same. -/
theorem HoldsFields.write (linked : Linked S m scopes) (h : HoldsFields S m fields memory)
    {i j : Nat} {f : FieldDecl} (hf : S.package.fields[i]? = some f) {d : Datum} {x : Value}
    (represents : Represents m d x) :
    HoldsFields S m (fun name k => if name = f.name ∧ k = j then d else fields name k)
      (memory.set ⟨i, j⟩ x) where
  elements k g hg := by
    obtain ⟨cells, there, size, each⟩ := h.elements k g hg
    by_cases same : k = i
    · subst same
      rw [hf] at hg
      cases hg
      refine ⟨cells.setIfInBounds j x, regions_set (c := ⟨k, j⟩) there, by simpa using size,
        fun l y hy => ?_⟩
      rw [Array.getElem?_setIfInBounds] at hy
      by_cases here : j = l
      · subst here
        simp only [true_and, ite_true] at hy ⊢
        split at hy <;> cases hy
        exact represents
      · simp only [here, ite_false] at hy
        simp only [Ne.symm here, and_false, ite_false]
        exact each l y hy
    · have apart : g.name ≠ f.name := fun name => same (linked.field_unique hg hf name)
      refine ⟨cells, (regions_set_of_ne (c := ⟨i, j⟩) same).trans there, size, fun l y hy => ?_⟩
      simp only [apart, false_and, ite_false]
      exact each l y hy
  texts k G bytes hG kind := by
    rw [regions_set_of_ne (c := ⟨i, j⟩) (r := k), h.texts k G bytes hG kind]
    rintro rfl
    obtain ⟨G', hG', -, -, kind'⟩ := linked.fields k f hf
    rw [hG] at hG'
    cases hG'
    rw [kind] at kind'
    simp only [FieldDecl.kind] at kind'
    split at kind' <;> cases kind'

theorem Holds.congr (linked : Linked S m scopes) {s : Situation} {w w' : World (List HostCall)}
    (h : Holds S m s w)
    (same : ∀ r < m.globals.size, w'.memory.regions[r]? = w.memory.regions[r]?)
    (host : w'.host = w.host) : Holds S m s w' where
  fields := h.fields.congr linked same
  requests := host ▸ h.requests

end Fields

section Locals

variable {m : Module} {entry : BlockId} {mark : Nat} {memory memory' : Memory}
  {bindings : Bindings} {locals : Locals}

theorem Binds.congr {x : String × Descriptor} {y : String × Variable}
    (h : Binds m entry mark memory x y)
    (same : ∀ r, mark ≤ r → memory'.regions[r]? = memory.regions[r]?) :
    Binds m entry mark memory' x y := by
  obtain ⟨slot, i, v, handle, there, cell, represents⟩ := h.slot
  exact ⟨h.name, h.kind, h.ty, slot, i, v, handle, there,
    (same _ (Nat.le_add_right ..)).trans cell, represents⟩

/-- Another slot is written. -/
theorem Binds.set_of_ne {x : String × Descriptor} {y : String × Variable}
    (h : Binds m entry mark memory x y) {i : Nat} {slot : ValueId} {ty : IR.Ty}
    (there : (m.slotsOf entry)[i]? = some (slot, ty)) (other : x.2.handle ≠ .slot slot)
    (v : Value) : Binds m entry mark (memory.set ⟨mark + i, 0⟩ v) x y := by
  obtain ⟨slot', j, w, handle, there', cell, represents⟩ := h.slot
  refine ⟨h.name, h.kind, h.ty, slot', j, w, handle, there',
    (regions_set_of_ne (c := ⟨mark + i, 0⟩) fun same => other ?_).trans cell, represents⟩
  obtain rfl : j = i := Nat.add_left_cancel same
  rw [there] at there'
  cases there'
  exact handle

/-- A name that is not in scope stands for no variable. -/
theorem lookup_eq_none_of_binds (h : List.Forall₂ (Binds m entry mark memory) bindings locals)
    {name : String} (missing : bindings.lookup name = none) : locals.lookup name = none := by
  induction h with
  | nil => rfl
  | @cons x y bindings locals first _ ih =>
    obtain ⟨n, d⟩ := x
    obtain ⟨n', y⟩ := y
    obtain rfl : n = n' := first.name
    rw [List.lookup_cons] at missing ⊢
    cases same : name == n with
    | true =>
      rw [same] at missing
      cases missing
    | false =>
      rw [same] at missing
      exact ih missing

theorem binds_set_of_not_mem (h : List.Forall₂ (Binds m entry mark memory) bindings locals)
    {i : Nat} {slot : ValueId} {ty : IR.Ty} (there : (m.slotsOf entry)[i]? = some (slot, ty))
    (other : .slot slot ∉ bindings.map (·.2.handle)) (v : Value) :
    List.Forall₂ (Binds m entry mark (memory.set ⟨mark + i, 0⟩ v)) bindings locals := by
  induction h with
  | nil => exact .nil
  | cons first _ ih =>
    rw [List.map_cons, List.mem_cons, not_or] at other
    exact .cons (first.set_of_ne there (Ne.symm other.1) v) (ih other.2)

/-- A variable in scope, its slot, and what it means to assign to it. -/
theorem variable_of_binds (h : List.Forall₂ (Binds m entry mark memory) bindings locals)
    (distinct : (bindings.map (·.2.handle)).Nodup) {name : String} {d : Descriptor}
    (found : bindings.lookup name = some d) :
    ∃ y slot i v, locals.lookup name = some y ∧ y.ty = d.ty ∧ d.kind.isVariable = true ∧
      d.handle = .slot slot ∧ (m.slotsOf entry)[i]? = some (slot, d.ty.repr) ∧
      memory.regions[mark + i]? = some #[v] ∧ Represents m y.value v ∧
      ∀ e v', Represents m e v' →
        List.Forall₂ (Binds m entry mark (memory.set ⟨mark + i, 0⟩ v')) bindings
          (locals.assign name e) := by
  induction h with
  | nil => cases found
  | @cons x y bindings locals first rest ih =>
    obtain ⟨n, dx⟩ := x
    obtain ⟨n', y⟩ := y
    obtain rfl : n = n' := first.name
    rw [List.map_cons, List.nodup_cons] at distinct
    rw [List.lookup_cons] at found
    -- a later variable hides the earlier ones of its name
    by_cases same : name = n
    · subst same
      rw [beq_self_eq_true] at found
      cases found
      obtain ⟨slot, i, v, handle, there, cell, represents⟩ := first.slot
      refine ⟨y, slot, i, v, by simp, first.ty.symm, first.kind, handle, there, cell, represents,
        fun e v' value => ?_⟩
      rw [Locals.assign, if_pos rfl]
      refine .cons ⟨rfl, first.kind, first.ty, slot, i, v', handle, there, ?_, value⟩ ?_
      · exact regions_set (c := ⟨mark + i, 0⟩) cell
      · exact binds_set_of_not_mem rest there (handle ▸ distinct.1) v'
    · rw [beq_false_of_ne same] at found
      obtain ⟨z, slot, i, v, at_, ty, kind, handle, there, cell, represents, assigned⟩ :=
        ih distinct.2 found
      refine ⟨z, slot, i, v, ?_, ty, kind, handle, there, cell, represents, fun e v' value => ?_⟩
      · rw [List.lookup_cons, beq_false_of_ne same, at_]
      rw [Locals.assign, if_neg (Ne.symm same)]
      refine .cons (first.set_of_ne there (fun twice => distinct.1 ?_) v') (assigned e v' value)
      obtain ⟨before, after, rfl, -⟩ := List.lookup_eq_some_iff.1 found
      rw [twice, ← handle]
      exact List.mem_map_of_mem (f := fun x => x.2.handle) (a := (name, d)) (by simp)

end Locals

end Decaf.Meaning
