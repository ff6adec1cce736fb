import Mathlib.Data.List.Forall2
import Mathlib.Data.List.Infix
import Mathlib.Data.List.Nodup
import Decaf.Compile.Scope

/-!
# Histories of scopes

What a stack of scopes holds, said by the calls that were made on it since it was new. Scopes are
numbered by the calls that open them, and which of them are still open, and which one a name was
bound in, is read off the calls by counting. The stack finds a name where it was bound innermost
among the open scopes, refuses to bind it a second time in one scope, and is as it was before after
each scope that is closed.
-/

namespace Decaf

/-- What can be done to a stack of scopes. -/
inductive ScopeCall where
  | push
  | pop
  | bind (name : String) (d : Descriptor)
  deriving DecidableEq, Repr

namespace ScopeStack

/-- The stack after a call. If the call is refused it stays as it is. -/
def perform (s : ScopeStack) : ScopeCall → ScopeStack
  | .push => s.push
  | .pop => s.pop
  | .bind name d =>
    match s.bind name d with
    | .ok s' => s'
    | .error _ => s

def performAll (s : ScopeStack) (calls : List ScopeCall) : ScopeStack :=
  calls.foldl perform s

theorem performAll_concat (s : ScopeStack) (calls : List ScopeCall) (c : ScopeCall) :
    s.performAll (calls ++ [c]) = (s.performAll calls).perform c :=
  List.foldl_concat ..

end ScopeStack

namespace ScopeHistory

/-- The stack after the calls, if it was new before them. -/
def after (calls : List ScopeCall) : ScopeStack :=
  ScopeStack.empty.performAll calls

theorem after_concat (calls : List ScopeCall) (c : ScopeCall) :
    after (calls ++ [c]) = (after calls).perform c :=
  ScopeStack.performAll_concat ..

/-- A scope that was opened right before the calls is still open after them: at no time have they
closed more scopes than they have opened. -/
def Within (calls : List ScopeCall) : Prop :=
  ∀ first ∈ calls.inits, first.count .pop ≤ first.count .push

/-- Every scope that the calls open they close, and they close no other. -/
def Balanced (calls : List ScopeCall) : Prop :=
  Within calls ∧ calls.count .pop = calls.count .push

/-- The scope is open after the calls. Scope 0 is that of the package and scope `i + 1` the one that
call `i` opens. -/
def IsOpen (calls : List ScopeCall) : Nat → Prop
  | 0 => True
  | i + 1 => calls[i]? = some .push ∧ Within (calls.drop (i + 1))

/-- Of the scopes that are open the one opened last is on top. -/
def IsTop (calls : List ScopeCall) (scope : Nat) : Prop :=
  IsOpen calls scope ∧ ∀ other, IsOpen calls other → other ≤ scope

/-- Call `i` binds the name in the scope: that was on top then, and the call was not refused. -/
structure Binds (calls : List ScopeCall) (i scope : Nat) (name : String) (d : Descriptor) :
    Prop where
  call : calls[i]? = some (.bind name d)
  top : IsTop (calls.take i) scope
  accepted : ∃ s, (after (calls.take i)).bind name d = .ok s

instance (calls : List ScopeCall) : Decidable (Within calls) :=
  inferInstanceAs (Decidable (∀ first ∈ calls.inits, _))

instance (calls : List ScopeCall) : Decidable (Balanced calls) :=
  inferInstanceAs (Decidable (_ ∧ _))

instance (calls : List ScopeCall) : (scope : Nat) → Decidable (IsOpen calls scope)
  | 0 => .isTrue trivial
  | _ + 1 => inferInstanceAs (Decidable (_ ∧ _))

/-- The number of scopes that are open, that of the package not counted. -/
def openCount (calls : List ScopeCall) : Nat :=
  (List.range calls.length).countP fun i => IsOpen calls (i + 1)

section Opening

variable {calls : List ScopeCall} {c : ScopeCall} {scope i : Nat} {name : String} {d : Descriptor}

theorem within_concat : Within (calls ++ [c]) ↔
    Within calls ∧ (calls ++ [c]).count .pop ≤ (calls ++ [c]).count .push := by
  simp only [Within, List.mem_inits, List.prefix_concat_iff, forall_eq_or_imp]
  exact And.comm

theorem Within.count_le (h : Within calls) : calls.count .pop ≤ calls.count .push :=
  h calls ((List.mem_inits ..).2 (List.prefix_refl calls))

theorem IsOpen.index_lt (h : IsOpen calls (i + 1)) : i < calls.length :=
  (List.getElem?_eq_some_iff.1 h.1).1

theorem IsOpen.le_length (h : IsOpen calls scope) : scope ≤ calls.length := by
  cases scope with
  | zero => exact Nat.zero_le _
  | succ i => exact h.index_lt

theorem isOpen_concat : IsOpen (calls ++ [c]) (i + 1) ↔
    (IsOpen calls (i + 1) ∧
      (calls.drop (i + 1) ++ [c]).count .pop ≤ (calls.drop (i + 1) ++ [c]).count .push) ∨
    (i = calls.length ∧ c = .push) := by
  rcases Nat.lt_trichotomy i calls.length with old | rfl | outside
  · rw [IsOpen, IsOpen, List.getElem?_append_left old, List.drop_append_of_le_length old,
      within_concat, ← and_assoc, or_iff_left fun new => Nat.ne_of_lt old new.1]
  · have closed : ¬ IsOpen calls (calls.length + 1) := fun h => Nat.lt_irrefl _ h.index_lt
    have nothing : Within (List.drop (calls.length + 1) (calls ++ [c])) := by
      rw [List.drop_eq_nil_of_le (by simp)]
      decide
    rw [IsOpen, List.getElem?_concat_length, Option.some_inj, or_iff_right fun h => closed h.1]
    exact ⟨fun h => ⟨rfl, h.1⟩, fun h => ⟨h.2, nothing⟩⟩
  · refine ⟨fun h => ?_, ?_⟩
    · have last := h.index_lt
      rw [List.length_append, List.length_singleton] at last
      omega
    · rintro (⟨h, -⟩ | ⟨new, -⟩)
      · exact absurd h.index_lt (Nat.not_lt_of_lt outside)
      · exact absurd new (Nat.ne_of_gt outside)

theorem count_drop_concat (isOpen : IsOpen calls (i + 1)) (a : ScopeCall) :
    ((calls ++ [c]).drop (i + 1)).count a =
      (calls.drop (i + 1)).count a + if c = a then 1 else 0 := by
  have old : i + 1 ≤ calls.length := isOpen.index_lt
  rw [List.drop_append_of_le_length old, List.count_append, List.count_singleton]
  simp only [beq_iff_eq]

theorem isOpen_concat_push :
    IsOpen (calls ++ [.push]) scope ↔ IsOpen calls scope ∨ scope = calls.length + 1 := by
  cases scope with
  | zero => exact ⟨fun h => .inl h, fun _ => trivial⟩
  | succ i =>
    rw [isOpen_concat, Nat.add_right_cancel_iff]
    refine or_congr (and_iff_left_of_imp fun h => ?_) (and_iff_left rfl)
    have enough := h.2.count_le
    simp only [List.count_append, List.count_singleton, beq_self_eq_true, reduceCtorEq, beq_iff_eq,
      if_true, if_false]
    omega

theorem isOpen_concat_bind : IsOpen (calls ++ [.bind name d]) scope ↔ IsOpen calls scope := by
  cases scope with
  | zero => exact Iff.rfl
  | succ i =>
    rw [isOpen_concat, or_iff_left fun new => nomatch new.2]
    refine and_iff_left_of_imp fun h => ?_
    simpa using h.2.count_le

/-- A pop leaves open the scopes inside of which it closes another one. -/
theorem isOpen_concat_pop : IsOpen (calls ++ [.pop]) (i + 1) ↔
    IsOpen calls (i + 1) ∧ (calls.drop (i + 1)).count .pop < (calls.drop (i + 1)).count .push := by
  rw [isOpen_concat, or_iff_left fun new => nomatch new.2]
  refine and_congr_right fun _ => ?_
  simp only [List.count_append, List.count_singleton, beq_self_eq_true, reduceCtorEq, beq_iff_eq,
    if_true, if_false]
  omega

theorem isTop_unique {other : Nat} (h : IsTop calls scope) (h' : IsTop calls other) :
    scope = other :=
  Nat.le_antisymm (h'.2 scope h.1) (h.2 other h'.1)

theorem Binds.index_lt (h : Binds calls i scope name d) : i < calls.length :=
  (List.getElem?_eq_some_iff.1 h.call).1

/-- What was bound by an earlier call stays so, and a further one can only be the last. -/
theorem binds_concat : Binds (calls ++ [c]) i scope name d ↔
    Binds calls i scope name d ∨ (i = calls.length ∧ c = .bind name d ∧ IsTop calls scope ∧
      ∃ s, (after calls).bind name d = .ok s) := by
  have before {k : Nat} (old : k ≤ calls.length) : (calls ++ [c]).take k = calls.take k :=
    List.take_append_of_le_length old
  constructor
  · intro h
    have last := h.index_lt
    rw [List.length_append, List.length_singleton] at last
    obtain ⟨call, top, accepted⟩ := h
    rcases Nat.lt_or_eq_of_le (Nat.le_of_lt_succ last) with old | rfl
    · rw [before (Nat.le_of_lt old)] at top accepted
      rw [List.getElem?_append_left old] at call
      exact .inl ⟨call, top, accepted⟩
    · rw [before (Nat.le_refl _), List.take_length] at top accepted
      rw [List.getElem?_concat_length, Option.some_inj] at call
      exact .inr ⟨rfl, call, top, accepted⟩
  · rintro (h | ⟨rfl, last, top, accepted⟩)
    · have old := h.index_lt
      refine ⟨?_, ?_, ?_⟩
      · rw [List.getElem?_append_left old, h.call]
      · exact before (Nat.le_of_lt old) ▸ h.top
      · exact before (Nat.le_of_lt old) ▸ h.accepted
    · refine ⟨?_, ?_, ?_⟩
      · rw [List.getElem?_concat_length, last]
      · rwa [before (Nat.le_refl _), List.take_length]
      · rwa [before (Nat.le_refl _), List.take_length]

end Opening

/-- What the scope holds is what has been bound in it. -/
def Holds (calls : List ScopeCall) (scope : Nat) (bindings : Bindings) : Prop :=
  ∀ name d, bindings.lookup name = some d ↔ ∃ i, Binds calls i scope name d

theorem Holds.lookup_eq_none_iff {calls : List ScopeCall} {scope : Nat} {bindings : Bindings}
    (h : Holds calls scope bindings) {name : String} :
    bindings.lookup name = none ↔ ∀ i d, ¬ Binds calls i scope name d := by
  cases found : bindings.lookup name with
  | none =>
    refine ⟨fun _ i d bound => ?_, fun _ => rfl⟩
    cases found.symm.trans ((h name d).2 ⟨i, bound⟩)
  | some d =>
    obtain ⟨i, bound⟩ := (h name d).1 found
    exact ⟨fun missing => absurd missing (Option.some_ne_none d), fun unbound =>
      absurd bound (unbound i d)⟩

/-- A call that binds nothing in the scope changes nothing in it. -/
theorem Holds.concat {calls : List ScopeCall} {c : ScopeCall} {scope : Nat} {bindings : Bindings}
    (h : Holds calls scope bindings) (other : ∀ name d s, c = .bind name d →
      IsTop calls scope → (after calls).bind name d ≠ .ok s) :
    Holds (calls ++ [c]) scope bindings := by
  intro name d
  rw [h name d]
  refine exists_congr fun i => ?_
  rw [binds_concat, or_iff_left]
  rintro ⟨-, last, top, s, accepted⟩
  exact other name d s last top accepted

theorem Holds.bind {calls : List ScopeCall} {scope : Nat} {bindings : Bindings} {name : String}
    {d : Descriptor} {s : ScopeStack} (h : Holds calls scope bindings) (top : IsTop calls scope)
    (free : bindings.lookup name = none) (accepted : (after calls).bind name d = .ok s) :
    Holds (calls ++ [.bind name d]) scope ((name, d) :: bindings) := by
  intro name' d'
  by_cases same : name' = name
  · subst same
    rw [List.lookup_cons_self]
    constructor
    · rintro ⟨⟩
      exact ⟨calls.length, binds_concat.2 (.inr ⟨rfl, rfl, top, s, accepted⟩)⟩
    · rintro ⟨i, bound⟩
      rcases binds_concat.1 bound with earlier | ⟨-, last, -⟩
      · exact absurd earlier (h.lookup_eq_none_iff.1 free i d')
      · cases last
        rfl
  · have differ : (name' == name) = false := beq_false_of_ne same
    simp only [List.lookup_cons, differ]
    rw [h]
    refine exists_congr fun i => ?_
    rw [binds_concat, or_iff_left]
    rintro ⟨-, last, -⟩
    cases last
    exact same rfl

/-- The scopes of the stack are the open ones, the innermost first, and hold what was bound in
them. Inside of each there are as many others as have been opened since and not closed. -/
structure Records (calls : List ScopeCall) (opens : List Nat) : Prop where
  sorted : opens.Pairwise (· > ·)
  mem_iff : ∀ scope, scope ∈ opens ↔ IsOpen calls scope
  inside : ∀ k i : Nat, opens[k]? = some (i + 1) →
    (calls.drop (i + 1)).count .push = (calls.drop (i + 1)).count .pop + k
  bindings : List.Forall₂ (Holds calls) opens (after calls).scopes

section Recording

variable {calls : List ScopeCall} {opens : List Nat} {scope : Nat}

theorem records_nil : Records [] [0] where
  sorted := List.pairwise_singleton ..
  mem_iff scope := by
    cases scope <;> simp [IsOpen]
  inside k i at_k := by
    cases k <;> simp at at_k
  bindings := by
    refine .cons (fun name d => ⟨fun found => ?_, fun ⟨i, bound⟩ => ?_⟩) .nil
    · cases found
    · exact absurd bound.index_lt (Nat.not_lt_zero i)

theorem Records.isOpen_of_getElem? (h : Records calls opens) {k : Nat}
    (at_k : opens[k]? = some scope) : IsOpen calls scope :=
  (h.mem_iff scope).1 (List.mem_of_getElem? at_k)

theorem Records.isTop {top : Nat} (h : Records calls (top :: opens)) : IsTop calls top := by
  obtain ⟨above, -⟩ := List.pairwise_cons.1 h.sorted
  refine ⟨h.isOpen_of_getElem? List.getElem?_cons_zero, fun other isOpen => ?_⟩
  rcases List.mem_cons.1 ((h.mem_iff other).2 isOpen) with rfl | later
  · exact Nat.le_refl _
  · exact Nat.le_of_lt (above other later)

theorem Records.push (h : Records calls opens) :
    Records (calls ++ [.push]) ((calls.length + 1) :: opens) where
  sorted := by
    refine List.pairwise_cons.2 ⟨fun scope mem => ?_, h.sorted⟩
    exact Nat.lt_succ_of_le ((h.mem_iff scope).1 mem).le_length
  mem_iff scope := by
    rw [isOpen_concat_push, List.mem_cons, h.mem_iff, or_comm]
  inside k i at_k := by
    cases k with
    | zero =>
      rw [List.getElem?_cons_zero, Option.some_inj] at at_k
      rw [List.drop_eq_nil_of_le (by rw [List.length_append, List.length_singleton, at_k])]
      rfl
    | succ k =>
      rw [List.getElem?_cons_succ] at at_k
      have counted := h.inside k i at_k
      simp only [count_drop_concat (h.isOpen_of_getElem? at_k), reduceCtorEq, if_true, if_false]
      omega
  bindings := by
    rw [after_concat]
    refine .cons (fun name d => ⟨fun found => ?_, fun ⟨i, bound⟩ => ?_⟩)
      (h.bindings.imp fun _ _ holds => holds.concat fun _ _ _ last => by cases last)
    · cases found
    · -- no call was made in the scope that has just been opened
      have old := (binds_concat.1 bound).resolve_right (fun last => nomatch last.2.1)
      have early := old.top.1.le_length
      rw [List.length_take] at early
      omega

/-- The scope of the package is not closed. -/
theorem Records.pop_package (h : Records calls opens) (package : (after calls).inner = []) :
    Records (calls ++ [.pop]) opens := by
  have alone : opens.length = 1 := by
    rw [h.bindings.length_eq, ScopeStack.scopes, package]
    rfl
  obtain ⟨scope, rfl⟩ := List.length_eq_one_iff.1 alone
  obtain rfl : 0 = scope := List.mem_singleton.1 ((h.mem_iff 0).2 trivial)
  refine ⟨h.sorted, fun scope => ?_, fun k i at_k => ?_, ?_⟩
  · cases scope with
    | zero => exact h.mem_iff 0
    | succ i => simp [isOpen_concat_pop, ← h.mem_iff]
  · cases k <;> simp at at_k
  · rw [after_concat, ScopeStack.perform, ScopeStack.pop_of_package package]
    exact h.bindings.imp fun _ _ holds => holds.concat fun _ _ _ last => by cases last

/-- Of the other scopes the one on top is closed. -/
theorem Records.pop_inner {top : Nat} (h : Records calls (top :: opens))
    (inside : (after calls).inner ≠ []) : Records (calls ++ [.pop]) opens := by
  obtain ⟨above, sorted⟩ := List.pairwise_cons.1 h.sorted
  have bindings := h.bindings
  rw [ScopeStack.scopes_eq, ← ScopeStack.scopes_pop inside] at bindings
  obtain ⟨-, others⟩ := List.forall₂_cons.1 bindings
  refine ⟨sorted, fun scope => ?_, fun k i at_k => ?_, ?_⟩
  · cases scope with
    | zero =>
      refine ⟨fun _ => trivial, fun _ => ?_⟩
      rcases List.mem_cons.1 ((h.mem_iff 0).2 trivial) with rfl | mem
      · -- something is open around the scope on top, which is not the first one then
        cases opens with
        | nil => exact absurd others.length_eq (by simp [ScopeStack.scopes])
        | cons next _ => exact absurd (above next (List.mem_cons_self ..)) (Nat.not_lt_zero _)
      · exact mem
    | succ i =>
      rw [isOpen_concat_pop, ← h.mem_iff]
      constructor
      · intro mem
        obtain ⟨k, at_k⟩ := List.mem_iff_getElem?.1 mem
        have counted := h.inside (k + 1) i at_k
        exact ⟨List.mem_cons_of_mem _ mem, by omega⟩
      · rintro ⟨mem, more⟩
        rcases List.mem_cons.1 mem with rfl | mem
        · have counted := h.inside 0 i rfl
          omega
        · exact mem
  · have counted := h.inside (k + 1) i at_k
    have old : IsOpen calls (i + 1) := h.isOpen_of_getElem? (k := k + 1) at_k
    simp only [count_drop_concat old, reduceCtorEq, if_true, if_false]
    omega
  · rw [after_concat]
    exact others.imp fun _ _ holds => holds.concat fun _ _ _ last => by cases last

theorem Records.pop (h : Records calls opens) :
    ∃ opens', Records (calls ++ [.pop]) opens' := by
  by_cases package : (after calls).inner = []
  · exact ⟨opens, h.pop_package package⟩
  · cases opens with
    | nil => exact absurd ((h.mem_iff 0).2 trivial) List.not_mem_nil
    | cons top rest => exact ⟨rest, h.pop_inner package⟩

theorem Records.bind (h : Records calls opens) (name : String) (d : Descriptor) :
    Records (calls ++ [.bind name d]) opens where
  sorted := h.sorted
  mem_iff scope := by
    rw [isOpen_concat_bind, h.mem_iff]
  inside k i at_k := by
    have counted := h.inside k i at_k
    simp only [count_drop_concat (h.isOpen_of_getElem? at_k), reduceCtorEq, if_false]
    exact counted
  bindings := by
    have bindings := h.bindings
    rw [after_concat, ScopeStack.perform]
    cases outcome : (after calls).bind name d with
    | error e =>
      refine bindings.imp fun _ _ holds => holds.concat fun name' d' s last _ accepted => ?_
      cases last
      cases outcome.symm.trans accepted
    | ok s =>
      obtain ⟨free, rfl⟩ := ScopeStack.bind_eq_ok_iff.1 outcome
      dsimp only
      rw [ScopeStack.scopes_eq] at bindings
      rw [ScopeStack.scopes_add]
      cases bindings with
      | @cons top _ rest _ first others =>
        obtain ⟨above, -⟩ := List.pairwise_cons.1 h.sorted
        refine .cons (first.bind h.isTop free outcome) ?_
        refine ((List.forall₂_and_left _ _).2 ⟨above, others⟩).imp ?_
        rintro scope bindings ⟨below, holds⟩
        refine holds.concat fun _ _ _ _ onTop => ?_
        exact absurd (isTop_unique onTop h.isTop) (Nat.ne_of_lt below)

theorem exists_records (calls : List ScopeCall) : ∃ opens, Records calls opens := by
  induction calls using List.reverseRecOn with
  | nil => exact ⟨[0], records_nil⟩
  | append_singleton calls c ih =>
    obtain ⟨opens, h⟩ := ih
    cases c with
    | push => exact ⟨_, h.push⟩
    | pop => exact h.pop
    | bind name d => exact ⟨_, h.bind name d⟩

end Recording

section Reading

variable {calls : List ScopeCall} {scope i : Nat} {name : String} {d : Descriptor}

/-- The innermost scope holds what was bound in the one on top. -/
theorem innermost_lookup_iff : (after calls).innermost.lookup name = some d ↔
    ∃ scope i, IsTop calls scope ∧ Binds calls i scope name d := by
  obtain ⟨opens, h⟩ := exists_records calls
  have bindings := h.bindings
  rw [ScopeStack.scopes_eq] at bindings
  cases bindings with
  | @cons top _ _ _ first _ =>
    rw [first]
    constructor
    · rintro ⟨i, bound⟩
      exact ⟨top, i, h.isTop, bound⟩
    · rintro ⟨scope, i, onTop, bound⟩
      exact ⟨i, isTop_unique onTop h.isTop ▸ bound⟩

theorem Binds.not_before {j : Nat} {d' : Descriptor} (first : Binds calls i scope name d)
    (second : Binds calls j scope name d') : ¬ i < j := by
  intro earlier
  have before : (calls.take j).take i = calls.take i := by
    rw [List.take_take, Nat.min_eq_left (Nat.le_of_lt earlier)]
  have known : Binds (calls.take j) i scope name d :=
    ⟨by rw [List.getElem?_take_of_lt earlier, first.call], before ▸ first.top,
      before ▸ first.accepted⟩
  obtain ⟨s, accepted⟩ := second.accepted
  have taken := innermost_lookup_iff.2 ⟨scope, i, second.top, known⟩
  cases taken.symm.trans (ScopeStack.bind_eq_ok_iff.1 accepted).1

/-- In one scope a name is bound once. -/
theorem Binds.unique {j : Nat} {d' : Descriptor} (first : Binds calls i scope name d)
    (second : Binds calls j scope name d') : j = i :=
  Nat.le_antisymm (Nat.le_of_not_lt (first.not_before second))
    (Nat.le_of_not_lt (second.not_before first))

/-- A name is found in the innermost of the scopes that have it. -/
theorem findSome?_lookup_iff {opens : List Nat} {scopes : List Bindings}
    (sorted : opens.Pairwise (· > ·))
    (bindings : List.Forall₂ (Holds calls) opens scopes) :
    scopes.findSome? (·.lookup name) = some d ↔
      ∃ scope ∈ opens, (∃ i, Binds calls i scope name d) ∧
        ∀ other ∈ opens, scope < other → ∀ j d', ¬ Binds calls j other name d' := by
  induction bindings with
  | nil => simp
  | @cons top bindings rest outer first _ ih =>
    obtain ⟨above, sorted⟩ := List.pairwise_cons.1 sorted
    rw [List.findSome?_cons]
    cases found : bindings.lookup name with
    | some d₀ =>
      obtain ⟨i₀, bound₀⟩ := (first name d₀).1 found
      dsimp only
      constructor
      · rintro ⟨⟩
        refine ⟨top, List.mem_cons_self .., ⟨i₀, bound₀⟩, fun other mem larger => ?_⟩
        rcases List.mem_cons.1 mem with rfl | mem
        · exact absurd larger (Nat.lt_irrefl _)
        · exact absurd larger (Nat.lt_asymm (above other mem))
      · rintro ⟨scope, mem, bound, innermost⟩
        rcases List.mem_cons.1 mem with rfl | mem
        · rw [← found, first]
          exact bound
        · exact absurd bound₀ (innermost top (List.mem_cons_self ..) (above scope mem) i₀ d₀)
    | none =>
      have unbound := first.lookup_eq_none_iff.1 found
      dsimp only
      rw [ih sorted]
      constructor
      · rintro ⟨scope, mem, bound, innermost⟩
        refine ⟨scope, List.mem_cons_of_mem _ mem, bound, fun other mem larger => ?_⟩
        rcases List.mem_cons.1 mem with rfl | mem
        · exact unbound
        · exact innermost other mem larger
      · rintro ⟨scope, mem, ⟨i, bound⟩, innermost⟩
        rcases List.mem_cons.1 mem with rfl | mem
        · exact absurd bound (unbound i d)
        · exact ⟨scope, mem, ⟨i, bound⟩, fun other mem => innermost other
            (List.mem_cons_of_mem _ mem)⟩

theorem lookup_eq_some_iff : (after calls).lookup name = some d ↔
    ∃ scope i, IsOpen calls scope ∧ Binds calls i scope name d ∧
      ∀ other j d', IsOpen calls other → Binds calls j other name d' → other < scope ∨ j = i := by
  obtain ⟨opens, h⟩ := exists_records calls
  rw [ScopeStack.lookup, findSome?_lookup_iff h.sorted h.bindings]
  simp only [h.mem_iff]
  constructor
  · rintro ⟨scope, isOpen, ⟨i, bound⟩, innermost⟩
    refine ⟨scope, i, isOpen, bound, fun other j d' isOpen' bound' => ?_⟩
    rcases Nat.lt_trichotomy other scope with outer | rfl | inner
    · exact .inl outer
    · exact .inr (bound.unique bound')
    · exact absurd bound' (innermost other isOpen' inner j d')
  · rintro ⟨scope, i, isOpen, bound, innermost⟩
    refine ⟨scope, isOpen, ⟨i, bound⟩, fun other isOpen' inner j d' bound' => ?_⟩
    rcases innermost other j d' isOpen' bound' with outer | rfl
    · exact Nat.lt_asymm inner outer
    · exact Nat.ne_of_lt inner (isTop_unique bound.top bound'.top)

theorem lookup_eq_none_iff : (after calls).lookup name = none ↔
    ¬ ∃ scope i d, IsOpen calls scope ∧ Binds calls i scope name d := by
  obtain ⟨opens, h⟩ := exists_records calls
  have bindings := h.bindings
  simp only [ScopeStack.lookup, ← h.mem_iff]
  generalize (after calls).scopes = scopes at bindings
  clear h
  induction bindings with
  | nil => simp
  | @cons top bindings rest _ first _ ih =>
    rw [List.findSome?_cons]
    cases found : bindings.lookup name with
    | some d =>
      obtain ⟨i, bound⟩ := (first name d).1 found
      exact ⟨fun missing => absurd missing (Option.some_ne_none d), fun unbound =>
        absurd ⟨top, i, d, List.mem_cons_self .., bound⟩ unbound⟩
    | none =>
      dsimp only
      refine ih.trans (not_congr ?_)
      constructor
      · rintro ⟨scope, i, d, mem, bound⟩
        exact ⟨scope, i, d, List.mem_cons_of_mem _ mem, bound⟩
      · rintro ⟨scope, i, d, mem, bound⟩
        rcases List.mem_cons.1 mem with rfl | mem
        · exact absurd bound (first.lookup_eq_none_iff.1 found i d)
        · exact ⟨scope, i, d, mem, bound⟩

theorem bind_eq_error_iff {e : CompileError} : (after calls).bind name d = .error e ↔
    ∃ scope i d', IsTop calls scope ∧ Binds calls i scope name d' ∧
      e = .duplicateDefinition name d.line d'.line := by
  simp only [ScopeStack.bind_eq_error_iff, innermost_lookup_iff]
  constructor
  · rintro ⟨d', ⟨scope, i, top, bound⟩, rfl⟩
    exact ⟨scope, i, d', top, bound, rfl⟩
  · rintro ⟨scope, i, d', top, bound, rfl⟩
    exact ⟨d', ⟨scope, i, top, bound⟩, rfl⟩

theorem depth_after (calls : List ScopeCall) : (after calls).depth = 1 + openCount calls := by
  obtain ⟨opens, h⟩ := exists_records calls
  have distinct : opens.Nodup := h.sorted.imp Nat.ne_of_gt
  have listed : opens.Perm (0 ::
      ((List.range calls.length).filter fun i => IsOpen calls (i + 1)).map (· + 1)) := by
    rw [List.perm_ext_iff_of_nodup distinct]
    · intro scope
      rw [h.mem_iff]
      cases scope with
      | zero => simp [IsOpen]
      | succ i =>
        simp only [List.mem_cons, List.mem_map, List.mem_filter, List.mem_range,
          Nat.add_right_cancel_iff, exists_eq_right, decide_eq_true_eq, reduceCtorEq, false_or]
        exact (and_iff_right_of_imp IsOpen.index_lt).symm
    · refine List.nodup_cons.2 ⟨by simp, ?_⟩
      exact (List.nodup_range.filter _).map fun _ _ => Nat.succ.inj
  calc (after calls).depth = (after calls).scopes.length := by
        simp [ScopeStack.depth, ScopeStack.scopes]
    _ = opens.length := h.bindings.length_eq.symm
    _ = 1 + openCount calls := by
        rw [listed.length_eq, List.length_cons, List.length_map, ← List.countP_eq_length_filter,
          openCount, Nat.add_comm]

/-- Calls inside a scope change nothing around it. -/
theorem Within.performAll (h : Within calls) (s : ScopeStack) :
    ∃ inner, s.push.performAll calls = ⟨s.package, inner ++ s.inner⟩ ∧
      inner.length + calls.count .pop = calls.count .push + 1 := by
  induction calls using List.reverseRecOn with
  | nil => exact ⟨[[]], rfl, rfl⟩
  | append_singleton calls c ih =>
    obtain ⟨before, -⟩ := within_concat.1 h
    have enough := before.count_le
    obtain ⟨inner, stack, counted⟩ := ih before
    cases inner with
    | nil =>
      rw [List.length_nil] at counted
      omega
    | cons bindings inner =>
      rw [List.length_cons] at counted
      simp only [ScopeStack.performAll_concat, stack, List.count_append, List.count_singleton,
        beq_iff_eq]
      cases c with
      | push =>
        refine ⟨[] :: bindings :: inner, rfl, ?_⟩
        simp
        omega
      | pop =>
        refine ⟨inner, rfl, ?_⟩
        simp
        omega
      | bind name d =>
        rw [ScopeStack.perform]
        cases outcome : ScopeStack.bind ⟨s.package, (bindings :: inner) ++ s.inner⟩ name d with
        | error e =>
          exact ⟨bindings :: inner, rfl, by simp; omega⟩
        | ok s' =>
          obtain ⟨-, rfl⟩ := ScopeStack.bind_eq_ok_iff.1 outcome
          exact ⟨((name, d) :: bindings) :: inner, rfl, by simp; omega⟩

/-- A scope that has been closed leaves nothing behind. -/
theorem Balanced.performAll (h : Balanced calls) (s : ScopeStack) :
    (s.push.performAll calls).pop = s := by
  obtain ⟨inner, stack, counted⟩ := h.1.performAll s
  have only : inner.length = 1 := by
    have balanced := h.2
    omega
  obtain ⟨bindings, rfl⟩ := List.length_eq_one_iff.1 only
  rw [stack]
  rfl

end Reading

/-- After any calls on a new stack, a name is found by the one call that bound it in the innermost
open scope in which a call has, and is not found if there is none. To bind it again is refused exactly
if it was bound in the scope now on top; this tells both lines and changes nothing. As many scopes are
open as were opened and not closed, besides that of the package. A scope that is closed again, after
whatever balanced calls inside, leaves the stack as it was before. -/
theorem after_calls (calls : List ScopeCall) :
    (∀ name d, (after calls).lookup name = some d ↔
      ∃ scope i, IsOpen calls scope ∧ Binds calls i scope name d ∧
        ∀ other j d', IsOpen calls other → Binds calls j other name d' →
          other < scope ∨ j = i) ∧
    (∀ name, (after calls).lookup name = none ↔
      ¬ ∃ scope i d, IsOpen calls scope ∧ Binds calls i scope name d) ∧
    (∀ name d e, (after calls).bind name d = .error e ↔
      ∃ scope i d', IsTop calls scope ∧ Binds calls i scope name d' ∧
        e = .duplicateDefinition name d.line d'.line) ∧
    (∀ name d e, (after calls).bind name d = .error e →
      after (calls ++ [.bind name d]) = after calls) ∧
    (after calls).depth = 1 + openCount calls ∧
    ∀ inside, Balanced inside →
      after (calls ++ [.push] ++ inside ++ [.pop]) = after calls := by
  refine ⟨fun name d => lookup_eq_some_iff, fun name => lookup_eq_none_iff,
    fun name d e => bind_eq_error_iff, fun name d e refused => ?_, depth_after calls,
    fun inside balanced => ?_⟩
  · rw [after_concat, ScopeStack.perform, refused]
  · have around := balanced.performAll (after calls)
    simp only [after, ScopeStack.performAll, List.foldl_append, List.foldl_cons, List.foldl_nil]
    exact around

/-- A name that is bound outside and inside of a scope, after a pop that closes nothing. -/
theorem shadowing_after :
    let outer := Descriptor.scalar .globalVariable .int ⟨0⟩ 1
    let inner := Descriptor.scalar .localVariable .bool ⟨1⟩ 2
    let calls := [.pop, .bind "x" outer, .push, .bind "x" inner, .bind "x" outer]
    (∃ scope i, IsOpen calls scope ∧ Binds calls i scope "x" inner ∧
      ∀ other j d, IsOpen calls other → Binds calls j other "x" d → other < scope ∨ j = i) ∧
    (¬ ∃ scope i d, IsOpen calls scope ∧ Binds calls i scope "y" d) ∧
    (∃ scope i d, IsTop calls scope ∧ Binds calls i scope "x" d ∧
      CompileError.duplicateDefinition "x" 1 2 = .duplicateDefinition "x" outer.line d.line) ∧
    after (calls ++ [.bind "x" outer]) = after calls ∧
    (after calls).depth = 1 + openCount calls ∧
    after (calls ++ [.push] ++ [.bind "x" outer, .push, .pop] ++ [.pop]) = after calls := by
  intro outer inner calls
  obtain ⟨found, missing, refused, unchanged, depth, around⟩ := after_calls calls
  exact ⟨(found "x" inner).1 rfl, (missing "y").1 rfl,
    (refused "x" outer (.duplicateDefinition "x" 1 2)).1 rfl, unchanged "x" outer _ rfl, depth,
    around [.bind "x" outer, .push, .pop] (by decide)⟩

end ScopeHistory

end Decaf
