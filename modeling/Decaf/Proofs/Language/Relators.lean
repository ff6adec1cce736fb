import Mathlib.Data.List.Forall2
import Mathlib.Data.Option.Defs

/-!
# Options and lists that correspond

What is related entry by entry stays so under the usual functions of options and lists. What has
a name that no other entry has is found by it.
-/

namespace Decaf

section

variable {α β γ δ : Type} {R : α → β → Prop} {S : γ → δ → Prop}

theorem optionRel_refl {R : α → α → Prop} (each : ∀ a, R a a) :
    ∀ a : Option α, Option.Rel R a a
  | none => .none
  | some a => .some (each a)

section Options

variable {x : Option α} {y : Option β} (h : Option.Rel R x y)

include h

theorem optionRel_cases :
    (x = none ∧ y = none) ∨ ∃ a b, x = some a ∧ y = some b ∧ R a b := by
  cases h with
  | none => exact .inl ⟨rfl, rfl⟩
  | some related => exact .inr ⟨_, _, rfl, rfl, related⟩

theorem optionRel_isSome : y.isSome = x.isSome := by
  cases h <;> rfl

theorem optionRel_bind {f : α → Option γ} {g : β → Option δ}
    (rest : ∀ a b, R a b → Option.Rel S (f a) (g b)) : Option.Rel S (x.bind f) (y.bind g) := by
  cases h with
  | none => exact .none
  | some related => exact rest _ _ related

theorem optionRel_map {f : α → γ} {g : β → δ} (rest : ∀ a b, R a b → S (f a) (g b)) :
    Option.Rel S (x.map f) (y.map g) := by
  cases h with
  | none => exact .none
  | some related => exact .some (rest _ _ related)

end Options

theorem forall₂_refl {R : α → α → Prop} (each : ∀ a, R a a) (as : List α) :
    List.Forall₂ R as as :=
  List.forall₂_same.2 fun a _ => each a

section Lists

variable {as : List α} {bs : List β} (h : List.Forall₂ R as bs)

include h

theorem forall₂_head? : Option.Rel R as.head? bs.head? := by
  cases h with
  | nil => exact .none
  | cons first _ => exact .some first

theorem forall₂_tail : List.Forall₂ R as.tail bs.tail := by
  cases h with
  | nil => exact .nil
  | cons _ others => exact others

theorem optionRel_getElem? (i : Nat) : Option.Rel R as[i]? bs[i]? := by
  induction h generalizing i with
  | nil => exact .none
  | cons first _ ih =>
    cases i with
    | zero => exact .some first
    | succ i => exact ih i

theorem exists_of_mem_right {b : β} (mem : b ∈ bs) : ∃ a ∈ as, R a b := by
  obtain ⟨i, hi⟩ := List.mem_iff_getElem?.1 mem
  rcases optionRel_cases (optionRel_getElem? h i) with ⟨-, none⟩ | ⟨a, b', here, there, related⟩
  · rw [hi] at none
    cases none
  · rw [hi] at there
    cases there
    exact ⟨a, List.mem_of_getElem? here, related⟩

theorem forall₂_modify {f : α → α} {g : β → β} (change : ∀ a b, R a b → R (f a) (g b)) (i : Nat) :
    List.Forall₂ R (as.modify i f) (bs.modify i g) := by
  induction h generalizing i with
  | nil => simp
  | cons first rest ih =>
    cases i with
    | zero => exact .cons (change _ _ first) rest
    | succ i => exact .cons first (ih i)

theorem map_eq_of_forall₂ {f : α → γ} {g : β → γ} (same : ∀ a ∈ as, ∀ b, R a b → g b = f a) :
    bs.map g = as.map f := by
  induction h with
  | nil => rfl
  | cons first _ ih =>
    rw [List.map_cons, List.map_cons, same _ (by simp) _ first, ih fun a ha => same a (by simp [ha])]

/-- Where nothing stands for two things, members are told apart alike. -/
theorem forall₂_mem_iff {a : α} {b : β} (apart : ∀ {x y}, R x y → (x = a ↔ y = b)) :
    a ∈ as ↔ b ∈ bs := by
  induction h with
  | nil => simp
  | cons first _ ih =>
    have here := apart first
    rw [List.mem_cons, List.mem_cons, ih, eq_comm, here, eq_comm]

theorem forM_forall₂ {ε : Type} {f : α → Except ε Unit} {g : β → Except ε Unit}
    (same : ∀ a b, R a b → g b = f a) : bs.forM g = as.forM f := by
  induction h with
  | nil => rfl
  | @cons a b as bs first _ ih =>
    show (do g b; bs.forM g) = do f a; as.forM f
    rw [same a b first, ih]

/-- Lists of lists that correspond by length agree piece by piece if they agree joined. -/
theorem forall₂_of_flatMap {f : α → List γ} {g : β → List γ}
    (length : ∀ a b, R a b → (f a).length = (g b).length)
    (joined : as.flatMap f = bs.flatMap g) : List.Forall₂ (fun a b => R a b ∧ f a = g b) as bs := by
  induction h with
  | nil => exact .nil
  | cons first _ ih =>
    rw [List.flatMap_cons, List.flatMap_cons] at joined
    obtain ⟨here, rest⟩ := List.append_inj joined (length _ _ first)
    exact .cons ⟨first, here⟩ (ih rest)

section Tests

variable {p : α → Bool} {q : β → Bool} (same : ∀ a b, R a b → q b = p a)

include same

theorem forall₂_takeWhile : List.Forall₂ R (as.takeWhile p) (bs.takeWhile q) := by
  induction h with
  | nil => exact .nil
  | @cons a b _ _ first _ ih =>
    rw [List.takeWhile_cons, List.takeWhile_cons, same a b first]
    split
    · exact .cons first ih
    · exact .nil

theorem forall₂_dropWhile : List.Forall₂ R (as.dropWhile p) (bs.dropWhile q) := by
  induction h with
  | nil => exact .nil
  | @cons a b _ _ first rest ih =>
    rw [List.dropWhile_cons, List.dropWhile_cons, same a b first]
    split
    · exact ih
    · exact .cons first rest

theorem forall₂_filter : List.Forall₂ R (as.filter p) (bs.filter q) := by
  induction h with
  | nil => exact .nil
  | @cons a b _ _ first _ ih =>
    rw [List.filter_cons, List.filter_cons, same a b first]
    split
    · exact .cons first ih
    · exact ih

theorem forall₂_all : bs.all q = as.all p := by
  induction h with
  | nil => rfl
  | cons first _ ih => rw [List.all_cons, List.all_cons, same _ _ first, ih]

end Tests

end Lists

theorem find?_of_mem {name : α → String} {as : List α} (distinct : (as.map name).Nodup) {a : α}
    (mem : a ∈ as) : as.find? (name · == name a) = some a := by
  induction as with
  | nil => cases mem
  | cons b as ih =>
    rw [List.map_cons, List.nodup_cons] at distinct
    rcases List.mem_cons.1 mem with rfl | later
    · simp
    · have other : (name b == name a) = false := by
        refine beq_false_of_ne fun same => distinct.1 ?_
        rw [same]
        exact List.mem_map_of_mem later
      rw [List.find?_cons, other]
      exact ih distinct.2 later

end

end Decaf
