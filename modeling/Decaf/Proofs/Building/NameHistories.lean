import Mathlib.Data.List.Induction
import Mathlib.Order.Bounds.Defs
import Decaf.Proofs.Building.LocalNames

/-!
# Histories of names

What a table answers to a request, told from the requests before it. The numbers up to the last one
tried for a hint all have taken names, so the search of the next one passes over nothing that is
free, and it never counts past the names that are in use. Short of 2^32 requests it therefore stays
within words of 32 bits.
-/

namespace Decaf.IR

namespace NameTable

/-- The table after requests for the hints. -/
def after (hints : List String) : NameTable :=
  (empty.uniqueAll hints).2

/-- The names that the requests were given, in order. -/
def given (hints : List String) : List String :=
  (empty.uniqueAll hints).1

/-- One of the requests was for the same hint and was given the number. An empty hint is the same
as the one it stands for. -/
def Gave (hints : List String) (hint : String) (n : Nat) : Prop :=
  ∃ earlier, base earlier = base hint ∧
    (earlier, numbered (base hint) n) ∈ hints.zip (given hints)

/-- The search in words of 32 bits. It is given up where it would count past the last word and when
as many names have been tried as it may try. -/
def searchWithin (used : List String) (base : String) : Nat → UInt32 → Option UInt32
  | 0, _ => none
  | tries + 1, last =>
    if last.toNat + 1 < UInt32.size then
      if numbered base (last + 1).toNat ∈ used then searchWithin used base tries (last + 1)
      else some (last + 1)
    else none

section Search

variable {used : List String} {base : String}

/-- The search ends at a free number if it may try the numbers up to it and all before are taken. -/
theorem searchWithin_eq_some {tries : Nat} {last n : UInt32} (later : last.toNat < n.toNat)
    (reach : n.toNat = last.toNat + tries)
    (taken : ∀ k, last.toNat < k → k < n.toNat → numbered base k ∈ used)
    (free : numbered base n.toNat ∉ used) : searchWithin used base tries last = some n := by
  induction tries generalizing last with
  | zero => omega
  | succ tries ih =>
    -- The count stays below `n`, which is a word itself.
    have bound := n.toNat_lt_size
    have fits : last.toNat + 1 < UInt32.size := by omega
    have next : (last + 1).toNat = last.toNat + 1 :=
      (UInt32.toNat_add last 1).trans (Nat.mod_eq_of_lt fits)
    rw [searchWithin, if_pos fits]
    by_cases final : n.toNat = last.toNat + 1
    · have found : last + 1 = n := UInt32.toNat_inj.1 (by omega)
      rw [found, if_neg free]
    · rw [if_pos (taken _ (by omega) (by omega))]
      exact ih (by omega) (by omega) fun k after before => taken k (by omega) before

theorem firstFree_le {last tries n : Nat} (later : last < n) (free : numbered base n ∉ used) :
    firstFree used base last tries ≤ n := by
  by_contra beyond
  exact free (numbered_mem_of_lt_firstFree later (Nat.lt_of_not_le beyond))

end Search

section Table

variable (t : NameTable) (hint : String)

theorem unique_of_mem {t : NameTable} {hint : String} (taken : base hint ∈ t.used) :
    t.unique hint = (numbered (base hint) (t.nextNumber (base hint)),
      ⟨numbered (base hint) (t.nextNumber (base hint)) :: t.used,
        (base hint, t.nextNumber (base hint)) :: t.counters⟩) := by
  simp only [unique, if_pos taken]

theorem counter_lt_nextNumber (base : String) : t.counter base < t.nextNumber base :=
  lt_firstFree _ _ _ _

/-- Only the hint whose own name was taken gets another last number. -/
theorem counter_unique (other : String) : (t.unique hint).2.counter other =
    if base hint ∈ t.used ∧ other = base hint then t.nextNumber (base hint)
    else t.counter other := by
  by_cases taken : base hint ∈ t.used
  · rw [unique_of_mem taken]
    by_cases same : other = base hint
    · simp [counter, same, taken]
    · simp [counter, same, List.lookup_cons, beq_false_of_ne same]
  · rw [if_neg (fun both => taken both.1)]
    simp only [unique, if_neg taken]
    rfl

theorem counter_le_counter_unique (other : String) :
    t.counter other ≤ (t.unique hint).2.counter other := by
  rw [counter_unique]
  split
  · rename_i both
    rw [both.2]
    exact Nat.le_of_lt (counter_lt_nextNumber t _)
  · exact Nat.le_refl _

/-- The numbers up to the last one tried for a hint all have taken names. -/
def Settled : Prop :=
  ∀ base n, 0 < n → n ≤ t.counter base → numbered base n ∈ t.used

variable {t}

theorem Settled.unique (h : t.Settled) : (t.unique hint).2.Settled := by
  intro other n positive tried
  rw [used_unique]
  rw [counter_unique] at tried
  by_cases old : n ≤ t.counter other
  · exact List.mem_cons_of_mem _ (h other n positive old)
  · split at tried
    · -- A number tried only now was passed over or is the one that is handed out.
      rename_i both
      obtain ⟨taken, rfl⟩ := both
      rw [unique_of_mem taken]
      rcases Nat.lt_or_eq_of_le tried with passed | found
      · exact List.mem_cons_of_mem _ (numbered_mem_of_lt_firstFree (Nat.lt_of_not_le old) passed)
      · rw [found]
        exact List.mem_cons_self
    · exact absurd tried old

/-- No free number is passed over, however small. -/
theorem Settled.nextNumber_le (h : t.Settled) {base : String} {n : Nat} (positive : 0 < n)
    (free : numbered base n ∉ t.used) : t.nextNumber base ≤ n :=
  firstFree_le (Nat.lt_of_not_le fun tried => free (h base n positive tried)) free

/-- The number of a name is at most the number of names in use. -/
theorem Settled.nextNumber_le_length (h : t.Settled) {base : String} (taken : base ∈ t.used) :
    t.nextNumber base ≤ t.used.length := by
  -- The names with smaller numbers are all in use, and so is the one without a number.
  have fits : t.nextNumber base - 1 ≤ (t.used.erase base).length := by
    refine count_le_of_taken 1 fun n positive before => ?_
    by_contra free
    have least := h.nextNumber_le positive free
    omega
  rw [List.length_erase_of_mem taken] at fits
  have some := List.length_pos_of_mem taken
  omega

/-- In words of 32 bits the search ends all the same as long as fewer names are in use than there
are words. -/
theorem Settled.search (h : t.Settled) {base : String} (taken : base ∈ t.used)
    (short : t.used.length < UInt32.size) : ∃ last n : UInt32, ∃ tries ≤ t.used.length,
      last.toNat = t.counter base ∧ n.toNat = t.nextNumber base ∧
      searchWithin t.used base tries last = some n := by
  have later := counter_lt_nextNumber t base
  have most := h.nextNumber_le_length taken
  have last : (UInt32.ofNat (t.counter base)).toNat = t.counter base :=
    UInt32.toNat_ofNat_of_lt' (Nat.lt_of_le_of_lt (by omega) short)
  have next : (UInt32.ofNat (t.nextNumber base)).toNat = t.nextNumber base :=
    UInt32.toNat_ofNat_of_lt' (Nat.lt_of_le_of_lt (by omega) short)
  refine ⟨_, _, t.nextNumber base - t.counter base, by omega, last, next,
    searchWithin_eq_some ?_ ?_ ?_ ?_⟩
  · rwa [last, next]
  · omega
  · rw [last, next]
    exact fun k after before => numbered_mem_of_lt_firstFree after before
  · rw [next]
    exact numbered_firstFree_not_mem _ _ _

end Table

section Histories

variable (hints : List String) (hint : String)

theorem uniqueAll_concat (t : NameTable) : t.uniqueAll (hints ++ [hint]) =
    ((t.uniqueAll hints).1 ++ [((t.uniqueAll hints).2.unique hint).1],
      ((t.uniqueAll hints).2.unique hint).2) := by
  induction hints generalizing t with
  | nil => rfl
  | cons first hints ih => simp only [List.cons_append, uniqueAll, ih]

theorem after_concat : after (hints ++ [hint]) = ((after hints).unique hint).2 :=
  congrArg Prod.snd (uniqueAll_concat hints hint empty)

theorem given_concat : given (hints ++ [hint]) = given hints ++ [((after hints).unique hint).1] :=
  congrArg Prod.fst (uniqueAll_concat hints hint empty)

theorem length_given : (given hints).length = hints.length :=
  length_uniqueAll empty hints

/-- The names in use are those that were handed out. -/
theorem used_after : (after hints).used = (given hints).reverse := by
  induction hints using List.reverseRecOn with
  | nil => rfl
  | append_singleton hints hint ih =>
    rw [after_concat, used_unique, ih, given_concat, List.reverse_concat]

theorem mem_used_after {name : String} : name ∈ (after hints).used ↔ name ∈ given hints := by
  rw [used_after, List.mem_reverse]

theorem settled_after : (after hints).Settled := by
  induction hints using List.reverseRecOn with
  | nil => exact fun base n positive tried => absurd positive (Nat.not_lt.2 tried)
  | append_singleton hints hint ih =>
    rw [after_concat]
    exact ih.unique hint

variable {hints hint}

/-- The last number tried for a hint is at least each that was given for it. -/
theorem Gave.le_counter {n : Nat} (h : Gave hints hint n) :
    n ≤ (after hints).counter (base hint) := by
  induction hints using List.reverseRecOn with
  | nil =>
    obtain ⟨earlier, -, none⟩ := h
    cases none
  | append_singleton hints last ih =>
    obtain ⟨earlier, same, request⟩ := h
    rw [given_concat, List.zip_append (length_given hints).symm, List.mem_append] at request
    rw [after_concat]
    rcases request with old | new
    · exact Nat.le_trans (ih ⟨earlier, same, old⟩) (counter_le_counter_unique _ _ _)
    · obtain ⟨rfl, name⟩ := Prod.mk.inj (List.mem_singleton.1 new)
      by_cases taken : base earlier ∈ (after hints).used
      · rw [unique_of_mem taken, same] at name
        rw [counter_unique, if_pos ⟨taken, same.symm⟩, same]
        exact Nat.le_of_eq (numbered_injective _ name)
      · rw [unique_of_not_mem taken, same] at name
        exact absurd name (numbered_ne _ _)

/-- The next number is the least one after those given for the hint that is not in use. -/
theorem isLeast_nextNumber (hints : List String) (hint : String) :
    IsLeast {n | 0 < n ∧ (∀ k, Gave hints hint k → k < n) ∧ numbered (base hint) n ∉ given hints}
      ((after hints).nextNumber (base hint)) := by
  have later := counter_lt_nextNumber (after hints) (base hint)
  refine ⟨⟨by omega, fun k gave => Nat.lt_of_le_of_lt gave.le_counter later, ?_⟩, ?_⟩
  · rw [← mem_used_after]
    exact numbered_firstFree_not_mem _ _ _
  · rintro n ⟨positive, -, free⟩
    rw [← mem_used_after] at free
    exact (settled_after hints).nextNumber_le positive free

end Histories

/-- After fewer than 2^32 requests, whatever their hints, a hint is answered by itself exactly if no
request was given its name. Otherwise a search in words of 32 bits ends that starts after the last
number tried for the hint. It tries at most as many names as are in use, so that with the hint
itself they are one more. The answer is the hint with the number at which it ends, from which the
next search starts: the least of the numbers, which start at one, that are larger than each that was
given for the hint and have a name that is not in use. And all the names are different. -/
theorem unique_after (earlier : List String) (short : earlier.length < UInt32.size) (hint : String) :
    (((after earlier).unique hint).1 = base hint ↔ base hint ∉ given earlier) ∧
    (base hint ∈ given earlier → ∃ last n : UInt32, ∃ tries ≤ (after earlier).used.length,
      last.toNat = (after earlier).counter (base hint) ∧
      searchWithin (after earlier).used (base hint) tries last = some n ∧
      ((after earlier).unique hint).1 = numbered (base hint) n.toNat ∧
      (after (earlier ++ [hint])).counter (base hint) = n.toNat ∧
      IsLeast {k | 0 < k ∧ (∀ j, Gave earlier hint j → j < k) ∧
        numbered (base hint) k ∉ given earlier} n.toNat) ∧
    (given (earlier ++ [hint])).Nodup := by
  refine ⟨⟨fun own taken => ?_, fun free => ?_⟩, fun taken => ?_, (uniqueAll_fresh _ _).1⟩
  · rw [unique_of_mem ((mem_used_after earlier).2 taken)] at own
    exact numbered_ne _ _ own
  · exact unique_of_not_mem fun used => free ((mem_used_after earlier).1 used)
  · have used := (mem_used_after earlier).2 taken
    have requests : (after earlier).used.length = earlier.length := by
      rw [used_after, List.length_reverse, length_given]
    obtain ⟨last, n, tries, most, before, next, ends⟩ :=
      (settled_after earlier).search used (requests ▸ short)
    refine ⟨last, n, tries, most, before, ends, ?_, ?_, ?_⟩
    · rw [unique_of_mem used, next]
    · rw [after_concat, counter_unique, if_pos ⟨used, rfl⟩, next]
    · rw [next]
      exact isLeast_nextNumber earlier hint

/-- The search for `x` after its first number passes over `x2`, which was a hint itself. -/
theorem passing_unique_after :
    let earlier := ["x2", "x", "x", "x1"]
    earlier.length < UInt32.size ∧ base "x" ∈ given earlier ∧
    ((after earlier).unique "x").1 = "x3" ∧
    (∃ last n : UInt32, ∃ tries ≤ (after earlier).used.length,
      last.toNat = (after earlier).counter (base "x") ∧
      searchWithin (after earlier).used (base "x") tries last = some n ∧
      ((after earlier).unique "x").1 = numbered (base "x") n.toNat ∧
      (after (earlier ++ ["x"])).counter (base "x") = n.toNat ∧
      IsLeast {k | 0 < k ∧ (∀ j, Gave earlier "x" j → j < k) ∧
        numbered (base "x") k ∉ given earlier} n.toNat) ∧
    (((after earlier).unique "").1 = base "" ↔ base "" ∉ given earlier) ∧
    (given (earlier ++ ["x"])).Nodup := by
  intro earlier
  have short : earlier.length < UInt32.size := by decide
  have taken : base "x" ∈ given earlier := by decide +kernel
  have answer : ((after earlier).unique "x").1 = "x3" := by decide +kernel
  obtain ⟨-, search, distinct⟩ := unique_after earlier short "x"
  exact ⟨short, taken, answer, search taken, (unique_after earlier short "").1, distinct⟩

end NameTable

end Decaf.IR
