/-!
# Unique names

A name table hands out names within one namespace. The first request for a hint gets
the hint itself. A later one gets the hint followed by a number: the numbers tried for
a hint only grow, and one whose name is taken is passed over.

Numbers are natural numbers here. Short of 2³² requests they are those that a search in words
of 32 bits finds, as the histories of requests show.
-/

namespace Decaf.IR

structure NameTable where
  /-- The names handed out so far. -/
  used : List String
  /-- For each hint the last number tried for it, the latest entry first. -/
  counters : List (String × Nat)
  deriving DecidableEq, Repr

namespace NameTable

def empty : NameTable := ⟨[], []⟩

/-- The last number tried for a hint. -/
def counter (t : NameTable) (base : String) : Nat :=
  (t.counters.lookup base).getD 0

/-- The hint with a number after it. -/
def numbered (base : String) (n : Nat) : String :=
  base ++ toString n

/-- The first number after `last` whose name is free, trying at most `tries` more
numbers than one. Names for different numbers differ, so `used.length` suffices. -/
def firstFree (used : List String) (base : String) : Nat → Nat → Nat
  | last, 0 => last + 1
  | last, tries + 1 =>
    if numbered base (last + 1) ∈ used then firstFree used base (last + 1) tries
    else last + 1

/-- The name asked for. An empty hint stands for `tmp`. -/
def base (hint : String) : String :=
  if hint.isEmpty then "tmp" else hint

/-- The number for a hint whose own name is taken. -/
def nextNumber (t : NameTable) (base : String) : Nat :=
  firstFree t.used base (t.counter base) t.used.length

def unique (t : NameTable) (hint : String) : String × NameTable :=
  let base := base hint
  if base ∈ t.used then
    let n := t.nextNumber base
    let name := numbered base n
    (name, ⟨name :: t.used, (base, n) :: t.counters⟩)
  else
    (base, { t with used := base :: t.used })

/-- Names for several hints, one after the other. -/
def uniqueAll (t : NameTable) : List String → List String × NameTable
  | [] => ([], t)
  | hint :: hints =>
    let (name, t) := t.unique hint
    let (names, t) := t.uniqueAll hints
    (name :: names, t)

theorem used_unique (t : NameTable) (hint : String) :
    (t.unique hint).2.used = (t.unique hint).1 :: t.used := by
  simp only [unique]
  split <;> rfl

/-- A hint whose name is free is its own name. -/
theorem unique_of_not_mem {t : NameTable} {hint : String} (free : base hint ∉ t.used) :
    (t.unique hint).1 = base hint := by
  simp only [unique, if_neg free]

theorem lt_firstFree (used : List String) (base : String) (last tries : Nat) :
    last < firstFree used base last tries := by
  induction tries generalizing last with
  | zero => exact Nat.lt_succ_self last
  | succ tries ih =>
    rw [firstFree]
    split
    · have := ih (last + 1)
      omega
    · exact Nat.lt_succ_self last

/-- Every number that was passed over has its name taken. -/
theorem numbered_mem_of_lt_firstFree {used : List String} {base : String} {last tries n : Nat}
    (after : last < n) (before : n < firstFree used base last tries) :
    numbered base n ∈ used := by
  induction tries generalizing last with
  | zero =>
    rw [firstFree] at before
    omega
  | succ tries ih =>
    rw [firstFree] at before
    split at before
    · rename_i taken
      by_cases h : n = last + 1
      · rw [h]
        exact taken
      · exact ih (by omega) before
    · omega

end NameTable

end Decaf.IR
