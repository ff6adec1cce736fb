import Decaf.Execution.Fault
import Decaf.IR.Module

/-!
# Memory

Memory is a stack of regions. The lowest ones belong to the globals, in order; above
them lie the stack slots of the calls in progress, one region of one cell each. Releasing
memory down to a mark drops every region above it.

Regions have 32-bit numbers, of which the greatest stands for the null pointer. The memory
here has room for any number of regions, and a null pointer has no region at all;
`allocate?` is allocation among the numbers that there are. Offsets are integers of any
size: one step moves a pointer by at most 2³¹ elements, so that offsets stay within 64 bits
for the first 2³² steps.
-/

namespace Decaf.Execution

structure Memory where
  regions : Array (Array Value)
  deriving DecidableEq, Repr

/-- A cell of a region. -/
structure Cell where
  region : Nat
  index : Nat
  deriving DecidableEq, Repr

namespace Memory

def empty : Memory := ⟨#[]⟩

/-- The number of regions, which is also the number of the next one. -/
def mark (m : Memory) : Nat :=
  m.regions.size

/-- Gives the next number to a region. There is always a next number here. -/
def allocate (m : Memory) (cells : Array Value) : Memory :=
  ⟨m.regions.push cells⟩

/-- The number of regions at one time for which there are numbers. -/
def maxRegions : Nat := UInt32.size - 1

/-- Allocation where the numbers can run out. -/
def allocate? (m : Memory) (cells : Array Value) : Option Memory :=
  if m.mark < maxRegions then some (m.allocate cells) else none

def release (m : Memory) (mark : Nat) : Memory :=
  ⟨m.regions.take mark⟩

/-- The number of cells of a region; a region that was released has none. -/
def regionLength (m : Memory) (region : Nat) : Nat :=
  match m.regions[region]? with
  | some cells => cells.size
  | none => 0

/-- The cell to which a pointer points. -/
def locate (m : Memory) (p : Pointer) : Except Fault Cell :=
  match p.region with
  | none => .error .nullDereference
  | some region =>
    let length := m.regionLength region
    if 0 ≤ p.offset ∧ p.offset < length then .ok ⟨region, p.offset.toNat⟩
    else .error (.outOfBounds p.offset length)

def get? (m : Memory) (c : Cell) : Option Value :=
  m.regions[c.region]?.bind (·[c.index]?)

def set (m : Memory) (c : Cell) (v : Value) : Memory :=
  ⟨m.regions.modify c.region (·.setIfInBounds c.index v)⟩

def read (m : Memory) (p : Pointer) : Except Fault Value := do
  let c ← m.locate p
  match m.get? c with
  | some v => .ok v
  | none => .error (.outOfBounds p.offset 0)

def byte? (v : Value) : Option UInt8 :=
  match v with
  | .int n => if 0 ≤ n.toInt ∧ n.toInt < 256 then some (UInt8.ofNat n.toInt.toNat) else none
  | _ => none

/-- The bytes of the cells before the first zero. -/
def bytesBeforeZero? : List Value → Option (List UInt8)
  | [] => none
  | v :: rest =>
    match byte? v with
    | none => none
    | some b => if b = 0 then some [] else (bytesBeforeZero? rest).map (b :: ·)

/-- The cells of a region from a pointer on. -/
def cellsFrom (m : Memory) (p : Pointer) : List Value :=
  match p.region with
  | none => []
  | some region =>
    if p.offset < 0 then []
    else ((m.regions[region]?.getD #[]).toList).drop p.offset.toNat

/-- The text that is stored from a pointer up to a zero byte, in UTF-8. -/
def text? (m : Memory) (p : Pointer) : Option String := do
  let bytes ← bytesBeforeZero? (m.cellsFrom p)
  String.fromUTF8? ⟨bytes.toArray⟩

theorem mark_allocate (m : Memory) (cells : Array Value) :
    (m.allocate cells).mark = m.mark + 1 := by
  simp [mark, allocate]

theorem mark_set (m : Memory) (c : Cell) (v : Value) : (m.set c v).mark = m.mark := by
  simp [mark, set]

theorem mark_release (m : Memory) (k : Nat) : (m.release k).mark = min k m.mark := by
  simp [mark, release]

theorem release_allocate (m : Memory) (cells : Array Value) :
    (m.allocate cells).release m.mark = m := by
  simp [mark, release, allocate]

/-- The cell that a pointer is found to point to exists. -/
theorem get?_eq_some_of_locate {m : Memory} {p : Pointer} {c : Cell}
    (h : m.locate p = .ok c) : ∃ v, m.get? c = some v := by
  obtain ⟨region, offset⟩ := p
  cases region with
  | none => cases h
  | some r =>
    simp only [locate] at h
    split at h
    · rename_i inside
      cases h
      unfold regionLength at inside
      cases hc : m.regions[r]? with
      | none =>
        simp only [hc] at inside
        omega
      | some cells =>
        simp only [hc] at inside
        have small : offset.toNat < cells.size := by omega
        exact ⟨cells[offset.toNat], by simp [get?, hc, small]⟩
    · cases h

/-- Writing a cell changes that cell, if it exists, and no other. -/
theorem get?_set (m : Memory) (c d : Cell) (v : Value) :
    (m.set c v).get? d = if d = c then (m.get? c).map fun _ => v else m.get? d := by
  obtain ⟨cr, ci⟩ := c
  obtain ⟨dr, di⟩ := d
  simp only [get?, set, Array.getElem?_modify, Cell.mk.injEq]
  by_cases hr : dr = cr
  · subst hr
    cases hc : m.regions[dr]? with
    | none => simp
    | some cells =>
      by_cases hi : di = ci
      · subst hi
        simp only [Option.map_some, Option.bind_some, if_true, and_self,
          Array.getElem?_setIfInBounds]
        split <;> simp_all
      · simp [hi, Ne.symm hi]
  · simp [hr, Ne.symm hr]

end Memory

/-- The cells with which a global starts. A string ends with a zero byte. -/
def initialCells : IR.GlobalKind → Array Value
  | .scalar _ init => #[Value.ofConst init]
  | .array ty length => Array.replicate length (Value.zero ty)
  | .string bytes =>
    (bytes.map (fun b => Value.int (Int32.ofNat b.toNat)) ++ [Value.int 0]).toArray

/-- One region for each global. -/
def initialMemory (m : IR.Module) : Memory :=
  ⟨m.globals.map fun g => initialCells g.kind⟩

end Decaf.Execution
