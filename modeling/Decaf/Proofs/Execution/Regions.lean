import Decaf.Execution.Memory
import Decaf.Proofs.Generation.Soundness

/-!
# Regions of memory

A region keeps its length as long as it is there and, if only values of its type are stored
in it, the type of its cells. With `typed` both are claimed, otherwise only the length.
-/

namespace Decaf.IR

/-- The number of cells of a global. -/
def GlobalKind.length : GlobalKind → Nat
  | scalar _ _ => 1
  | array _ length => length
  | string bytes => bytes.length + 1

def GlobalKind.cellTy : GlobalKind → Ty
  | scalar ty _ => ty
  | array ty _ => ty
  | string _ => .i32

/-- The cells of the global start with values of their type. -/
def GlobalKind.StartsTyped : GlobalKind → Prop
  | scalar ty init => init.ty = ty
  | array ty _ => ty ≠ .void
  | string _ => True

end Decaf.IR

namespace Decaf.Execution

open IR

namespace Memory

/-- A region of the given number of cells. -/
def Region (typed : Prop) (m : Memory) (region length : Nat) (ty : IR.Ty) : Prop :=
  ∃ cells, m.regions[region]? = some cells ∧ cells.size = length ∧
    (typed → ∀ x ∈ cells, x.ty = ty)

/-- The regions below a mark are as before, up to the values in them. -/
def Keeps (typed : Prop) (m m' : Memory) (mark : Nat) : Prop :=
  ∀ region length ty, region < mark → m.Region typed region length ty →
    m'.Region typed region length ty

section

variable {typed : Prop} {m m' : Memory} {region length mark : Nat} {ty : IR.Ty}

theorem Keeps.refl (m : Memory) (mark : Nat) : m.Keeps typed m mark :=
  fun _ _ _ _ h => h

theorem Keeps.weaken {mark' : Nat} (h : m.Keeps typed m' mark) (le : mark' ≤ mark) :
    m.Keeps typed m' mark' :=
  fun _ _ _ below => h _ _ _ (Nat.lt_of_lt_of_le below le)

theorem Region.lt_mark (h : m.Region typed region length ty) : region < m.mark := by
  obtain ⟨cells, at_, -⟩ := h
  exact (Array.getElem?_eq_some_iff.1 at_).1

theorem Region.regionLength (h : m.Region typed region length ty) :
    m.regionLength region = length := by
  obtain ⟨cells, at_, size, -⟩ := h
  simp [Memory.regionLength, at_, size]

/-- Inside a region every offset is found, and outside none. -/
theorem Region.locate (h : m.Region typed region length ty) (offset : Int) :
    m.locate ⟨some region, offset⟩ =
      if 0 ≤ offset ∧ offset < length then .ok ⟨region, offset.toNat⟩
      else .error (Fault.outOfBounds offset length) := by
  simp only [Memory.locate, h.regionLength]

theorem Region.get? (h : m.Region typed region length ty) (index : Nat)
    (inside : index < length) : ∃ x, m.get? ⟨region, index⟩ = some x ∧ (typed → x.ty = ty) := by
  obtain ⟨cells, at_, rfl, types⟩ := h
  exact ⟨cells[index], by simp [Memory.get?, at_, inside],
    fun t => types t _ (Array.getElem_mem inside)⟩

/-- What is read from a region is of its type, and only outside of it there is a fault. -/
theorem Region.read (h : m.Region typed region length ty) (offset : Int) :
    (∃ x, m.read ⟨some region, offset⟩ = .ok x ∧ (typed → x.ty = ty)) ∨
      m.read ⟨some region, offset⟩ = .error (.outOfBounds offset length) := by
  rw [Memory.read, h.locate]
  split
  · rename_i inside
    obtain ⟨x, hx, type⟩ := h.get? offset.toNat (by omega)
    refine .inl ⟨x, ?_, type⟩
    simp only [bind, Except.bind, hx]
  · exact .inr rfl

/-- A value of the right type may be stored anywhere in a region. -/
theorem keeps_set {target : Nat} (h : m.Region typed target length ty) (index : Nat)
    (inside : index < length) {x : Value} (type : typed → x.ty = ty) (mark : Nat) :
    m.Keeps typed (m.set ⟨target, index⟩ x) mark := by
  obtain ⟨cells, at_, rfl, types⟩ := h
  rintro region length' ty' - ⟨old, at_old, size, types'⟩
  by_cases same : region = target
  · subst same
    rw [at_] at at_old
    obtain rfl := Option.some.inj at_old
    refine ⟨cells.setIfInBounds index x, by simp [Memory.set, Array.getElem?_modify, at_],
      by simpa using size, fun t y hy => ?_⟩
    have agree : ty' = ty := by
      rw [← types' t _ (Array.getElem_mem inside), types t _ (Array.getElem_mem inside)]
    rcases Array.mem_or_eq_of_mem_setIfInBounds hy with before | rfl
    · exact types' t y before
    · rw [type t, agree]
  · refine ⟨old, ?_, size, types'⟩
    simp [Memory.set, Array.getElem?_modify, Ne.symm same, at_old]

theorem keeps_allocate (typed : Prop) (m : Memory) (cells : Array Value) (mark : Nat) :
    m.Keeps typed (m.allocate cells) mark := by
  rintro region length ty - ⟨old, at_, rest⟩
  refine ⟨old, ?_, rest⟩
  have held := (Array.getElem?_eq_some_iff.1 at_).1
  simp only [allocate]
  rw [Array.getElem?_push_lt held, ← at_]
  exact (Array.getElem?_eq_getElem held).symm

theorem region_allocate (m : Memory) {x : Value} (type : typed → x.ty = ty) :
    (m.allocate #[x]).Region typed m.mark 1 ty :=
  ⟨#[x], Array.getElem?_push_size, rfl, fun t y hy => by
    obtain rfl := Array.mem_singleton.1 hy
    exact type t⟩

/-- What is below the mark stays. -/
theorem regions_release (m : Memory) (mark r : Nat) :
    (m.release mark).regions[r]? = if r < mark then m.regions[r]? else none := by
  simp only [release, Array.take_eq_extract, Array.getElem?_extract, Nat.zero_add]
  by_cases low : r < mark
  · by_cases held : r < m.regions.size
    · rw [if_pos low, if_pos (by omega)]
    · rw [if_pos low, if_neg (by omega), Array.getElem?_eq_none (by omega)]
  · rw [if_neg low, if_neg (by omega)]

theorem keeps_release (typed : Prop) (m : Memory) (mark : Nat) :
    m.Keeps typed (m.release mark) mark := by
  rintro region length ty below ⟨old, at_, rest⟩
  exact ⟨old, by rw [regions_release, if_pos below, at_], rest⟩

end

/-- The globals have their regions at the bottom of memory. -/
structure Covers (typed : Prop) (module : Module) (m : Memory) : Prop where
  regions : ∀ (g : Nat) G, module.globals[g]? = some G → m.Region typed g G.kind.length G.kind.cellTy
  mark : module.globals.size ≤ m.mark

theorem Covers.keeps {typed : Prop} {module : Module} {m m' : Memory} {mark : Nat}
    (h : m.Covers typed module) (keeps : m.Keeps typed m' mark)
    (above : module.globals.size ≤ mark) (size : module.globals.size ≤ m'.mark) :
    m'.Covers typed module where
  regions g G hG := by
    have := (Array.getElem?_eq_some_iff.1 hG).1
    exact keeps _ _ _ (by omega) (h.regions g G hG)
  mark := size

/-- Memory as it is before the first run. -/
theorem covers_initialMemory {typed : Prop} {module : Module}
    (starts : typed → ∀ (g : Nat) G, module.globals[g]? = some G → G.kind.StartsTyped) :
    (initialMemory module).Covers typed module where
  regions g G hG := by
    refine ⟨initialCells G.kind, by simp [initialMemory, hG], ?_, fun t x hx => ?_⟩
    · cases G.kind <;> simp [initialCells, GlobalKind.length]
    · have start := starts t g G hG
      cases hk : G.kind with
      | scalar ty init =>
        rw [hk] at hx start
        obtain rfl := Array.mem_singleton.1 hx
        rw [Value.ty_ofConst]
        exact start
      | array ty length =>
        rw [hk] at hx start
        obtain rfl := (Array.mem_replicate.1 hx).2
        exact Value.ty_zero start
      | string bytes =>
        rw [hk] at hx
        have mem : x ∈ bytes.map (fun b => Value.int (Int32.ofNat b.toNat)) ++ [.int 0] := by
          simpa [initialCells] using hx
        rcases List.mem_append.1 mem with byte | last
        · obtain ⟨b, -, rfl⟩ := List.mem_map.1 byte
          rfl
        · obtain rfl := List.mem_singleton.1 last
          rfl
  mark := by simp [initialMemory, Memory.mark]

end Memory

end Decaf.Execution
