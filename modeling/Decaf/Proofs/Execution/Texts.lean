import Mathlib.Data.List.TakeWhile
import Decaf.Execution.Memory

/-!
# Texts in memory

What a host reads at the address of a string: its text, up to the first zero character if there
is one.
-/

namespace Decaf.Execution

/-- The part of a text before the first zero character. -/
def untilZero (s : String) : String :=
  .ofList (s.toList.takeWhile fun c => c.toNat != 0)

/-- The bytes of an array one by one. -/
theorem toList_loop (bytes : ByteArray) (i : Nat) (read : List UInt8) :
    ByteArray.toList.loop bytes i read = read.reverse ++ bytes.data.toList.drop i := by
  fun_induction ByteArray.toList.loop bytes i read with
  | case1 i read inside ih =>
    have held : i < bytes.data.toList.length := by simpa using inside
    rw [ih, List.drop_eq_getElem_cons held, List.reverse_cons, List.append_assoc]
    simp [ByteArray.get!, inside]
  | case2 i read outside =>
    rw [List.drop_eq_nil_of_le (by simpa using outside), List.append_nil]

theorem toList_bytes (bytes : ByteArray) : bytes.toList = bytes.data.toList := by
  rw [ByteArray.toList, toList_loop, List.reverse_nil, List.nil_append, List.drop_zero]

theorem toList_toUTF8 (s : String) :
    s.toUTF8.toList = s.toList.flatMap String.utf8EncodeChar := by
  have data := toList_bytes s.toUTF8
  conv at data => rhs; rw [← String.ofList_toList (s := s)]
  rw [data, String.toUTF8_eq_toByteArray, String.toByteArray_ofList, List.utf8Encode,
    List.toList_data_toByteArray]

theorem fromUTF8?_toUTF8 (s : String) : String.fromUTF8? s.toUTF8 = some s := by
  rw [String.fromUTF8?, String.toUTF8_eq_toByteArray, dif_pos s.isValidUTF8]
  rfl

namespace Memory

theorem byte?_int (b : UInt8) : byte? (.int (Int32.ofNat b.toNat)) = some b := by
  have small : b.toNat < 256 := b.toNat_lt
  have value : (Int32.ofNat b.toNat).toInt = b.toNat := Int32.toInt_ofNat_of_lt (by omega)
  simp only [byte?, value]
  rw [if_pos (by omega)]
  simp

/-- The bytes that are read stop before a zero, or before the one at the end. -/
theorem bytesBeforeZero?_map : ∀ bytes : List UInt8,
    bytesBeforeZero? (bytes.map (fun b => Value.int (Int32.ofNat b.toNat)) ++ [.int 0]) =
      some (bytes.takeWhile (· != 0))
  | [] => by decide
  | b :: bytes => by
    rw [List.map_cons, List.cons_append, bytesBeforeZero?, byte?_int, List.takeWhile_cons]
    by_cases zero : b = 0
    · simp [zero]
    · simp [zero, bytesBeforeZero?_map bytes]

/-- A character other than zero has no zero byte. -/
theorem ne_zero_of_mem_utf8EncodeChar {c : Char} (h : c.toNat ≠ 0) {b : UInt8}
    (hb : b ∈ String.utf8EncodeChar c) : b ≠ 0 := by
  have bound : c.toNat < 1114112 :=
    c.valid.elim (fun low => Nat.lt_trans low (by decide)) fun high => high.2
  rintro rfl
  have zero {n : Nat} (eq : (0 : UInt8) = UInt8.ofNat n) : n % 256 = 0 := by
    have := congrArg UInt8.toNat eq
    simpa using this.symm
  have same : c.val.toNat = c.toNat := rfl
  simp only [String.utf8EncodeChar, same] at hb
  split at hb
  · have := zero (List.mem_singleton.1 hb)
    omega
  · split at hb
    · simp only [List.mem_cons, List.not_mem_nil, or_false] at hb
      rcases hb with hb | hb <;> have := zero hb <;> omega
    · split at hb
      · simp only [List.mem_cons, List.not_mem_nil, or_false] at hb
        rcases hb with hb | hb | hb <;> have := zero hb <;> omega
      · simp only [List.mem_cons, List.not_mem_nil, or_false] at hb
        rcases hb with hb | hb | hb | hb <;> have := zero hb <;> omega

theorem takeWhile_flatMap_utf8EncodeChar : ∀ l : List Char,
    (l.flatMap String.utf8EncodeChar).takeWhile (· != 0) =
      (l.takeWhile fun c => c.toNat != 0).flatMap String.utf8EncodeChar
  | [] => rfl
  | c :: l => by
    rw [List.flatMap_cons, List.takeWhile_cons]
    by_cases zero : c.toNat = 0
    · have encoded : String.utf8EncodeChar c = [0] := by
        simp [String.utf8EncodeChar, show c.val.toNat = 0 from zero]
      rw [encoded]
      simp [zero]
    · rw [List.takeWhile_append_of_pos fun b hb =>
        bne_iff_ne.2 (ne_zero_of_mem_utf8EncodeChar zero hb), takeWhile_flatMap_utf8EncodeChar l]
      simp [zero]

/-- The text of a string at its address. -/
theorem text?_start {memory : Memory} {region : Nat} {s : String}
    (cells : memory.regions[region]? = some (initialCells (.string s.toUTF8.toList))) :
    memory.text? (.start region) = some (untilZero s) := by
  have there : memory.cellsFrom (.start region) = s.toUTF8.toList.map
      (fun b => Value.int (Int32.ofNat b.toNat)) ++ [.int 0] := by
    simp [cellsFrom, Pointer.start, cells, initialCells]
  have read : s.toUTF8.toList.takeWhile (· != 0) = (untilZero s).toUTF8.toList := by
    rw [toList_toUTF8, toList_toUTF8, takeWhile_flatMap_utf8EncodeChar, untilZero,
      String.toList_ofList]
  rw [text?, there, bytesBeforeZero?_map, read]
  have data : (⟨(untilZero s).toUTF8.toList.toArray⟩ : ByteArray) = (untilZero s).toUTF8 := by
    rw [toList_bytes]
  show String.fromUTF8? _ = _
  rw [data, fromUTF8?_toUTF8]

end Memory

end Decaf.Execution
