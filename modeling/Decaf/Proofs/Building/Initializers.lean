import Mathlib.Data.List.Basic
import Decaf.IR.Text
import Decaf.Proofs.Language.Lexemes

/-!
# Initializers of string globals

The bytes of a string global are printed between quotes. They can be read back from there, because
a backslash is only printed where it starts an escape: each byte is read by itself, whatever comes
after it.
-/

namespace Decaf.IR

/-- The bytes that a text stands for. A backslash and two hexadecimal digits are one byte, and any
other character is the byte that is its code. -/
def readBytes : List Char → Option (List UInt8)
  | [] => some []
  | '\\' :: high :: low :: rest => do
    let high ← Numeral.digit? 16 high
    let low ← Numeral.digit? 16 low
    let bytes ← readBytes rest
    return UInt8.ofNat (16 * high + low) :: bytes
  | c :: rest =>
    if c ≠ '\\' ∧ c.toNat < UInt8.size then (readBytes rest).map (UInt8.ofNat c.toNat :: ·)
    else none

/-- ASCII characters that are shown, the space among them. -/
def Printable (c : Char) : Prop :=
  32 ≤ c.toNat ∧ c.toNat < 127

instance (c : Char) : Decidable (Printable c) :=
  inferInstanceAs (Decidable (_ ∧ _))

/-- What is printed of a string global after its name: its type and then its bytes. -/
def stringInitializer (bytes : List UInt8) : String :=
  s!"[{bytes.length + 1} x i8] c\"{escapeBytes bytes}\\00\""

theorem readBytes_cons {c : Char} (plain : c ≠ '\\') (code : c.toNat < UInt8.size)
    (rest : List Char) :
    readBytes (c :: rest) = (readBytes rest).map (UInt8.ofNat c.toNat :: ·) := by
  rw [readBytes, if_pos ⟨plain, code⟩]
  exact fun high low rest' escape _ => plain escape

theorem digit?_hexDigit {n : Nat} (small : n < 16) : Numeral.digit? 16 (hexDigit n) = some n := by
  have all : ∀ n < 16, Numeral.digit? 16 (hexDigit n) = some n := by decide
  exact all n small

theorem printable_hexDigit {n : Nat} (small : n < 16) :
    Printable (hexDigit n) ∧ hexDigit n ≠ '"' := by
  have all : ∀ n < 16, Printable (hexDigit n) ∧ hexDigit n ≠ '"' := by decide
  exact all n small

theorem toNat_ofNat_byte (b : UInt8) : (Char.ofNat b.toNat).toNat = b.toNat := by
  have valid : b.toNat.isValidChar := .inl (Nat.lt_trans b.toNat_lt (by decide))
  rw [Char.ofNat, dif_pos valid]
  rfl

/-- A byte is written as the character with its code, which is neither a quote nor a backslash, or
as an escape. -/
theorem escapeByte_cases (b : UInt8) :
    (∃ c, escapeByte b = [c] ∧ c.toNat = b.toNat ∧ Printable c ∧ c ≠ '"' ∧ c ≠ '\\') ∨
    escapeByte b = ['\\', hexDigit (b.toNat / 16), hexDigit (b.toNat % 16)] := by
  by_cases plain : 32 ≤ b.toNat ∧ b.toNat < 127 ∧ b.toNat ≠ 34 ∧ b.toNat ≠ 92
  · left
    obtain ⟨above, below, noQuote, noBackslash⟩ := plain
    have code := toNat_ofNat_byte b
    refine ⟨Char.ofNat b.toNat, if_pos ⟨above, below, noQuote, noBackslash⟩, code, ?_, ?_, ?_⟩
    · rw [Printable, code]
      exact ⟨above, below⟩
    · intro quote
      rw [quote] at code
      exact noQuote code.symm
    · intro backslash
      rw [backslash] at code
      exact noBackslash code.symm
  · exact .inr (if_neg plain)

/-- A byte is read from what is written for it, whatever comes after it. -/
theorem readBytes_escapeByte (b : UInt8) (rest : List Char) :
    readBytes (escapeByte b ++ rest) = (readBytes rest).map (b :: ·) := by
  have size : b.toNat < UInt8.size := b.toNat_lt
  rcases escapeByte_cases b with ⟨c, written, code, -, -, plain⟩ | written
  · rw [written, List.singleton_append, readBytes_cons plain (by rwa [code]), code,
      UInt8.ofNat_toNat]
  · have high := digit?_hexDigit (n := b.toNat / 16) (Nat.div_lt_of_lt_mul size)
    have low := digit?_hexDigit (n := b.toNat % 16) (Nat.mod_lt _ (by decide))
    have value : UInt8.ofNat (16 * (b.toNat / 16) + b.toNat % 16) = b := by
      rw [Nat.div_add_mod, UInt8.ofNat_toNat]
    rw [written]
    calc readBytes ('\\' :: hexDigit (b.toNat / 16) :: hexDigit (b.toNat % 16) :: rest)
        = (readBytes rest).map (UInt8.ofNat (16 * (b.toNat / 16) + b.toNat % 16) :: ·) := by
          rw [readBytes, high, low]
          cases readBytes rest <;> rfl
      _ = (readBytes rest).map (b :: ·) := by rw [value]

theorem readBytes_escapeBytes (bytes : List UInt8) :
    readBytes (escapeBytes bytes).toList = some bytes := by
  rw [escapeBytes, String.toList_ofList]
  induction bytes with
  | nil => rfl
  | cons b bytes ih => rw [List.flatMap_cons, readBytes_escapeByte, ih, Option.map_some]

example : escapeBytes [113, 32, 34, 92, 10] = "q \\22\\5C\\0A" := by decide

theorem printable_of_mem_escapeByte {b : UInt8} {c : Char} (h : c ∈ escapeByte b) :
    Printable c ∧ c ≠ '"' := by
  have size : b.toNat < UInt8.size := b.toNat_lt
  rcases escapeByte_cases b with ⟨d, written, -, printable, noQuote, -⟩ | written
  · rw [written] at h
    rw [List.mem_singleton.1 h]
    exact ⟨printable, noQuote⟩
  · simp only [written, List.mem_cons, List.not_mem_nil, or_false] at h
    rcases h with rfl | rfl | rfl
    · decide
    · exact printable_hexDigit (Nat.div_lt_of_lt_mul size)
    · exact printable_hexDigit (Nat.mod_lt _ (by decide))

theorem printable_of_mem_escapeBytes {bytes : List UInt8} {c : Char}
    (h : c ∈ (escapeBytes bytes).toList) : Printable c ∧ c ≠ '"' := by
  rw [escapeBytes, String.toList_ofList] at h
  obtain ⟨b, -, written⟩ := List.mem_flatMap.1 h
  exact printable_of_mem_escapeByte written

/-- The zero at the end is written like any other byte. -/
theorem escapeBytes_concat_zero (bytes : List UInt8) :
    escapeBytes (bytes ++ [0]) = escapeBytes bytes ++ "\\00" := by
  rw [escapeBytes, List.flatMap_append, String.ofList_append]
  rfl

/-- The zero counts and is written as any other byte. -/
theorem stringInitializer_eq (bytes : List UInt8) : stringInitializer bytes =
    s!"[{(bytes ++ [0]).length} x i8] c\"{escapeBytes (bytes ++ [0])}\"" := by
  have close : "\\00\"" = "\\00" ++ "\"" := rfl
  simp only [stringInitializer, escapeBytes_concat_zero, List.length_append, List.length_singleton,
    close, String.append_assoc, toString]

theorem toList_stringInitializer (bytes : List UInt8) : (stringInitializer bytes).toList =
    '[' :: (Nat.toDigits 10 (bytes.length + 1) ++ " x i8] c".toList) ++
      '"' :: (escapeBytes (bytes ++ [0])).toList ++ ['"'] := by
  rw [stringInitializer_eq]
  simp [toString]

/-- The first quote opens what is quoted, so the initializer determines it. -/
theorem stringInitializer_injective : Function.Injective stringInitializer := by
  intro bytes bytes' same
  have chars := congrArg String.toList same
  rw [toList_stringInitializer, toList_stringInitializer] at chars
  have opening : '"' ∉ '[' :: (Nat.toDigits 10 (bytes.length + 1) ++ " x i8] c".toList) := by
    have digits := Numeral.not_mem_toDigits (c := '"') (by decide) (bytes.length + 1)
    simp [digits]
  -- The lengths may have different digits: what is quoted starts at the only quote but the last.
  have inside : '"' ∉ (escapeBytes (bytes ++ [0])).toList :=
    fun quote => (printable_of_mem_escapeBytes quote).2 rfl
  obtain ⟨-, -, written⟩ :=
    (List.append_cons_inj_of_notMem opening inside).1 (List.append_cancel_right chars)
  have read := congrArg readBytes written
  rw [readBytes_escapeBytes, readBytes_escapeBytes] at read
  exact List.append_cancel_right (Option.some.inj read)

/-- A string global is printed as its name and an initializer that its bytes determine and that
determines them. Between the quotes there are printable ASCII characters other than the quote, from
which the bytes can be read with one zero byte after them, and before the quotes stands the number
of these bytes. -/
theorem text_string_reads :
    (∀ id name bytes address, Global.text ⟨id, name, .string bytes, address⟩ =
      s!"@{name} = private constant {stringInitializer bytes}") ∧
    (∀ bytes, ∃ written : String,
      stringInitializer bytes = s!"[{(bytes ++ [0]).length} x i8] c\"{written}\"" ∧
      (∀ c ∈ written.toList, Printable c ∧ c ≠ '"') ∧
      readBytes written.toList = some (bytes ++ [0])) ∧
    Function.Injective stringInitializer := by
  refine ⟨fun id name bytes address => ?_, fun bytes => ?_, stringInitializer_injective⟩
  · have start : " = private constant [" = " = private constant " ++ "[" := rfl
    simp only [Global.text, stringInitializer, start, String.append_assoc, toString]
  · exact ⟨_, stringInitializer_eq bytes, fun c => printable_of_mem_escapeBytes,
      readBytes_escapeBytes _⟩

end Decaf.IR
