import Decaf.Language.Constant
import Decaf.Proofs.Language.Sketches

/-!
# Lexemes of constants

The kind and the lexeme of a constant determine its value. A number is shown by the numeral that
it was written with or in decimal, and where one lexeme is both, both give the same number.
-/

namespace Decaf

namespace Numeral

open Outline (delimiters)

theorem not_delimiter_of_digit? {radix n : Nat} {c : Char} (h : digit? radix c = some n) :
    c ∉ delimiters := by
  intro mem
  simp only [delimiters, List.mem_cons, List.not_mem_nil, or_false] at mem
  rcases mem with rfl | rfl | rfl | rfl <;> cases h

/-- What is read digit by digit has no delimiter in it. -/
theorem not_delimiter_of_foldlM {radix start n : Nat} {digits : List Char}
    (h : digits.foldlM (extend radix) start = some n) : ∀ c ∈ digits, c ∉ delimiters := by
  induction digits generalizing start with
  | nil => exact nofun
  | cons d ds ih =>
    rw [List.foldlM_cons, Option.bind_eq_bind, Option.bind_eq_some_iff] at h
    obtain ⟨_, first, rest⟩ := h
    obtain ⟨_, digit, -⟩ := Option.map_eq_some_iff.1 first
    exact List.forall_mem_cons.2 ⟨not_delimiter_of_digit? digit, ih rest⟩

theorem value?_eq_some {radix n : Nat} {digits : List Char} :
    value? radix digits = some n ↔ digits ≠ [] ∧ digits.foldlM (extend radix) 0 = some n := by
  cases digits <;> simp [value?]

theorem bounded_eq_ok {radix bound : Nat} {digits : List Char} {v : Int32} :
    bounded radix bound digits = .ok v ↔
      ∃ n, value? radix digits = some n ∧ n < bound ∧ Int32.ofNat n = v := by
  unfold bounded
  cases value? radix digits with
  | none => simp
  | some n =>
    by_cases fits : n < bound <;> simp [fits]

theorem digit?_of_isDigit {c : Char} (h : c.isDigit) :
    digit? 10 c = some (c.toNat - '0'.toNat) := by
  simp only [Char.isDigit, ge_iff_le, Bool.and_eq_true, decide_eq_true_eq] at h
  have small : c.toNat - '0'.toNat < 10 := by
    have most := UInt32.le_iff_toNat_le.1 h.2
    have low : '0'.toNat = 48 := rfl
    have high : c.val.toNat ≤ 57 := most
    have same : c.toNat = c.val.toNat := rfl
    omega
  rw [digit?, if_pos ⟨h.1, h.2⟩, Option.filter_some, if_pos (by simpa using small)]

theorem foldlM_of_digits {digits : List Char} (each : ∀ c ∈ digits, c.isDigit) (start : Nat) :
    digits.foldlM (extend 10) start = some (Nat.ofDigitChars 10 digits start) := by
  induction digits generalizing start with
  | nil => rfl
  | cons d ds ih =>
    obtain ⟨digit, others⟩ := List.forall_mem_cons.1 each
    rw [List.foldlM_cons, Nat.ofDigitChars_cons, extend, digit?_of_isDigit digit, Nat.mul_comm]
    exact ih others _

/-- A number is read from its decimal digits. -/
theorem value?_toDigits (n : Nat) : value? 10 (Nat.toDigits 10 n) = some n := by
  have each : ∀ c ∈ Nat.toDigits 10 n, c.isDigit := fun c mem =>
    Nat.isDigit_of_mem_toDigits (by decide) (by decide) mem
  rw [value?_eq_some, foldlM_of_digits each, Nat.ofDigitChars_ten_toDigits]
  exact ⟨Nat.toDigits_ne_nil, rfl⟩

theorem toDigits_inj {m n : Nat} (same : Nat.toDigits 10 m = Nat.toDigits 10 n) : m = n := by
  have read := congrArg (value? 10) same
  simpa [value?_toDigits] using read

theorem not_mem_toDigits {c : Char} (other : c.isDigit = false) (n : Nat) :
    c ∉ Nat.toDigits 10 n := by
  intro mem
  have digit := Nat.isDigit_of_mem_toDigits (by decide) (by decide) mem
  rw [other] at digit
  cases digit

theorem decode_cases {lexeme : List Char} {v : Int32} (h : decode lexeme = .ok v) :
    (∃ mark digits, (mark = 'x' ∨ mark = 'X') ∧ lexeme = '0' :: mark :: digits ∧
      bounded 16 0x100000000 digits = .ok v) ∨ bounded 10 0x80000000 lexeme = .ok v := by
  unfold decode at h
  split at h
  · exact .inl ⟨'x', _, .inl rfl, rfl, h⟩
  · exact .inl ⟨'X', _, .inr rfl, rfl, h⟩
  · exact .inr h

theorem not_delimiter_of_decode {lexeme : List Char} {v : Int32} (h : decode lexeme = .ok v) :
    lexeme ≠ [] ∧ ∀ c ∈ lexeme, c ∉ delimiters := by
  rcases decode_cases h with ⟨mark, digits, marked, rfl, read⟩ | read
  · obtain ⟨n, value, -⟩ := bounded_eq_ok.1 read
    have inside := not_delimiter_of_foldlM (value?_eq_some.1 value).2
    have outside : mark ∉ delimiters := by rcases marked with rfl | rfl <;> decide
    exact ⟨List.cons_ne_nil _ _,
      List.forall_mem_cons.2 ⟨by decide, List.forall_mem_cons.2 ⟨outside, inside⟩⟩⟩
  · obtain ⟨n, value, -⟩ := bounded_eq_ok.1 read
    obtain ⟨some, digits⟩ := value?_eq_some.1 value
    exact ⟨some, not_delimiter_of_foldlM digits⟩

end Numeral

open Numeral

/-- The digits of an integer, behind a sign if it is negative. -/
theorem toList_decimal (i : Int) : (toString i).toList =
    if 0 ≤ i then Nat.toDigits 10 i.toNat else '-' :: Nat.toDigits 10 (-i).toNat := by
  rw [Int.toString_eq_repr, Int.repr_eq_if]
  split
  · rw [Nat.toList_repr]
  · rw [String.toList_append, Nat.toList_repr]
    rfl

theorem decimal_inj {i j : Int} (same : toString i = toString j) : i = j := by
  have chars := congrArg String.toList same
  rw [toList_decimal, toList_decimal] at chars
  have unsigned (n : Nat) : '-' ∉ Nat.toDigits 10 n := not_mem_toDigits (by decide) n
  split at chars <;> split at chars
  · have magnitude := toDigits_inj chars
    omega
  · exact absurd (chars ▸ List.mem_cons_self) (unsigned _)
  · exact absurd (chars ▸ List.mem_cons_self) (unsigned _)
  · have magnitude := toDigits_inj (List.cons.inj chars).2
    omega

theorem word_decimal (i : Int) : Outline.Word (toString i) := by
  have digits (n : Nat) := value?_eq_some.1 (value?_toDigits n)
  have inside (n : Nat) := not_delimiter_of_foldlM (digits n).2
  rw [Outline.Word, toList_decimal]
  split
  · exact ⟨(digits _).1, inside _⟩
  · exact ⟨List.cons_ne_nil _ _, List.forall_mem_cons.2 ⟨by decide, inside _⟩⟩

theorem parseNumber_eq_ok {lexeme : String} {v : Int32} :
    parseNumber lexeme = .ok v ↔ decode lexeme.toList = .ok v := by
  unfold parseNumber
  split <;> rename_i read <;> simp [read]

/-- Where a numeral is the decimal form of a 32-bit integer, it writes that integer. -/
theorem parseNumber_decimal {v w : Int32} (h : parseNumber (toString v.toInt) = .ok w) : w = v := by
  rcases decode_cases (parseNumber_eq_ok.1 h) with ⟨mark, digits, marked, shape, -⟩ | read
  · rw [toList_decimal] at shape
    split at shape
    · have letter : mark.isDigit = false := by rcases marked with rfl | rfl <;> rfl
      exact absurd (shape ▸ by simp) (not_mem_toDigits letter v.toInt.toNat)
    · exact absurd (List.cons.inj shape).1 (by decide)
  · obtain ⟨n, value, -, rfl⟩ := bounded_eq_ok.1 read
    rw [toList_decimal] at value
    split at value
    · rename_i natural
      rw [value?_toDigits, Option.some_inj] at value
      rw [← value, ← Int32.ofInt_eq_ofNat, Int.toNat_of_nonneg natural, Int32.ofInt_toInt]
    · cases (value?_eq_some.1 value).2

/-- The lexeme shows a constant of the value. -/
def Displays (lexeme : String) : Literal → Prop
  | .int v => parseNumber lexeme = .ok v ∨ lexeme = toString v.toInt
  | .bool b => lexeme = if b then "True" else "False"
  | .string text => Quoted.Closed lexeme ∧ decodeString lexeme = .ok text

theorem Displays.lexeme {lexeme : String} {v : Literal} (h : Displays lexeme v) : Lexeme lexeme := by
  match v, h with
  | .int _, .inl read => exact .word (not_delimiter_of_decode (parseNumber_eq_ok.1 read))
  | .int _, .inr shown => exact shown ▸ .word (word_decimal _)
  | .bool true, shown => exact shown ▸ .word (by decide)
  | .bool false, shown => exact shown ▸ .word (by decide)
  | .string _, h => exact .quoted h.1

theorem Displays.int_unique {lexeme : String} {v w : Int32} (h : Displays lexeme (.int v))
    (h' : Displays lexeme (.int w)) : v = w := by
  rcases h with read | shown <;> rcases h' with read' | shown'
  · exact Except.ok.inj (read.symm.trans read')
  · exact parseNumber_decimal (shown' ▸ read)
  · exact (parseNumber_decimal (shown ▸ read')).symm
  · exact Int32.toInt_inj.1 (decimal_inj (shown.symm.trans shown'))

/-- Kind and lexeme determine the value. -/
theorem Displays.unique {lexeme : String} {v w : Literal} (h : Displays lexeme v)
    (h' : Displays lexeme w) (kind : v.kindName = w.kindName) : v = w := by
  match v, w with
  | .int v, .int w => rw [h.int_unique h']
  | .bool b, .bool b' =>
    have words : (if b then "True" else "False") = if b' then "True" else "False" :=
      h.symm.trans h'
    cases b <;> cases b' <;> simp_all
  | .string _, .string _ => rw [Except.ok.inj (h.2.symm.trans h'.2)]
  | .int _, .bool _ | .int _, .string _ | .bool _, .int _ | .bool _, .string _
  | .string _, .int _ | .string _, .bool _ => simp [Literal.kindName] at kind

/-- The constants that can be built. A string also has to end where a reader of its lexeme
stops. -/
inductive Constant.Written : Constant → Prop where
  | numeral {lexeme : String} {line : Nat} {c : Constant} :
      Constant.ofNumeral lexeme line = .ok c → Constant.Written c
  | int (value : Int32) (line : Nat) : Constant.Written (.ofInt value line)
  | character {lexeme : String} {line : Nat} {c : Constant} :
      Constant.ofCharacter lexeme line = .ok c → Constant.Written c
  | bool (value : Bool) (line : Nat) : Constant.Written (.ofBool value line)
  | boolWord {lexeme : String} {line : Nat} {c : Constant} :
      Constant.ofBoolWord lexeme line = .ok c → Constant.Written c
  | string {lexeme : String} {line : Nat} {c : Constant} : Quoted.Closed lexeme →
      Constant.ofString lexeme line = .ok c → Constant.Written c

theorem Constant.Written.displays {c : Constant} (h : c.Written) : Displays c.lexeme c.value := by
  cases h with
  | @numeral lexeme line _ built =>
    rw [Constant.ofNumeral] at built
    cases read : parseNumber lexeme with
    | error e =>
      rw [read] at built
      cases built
    | ok v =>
      rw [read] at built
      cases built
      exact .inl read
  | int value line => exact .inr rfl
  | character built =>
    rw [Constant.ofCharacter] at built
    split at built <;> cases built
    exact .inr rfl
  | bool value line => exact rfl
  | boolWord built =>
    simp only [Constant.ofBoolWord] at built
    split at built
    · cases built
      rfl
    · split at built <;> cases built
      rfl
  | @string lexeme line _ closed built =>
    rw [Constant.ofString] at built
    cases read : decodeString lexeme with
    | error e =>
      rw [read] at built
      cases built
    | ok text =>
      rw [read] at built
      cases built
      exact ⟨closed, read⟩

end Decaf
