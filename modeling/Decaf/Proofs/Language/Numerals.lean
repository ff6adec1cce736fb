import Mathlib.Data.Nat.Digits.Defs
import Decaf.Proofs.Language.Lexemes

/-!
# Numerals and the numbers they write

Which texts are numerals, and of which numbers, said by the place of each digit and not by reading
the text. The reader accepts a numeral exactly if its number fits into 32 bits, tells numbers that
do not fit from texts that are no numerals, and takes back what is written in decimal or, in either
case of letters, in hexadecimal.
-/

namespace Decaf

namespace Numeral

/-- The digits in the order of their values. -/
def digitChars : List Char :=
  ['0', '1', '2', '3', '4', '5', '6', '7', '8', '9', 'a', 'b', 'c', 'd', 'e', 'f']

/-- The value of a digit, whose letters may be of either case. Any other character has 16. -/
def digitValue (c : Char) : Nat :=
  digitChars.idxOf c.toLower

def IsHexDigit (c : Char) : Prop :=
  c.isDigit ∨ ('a' ≤ c ∧ c ≤ 'f') ∨ ('A' ≤ c ∧ c ≤ 'F')

instance (c : Char) : Decidable (IsHexDigit c) :=
  inferInstanceAs (Decidable (_ ∨ _))

/-- The number that digits write, the last one being the unit. -/
def positional (radix : Nat) (digits : List Char) : Nat :=
  Nat.ofDigits radix (digits.reverse.map digitValue)

/-- The text is a non-empty run of digits below the radix and writes the number. -/
def Run (radix : Nat) (text : List Char) (n : Nat) : Prop :=
  text ≠ [] ∧ (∀ c ∈ text, digitValue c < radix) ∧ positional radix text = n

/-- The text is a non-empty run of decimal digits that writes the number. -/
def Decimal (text : List Char) (n : Nat) : Prop :=
  text ≠ [] ∧ (∀ c ∈ text, c.isDigit) ∧ positional 10 text = n

/-- The text is `0x` or `0X` and a non-empty run of hexadecimal digits that writes the number. -/
def Hexadecimal (text : List Char) (n : Nat) : Prop :=
  ∃ mark digits, (mark = 'x' ∨ mark = 'X') ∧ text = '0' :: mark :: digits ∧ digits ≠ [] ∧
    (∀ c ∈ digits, IsHexDigit c) ∧ positional 16 digits = n

/-- The integer for which a 32-bit pattern stands in two's complement. -/
def twosComplement (n : Nat) : Int :=
  if n < 2 ^ 31 then n else n - 2 ^ 32

section Digits

variable {c : Char}

/-- What holds of the ASCII characters is checked for each of them. -/
theorem forall_ascii {p : Char → Prop} (ascii : ∀ n < 128, p (Char.ofNat n))
    (others : ∀ c : Char, 128 ≤ c.toNat → p c) (c : Char) : p c := by
  rcases Nat.lt_or_ge c.toNat 128 with small | large
  · have here := ascii c.toNat small
    rwa [Char.ofNat_toNat] at here
  · exact others c large

theorem le_iff_toNat {c d : Char} : c ≤ d ↔ c.toNat ≤ d.toNat :=
  UInt32.le_iff_toNat_le

theorem toLower_of_large (large : 128 ≤ c.toNat) : c.toLower = c := by
  refine dif_neg ?_
  rintro ⟨-, below⟩
  have most : c.toNat ≤ 'Z'.toNat := below
  have last : 'Z'.toNat = 90 := rfl
  omega

/-- Beyond ASCII there are no digits. -/
theorem digitValue_of_large (large : 128 ≤ c.toNat) : digitValue c = 16 := by
  rw [digitValue, toLower_of_large large]
  refine List.idxOf_of_notMem fun mem => ?_
  have ascii : digitChars.all (·.toNat < 128) = true := by decide
  have small : c.toNat < 128 := of_decide_eq_true (List.all_eq_true.1 ascii c mem)
  omega

theorem isDigit_iff : c.isDigit ↔ digitValue c < 10 := by
  refine forall_ascii (p := fun c => c.isDigit ↔ digitValue c < 10) (by decide +kernel) ?_ c
  intro c large
  rw [digitValue_of_large large]
  simp only [Char.isDigit, ge_iff_le, Bool.and_eq_true, decide_eq_true_eq]
  refine ⟨fun between => ?_, fun absurd => by omega⟩
  have most : c.toNat ≤ '9'.toNat := between.2
  have last : '9'.toNat = 57 := rfl
  omega

theorem isHexDigit_iff : IsHexDigit c ↔ digitValue c < 16 := by
  refine forall_ascii (p := fun c => IsHexDigit c ↔ digitValue c < 16) (by decide +kernel) ?_ c
  intro c large
  rw [IsHexDigit, isDigit_iff, digitValue_of_large large]
  simp only [le_iff_toNat]
  have last : 'f'.toNat = 102 := rfl
  have last' : 'F'.toNat = 70 := rfl
  omega

/-- The reader takes the digits below the radix at their values. -/
theorem digit?_eq {radix : Nat} (most : radix ≤ 16) (c : Char) :
    digit? radix c = if digitValue c < radix then some (digitValue c) else none := by
  have sixteen : digit? 16 c = if digitValue c < 16 then some (digitValue c) else none := by
    refine forall_ascii (p := fun c => digit? 16 c = if digitValue c < 16 then
      some (digitValue c) else none) (by decide +kernel) ?_ c
    intro c large
    rw [digitValue_of_large large, if_neg (Nat.lt_irrefl 16), digit?]
    have most : '9'.toNat = 57 ∧ 'f'.toNat = 102 ∧ 'F'.toNat = 70 := ⟨rfl, rfl, rfl⟩
    rw [if_neg, if_neg, if_neg]
    · rfl
    all_goals
      simp only [le_iff_toNat]
      omega
  -- A smaller radix only takes digits away.
  have filtered : digit? radix c = (digit? 16 c).filter (· < radix) := by
    simp only [digit?, Option.filter_filter]
    congr 1
    funext value
    simp only [← Bool.decide_and]
    exact decide_eq_decide.2 ⟨fun h => ⟨by omega, h⟩, And.right⟩
  rw [filtered, sixteen]
  by_cases digit : digitValue c < 16
  · rw [if_pos digit, Option.filter_some]
    simp only [decide_eq_true_eq]
  · rw [if_neg digit, if_neg (by omega)]
    rfl

end Digits

section Runs

variable {radix n start : Nat} {digits : List Char}

theorem positional_cons (radix : Nat) (d : Char) (digits : List Char) :
    positional radix (d :: digits) =
      positional radix digits + radix ^ digits.length * digitValue d := by
  simp [positional, Nat.ofDigits_append, Nat.ofDigits_singleton]

/-- Zeros in front do not count. -/
theorem positional_zeros (radix k : Nat) (digits : List Char) :
    positional radix (List.replicate k '0' ++ digits) = positional radix digits := by
  induction k with
  | zero => rfl
  | succ k ih =>
    have zero : digitValue '0' = 0 := rfl
    rw [List.replicate_succ, List.cons_append, positional_cons, zero, Nat.mul_zero, Nat.add_zero,
      ih]

/-- Reading on adds the number of the digits to what was read before, which they shift. -/
theorem foldlM_extend_eq_some (most : radix ≤ 16) :
    digits.foldlM (extend radix) start = some n ↔ (∀ c ∈ digits, digitValue c < radix) ∧
      positional radix digits + radix ^ digits.length * start = n := by
  induction digits generalizing start with
  | nil => simp [positional]
  | cons d ds ih =>
    rw [List.foldlM_cons, extend, digit?_eq most, List.forall_mem_cons, positional_cons]
    by_cases digit : digitValue d < radix
    · rw [if_pos digit]
      have shifted : positional radix ds + radix ^ ds.length * (start * radix + digitValue d) =
          positional radix ds + radix ^ ds.length * digitValue d +
            radix ^ (d :: ds).length * start := by
        rw [List.length_cons]
        ring
      simp only [Option.map_some, Option.bind_eq_bind, Option.bind_some, ih, shifted, digit,
        true_and]
    · simp [digit]

theorem value?_eq_some_iff (most : radix ≤ 16) :
    value? radix digits = some n ↔ Run radix digits n := by
  rw [value?_eq_some, foldlM_extend_eq_some most, Nat.mul_zero, Nat.add_zero, Run]

end Runs

section Written

variable {radix n : Nat} {digits : List Char}

theorem digitValue_digitChar {d : Nat} (small : d < 16) : digitValue d.digitChar = d := by
  have all : ∀ d < 16, digitValue d.digitChar = d := by decide
  exact all d small

theorem digitValue_toLower (c : Char) : digitValue c.toLower = digitValue c := by
  refine forall_ascii (p := fun c => digitValue c.toLower = digitValue c) (by decide +kernel) ?_ c
  intro c large
  rw [toLower_of_large large]

/-- What is written in a radix has only digits of that radix, and they write the number. -/
theorem positional_toDigits (two : 1 < radix) (most : radix ≤ 16) (n : Nat) :
    (∀ c ∈ Nat.toDigits radix n, digitValue c < radix) ∧
      positional radix (Nat.toDigits radix n) = n := by
  induction n using Nat.strong_induction_on with
  | _ n ih =>
    have unit {d : Nat} (small : d < radix) : digitValue d.digitChar = d :=
      digitValue_digitChar (Nat.lt_of_lt_of_le small most)
    rcases Nat.lt_or_ge n radix with small | large
    · rw [Nat.toDigits_of_lt_base small]
      simp [positional, unit small, small]
    · have last := Nat.mod_lt n (Nat.lt_of_succ_lt two)
      obtain ⟨each, value⟩ := ih (n / radix) (Nat.div_lt_self (by omega) two)
      rw [Nat.toDigits_of_base_le two large]
      constructor
      · intro c mem
        rcases List.mem_append.1 mem with front | back
        · exact each c front
        · rw [List.mem_singleton.1 back, unit last]
          exact last
      · rw [positional, List.reverse_append, List.map_append, Nat.ofDigits_append]
        simp only [List.reverse_singleton, List.map_singleton, Nat.ofDigits_singleton, unit last,
          List.length_singleton, Nat.pow_one]
        rw [← positional, value, Nat.mod_add_div]

/-- The case of the letters makes no difference. -/
theorem run_of_toLower (two : 1 < radix) (most : radix ≤ 16)
    (written : digits.map Char.toLower = Nat.toDigits radix n) : Run radix digits n := by
  obtain ⟨each, value⟩ := positional_toDigits two most n
  rw [← written] at each value
  refine ⟨fun none => ?_, fun c mem => ?_, ?_⟩
  · rw [none] at written
    exact Nat.toDigits_ne_nil written.symm
  · have lower := each c.toLower (List.mem_map_of_mem mem)
    rwa [digitValue_toLower] at lower
  · rw [← value, positional, positional, ← List.map_reverse, List.map_map]
    congr 2
    funext c
    exact (digitValue_toLower c).symm

theorem Run.zeros (h : Run radix digits n) (positive : 0 < radix) (k : Nat) :
    Run radix (List.replicate k '0' ++ digits) n := by
  obtain ⟨some, each, value⟩ := h
  refine ⟨by simp [some], fun c mem => ?_, by rw [positional_zeros, value]⟩
  rcases List.mem_append.1 mem with front | back
  · rw [List.eq_of_mem_replicate front]
    exact positive
  · exact each c back

end Written

section Verdicts

variable {radix bound n : Nat} {digits text : List Char} {v : Int32}

theorem decimal_iff : Decimal text n ↔ Run 10 text n := by
  simp only [Decimal, Run, isDigit_iff]

theorem hexadecimal_iff : Hexadecimal text n ↔ ∃ mark digits, (mark = 'x' ∨ mark = 'X') ∧
    text = '0' :: mark :: digits ∧ Run 16 digits n := by
  simp only [Hexadecimal, Run, isHexDigit_iff]

/-- A text is read as a run of digits, and which numeral it is, if any, is decided by that run. -/
theorem decode_shape (text : List Char) :
    (decode text = bounded 10 (2 ^ 31) text ∧ ∀ n, ¬ Hexadecimal text n) ∨
      ∃ digits, decode text = bounded 16 (2 ^ 32) digits ∧
        (∀ n, Hexadecimal text n ↔ Run 16 digits n) ∧ ∀ n, ¬ Decimal text n := by
  by_cases marked : ∃ mark digits, (mark = 'x' ∨ mark = 'X') ∧ text = '0' :: mark :: digits
  · obtain ⟨mark, digits, mark_eq, rfl⟩ := marked
    refine .inr ⟨digits, ?_, fun n => ?_, fun n decimal => ?_⟩
    · rcases mark_eq with rfl | rfl <;> rfl
    · rw [hexadecimal_iff]
      constructor
      · rintro ⟨mark', digits', -, same, run⟩
        cases same
        exact run
      · exact fun run => ⟨mark, digits, mark_eq, rfl, run⟩
    · have letter := decimal.2.1 mark (by simp)
      rcases mark_eq with rfl | rfl <;> cases letter
  · refine .inl ⟨?_, fun n ⟨mark, digits, mark_eq, same, _⟩ => marked ⟨mark, digits, mark_eq, same⟩⟩
    unfold decode
    split
    · exact absurd ⟨'x', _, .inl rfl, rfl⟩ marked
    · exact absurd ⟨'X', _, .inr rfl, rfl⟩ marked
    · rfl

theorem bounded_eq_outOfRange (most : radix ≤ 16) :
    bounded radix bound digits = .error .outOfRange ↔ ∃ n, Run radix digits n ∧ bound ≤ n := by
  simp only [← value?_eq_some_iff most, bounded]
  cases value? radix digits with
  | none => simp
  | some n =>
    by_cases fits : n < bound
    · simp [fits]
    · simp [fits, Nat.le_of_not_lt fits]

theorem bounded_eq_malformed (most : radix ≤ 16) :
    bounded radix bound digits = .error .malformed ↔ ∀ n, ¬ Run radix digits n := by
  simp only [← value?_eq_some_iff most, bounded]
  cases value? radix digits with
  | none => simp
  | some n => by_cases fits : n < bound <;> simp [fits]

theorem toInt_ofNat {n : Nat} (fits : n < 2 ^ 32) : (Int32.ofNat n).toInt = twosComplement n := by
  have size : (Int32.size : Int) = 2 ^ 32 := rfl
  rw [Int32.toInt_ofNat', twosComplement, Int.bmod_def, size]
  split <;> split <;> omega

theorem toInt_toInt32 (w : UInt32) : w.toInt32.toInt = twosComplement w.toNat := by
  have same : w.toInt32.toInt = w.toBitVec.toInt := rfl
  rw [same, BitVec.toInt_eq_toNat_cond, twosComplement]
  have pattern : w.toBitVec.toNat = w.toNat := rfl
  rw [pattern]
  split <;> split <;> omega

/-- A run that fits is read as the integer that its number stands for. -/
theorem bounded_eq_ok_iff (most : radix ≤ 16) (small : bound ≤ 2 ^ 32) :
    bounded radix bound digits = .ok v ↔
      ∃ n, Run radix digits n ∧ n < bound ∧ v.toInt = twosComplement n := by
  rw [bounded_eq_ok]
  refine exists_congr fun n => ?_
  rw [value?_eq_some_iff most]
  refine and_congr_right fun _ => and_congr_right fun fits => ?_
  rw [← toInt_ofNat (Nat.lt_of_lt_of_le fits small), Int32.toInt_inj, eq_comm]

end Verdicts

end Numeral

open Numeral

theorem parseNumber_eq_outOfRange {text : String} :
    parseNumber text = .error (.outOfRange text) ↔ decode text.toList = .error .outOfRange := by
  unfold parseNumber
  split <;> rename_i read <;> simp [read]

theorem parseNumber_eq_invalidNumber {text : String} :
    parseNumber text = .error (.invalidNumber text) ↔ decode text.toList = .error .malformed := by
  unfold parseNumber
  split <;> rename_i read <;> simp [read]

section

variable {text : String} {v : Int32}

/-- Accepted are the numerals that fit: in decimal below `2 ^ 31`, in hexadecimal below `2 ^ 32`. -/
theorem parseNumber_eq_ok_iff : parseNumber text = .ok v ↔
    (∃ n, Decimal text.toList n ∧ n < 2 ^ 31 ∧ v.toInt = n) ∨
      ∃ n, Hexadecimal text.toList n ∧ n < 2 ^ 32 ∧ v.toInt = twosComplement n := by
  have natural {n : Nat} (fits : n < 2 ^ 31) : twosComplement n = n := if_pos fits
  rw [parseNumber_eq_ok]
  rcases decode_shape text.toList with ⟨read, hex⟩ | ⟨digits, read, hex, decimal⟩
  · rw [read, bounded_eq_ok_iff (by decide) (by decide)]
    simp only [← decimal_iff, hex, false_and, exists_false, or_false]
    refine exists_congr fun n => and_congr_right fun _ => and_congr_right fun fits => ?_
    rw [natural fits]
  · rw [read, bounded_eq_ok_iff (by decide) (by decide)]
    simp only [← hex, decimal, false_and, exists_false, false_or]

/-- Out of range are the numerals that do not fit. -/
theorem parseNumber_eq_outOfRange_iff : parseNumber text = .error (.outOfRange text) ↔
    (∃ n, Decimal text.toList n ∧ 2 ^ 31 ≤ n) ∨
      ∃ n, Hexadecimal text.toList n ∧ 2 ^ 32 ≤ n := by
  rw [parseNumber_eq_outOfRange]
  rcases decode_shape text.toList with ⟨read, hex⟩ | ⟨digits, read, hex, decimal⟩
  · rw [read, bounded_eq_outOfRange (by decide)]
    simp only [← decimal_iff, hex, false_and, exists_false, or_false]
  · rw [read, bounded_eq_outOfRange (by decide)]
    simp only [← hex, decimal, false_and, exists_false, false_or]

/-- Everything else is no numeral. -/
theorem parseNumber_eq_invalidNumber_iff : parseNumber text = .error (.invalidNumber text) ↔
    (∀ n, ¬ Decimal text.toList n) ∧ ∀ n, ¬ Hexadecimal text.toList n := by
  rw [parseNumber_eq_invalidNumber]
  rcases decode_shape text.toList with ⟨read, hex⟩ | ⟨digits, read, hex, decimal⟩
  · rw [read, bounded_eq_malformed (by decide)]
    simp only [← decimal_iff, hex, not_false_eq_true, implies_true, and_true]
  · rw [read, bounded_eq_malformed (by decide)]
    simp only [← hex, decimal, not_false_eq_true, implies_true, true_and]

end

/-- The decimal text of an integer that is not negative is read back, with zeros in front too. -/
theorem parseNumber_toString (v : Int32) (natural : 0 ≤ v) (k : Nat) :
    parseNumber (String.ofList (List.replicate k '0' ++ (toString v.toInt).toList)) = .ok v := by
  have sign : 0 ≤ v.toInt := Int32.le_iff_toInt_le.1 natural
  have most := Int32.toInt_lt v
  rw [parseNumber_eq_ok_iff, String.toList_ofList, toList_decimal, if_pos sign]
  refine .inl ⟨v.toInt.toNat, decimal_iff.2 ?_, by omega, (Int.toNat_of_nonneg sign).symm⟩
  have written : Run 10 (Nat.toDigits 10 v.toInt.toNat) v.toInt.toNat :=
    ⟨Nat.toDigits_ne_nil, positional_toDigits (by decide) (by decide) _⟩
  exact written.zeros (by decide) k

/-- The hexadecimal text of a pattern is read back as the integer it stands for, whatever the case
of its letters. -/
theorem parseNumber_toDigits (w : UInt32) {mark : Char} (marked : mark = 'x' ∨ mark = 'X') (k : Nat)
    {digits : List Char} (written : digits.map Char.toLower = Nat.toDigits 16 w.toNat) :
    parseNumber (String.ofList ('0' :: mark :: (List.replicate k '0' ++ digits))) =
      .ok w.toInt32 := by
  have run := run_of_toLower (by decide) (by decide) written
  rw [parseNumber_eq_ok_iff, String.toList_ofList]
  exact .inr ⟨w.toNat, hexadecimal_iff.2 ⟨mark, _, marked, rfl, run.zeros (by decide) k⟩,
    w.toNat_lt, toInt_toInt32 w⟩

/-- Numbers are read from exactly the 32-bit numerals: the decimal ones of at most `2 ^ 31 - 1` at
their number and the hexadecimal ones below `2 ^ 32` in two's complement. A numeral of either form
whose number is larger is out of range, and any other text is no number. So what is written in
decimal or, in either case, in hexadecimal is read back, behind any zeros. -/
theorem parseNumber_reads :
    (∀ (text : String) (v : Int32), parseNumber text = .ok v ↔
      (∃ n, Decimal text.toList n ∧ n ≤ 2 ^ 31 - 1 ∧ v.toInt = n) ∨
        ∃ n, Hexadecimal text.toList n ∧ n < 2 ^ 32 ∧ v.toInt = twosComplement n) ∧
    (∀ text : String, parseNumber text = .error (.outOfRange text) ↔
      (∃ n, Decimal text.toList n ∧ 2 ^ 31 - 1 < n) ∨ ∃ n, Hexadecimal text.toList n ∧ 2 ^ 32 ≤ n) ∧
    (∀ text : String, parseNumber text = .error (.invalidNumber text) ↔
      ¬ ((∃ n, Decimal text.toList n) ∨ ∃ n, Hexadecimal text.toList n)) ∧
    (∀ v : Int32, 0 ≤ v → ∀ k, parseNumber
      (String.ofList (List.replicate k '0' ++ (toString v.toInt).toList)) = .ok v) ∧
    ∀ (w : UInt32) (mark : Char) (digits : List Char) (k : Nat), mark = 'x' ∨ mark = 'X' →
      digits.map Char.toLower = Nat.toDigits 16 w.toNat →
      parseNumber (String.ofList ('0' :: mark :: (List.replicate k '0' ++ digits))) =
        .ok w.toInt32 := by
  have fits (n : Nat) : n ≤ 2 ^ 31 - 1 ↔ n < 2 ^ 31 := by omega
  have exceeds (n : Nat) : 2 ^ 31 - 1 < n ↔ 2 ^ 31 ≤ n := by omega
  refine ⟨fun text v => ?_, fun text => ?_, fun text => ?_, fun v natural k =>
    parseNumber_toString v natural k, fun w mark digits k marked written =>
    parseNumber_toDigits w marked k written⟩
  · simp only [fits]
    exact parseNumber_eq_ok_iff
  · simp only [exceeds]
    exact parseNumber_eq_outOfRange_iff
  · rw [parseNumber_eq_invalidNumber_iff, not_or, not_exists, not_exists]

/-- The largest integer is read back from ten digits behind two zeros, and the pattern of all ones
from letters of both cases. -/
theorem parseNumber_reads_limits :
    parseNumber "002147483647" = .ok 2147483647 ∧ parseNumber "0XfFfFFfff" = .ok (-1) := by
  obtain ⟨-, -, -, decimal, hexadecimal⟩ := parseNumber_reads
  have largest := decimal 2147483647 (by decide) 2
  have ones := hexadecimal 0xFFFFFFFF 'X' "fFfFFfff".toList 0 (.inr rfl) (by decide)
  exact ⟨largest, ones⟩

end Decaf
