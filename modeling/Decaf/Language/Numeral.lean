/-!
# Numerals

A numeral is a non-empty run of decimal digits whose value is a non-negative
32-bit integer, or `0x` and a non-empty run of hexadecimal digits whose value is
a 32-bit pattern, read in two's complement. Leading zeros are harmless. A run of
digits of the right shape whose value is too large is told apart from a text
that is no numeral at all.
-/

namespace Decaf.Numeral

/-- Why a text is no 32-bit numeral. -/
inductive Defect where
  | malformed
  | outOfRange
  deriving DecidableEq, Repr

/-- The value of an ASCII digit below the radix. -/
def digit? (radix : Nat) (c : Char) : Option Nat :=
  let value :=
    if '0' ≤ c ∧ c ≤ '9' then some (c.toNat - '0'.toNat)
    else if 'a' ≤ c ∧ c ≤ 'f' then some (c.toNat - 'a'.toNat + 10)
    else if 'A' ≤ c ∧ c ≤ 'F' then some (c.toNat - 'A'.toNat + 10)
    else none
  value.filter (· < radix)

/-- Appends one digit to the value read so far. -/
def extend (radix : Nat) (value : Nat) (c : Char) : Option Nat :=
  (digit? radix c).map (value * radix + ·)

/-- The value of a non-empty run of digits. -/
def value? (radix : Nat) (digits : List Char) : Option Nat :=
  if digits.isEmpty then none else digits.foldlM (extend radix) 0

/-- A run of digits whose value lies below the bound, as a 32-bit pattern. -/
def bounded (radix bound : Nat) (digits : List Char) : Except Defect Int32 :=
  match value? radix digits with
  | none => .error .malformed
  | some n => if n < bound then .ok (Int32.ofNat n) else .error .outOfRange

def decode : List Char → Except Defect Int32
  | '0' :: 'x' :: digits => bounded 16 0x100000000 digits
  | '0' :: 'X' :: digits => bounded 16 0x100000000 digits
  | digits => bounded 10 0x80000000 digits

end Decaf.Numeral
