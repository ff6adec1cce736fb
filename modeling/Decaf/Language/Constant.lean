import Decaf.Language.Operator
import Decaf.Language.Numeral
import Decaf.Language.Quoted

/-!
# Constants

A constant has a value and the lexeme under which outlines show it. Numerals and
strings keep the lexeme they were written with; characters become the numeral of
their code point and Boolean words are shown in one spelling.
-/

namespace Decaf

/-- The value of a constant. -/
inductive Literal where
  | int (value : Int32)
  | bool (value : Bool)
  | string (text : String)
  deriving DecidableEq, Repr

/-- A lexeme that writes no constant, and why. -/
inductive LiteralError where
  | invalidNumber (lexeme : String)
  | outOfRange (lexeme : String)
  | invalidBool (lexeme : String)
  | malformedString (lexeme : String)
  | malformedChar (lexeme : String)
  deriving DecidableEq, Repr

def LiteralError.message : LiteralError → String
  | invalidNumber lexeme => s!"invalid numeric literal `{lexeme}`"
  | outOfRange lexeme => s!"numeric literal `{lexeme}` does not fit in 32 bits"
  | invalidBool lexeme => s!"invalid boolean literal `{lexeme}`"
  | malformedString lexeme => s!"malformed string literal `{lexeme}`"
  | malformedChar lexeme => s!"malformed character literal `{lexeme}`"

structure Constant where
  value : Literal
  lexeme : String
  line : Nat
  deriving DecidableEq, Repr

/-- The 32-bit integer that a numeral writes. -/
def parseNumber (lexeme : String) : Except LiteralError Int32 :=
  match Numeral.decode lexeme.toList with
  | .ok value => .ok value
  | .error .malformed => .error (.invalidNumber lexeme)
  | .error .outOfRange => .error (.outOfRange lexeme)

/-- The text that a quoted string lexeme writes. -/
def decodeString (lexeme : String) : Except LiteralError String :=
  match Quoted.decodeString? lexeme.toList with
  | some text => .ok (String.ofList text)
  | none => .error (.malformedString lexeme)

namespace Literal

def ty : Literal → Ty
  | int _ => .int
  | bool _ => .bool
  | string _ => .string

/-- The word that outlines use for constants of this kind. -/
def kindName : Literal → String
  | int _ => "NumberExpr"
  | bool _ => "BoolExpr"
  | string _ => "StringConstant"

end Literal

namespace Constant

def ofInt (value : Int32) (line : Nat) : Constant :=
  ⟨.int value, toString value.toInt, line⟩

def ofBool (value : Bool) (line : Nat) : Constant :=
  ⟨.bool value, if value then "True" else "False", line⟩

def ofNumeral (lexeme : String) (line : Nat) : Except LiteralError Constant := do
  let value ← parseNumber lexeme
  return ⟨.int value, lexeme, line⟩

/-- A character literal is the integer constant of its code point. -/
def ofCharacter (lexeme : String) (line : Nat) : Except LiteralError Constant :=
  match Quoted.decodeCharacter? lexeme.toList with
  | some c => .ok (ofInt (Int32.ofNat c.toNat) line)
  | none => .error (.malformedChar lexeme)

/-- The words `true` and `false` in any mixture of ASCII cases. -/
def ofBoolWord (lexeme : String) (line : Nat) : Except LiteralError Constant :=
  let word := lexeme.toList.map Char.toLower
  if word = "true".toList then .ok (ofBool true line)
  else if word = "false".toList then .ok (ofBool false line)
  else .error (.invalidBool lexeme)

def ofString (lexeme : String) (line : Nat) : Except LiteralError Constant := do
  let text ← decodeString lexeme
  return ⟨.string text, lexeme, line⟩

def ty (c : Constant) : Ty :=
  c.value.ty

end Constant

end Decaf
