/-!
# Quoted text

String and character lexemes are written between quotes and use a backslash to
start an escape. Only the first and the last character of the lexeme are looked
at as quotes: a quote inside stands for itself. In a string an escape that is
not recognized stands for nothing; a character literal refuses it.
-/

namespace Decaf.Quoted

/-- The character that a recognized escape stands for. -/
def unescape : Char → Option Char
  | 'a' => some '\x07'
  | 'b' => some '\x08'
  | 't' => some '\t'
  | 'n' => some '\n'
  | 'v' => some '\x0b'
  | 'f' => some '\x0c'
  | 'r' => some '\r'
  | '\\' => some '\\'
  | '\'' => some '\''
  | '"' => some '"'
  | _ => none

/-- The characters between an opening and a closing quote. The two quotes are
two characters: a lone quote encloses nothing. -/
def interior? (quote : Char) : List Char → Option (List Char)
  | [] => none
  | c :: rest =>
    if c = quote ∧ rest.getLast? = some quote then some rest.dropLast else none

/-- Replaces each escape by its meaning. A backslash at the very end, which
starts no escape, is dropped as well. -/
def decodeBody : List Char → List Char
  | [] => []
  | ['\\'] => []
  | '\\' :: c :: rest => (unescape c).toList ++ decodeBody rest
  | c :: rest => c :: decodeBody rest

def decodeString? (lexeme : List Char) : Option (List Char) :=
  (interior? '"' lexeme).map decodeBody

/-- The single character that a character literal encloses. -/
def decodeCharacter? (lexeme : List Char) : Option Char :=
  match interior? '\'' lexeme with
  | some ['\\', c] => unescape c
  | some [c] => if c = '\\' then none else some c
  | _ => none

end Decaf.Quoted
