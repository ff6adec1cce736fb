/-!
# Operators and types of the language

Each operator and each type has one token, the word by which the grammar refers
to it, and one name, the word under which outlines show it. Reading a token is a
search of the list of all members: `ofToken_token` says that every member is found
under its own token.
-/

namespace Decaf

inductive BinaryOp where
  | mul | div | mod | add | sub | shl | shr
  | eq | ne | ge | le | gt | lt
  | and | or
  deriving DecidableEq, Repr

inductive UnaryOp where
  | not | neg
  deriving DecidableEq, Repr

/-- The types a declaration can have. Strings are only ever handled by address. -/
inductive Ty where
  | int | bool | string | void
  deriving DecidableEq, Repr

/-- What a token was expected to be. -/
inductive TokenCategory where
  | binaryOperator | unaryOperator | type
  deriving DecidableEq, Repr

/-- A token that no member of its category has. -/
structure UnknownToken where
  category : TokenCategory
  token : String
  deriving DecidableEq, Repr

def TokenCategory.description : TokenCategory → String
  | .binaryOperator => "binary operator"
  | .unaryOperator => "unary operator"
  | .type => "type"

def UnknownToken.message (e : UnknownToken) : String :=
  s!"unrecognized {e.category.description} token `{e.token}`"

namespace BinaryOp

def all : List BinaryOp :=
  [mul, div, mod, add, sub, shl, shr, eq, ne, ge, le, gt, lt, and, or]

theorem mem_all (op : BinaryOp) : op ∈ all := by
  cases op <;> decide

def token : BinaryOp → String
  | mul => "T_MULT"
  | div => "T_DIV"
  | mod => "T_MOD"
  | add => "T_PLUS"
  | sub => "T_MINUS"
  | shl => "T_LEFTSHIFT"
  | shr => "T_RIGHTSHIFT"
  | eq => "T_EQ"
  | ne => "T_NEQ"
  | ge => "T_GEQ"
  | le => "T_LEQ"
  | gt => "T_GT"
  | lt => "T_LT"
  | and => "T_AND"
  | or => "T_OR"

def name : BinaryOp → String
  | mul => "Mult"
  | div => "Div"
  | mod => "Mod"
  | add => "Plus"
  | sub => "Minus"
  | shl => "Leftshift"
  | shr => "Rightshift"
  | eq => "Eq"
  | ne => "Neq"
  | ge => "Geq"
  | le => "Leq"
  | gt => "Gt"
  | lt => "Lt"
  | and => "And"
  | or => "Or"

/-- The right operand is evaluated only if the left one leaves the result open. -/
def isShortCircuit : BinaryOp → Bool
  | and | or => true
  | _ => false

def isComparison : BinaryOp → Bool
  | eq | ne | ge | le | gt | lt => true
  | _ => false

def ofToken (token : String) : Except UnknownToken BinaryOp :=
  match all.find? (·.token == token) with
  | some op => .ok op
  | none => .error ⟨.binaryOperator, token⟩

theorem ofToken_token (op : BinaryOp) : ofToken op.token = .ok op := by
  cases op <;> rfl

end BinaryOp

namespace UnaryOp

def all : List UnaryOp := [not, neg]

theorem mem_all (op : UnaryOp) : op ∈ all := by
  cases op <;> decide

def token : UnaryOp → String
  | not => "T_NOT"
  | neg => "T_UMINUS"

def name : UnaryOp → String
  | not => "Not"
  | neg => "UnaryMinus"

def ofToken (token : String) : Except UnknownToken UnaryOp :=
  match all.find? (·.token == token) with
  | some op => .ok op
  | none => .error ⟨.unaryOperator, token⟩

theorem ofToken_token (op : UnaryOp) : ofToken op.token = .ok op := by
  cases op <;> rfl

end UnaryOp

namespace Ty

def all : List Ty := [int, bool, string, void]

theorem mem_all (ty : Ty) : ty ∈ all := by
  cases ty <;> decide

def token : Ty → String
  | int => "T_INTTYPE"
  | bool => "T_BOOLTYPE"
  | string => "T_STRINGTYPE"
  | void => "T_VOID"

def name : Ty → String
  | int => "IntType"
  | bool => "BoolType"
  | string => "StringType"
  | void => "VoidType"

def ofToken (token : String) : Except UnknownToken Ty :=
  match all.find? (·.token == token) with
  | some ty => .ok ty
  | none => .error ⟨.type, token⟩

theorem ofToken_token (ty : Ty) : ofToken ty.token = .ok ty := by
  cases ty <;> rfl

end Ty

end Decaf
