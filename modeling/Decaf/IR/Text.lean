import Decaf.IR.Module

/-!
# The text of a module

The text form of a module: a header, the globals, then each function with its blocks.
Constants are written in place; every other operand is written by its name, `@` before
the name of a global and `%` before the name of anything local.
-/

namespace Decaf.IR

/-- Each part on a line of its own. -/
def unlines (lines : List String) : String :=
  String.join (lines.map (· ++ "\n"))

def commaSeparated (parts : List String) : String :=
  ", ".intercalate parts

/-- The upper-case digit of a number below 16. -/
def hexDigit (n : Nat) : Char :=
  if n < 10 then Char.ofNat ('0'.toNat + n) else Char.ofNat ('A'.toNat + (n - 10))

/-- Printable ASCII characters other than the quote and the backslash stand for
themselves; any other byte is written as a backslash and two hexadecimal digits. -/
def escapeByte (b : UInt8) : List Char :=
  let n := b.toNat
  if 32 ≤ n ∧ n < 127 ∧ n ≠ 34 ∧ n ≠ 92 then [Char.ofNat n]
  else ['\\', hexDigit (n / 16), hexDigit (n % 16)]

def escapeBytes (bytes : List UInt8) : String :=
  String.ofList (bytes.flatMap escapeByte)

/-- A string is stored with one zero byte after it. -/
def Global.text (g : Global) : String :=
  match g.kind with
  | .scalar ty init => s!"@{g.name} = global {ty.name} {init.text}"
  | .array ty length => s!"@{g.name} = global [{length} x {ty.name}] zeroinitializer"
  | .string bytes =>
    s!"@{g.name} = private constant [{bytes.length + 1} x i8] c\"{escapeBytes bytes}\\00\""

namespace Module

def operandText (m : Module) (v : ValueId) : String :=
  match m.value? v with
  | some ⟨_, .const c, _⟩ => c.text
  | some ⟨_, .global _, some name⟩ => s!"@{name}"
  | some ⟨_, _, some name⟩ => s!"%{name}"
  | _ => s!"%v{v.index}"

/-- An operand after its type. -/
def typedText (m : Module) (v : ValueId) : String :=
  s!"{(m.typeOf v).name} {m.operandText v}"

/-- An instruction that defines a value, after the name of the value. -/
def definition (m : Module) (dst : ValueId) (body : String) : String :=
  s!"{m.operandText dst} = {body}"

def labelText (m : Module) (b : BlockId) : String :=
  s!"label %{m.labelOf b}"

def incomingText (m : Module) (incoming : ValueId × BlockId) : String :=
  s!"[ {m.operandText incoming.1}, %{m.labelOf incoming.2} ]"

def callText (m : Module) (callee : FunctionId) (args : List ValueId) : String :=
  let signature := match m.function? callee with
    | some target => s!"{target.ret.name} @{target.name}"
    | none => s!"void @f{callee.index}"
  s!"call {signature}({commaSeparated (args.map m.typedText)})"

def instText (m : Module) : Inst → String
  | .alloca dst ty => m.definition dst s!"alloca {ty.name}"
  | .load dst ty address => m.definition dst s!"load {ty.name}, ptr {m.operandText address}"
  | .store value address => s!"store {m.typedText value}, ptr {m.operandText address}"
  | .elementPtr dst ty base index =>
    m.definition dst
      s!"getelementptr {ty.name}, ptr {m.operandText base}, {m.typedText index}"
  | .binary dst op lhs rhs =>
    m.definition dst s!"{op.mnemonic} {m.typedText lhs}, {m.operandText rhs}"
  | .unary dst .not operand =>
    let ones := if m.typeOf operand = .i1 then "true" else "-1"
    m.definition dst s!"xor {m.typedText operand}, {ones}"
  | .unary dst .neg operand =>
    m.definition dst s!"sub {(m.typeOf operand).name} 0, {m.operandText operand}"
  | .zext dst value ty => m.definition dst s!"zext {m.typedText value} to {ty.name}"
  | .phi dst ty incoming =>
    m.definition dst s!"phi {ty.name} {commaSeparated (incoming.map m.incomingText)}"
  | .call (some dst) callee args => m.definition dst (m.callText callee args)
  | .call none callee args => m.callText callee args

def terminatorText (m : Module) : Terminator → String
  | .br target => s!"br {m.labelText target}"
  | .condBr cond thenBlock elseBlock =>
    s!"br {m.typedText cond}, {m.labelText thenBlock}, {m.labelText elseBlock}"
  | .ret (some value) => s!"ret {m.typedText value}"
  | .ret none => "ret void"
  | .unreachable => "unreachable"

/-- The label of a block, then its contents, indented. -/
def blockText (m : Module) (b : BlockId) : String :=
  match m.block? b with
  | none => ""
  | some block =>
    let body := block.insts.toList.map m.instText
      ++ (block.terminator.map m.terminatorText).toList
    unlines ((block.label ++ ":") :: body.map ("  " ++ ·))

/-- Blocks are separated by empty lines. A declaration shows only the types of its
parameters. -/
def functionText (m : Module) (f : Function) : String :=
  if f.isDeclaration then
    let params := commaSeparated (f.params.map (·.ty.name))
    s!"declare {f.ret.name} @{f.name}({params})\n"
  else
    let params := commaSeparated (f.params.map fun p => s!"{p.ty.name} {m.operandText p.value}")
    s!"define {f.ret.name} @{f.name}({params}) \x7b\n"
      ++ "\n".intercalate (f.blocks.toList.map m.blockText) ++ "\x7d\n"

/-- The text of the whole module. -/
def text (m : Module) : String :=
  let globals := if m.globals.isEmpty then "" else
    "\n" ++ unlines (m.globals.toList.map Global.text)
  s!"; ModuleID = '{m.name}'\n" ++ globals
    ++ String.join (m.functions.toList.map fun f => "\n" ++ m.functionText f)

end Module

end Decaf.IR
