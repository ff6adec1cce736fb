import Decaf.IR.Module

/-!
# Checking functions

The check of a function asks that every block has a terminator, that control and values
stay within the function, that returns and calls fit the signatures, that phis stand at
the start of a block and name only predecessors of it, and that operands have the types
their instructions need. What was left out while the function was built fails the check
as well. The first defect in layout order is reported.
-/

namespace Decaf.IR

/-- An operand, or a pair of operands, of the wrong type. -/
inductive TypeDefect where
  | operand (role : String) (found expected : Ty)
  | operands (op : BinOp) (lhs rhs : Ty)
  | widening (source target : Ty)
  deriving DecidableEq, Repr

/-- What is wrong with a function; blocks and callees are given by name. -/
inductive Defect where
  | noBody
  | unterminated (block : String)
  | emitAfterTerminator (block : String)
  | noInsertionPoint
  | foreignBlock (block : String)
  | foreignValue
  | returnType (found expected : Ty)
  | phiNotPredecessor (block incoming : String)
  | phiNotAtBlockStart (block : String)
  | type (defect : TypeDefect)
  | callSignature (callee : String)
  deriving DecidableEq, Repr

structure CheckError where
  function : String
  defect : Defect
  deriving DecidableEq, Repr

def TypeDefect.message : TypeDefect → String
  | operand role found expected => s!"{role} is {found.name}, expected {expected.name}"
  | operands op lhs rhs => s!"`{op.mnemonic}` operands are {lhs.name} and {rhs.name}"
  | widening source target => s!"zext from {source.name} to {target.name}"

def CheckError.message (e : CheckError) : String :=
  match e.defect with
  | .noBody => s!"function `{e.function}` has no body"
  | .unterminated block => s!"block `{block}` in `{e.function}` has no terminator"
  | .emitAfterTerminator block =>
    s!"instruction emitted after the terminator of block `{block}` in `{e.function}`"
  | .noInsertionPoint =>
    s!"instruction emitted with no insertion point in `{e.function}`"
  | .foreignBlock block =>
    s!"block `{block}` in `{e.function}` branches to a block of another function"
  | .foreignValue => s!"`{e.function}` uses a value defined in another function"
  | .returnType found expected =>
    s!"return in `{e.function}` yields {found.name}, signature says {expected.name}"
  | .phiNotPredecessor block incoming =>
    s!"phi in block `{block}` of `{e.function}` names `{incoming}`, which is not a predecessor"
  | .phiNotAtBlockStart block =>
    s!"phi after a non-phi instruction in block `{block}` of `{e.function}`"
  | .type defect => s!"type mismatch in `{e.function}`: {defect.message}"
  | .callSignature callee =>
    s!"call to `{callee}` in `{e.function}` does not match its signature"

namespace Module

/-- The function inside which a value is defined; constants and globals have none. -/
def owner? (m : Module) (v : ValueId) : Option FunctionId :=
  match m.value? v with
  | some ⟨_, .param f _, _⟩ => some f
  | some ⟨_, .inst block, _⟩ => block.bind m.functionOf?
  | _ => none

/-- The type of a value used inside `f`, unless it belongs to another function. -/
def checkedType (m : Module) (f : FunctionId) (v : ValueId) : Except Defect Ty :=
  match m.owner? v with
  | some owner => if owner = f then .ok (m.typeOf v) else .error .foreignValue
  | none => .ok (m.typeOf v)

def checkValue (m : Module) (f : FunctionId) (v : ValueId) : Except Defect Unit := do
  let _ ← m.checkedType f v

def expectType (m : Module) (f : FunctionId) (v : ValueId) (expected : Ty) (role : String) :
    Except Defect Unit := do
  let found ← m.checkedType f v
  if found = expected then .ok () else .error (.type (.operand role found expected))

def checkIncoming (m : Module) (f : FunctionId) (b : BlockId) :
    List (ValueId × BlockId) → Except Defect Unit
  | [] => .ok ()
  | (value, source) :: rest => do
    m.checkValue f value
    if source ∈ m.predecessors f b then m.checkIncoming f b rest
    else .error (.phiNotPredecessor (m.labelOf b) (m.labelOf source))

/-- Compares arguments with parameters, one by one. -/
def checkArgs (m : Module) (f : FunctionId) (callee : String) :
    List Param → List ValueId → Except Defect Unit
  | [], [] => .ok ()
  | param :: params, arg :: args => do
    let found ← m.checkedType f arg
    if found = param.ty then m.checkArgs f callee params args
    else .error (.callSignature callee)
  | _, _ => .error (.callSignature callee)

def checkCall (m : Module) (f callee : FunctionId) (args : List ValueId) :
    Except Defect Unit :=
  match m.function? callee with
  | none => .error (.callSignature "")
  | some target =>
    if target.params.length = args.length then m.checkArgs f target.name target.params args
    else .error (.callSignature target.name)

/-- The types of the operands. Phis are checked where their place is checked. -/
def checkOperands (m : Module) (f : FunctionId) : Inst → Except Defect Unit
  | .alloca _ _ => .ok ()
  | .load _ _ address => m.expectType f address .ptr "load address"
  | .store value address => do
    m.checkValue f value
    m.expectType f address .ptr "store address"
  | .elementPtr _ _ base index => do
    m.expectType f base .ptr "element base"
    m.expectType f index .i32 "element index"
  | .binary _ op lhs rhs => do
    let l ← m.checkedType f lhs
    let r ← m.checkedType f rhs
    if l = r ∧ l ≠ .void then .ok () else .error (.type (.operands op l r))
  | .unary _ _ operand => m.checkValue f operand
  | .zext _ value ty => do
    let source ← m.checkedType f value
    if source = .i1 ∧ ty = .i32 then .ok () else .error (.type (.widening source ty))
  | .phi _ _ _ => .ok ()
  | .call _ callee args => m.checkCall f callee args

/-- Instructions in order; `started` says that one other than a phi came before. -/
def checkInsts (m : Module) (f : FunctionId) (b : BlockId) (started : Bool) :
    List Inst → Except Defect Unit
  | [] => .ok ()
  | .phi _ _ incoming :: rest => do
    if started then .error (.phiNotAtBlockStart (m.labelOf b))
    m.checkIncoming f b incoming
    m.checkInsts f b started rest
  | inst :: rest => do
    m.checkOperands f inst
    m.checkInsts f b true rest

def checkTerminator (m : Module) (f : FunctionId) (ret : Ty) : Terminator → Except Defect Unit
  | .br _ => .ok ()
  | .condBr cond _ _ => m.expectType f cond .i1 "branch condition"
  | .ret value => do
    let found ← match value with
      | some v => m.checkedType f v
      | none => .ok .void
    if found = ret then .ok () else .error (.returnType found ret)
  | .unreachable => .ok ()

def checkBlock (m : Module) (f : FunctionId) (ret : Ty) (b : BlockId) : Except Defect Unit :=
  match m.block? b with
  | none => .error (.unterminated "")
  | some block =>
    match block.terminator with
    | none => .error (.unterminated block.label)
    | some terminator => do
      m.checkInsts f b false block.insts.toList
      if terminator.successors.all fun s => m.functionOf? s = some f then
        m.checkTerminator f ret terminator
      else
        .error (.foreignBlock block.label)

/-- The first issue that was recorded while the insertion point was inside `f`. -/
def issueOf? (m : Module) (f : FunctionId) : Option EmitIssue :=
  (m.issues.find? (·.1 = some f)).map (·.2)

def checkIssues (m : Module) (f : FunctionId) : Except Defect Unit :=
  match m.issueOf? f with
  | none => .ok ()
  | some (.afterTerminator block) => .error (.emitAfterTerminator (m.labelOf block))
  | some .noInsertionPoint => .error .noInsertionPoint

def checkBody (m : Module) (f : FunctionId) (function : Function) : Except Defect Unit := do
  if function.isDeclaration then .error .noBody
  m.checkIssues f
  function.blocks.toList.forM (m.checkBlock f function.ret)

/-- Checks one function, which must have a body. -/
def checkFunction (m : Module) (f : FunctionId) : Except CheckError Unit :=
  match m.function? f with
  | none => .error ⟨"", .noBody⟩
  | some function => (m.checkBody f function).mapError fun d => ⟨function.name, d⟩

/-- Checks every function that has a body. -/
def check (m : Module) : Except CheckError Unit :=
  m.functions.toList.forM fun function =>
    if function.isDeclaration then .ok () else m.checkFunction function.id

end Module

end Decaf.IR
