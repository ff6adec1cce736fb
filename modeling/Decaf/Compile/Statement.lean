import Decaf.Compile.Expression

/-!
# Code for statements

Each compound statement first opens all the blocks it needs and then fills them. After a
statement at which control leaves, such as a `return`, the rest of the list it stands in
is not compiled: nothing in it is even looked up.
-/

namespace Decaf.Gen

open IR

variable {τ : Type} [Target τ]

/-- Gives each named variable a stack slot that starts with zero. -/
def declareLocals : List VarDecl → Gen τ Unit
  | [] => return ()
  | var :: vars => do
    if let some name := var.name then
      let slot ← emit (.alloca var.ty.repr name)
      let zero ← zeroValue var.ty var.line
      emit (.store zero slot)
      bindName name (.scalar .localVariable var.ty slot var.line)
    declareLocals vars

/-- Ends a method that owes a value without naming one. -/
def returnDefault (m : MethodContext) (line : Nat) : Gen τ Unit :=
  match m.options.missingReturn with
  | .error => throw (.missingReturn m.name)
  | .synthesize => do
    warn (.synthesizedReturn m.name line)
    let v ← defaultValue m.ret line
    emit (.terminate (.ret (some v)))

def returnStmt (m : MethodContext) (result : Option Expr) (line : Nat) : Gen τ Unit :=
  match result with
  | none =>
    if m.ret = .void then emit (.terminate (.ret none)) else returnDefault m line
  | some e =>
    if m.ret = .void then
      throw (.valueReturnFromVoid m.name line)
    else do
      let v ← value m e
      let v ← coerce v m.ret
      emit (.terminate (.ret (some v)))

def jumpStmt (m : MethodContext) (kind : Jump) (line : Nat) : Gen τ Unit := do
  match ← innermostLoop? with
  | some targets => branch (targets.target kind)
  | none =>
    match m.options.strayJump with
    | .error => throw (.jumpOutsideLoop kind line)
    | .ignore => warn (.ignoredJump kind line)

/-- The assigned name is looked up before the value is computed. -/
def assignment (m : MethodContext) : Assignment → Gen τ Unit
  | .scalar name e line => do
    let (ty, slot) ← fromScopes fun s => s.resolveScalar name line
    let v ← value m e
    let v ← coerce v ty
    emit (.store v slot)
  | .element array index e line => do
    let (ty, base) ← fromScopes fun s => s.resolveArray array line
    let i ← value m index
    let v ← value m e
    let v ← coerce v ty
    let slot ← emit (.elementPtr ty.repr base i)
    emit (.store v slot)

def assignments (m : MethodContext) : List Assignment → Gen τ Unit
  | [] => return ()
  | a :: as => do
    assignment m a
    assignments m as

/-- A condition with a branch on each outcome. If neither comes back, the block after
both is never reached. -/
def conditional (m : MethodContext) (cond : Expr) (thenBody elseBody : Gen τ Unit) :
    Gen τ Unit := do
  let condBlock ← appendBlock m "if.cond"
  let thenBlock ← appendBlock m "if.then"
  let elseBlock ← appendBlock m "if.else"
  let endBlock ← appendBlock m "if.end"
  branch condBlock
  emit (.positionAtEnd condBlock)
  let c ← value m cond
  emit (.terminate (.condBr c thenBlock elseBlock))
  emit (.positionAtEnd thenBlock)
  thenBody
  let thenFalls ← branchIfOpen endBlock
  emit (.positionAtEnd elseBlock)
  elseBody
  let elseFalls ← branchIfOpen endBlock
  emit (.positionAtEnd endBlock)
  unless thenFalls || elseFalls do
    emit (.terminate .unreachable)

/-- A condition, and a body after which it is asked again. -/
def whileLoop (m : MethodContext) (cond : Expr) (body : Gen τ Unit) : Gen τ Unit := do
  let condBlock ← appendBlock m "while.cond"
  let bodyBlock ← appendBlock m "while.body"
  let endBlock ← appendBlock m "while.end"
  branch condBlock
  emit (.positionAtEnd condBlock)
  let c ← value m cond
  emit (.terminate (.condBr c bodyBlock endBlock))
  emit (.positionAtEnd bodyBlock)
  inLoop ⟨condBlock, endBlock⟩ body
  let _ ← branchIfOpen condBlock
  emit (.positionAtEnd endBlock)

/-- As a `while` loop with assignments before it and assignments after each pass, which
`continue` does not skip. -/
def forLoop (m : MethodContext) (init : List Assignment) (cond : Expr)
    (step : List Assignment) (body : Gen τ Unit) : Gen τ Unit := do
  assignments m init
  let condBlock ← appendBlock m "for.cond"
  let bodyBlock ← appendBlock m "for.body"
  let postBlock ← appendBlock m "for.post"
  let endBlock ← appendBlock m "for.end"
  branch condBlock
  emit (.positionAtEnd condBlock)
  let c ← value m cond
  emit (.terminate (.condBr c bodyBlock endBlock))
  emit (.positionAtEnd bodyBlock)
  inLoop ⟨postBlock, endBlock⟩ body
  let _ ← branchIfOpen postBlock
  emit (.positionAtEnd postBlock)
  assignments m step
  branch condBlock
  emit (.positionAtEnd endBlock)

mutual

def stmt (m : MethodContext) : Stmt → Gen τ Unit
  | .block body => block m body
  | .ifElse cond thenBlock elseBlock _ =>
    conditional m cond (block m thenBlock) (optionalBlock m elseBlock)
  | .while cond body _ => whileLoop m cond (block m body)
  | .for init cond step body _ => forLoop m init cond step (block m body)
  | .return result line => returnStmt m result line
  | .jump kind line => jumpStmt m kind line
  | .assign a => assignment m a
  | .call callee args line => do
    let _ ← expr m (.call callee args line)

/-- Statements up to the first after which control has left. -/
def stmts (m : MethodContext) : List Stmt → Gen τ Unit
  | [] => return ()
  | s :: ss => do
    if ← isTerminated then
      return ()
    else
      stmt m s
      stmts m ss

/-- A block in a scope of its own. -/
def block (m : MethodContext) : Block → Gen τ Unit
  | .mk vars body => inScope do
    declareLocals vars
    stmts m body

def optionalBlock (m : MethodContext) : Option Block → Gen τ Unit
  | none => return ()
  | some b => block m b

end

end Decaf.Gen
