import Decaf.Compile.Statement

/-!
# Code for programs

The externs, the fields and then all methods of the package are declared before the first
method body is compiled, so a body can use all of them. Compiling stops at the first
error; the target keeps what was built until then.
-/

namespace Decaf

open IR

/-- The initial value of a scalar field, if the initializer fits its type. -/
def FieldDecl.initial? (f : FieldDecl) : Option Const :=
  match f.init with
  | none => Const.zero? f.ty.repr
  | some c =>
    match f.ty, c.value with
    | .int, .int n => some (.i32 n)
    | .int, .bool b => some (.i32 (if b then 1 else 0))
    | .bool, .bool b => some (.bool b)
    | _, _ => none

namespace Gen

variable {τ : Type} [Target τ]

def declareExtern (e : ExternDecl) : Gen τ Unit := do
  let id ← emit (.declareFunction e.name e.ret.repr (e.params.map fun p => (none, p.ty.repr)))
  bindName e.name (.function e.ret id e.params e.line)

def declareField (f : FieldDecl) : Gen τ Unit :=
  match f.size with
  | .array length =>
    if length = 0 then throw (.invalidArraySize f.name f.line)
    else if f.init.isSome then throw (.invalidInitializer f.name f.line)
    else do
      let base ← emit (.globalArray f.name f.ty.repr length)
      bindName f.name (.array f.ty base length f.line)
  | .scalar =>
    match f.initial? with
    | none => throw (.invalidInitializer f.name f.line)
    | some init => do
      let slot ← emit (.globalScalar f.name f.ty.repr init)
      bindName f.name (.scalar .globalVariable f.ty slot f.line)

def declareMethod (d : Method) : Gen τ FunctionId := do
  let id ← emit (.declareFunction d.name d.ret.repr (d.params.map fun p => (p.name, p.ty.repr)))
  bindName d.name (.function d.ret id d.params d.line)
  return id

/-- Copies each named parameter into a stack slot, since parameters can be assigned to. -/
def bindParams (m : MethodContext) : Nat → List VarDecl → Gen τ Unit
  | _, [] => return ()
  | index, param :: params => do
    if let some name := param.name then
      let slot ← emit (.alloca param.ty.repr (name ++ ".addr"))
      if let some incoming ← parameter? m.function index then
        emit (.store incoming slot)
      bindName name (.scalar .parameter param.ty slot param.line)
    bindParams m (index + 1) params

/-- Returns at the end of a method if control can reach it. -/
def finishBody (m : MethodContext) (line : Nat) : Gen τ Unit := do
  if ← isTerminated then
    return ()
  else if m.ret = .void then
    emit (.terminate (.ret none))
  else
    returnDefault m line

/-- Parameters and the variables of the body share one scope. -/
def methodBody (m : MethodContext) (d : Method) : Gen τ Unit := inScope do
  bindParams m 0 d.params
  declareLocals d.body.vars
  stmts m d.body.stmts
  finishBody m d.line

def checkMethod (m : MethodContext) : Gen τ Unit := do
  match Target.checkFunction (← get).target m.function with
  | .ok () => return ()
  | .error e => throw (.malformed m.name (.check e))

def defineMethod (options : Options) (d : Method) (f : FunctionId) : Gen τ Unit := do
  let m : MethodContext := ⟨f, d.name, d.ret, options⟩
  let entry ← appendBlock m "entry"
  emit (.positionAtEnd entry)
  methodBody m d
  if options.check then
    checkMethod m

def program (options : Options) (externs : List ExternDecl) (p : Package) : Gen τ Unit := do
  emit (.setModuleName p.name)
  externs.forM declareExtern
  p.fields.forM declareField
  let ids ← p.methods.mapM declareMethod
  (p.methods.zip ids).forM fun (d, f) => defineMethod options d f

end Gen

/-- Generates a program into a target. Yields the warnings, or the error, and the target
as it is afterwards. -/
def generate {τ : Type} [Target τ] (options : Options) (p : Program) (target : τ) :
    Except CompileError (List Warning) × τ :=
  match p.package with
  | none => (.error .missingPackage, target)
  | some package =>
    let (result, s) := (Gen.program options p.externs package).run.run (.start target)
    (result.map fun _ => s.warnings, s.target)

/-- Compiles a program to a module, with the warnings this gave rise to. -/
def compile (options : Options) (p : Program) : Except CompileError (Module × List Warning) :=
  let (result, b) := generate options p Builder.empty
  result.map fun warnings => (b.module, warnings)

end Decaf
