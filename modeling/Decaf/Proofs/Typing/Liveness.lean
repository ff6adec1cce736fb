import Decaf.Compile.Diagnostic
import Decaf.Proofs.Typing.Scoping

/-!
# Live statements and what is warned of

A statement is live unless it stands, in some list, after a statement at which control leaves,
or inside of one that does. Where missing returns and stray jumps are mended, there is a warning
for each live jump with no loop around it, for each live return without the value that the
method owes, and for the end of a method that owes a value and whose statements control does not
leave.
-/

namespace Decaf

mutual

/-- The statement and the live ones inside of it, each with whether a loop is around it. -/
def Stmt.live (loop : Bool) : Stmt → List (Bool × Stmt)
  | .block body => (loop, .block body) :: Block.live loop body
  | .ifElse cond thenBlock elseBlock line =>
    (loop, .ifElse cond thenBlock elseBlock line) ::
      (Block.live loop thenBlock ++ Block.optionalLive loop elseBlock)
  | .while cond body line => (loop, .while cond body line) :: Block.live true body
  | .for init cond step body line =>
    (loop, .for init cond step body line) :: Block.live true body
  | .return value line => [(loop, .return value line)]
  | .jump kind line => [(loop, .jump kind line)]
  | .assign a => [(loop, .assign a)]
  | .call callee args line => [(loop, .call callee args line)]

/-- Nothing is live after a statement at which control leaves. -/
def Stmt.allLive (loop : Bool) : List Stmt → List (Bool × Stmt)
  | [] => []
  | s :: ss => Stmt.live loop s ++ if Stmt.leaves loop s then [] else Stmt.allLive loop ss

def Block.live (loop : Bool) : Block → List (Bool × Stmt)
  | .mk _ stmts => Stmt.allLive loop stmts

def Block.optionalLive (loop : Bool) : Option Block → List (Bool × Stmt)
  | none => []
  | some b => Block.live loop b

end

/-- What is warned of at a statement of a method with that name and return type. -/
def Stmt.warning? (method : String) (ret : Ty) (loop : Bool) : Stmt → Option Warning
  | .jump kind line => if loop then none else some (.ignoredJump kind line)
  | .return none line => if ret = .void then none else some (.synthesizedReturn method line)
  | _ => none

/-- The warnings for statements, each with whether a loop is around it. -/
def warningsAt (method : String) (ret : Ty) (stmts : List (Bool × Stmt)) : List Warning :=
  stmts.filterMap fun s => s.2.warning? method ret s.1

theorem warningsAt_append (method : String) (ret : Ty) (stmts stmts' : List (Bool × Stmt)) :
    warningsAt method ret (stmts ++ stmts') =
      warningsAt method ret stmts ++ warningsAt method ret stmts' :=
  List.filterMap_append ..

theorem warningsAt_ifElse (method : String) (ret : Ty) (loop : Bool) (cond : Expr)
    (thenBlock : Block) (elseBlock : Option Block) (line : Nat) :
    warningsAt method ret (Stmt.live loop (.ifElse cond thenBlock elseBlock line)) =
      warningsAt method ret (thenBlock.live loop) ++
        warningsAt method ret (Block.optionalLive loop elseBlock) :=
  warningsAt_append method ret (thenBlock.live loop) (Block.optionalLive loop elseBlock)

/-- What there is to be said of the end of a method. -/
def Method.endWarnings (d : Method) : List Warning :=
  if d.ret = .void ∨ Stmt.anyLeaves false d.body.stmts = true then []
  else [.synthesizedReturn d.name d.line]

/-- The live statements of a method in order, and then its end. -/
def Method.warnings (d : Method) : List Warning :=
  warningsAt d.name d.ret (Stmt.allLive false d.body.stmts) ++ d.endWarnings

/-- Method by method, in the order of the package. -/
def Program.warnings (P : Program) : List Warning :=
  match P.package with
  | none => []
  | some p => p.methods.flatMap Method.warnings

end Decaf
