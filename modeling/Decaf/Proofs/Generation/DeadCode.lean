import Decaf.Proofs.Generation.Departure

/-!
# Dead statements

What stands in a statement list after a statement at which control leaves has no influence on
what a program compiles to: not on the module, not on the warnings and not on the error.
-/

namespace Decaf

open IR

/-- The second list comes from the first one by a change, at some depth, of all that follows a
statement at which control leaves. -/
inductive DeadChange : Bool → List Stmt → List Stmt → Prop
  | after {loop : Bool} {s : Stmt} (rest rest' : List Stmt) :
    s.leaves loop = true → DeadChange loop (s :: rest) (s :: rest')
  | later {loop : Bool} (s : Stmt) {ss ss' : List Stmt} :
    DeadChange loop ss ss' → DeadChange loop (s :: ss) (s :: ss')
  | block {loop : Bool} {ss ss' : List Stmt} (vars : List VarDecl) (rest : List Stmt) :
    DeadChange loop ss ss' →
    DeadChange loop (.block (.mk vars ss) :: rest) (.block (.mk vars ss') :: rest)
  | thenBlock {loop : Bool} {ss ss' : List Stmt} (cond : Expr) (vars : List VarDecl)
      (elseBlock : Option Block) (line : Nat) (rest : List Stmt) :
    DeadChange loop ss ss' →
    DeadChange loop (.ifElse cond (.mk vars ss) elseBlock line :: rest)
      (.ifElse cond (.mk vars ss') elseBlock line :: rest)
  | elseBlock {loop : Bool} {ss ss' : List Stmt} (cond : Expr) (thenBlock : Block)
      (vars : List VarDecl) (line : Nat) (rest : List Stmt) :
    DeadChange loop ss ss' →
    DeadChange loop (.ifElse cond thenBlock (some (.mk vars ss)) line :: rest)
      (.ifElse cond thenBlock (some (.mk vars ss')) line :: rest)
  | whileBody {loop : Bool} {ss ss' : List Stmt} (cond : Expr) (vars : List VarDecl)
      (line : Nat) (rest : List Stmt) :
    DeadChange true ss ss' →
    DeadChange loop (.while cond (.mk vars ss) line :: rest)
      (.while cond (.mk vars ss') line :: rest)
  | forBody {loop : Bool} {ss ss' : List Stmt} (init : List Assignment) (cond : Expr)
      (step : List Assignment) (vars : List VarDecl) (line : Nat) (rest : List Stmt) :
    DeadChange true ss ss' →
    DeadChange loop (.for init cond step (.mk vars ss) line :: rest)
      (.for init cond step (.mk vars ss') line :: rest)

/-- One method of the program has dead statements changed. -/
inductive Program.DeadChange : Program → Program → Prop
  | mk {ss ss' : List Stmt} (externs : List ExternDecl) (p : Package)
      (before after : List Method) (d : Method) (vars : List VarDecl) :
    Decaf.DeadChange false ss ss' →
    Program.DeadChange
      ⟨externs, some { p with methods := before ++ { d with body := .mk vars ss } :: after }⟩
      ⟨externs, some { p with methods := before ++ { d with body := .mk vars ss' } :: after }⟩

namespace Gen

variable {loop : Bool} {m : MethodContext}

/-- After a statement at which control leaves it does not matter what follows. -/
theorem alike_after {st : Stmt} (leaves : st.leaves loop = true) (rest rest' : List Stmt) :
    Alike loop (stmts m (st :: rest) : Gen Builder Unit) (stmts m (st :: rest')) := by
  have plain (ss : List Stmt) : Alike loop (stmts m ss : Gen Builder Unit) (stmts m ss) :=
    (alike_congruence loop m.options).blockwise.stmts (m := m) ss
  refine ⟨(plain _).loops, fun s inside => ?_⟩
  have left := departs_stmt (m := m) st leaves s inside
  have asked : (isTerminated : Gen Builder Bool).run.run s =
      (.ok s.target.isTerminated, s) := rfl
  rw [stmts, stmts, run_bind, run_bind, asked]
  dsimp only
  split
  · rfl
  · rw [run_bind, run_bind]
    unfold Ends at left
    rcases run : (stmt m st : Gen Builder Unit).run.run s with ⟨e | u, s'⟩ <;> dsimp only
    rw [run] at left
    rw [run_stmts_of_terminated left, run_stmts_of_terminated left]

theorem alike_cons {st st' : Stmt} {ss ss' : List Stmt}
    (first : Alike loop (stmt m st : Gen Builder Unit) (stmt m st'))
    (rest : Alike loop (stmts m ss : Gen Builder Unit) (stmts m ss')) :
    Alike loop (stmts m (st :: ss) : Gen Builder Unit) (stmts m (st' :: ss')) := by
  rw [stmts, stmts]
  exact Alike.bind (x := isTerminated) (.refl fun _ => rfl) fun closed =>
    related_ite (R := Alike loop) (.refl fun _ => rfl) (first.bind fun _ => rest)

theorem alike_block {ss ss' : List Stmt} (vars : List VarDecl)
    (h : Alike loop (stmts m ss : Gen Builder Unit) (stmts m ss')) :
    Alike loop (block m (.mk vars ss) : Gen Builder Unit) (block m (.mk vars ss')) := by
  rw [block, block]
  exact .inScope (.bind ((alike_congruence loop m.options).declareLocals vars) fun _ => h)

/-- By induction on where the change is. -/
theorem alike_stmts {ss ss' : List Stmt} (change : DeadChange loop ss ss') :
    Alike loop (stmts m ss : Gen Builder Unit) (stmts m ss') := by
  have plain (loop : Bool) : Congruence (τ := Builder) (Alike loop) m.options m.options :=
    alike_congruence loop m.options
  induction change with
  | after rest rest' leaves => exact alike_after leaves rest rest'
  | @later loop s ss ss' _ ih => exact alike_cons ((plain loop).blockwise.stmt (m := m) s) ih
  | @block loop ss ss' vars rest _ ih =>
    refine alike_cons ?_ ((plain loop).blockwise.stmts (m := m) rest)
    rw [stmt, stmt]
    exact alike_block vars ih
  | @thenBlock loop ss ss' cond vars elseBlock line rest _ ih =>
    refine alike_cons ?_ ((plain loop).blockwise.stmts (m := m) rest)
    rw [stmt, stmt]
    exact (plain loop).conditional (m := m) cond (alike_block vars ih)
      ((plain loop).blockwise.optionalBlock (m := m) elseBlock)
  | @elseBlock loop ss ss' cond thenBlock vars line rest _ ih =>
    refine alike_cons ?_ ((plain loop).blockwise.stmts (m := m) rest)
    rw [stmt, stmt, optionalBlock, optionalBlock]
    exact (plain loop).conditional (m := m) cond ((plain loop).blockwise.block (m := m) thenBlock)
      (alike_block vars ih)
  | @whileBody loop ss ss' cond vars line rest _ ih =>
    refine alike_cons ?_ ((plain loop).blockwise.stmts (m := m) rest)
    rw [stmt, stmt]
    exact (plain loop).whileLoop (m := m) cond fun targets => (alike_block vars ih).inLoop targets
  | @forBody loop ss ss' init cond step vars line rest _ ih =>
    refine alike_cons ?_ ((plain loop).blockwise.stmts (m := m) rest)
    rw [stmt, stmt]
    exact (plain loop).forLoop (m := m) init cond step fun targets =>
      (alike_block vars ih).inLoop targets

variable {o : Options} {ss ss' : List Stmt}

theorem alike_defineMethod (change : DeadChange false ss ss') (d : Method) (vars : List VarDecl)
    (f : FunctionId) :
    Alike false (defineMethod o { d with body := .mk vars ss } f : Gen Builder Unit)
      (defineMethod o { d with body := .mk vars ss' } f) := by
  let m : MethodContext := ⟨f, d.name, d.ret, o⟩
  have plain : Congruence (τ := Builder) (Alike false) o o := alike_congruence false o
  refine .bind (plain.emit _) fun entry => .bind (plain.emit _) fun _ => ?_
  refine .bind (.inScope (.bind (plain.bindParams (m := m) d.params 0) fun _ => ?_)) fun _ =>
    related_ite (R := Alike false) (plain.checkMethod (m := m)) (plain.pure ())
  refine .bind (plain.declareLocals vars) fun _ => .bind (alike_stmts (m := m) change) fun _ => ?_
  exact plain.finishBody (m := m) d.line

theorem alike_defineMethods (change : DeadChange false ss ss') (d : Method) (vars : List VarDecl)
    (after : List Method) (before : List Method) (ids : List FunctionId) :
    Alike false
      ((((before ++ { d with body := .mk vars ss } :: after).zip ids).forM fun x =>
        defineMethod o x.1 x.2) : Gen Builder Unit)
      (((before ++ { d with body := .mk vars ss' } :: after).zip ids).forM fun x =>
        defineMethod o x.1 x.2) := by
  have plain : Congruence (τ := Builder) (Alike false) o o := alike_congruence false o
  induction before generalizing ids with
  | nil =>
    cases ids with
    | nil => exact plain.pure ()
    | cons f ids =>
      exact .bind (alike_defineMethod change d vars f) fun _ =>
        plain.forM fun x _ => plain.defineMethod rfl x.1 x.2
  | cons first before ih =>
    cases ids with
    | nil => exact plain.pure ()
    | cons f ids => exact .bind (plain.defineMethod rfl first f) fun _ => ih ids

theorem alike_program (change : DeadChange false ss ss') (externs : List ExternDecl) (p : Package)
    (before after : List Method) (d : Method) (vars : List VarDecl) :
    Alike false
      (program o externs
        { p with methods := before ++ { d with body := .mk vars ss } :: after } : Gen Builder Unit)
      (program o externs
        { p with methods := before ++ { d with body := .mk vars ss' } :: after }) := by
  have plain : Congruence (τ := Builder) (Alike false) o o := alike_congruence false o
  -- the declarations do not look at the bodies
  have declared : ((before ++ { d with body := .mk vars ss } :: after).mapM declareMethod :
        Gen Builder (List FunctionId)) =
      (before ++ { d with body := .mk vars ss' } :: after).mapM declareMethod := by
    rw [List.mapM_append, List.mapM_append, List.mapM_cons, List.mapM_cons]
    rfl
  refine .bind (plain.emit _) fun _ => .bind (plain.forM fun e _ => ?_) fun _ => ?_
  · exact plain.bind (plain.emit _) fun id => plain.bindName _ _
  refine .bind (plain.forM fun f _ => plain.declareField f) fun _ => ?_
  rw [declared]
  refine .bind (plain.mapM fun d _ => ?_) fun ids =>
    alike_defineMethods change d vars after before ids
  exact plain.bind (plain.emit _) fun id => plain.bind (plain.bindName _ _) fun _ => plain.pure id

end Gen

/-- A change of dead statements, whatever they are, changes nothing in the result. -/
theorem compile_deadChange (o : Options) {P P' : Program} (change : P.DeadChange P') :
    compile o P' = compile o P := by
  obtain @⟨ss, ss', externs, p, before, after, d, vars, change⟩ := change
  have same := (Gen.alike_program (o := o) change externs p before after d vars).same
    (.start Builder.empty) (by simp)
  rw [compile_eq_map (p := { p with
      methods := before ++ { d with body := .mk vars ss' } :: after }) rfl,
    compile_eq_map (p := { p with
      methods := before ++ { d with body := .mk vars ss } :: after }) rfl, same]

/-- A loop in which no pass comes to its end; the given statements close its body. -/
def departing (dead : List Stmt) : Program where
  externs := []
  package := some {
    name := "P"
    fields := []
    line := 1
    methods := [{
      name := "pick"
      ret := .int
      params := [⟨some "n", .int, 2⟩]
      line := 2
      body := .mk [] [
        .while (.binary .gt (.var "n" 3) (.constant ⟨.int 0, "0", 3⟩) 3)
          (.mk [] (.ifElse (.binary .gt (.var "n" 4) (.constant ⟨.int 9, "9", 4⟩) 4)
            (.mk [] [.jump .break 4])
            (some (.mk [] [.return (some (.var "n" 5)) 5])) 4 :: dead)) 3,
        .return (some (.constant ⟨.int 0, "0", 7⟩)) 7] }] }

/-- What closes the body may be a call of a method that does not exist. -/
theorem departing_compiles :
    (departing []).DeadChange (departing [.call "missing" [.var "m" 6] 6]) ∧
      compile {} (departing [.call "missing" [.var "m" 6] 6]) = compile {} (departing []) := by
  have change : (departing []).DeadChange (departing [.call "missing" [.var "m" 6] 6]) :=
    .mk [] ⟨"P", [], [], 1⟩ [] [] ⟨"pick", .int, [⟨some "n", .int, 2⟩], .mk [] [], 2⟩ []
      (.whileBody _ [] 3 _ (.after [] _ rfl))
  exact ⟨change, compile_deadChange {} change⟩

end Decaf
