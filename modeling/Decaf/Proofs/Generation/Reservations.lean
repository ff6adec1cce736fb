import Decaf.Proofs.Generation.Departure
import Decaf.Proofs.Generation.Grounding
import Decaf.Proofs.Generation.ProgramShapes
import Decaf.Proofs.Generation.Reserving

/-!
# Slots of methods

How many stack slots a method has can be read off its syntax: one for each named parameter and
one for each named variable of a block that is compiled. All of them are in the entry, also
those of blocks inside loops.
-/

namespace Decaf

open IR

mutual

/-- The number of named variables of the blocks that are compiled with the statement. -/
def Stmt.variables (loop : Bool) : Stmt → Nat
  | .block body => Block.variables loop body
  | .ifElse _ thenBlock elseBlock _ =>
    Block.variables loop thenBlock + Block.optionalVariables loop elseBlock
  | .while _ body _ => Block.variables true body
  | .for _ _ _ body _ => Block.variables true body
  | .return _ _ => 0
  | .jump _ _ => 0
  | .assign _ => 0
  | .call _ _ _ => 0

/-- Statements count up to the first one at which control leaves. -/
def Stmt.liveVariables (loop : Bool) : List Stmt → Nat
  | [] => 0
  | s :: ss => Stmt.variables loop s + if s.leaves loop then 0 else Stmt.liveVariables loop ss

def Block.variables (loop : Bool) : Block → Nat
  | .mk vars ss => (declaredNames vars).length + Stmt.liveVariables loop ss

def Block.optionalVariables (loop : Bool) : Option Block → Nat
  | none => 0
  | some b => Block.variables loop b

end

/-- Named parameters are variables too. -/
def Method.variables (d : Method) : Nat :=
  (declaredNames d.params).length + d.body.variables false

/-- The entry of the function has so many slots. -/
def IR.Module.HasSlots (m : Module) (f : FunctionId) (n : Nat) : Prop :=
  ∃ F entry, m.function? f = some F ∧ F.entry? = some entry ∧ m.functionOf? entry = some f ∧
    (m.slotsOf entry).length = n

/-- Building other functions reserves no slots in this one. -/
theorem IR.Module.HasSlots.outside {m m' : Module} {f g : FunctionId} {n : Nat}
    (h : m.HasSlots f n) (o : m.Outside m' g) (other : f ≠ g) : m'.HasSlots f n := by
  obtain ⟨F, entry, hF, first, owned, slots⟩ := h
  exact ⟨F, entry, (o.functions f other).trans hF, first, o.ext.blocks entry f owned,
    by rw [o.slotsOf other owned, slots]⟩

theorem IR.Builder.Building.hasSlots {b : Builder} {f : FunctionId} {entry : BlockId}
    {closed : Bool} {waiting : List BlockId} {n : Nat}
    (h : b.Building f entry closed waiting n) : b.module.HasSlots f n := by
  obtain ⟨F, hF, first⟩ := Option.bind_eq_some_iff.1 h.first
  exact ⟨F, entry, hF, first, h.owned, h.slots⟩

namespace Gen

section

variable {f : FunctionId} {entry c : BlockId} {loops : LoopStack} {closed : Bool}
  {waiting : List BlockId} {n n' : Nat} {m : MethodContext}

theorem reserves_coerce (v : ValueId) (wanted : Decaf.Ty) :
    Reserves f entry loops false waiting (coerce v wanted) 0 false waiting := by
  refine (reserves_typeOf v).then fun found => ?_
  split
  · exact reserves_emit _ rfl
  · exact reserves_pure v

theorem Reserves.asValue {x : Gen Builder (Option ValueId)} (line : Nat)
    (h : Reserves f entry loops false waiting x n false waiting) :
    Reserves f entry loops false waiting (asValue line x) n false waiting := by
  refine h.before fun v => ?_
  cases v with
  | none => exact reserves_throw _
  | some v => exact reserves_pure v

theorem Reserves.instruction {l r : Gen Builder ValueId} (op : BinOp) (hint : String)
    (left : Reserves f entry loops false waiting l 0 false waiting)
    (right : Reserves f entry loops false waiting r 0 false waiting) :
    Reserves f entry loops false waiting (instruction op hint l r) 0 false waiting := by
  refine left.then fun v => right.then fun w => ?_
  refine (reserves_typeOf v).then fun tv => (reserves_typeOf w).then fun tw => ?_
  split
  · exact reserves_emit _ rfl
  · exact (reserves_coerce v _).then fun v' => (reserves_coerce w _).then fun w' =>
      reserves_emit _ rfl

/-- The operands may stand anywhere in the function. -/
theorem Reserves.connective {l r : Gen Builder ValueId} (c : Connective)
    (left : ∀ waiting, Reserves m.function entry loops false waiting l 0 false waiting)
    (right : ∀ waiting, Reserves m.function entry loops false waiting r 0 false waiting) :
    Reserves m.function entry loops false waiting (connective m c l r) 0 false waiting := by
  refine (left _).then fun v => .append [] fun rhs => .append [rhs] fun done => ?_
  refine reserves_insertionBlock.then fun exit => (reserves_terminate _).then fun _ => ?_
  refine reserves_position.then fun _ => (right _).then fun w => ?_
  refine reserves_insertionBlock.then fun exit' => .branch ?_
  exact reserves_position.then fun _ => reserves_emit _ rfl

theorem reserves_constant (c : Literal) :
    Reserves f entry loops false waiting (constant c) 0 false waiting := by
  cases c <;> simp only [constant] <;> exact reserves_emit _ rfl

mutual

theorem reserves_expr : ∀ (e : Expr) (waiting : List BlockId),
    Reserves m.function entry loops false waiting (expr m e) 0 false waiting
  | .binary op lhs rhs line, waiting => by
    have left (waiting) := (reserves_expr lhs waiting).asValue lhs.line
    have right (waiting) := (reserves_expr rhs waiting).asValue rhs.line
    simp only [expr]
    split
    · exact .map (.instruction _ _ (left _) (right _))
    · exact .map (.connective _ left right)
  | .unary op operand line, waiting => by
    simp only [expr]
    refine ((reserves_expr operand waiting).asValue _).then fun v => ?_
    cases op <;> exact .map (reserves_emit _ rfl)
  | .var name line, waiting => by
    simp only [expr]
    exact .map ((reserves_fromScopes _).then fun _ => reserves_emit _ rfl)
  | .element array index line, waiting => by
    simp only [expr]
    refine (reserves_fromScopes _).then fun _ => ?_
    refine ((reserves_expr index waiting).asValue _).then fun i => ?_
    exact (reserves_emit _ rfl).then fun address => .map (reserves_emit _ rfl)
  | .call callee args line, waiting => by
    simp only [expr]
    refine (reserves_fromScopes _).then fun _ => ?_
    exact (reserves_arguments args _ waiting).then fun vs => reserves_emit _ rfl
  | .constant c, waiting => by
    simp only [expr]
    exact .map (reserves_constant c.value)

theorem reserves_arguments : ∀ (es : List Expr) (tys : List Decaf.Ty) (waiting : List BlockId),
    Reserves m.function entry loops false waiting (arguments m es tys) 0 false waiting
  | [], _, waiting => by
    simp only [arguments]
    exact reserves_pure []
  | _ :: _, [], waiting => by
    simp only [arguments]
    exact reserves_pure []
  | e :: es, ty :: tys, waiting => by
    simp only [arguments]
    refine ((reserves_expr e waiting).asValue _).then fun v => ?_
    refine (reserves_coerce v ty).then fun w => ?_
    exact (reserves_arguments es tys waiting).then fun ws => reserves_pure _

end

theorem reserves_value (e : Expr) :
    Reserves m.function entry loops false waiting (value m e) 0 false waiting :=
  (reserves_expr e waiting).asValue e.line

theorem reserves_assignment (a : Assignment) :
    Reserves m.function entry loops false waiting (assignment m a) 0 false waiting := by
  cases a with
  | scalar name e line =>
    refine (reserves_fromScopes _).then fun _ => (reserves_value e).then fun v => ?_
    exact (reserves_coerce v _).then fun w => reserves_emit _ rfl
  | element array index e line =>
    refine (reserves_fromScopes _).then fun _ => (reserves_value index).then fun i => ?_
    refine (reserves_value e).then fun v => (reserves_coerce v _).then fun w => ?_
    exact (reserves_emit _ rfl).then fun address => reserves_emit _ rfl

theorem reserves_assignments (as : List Assignment) :
    Reserves m.function entry loops false waiting (assignments m as) 0 false waiting := by
  induction as with
  | nil => exact reserves_pure ()
  | cons a as ih => exact (reserves_assignment a).then fun _ => ih

theorem reserves_zeroValue (ty : Decaf.Ty) (line : Nat) :
    Reserves f entry loops false waiting (zeroValue ty line) 0 false waiting := by
  rw [zeroValue]
  split
  · exact reserves_emit _ rfl
  · exact reserves_throw _

/-- A slot for each variable that has a name. -/
theorem reserves_declareLocals (vars : List VarDecl) :
    Reserves f entry loops false waiting (declareLocals vars) (declaredNames vars).length false
      waiting := by
  induction vars with
  | nil => exact reserves_pure ()
  | cons var vars ih =>
    obtain ⟨name, ty, line⟩ := var
    rw [declareLocals]
    cases name with
    | none => exact ih
    | some name =>
      rw [show (declaredNames (⟨some name, ty, line⟩ :: vars)).length =
        1 + (declaredNames vars).length from Nat.add_comm ..]
      refine (reserves_alloca _ _).bind fun slot => (reserves_zeroValue ty line).then fun zero => ?_
      exact (reserves_emit _ rfl).then fun _ => (reserves_bindName _ _).then fun _ => ih

theorem reserves_bindParams (params : List VarDecl) (index : Nat) :
    Reserves m.function entry loops false waiting (bindParams m index params)
      (declaredNames params).length false waiting := by
  induction params generalizing index with
  | nil => exact reserves_pure ()
  | cons param params ih =>
    obtain ⟨name, ty, line⟩ := param
    rw [bindParams]
    cases name with
    | none => exact ih _
    | some name =>
      rw [show (declaredNames (⟨some name, ty, line⟩ :: params)).length =
        1 + (declaredNames params).length from Nat.add_comm ..]
      refine (reserves_alloca _ _).bind fun slot => ?_
      refine (reserves_parameter? index).then fun incoming => ?_
      cases incoming with
      | none => exact (reserves_bindName _ _).then fun _ => ih _
      | some v =>
        exact (reserves_emit _ rfl).then fun _ => (reserves_bindName _ _).then fun _ => ih _

theorem reserves_returnDefault (line : Nat) :
    Reserves f entry loops false waiting (returnDefault m line) 0 true waiting := by
  have default :
      Reserves f entry loops false waiting (defaultValue m.ret line) 0 false waiting := by
    rw [defaultValue]
    split
    · exact reserves_emit _ rfl
    · exact reserves_zeroValue _ _
  rw [returnDefault]
  split
  · exact reserves_throw _
  · exact (reserves_warn _).then fun _ => default.then fun v => reserves_terminate _

theorem reserves_returnStmt (result : Option Expr) (line : Nat) :
    Reserves m.function entry loops false waiting (returnStmt m result line) 0 true waiting := by
  cases result with
  | none =>
    simp only [returnStmt]
    split
    · exact reserves_terminate _
    · exact reserves_returnDefault line
  | some e =>
    simp only [returnStmt]
    split
    · exact reserves_throw _
    · exact (reserves_value e).then fun v => (reserves_coerce v _).then fun w =>
        reserves_terminate _

/-- A jump closes its block if there is a loop around it. -/
theorem reserves_jumpStmt {loop : Bool} (inside : loops.loops = [] ↔ loop = false) (kind : Jump)
    (line : Nat) : Reserves f entry loops false waiting (jumpStmt m kind line) 0 loop waiting := by
  intro k s here at_
  apply ends_innermostLoop?
  rw [here, LoopStack.innermost?]
  cases stack : loops.loops with
  | nil =>
    obtain rfl := inside.1 stack
    dsimp only [List.head?_nil]
    split
    · exact ends_throw trivial
    · exact ends_warn ⟨here, at_⟩
  | cons targets outer =>
    obtain rfl : loop = true := by
      cases loop
      · rw [inside.2 rfl] at stack
        cases stack
      · rfl
    exact reserves_terminate _ k s here at_

/-- The bodies may stand anywhere in the function. -/
theorem Reserves.conditional (cond : Expr) {T E : Gen Builder Unit} {thenCloses elseCloses : Bool}
    (first : ∀ waiting, Reserves m.function entry loops false waiting T n thenCloses waiting)
    (second : ∀ waiting, Reserves m.function entry loops false waiting E n' elseCloses waiting) :
    Reserves m.function entry loops false waiting (conditional m cond T E) (n + n')
      (thenCloses && elseCloses) waiting := by
  refine .append [] fun c => .append [c] fun t => .append [c, t] fun e => ?_
  refine .append [c, t, e] fun done => (reserves_terminate _).then fun _ => ?_
  refine reserves_position.then fun _ => (reserves_value cond).then fun v => ?_
  refine (reserves_terminate _).then fun _ => reserves_position.then fun _ => ?_
  refine (first _).bind fun _ => .branch (reserves_position.then fun _ => ?_)
  refine (second _).before fun _ => .branch (reserves_position.then fun _ => ?_)
  cases thenCloses <;> cases elseCloses
  case true.true => exact reserves_terminate .unreachable
  all_goals exact reserves_pure ()

theorem Reserves.whileLoop (cond : Expr) {B : Gen Builder Unit}
    (body : ∀ targets waiting,
      Reserves m.function entry (loops.push targets) false waiting B n closed waiting) :
    Reserves m.function entry loops false waiting (whileLoop m cond B) n false waiting := by
  refine .append [] fun c => .append [c] fun start => .append [c, start] fun done => ?_
  refine (reserves_terminate _).then fun _ => reserves_position.then fun _ => ?_
  refine (reserves_value cond).then fun v => (reserves_terminate _).then fun _ => ?_
  refine reserves_position.then fun _ => (body _ _).inLoop.before fun _ => ?_
  exact .branch reserves_position

theorem Reserves.forLoop (init : List Assignment) (cond : Expr) (step : List Assignment)
    {B : Gen Builder Unit}
    (body : ∀ targets waiting,
      Reserves m.function entry (loops.push targets) false waiting B n closed waiting) :
    Reserves m.function entry loops false waiting (forLoop m init cond step B) n false waiting := by
  refine (reserves_assignments init).then fun _ => .append [] fun c => .append [c] fun start => ?_
  refine .append [c, start] fun post => .append [c, start, post] fun done => ?_
  refine (reserves_terminate _).then fun _ => reserves_position.then fun _ => ?_
  refine (reserves_value cond).then fun v => (reserves_terminate _).then fun _ => ?_
  refine reserves_position.then fun _ => (body _ _).inLoop.before fun _ => ?_
  refine .branch (reserves_position.then fun _ => ?_)
  refine (reserves_assignments step).then fun _ => (reserves_terminate _).then fun _ => ?_
  exact reserves_position

mutual

/-- A statement reserves a slot for each variable that is compiled with it. -/
theorem reserves_stmt {loop : Bool} : ∀ (st : Stmt) (loops : LoopStack) (waiting : List BlockId),
    (loops.loops = [] ↔ loop = false) →
    Reserves m.function entry loops false waiting (stmt m st) (st.variables loop) (st.leaves loop)
      waiting
  | .block body, loops, waiting, inside => by
    simp only [stmt, Stmt.variables, Stmt.leaves]
    exact reserves_block body loops waiting inside
  | .ifElse cond thenBlock elseBlock line, loops, waiting, inside => by
    simp only [stmt, Stmt.variables, Stmt.leaves]
    exact .conditional cond (fun waiting => reserves_block thenBlock loops waiting inside)
      fun waiting => reserves_optionalBlock elseBlock loops waiting inside
  | .while cond body line, loops, waiting, inside => by
    simp only [stmt, Stmt.variables, Stmt.leaves]
    exact .whileLoop cond fun targets waiting =>
      reserves_block body (loops.push targets) waiting (by simp [LoopStack.push])
  | .for init cond step body line, loops, waiting, inside => by
    simp only [stmt, Stmt.variables, Stmt.leaves]
    exact .forLoop init cond step fun targets waiting =>
      reserves_block body (loops.push targets) waiting (by simp [LoopStack.push])
  | .return result line, loops, waiting, inside => by
    simp only [stmt, Stmt.variables, Stmt.leaves]
    exact reserves_returnStmt result line
  | .jump kind line, loops, waiting, inside => by
    simp only [stmt, Stmt.variables, Stmt.leaves]
    exact reserves_jumpStmt inside kind line
  | .assign a, loops, waiting, inside => by
    simp only [stmt, Stmt.variables, Stmt.leaves]
    exact reserves_assignment a
  | .call callee args line, loops, waiting, inside => by
    simp only [stmt, Stmt.variables, Stmt.leaves]
    exact (reserves_expr (.call callee args line) waiting).then fun _ => reserves_pure ()

theorem reserves_stmts {loop : Bool} : ∀ (ss : List Stmt) (loops : LoopStack)
    (waiting : List BlockId), (loops.loops = [] ↔ loop = false) →
    Reserves m.function entry loops false waiting (stmts m ss) (Stmt.liveVariables loop ss)
      (Stmt.anyLeaves loop ss) waiting
  | [], loops, waiting, inside => by
    simp only [stmts, Stmt.liveVariables, Stmt.anyLeaves]
    exact reserves_pure ()
  | st :: ss, loops, waiting, inside => by
    simp only [stmts, Stmt.liveVariables, Stmt.anyLeaves]
    refine .ask ?_
    rw [if_neg Bool.false_ne_true]
    refine (reserves_stmt st loops waiting inside).bind fun _ => ?_
    cases left : st.leaves loop with
    | true =>
      -- nothing of the rest is compiled
      intro k s here at_
      rw [Ends, run_stmts_of_terminated at_.isTerminated]
      exact ⟨here, at_⟩
    | false => exact reserves_stmts ss loops waiting inside

theorem reserves_block {loop : Bool} : ∀ (b : Block) (loops : LoopStack)
    (waiting : List BlockId), (loops.loops = [] ↔ loop = false) →
    Reserves m.function entry loops false waiting (block m b) (b.variables loop) (b.leaves loop)
      waiting
  | .mk vars ss, loops, waiting, inside => by
    simp only [block, Block.variables, Block.leaves]
    exact ((reserves_declareLocals vars).bind fun _ =>
      reserves_stmts ss loops waiting inside).inScope

theorem reserves_optionalBlock {loop : Bool} : ∀ (b : Option Block) (loops : LoopStack)
    (waiting : List BlockId), (loops.loops = [] ↔ loop = false) →
    Reserves m.function entry loops false waiting (optionalBlock m b)
      (Block.optionalVariables loop b) (Block.optionalLeaves loop b) waiting
  | none, loops, waiting, inside => by
    simp only [optionalBlock, Block.optionalVariables, Block.optionalLeaves]
    exact reserves_pure ()
  | some b, loops, waiting, inside => by
    simp only [optionalBlock, Block.optionalVariables, Block.optionalLeaves]
    exact reserves_block b loops waiting inside

end

theorem reserves_finishBody (line : Nat) :
    Reserves f entry loops closed waiting (finishBody m line) 0 true waiting := by
  rw [finishBody]
  refine .ask ?_
  cases closed with
  | true => exact reserves_pure ()
  | false =>
    rw [if_neg Bool.false_ne_true]
    split
    · exact reserves_terminate _
    · exact reserves_returnDefault line

/-- A method reserves its slots and no others. -/
theorem reserves_methodBody (d : Method) (outermost : loops.loops = []) :
    Reserves m.function entry loops false waiting (methodBody m d) d.variables true waiting := by
  have count : d.variables = (declaredNames d.params).length +
      ((declaredNames d.body.vars).length + Stmt.liveVariables false d.body.stmts) := by
    rw [Method.variables]
    cases d.body
    rfl
  rw [count, methodBody]
  refine ((reserves_bindParams d.params 0).bind fun _ => ?_).inScope
  refine (reserves_declareLocals d.body.vars).bind fun _ => ?_
  refine (reserves_stmts d.body.stmts loops waiting (by simp [outermost])).before fun _ => ?_
  exact reserves_finishBody d.line

/-- Where a body begins, its entry is the only block and nothing is reserved. -/
theorem building_of_site {typed : Prop} {p : Plan} {m₀ : Module} {s : GenState Builder}
    (site : Site typed p s p.entry) (isOpen : s.target.module.terminator? p.entry = none)
    (a : m₀.Append s.target.module p.function p.entry) :
    s.target.Building p.function p.entry false [] 0 := by
  obtain ⟨F, hF, -, first, -⟩ := site.body.declared
  exact {
    first := by rw [hF]; exact first
    owned := site.owned
    order := site.body.order _ site.owned
    slots := by rw [a.slotsOf_self]; rfl
    here := ⟨p.entry, site.here, site.owned, by rw [isOpen]; rfl, List.not_mem_nil⟩
    waits := fun c hc => by cases hc
    distinct := List.nodup_nil }

theorem ends_defineMethod_slots {options : Options} {d : Method} {s : GenState Builder}
    (bodiless : s.target.module.Bodiless f d.signature)
    (scopes : ∀ p, s.scopes.Fits s.target.module p) (loops : s.loops = .empty) :
    Ends (defineMethod options d f) s (fun _ s' => s'.target.module.HasSlots f d.variables)
      fun _ => True := by
  refine ends_enterBody False rfl bodiless scopes loops ?_
  rintro p s₁ site isOpen - rfl - a - sameLoops
  have building := building_of_site site isOpen a
  refine ends_bind (reserves_methodBody (m := ⟨p.function, d.name, d.ret, options⟩) d
    (by rw [sameLoops, loops]; rfl) 0 s₁ rfl building) ?_
  rintro _ s₂ ⟨-, built⟩
  rw [Nat.zero_add] at built
  split
  · rw [checkMethod]
    apply ends_get
    split
    · exact ends_pure built.hasSlots
    · exact ends_throw trivial
  · exact ends_pure built.hasSlots

/-- In the end every method has its slots. -/
theorem ends_defineMethods_slots {options : Options} {Γ : Context} :
    ∀ (ds : List Method) {n : Nat} {s : GenState Builder}, Pending False Γ n ds s →
    Ends ((ds.zip ((List.range' n ds.length).map FunctionId.mk)).forM
        fun x => defineMethod options x.1 x.2) s
      (fun _ s' =>
        (∀ i d, ds[i]? = some d → s'.target.module.HasSlots ⟨n + i⟩ d.variables) ∧
        ∀ (g : FunctionId) k, g.index < n → s.target.module.HasSlots g k →
          s'.target.module.HasSlots g k) fun _ => True
  | [], n, s, _ => ends_pure ⟨by simp, fun _ _ _ h => h⟩
  | d :: ds, n, s, pending => by
    rw [List.length_cons, List.range'_succ, List.map_cons, List.zip_cons_cons]
    refine ends_bind ((pending.ends False.elim).lax.and
      (ends_defineMethod_slots (pending.bodiless 0 d rfl) pending.fits pending.loops)) ?_
    rintro _ s₁ ⟨defined, first⟩
    refine (ends_defineMethods_slots ds (pending.next defined)).imp ?_
    rintro _ s₂ ⟨others, earlier⟩
    refine ⟨fun i e he => ?_, fun g k hg h => ?_⟩
    · cases i with
      | zero =>
        obtain rfl : d = e := by simpa using he
        exact earlier ⟨n⟩ _ (Nat.lt_succ_self n) first
      | succ i =>
        have := others i e (by simpa using he)
        rwa [show n + 1 + i = n + (i + 1) by omega] at this
    · refine earlier g k (Nat.lt_succ_of_lt hg) (h.outside defined.outside ?_)
      rintro rfl
      exact Nat.lt_irrefl n hg

end

end Gen

/-- In a compiled program each method has a slot for each of its variables. -/
theorem hasSlots_of_compile {options : Options} {program : Program} {m : Module}
    {warnings : List Warning} (compiled : compile options program = .ok (m, warnings))
    {p : Package} (package : program.package = some p) :
    ∀ i d, p.methods[i]? = some d → m.HasSlots ⟨program.externs.length + i⟩ d.variables := by
  have declared := (@Gen.ends_declarations False [[]] [[]] [[]] Builder.empty program.externs p
    Builder.Reachable.empty.grounded.blocks False.elim False.elim False.elim).lax
  have ends : Gen.Ends (Gen.program options program.externs p) (.start Builder.empty)
      (fun _ s' => ∀ i d, p.methods[i]? = some d →
        s'.target.module.HasSlots ⟨program.externs.length + i⟩ d.variables) fun _ => True := by
    rw [Gen.program_eq]
    refine Gen.ends_bind declared ?_
    rintro ids s ⟨rfl, preamble⟩
    have pending := preamble.pending (b := Builder.empty)
      Builder.Reachable.empty.grounded.issues False.elim
    refine (Gen.ends_defineMethods_slots p.methods pending).imp ?_
    rintro _ s' ⟨slots, -⟩
    rwa [show Builder.empty.module.functions.size = 0 from rfl, Nat.zero_add] at slots
  rw [compile_eq_map package] at compiled
  rw [Gen.Ends] at ends
  generalize (Gen.program options program.externs p).run.run (.start Builder.empty) =
    out at compiled ends
  obtain ⟨e | u, s⟩ := out
  · cases compiled
  · cases compiled
    exact ends

end Decaf
