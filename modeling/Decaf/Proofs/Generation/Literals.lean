import Decaf.Proofs.Generation.Reservations
import Decaf.Proofs.Meaning.Names

/-!
# Strings of methods

Which strings a module holds can be read off the syntax: one for each string constant of the
statements that are compiled, in the order in which code for them is generated, however often
the same text occurs. Constants after a statement at which control leaves have none.
-/

namespace Decaf

open IR

def Constant.texts (c : Constant) : List String :=
  match c.value with
  | .string text => [text]
  | _ => []

mutual

/-- The texts of the string constants of an expression, from left to right. -/
def Expr.texts : Expr → List String
  | .binary _ lhs rhs _ => Expr.texts lhs ++ Expr.texts rhs
  | .unary _ operand _ => Expr.texts operand
  | .var _ _ => []
  | .element _ index _ => Expr.texts index
  | .call _ args _ => Expr.allTexts args
  | .constant c => c.texts

def Expr.allTexts : List Expr → List String
  | [] => []
  | e :: es => Expr.texts e ++ Expr.allTexts es

end

def Assignment.texts : Assignment → List String
  | .scalar _ value _ => value.texts
  | .element _ index value _ => index.texts ++ value.texts

mutual

/-- The assignments after each pass of a `for` loop come after its body. -/
def Stmt.texts (loop : Bool) : Stmt → List String
  | .block body => Block.texts loop body
  | .ifElse cond thenBlock elseBlock _ =>
    cond.texts ++ (Block.texts loop thenBlock ++ Block.optionalTexts loop elseBlock)
  | .while cond body _ => cond.texts ++ Block.texts true body
  | .for init cond step body _ =>
    init.flatMap (·.texts) ++ (cond.texts ++ (Block.texts true body ++ step.flatMap (·.texts)))
  | .return none _ => []
  | .return (some result) _ => result.texts
  | .jump _ _ => []
  | .assign a => a.texts
  | .call _ args _ => Expr.allTexts args

/-- The texts of the statements up to the first one at which control leaves. -/
def Stmt.liveTexts (loop : Bool) : List Stmt → List String
  | [] => []
  | s :: ss => Stmt.texts loop s ++ if s.leaves loop then [] else Stmt.liveTexts loop ss

def Block.texts (loop : Bool) : Block → List String
  | .mk _ ss => Stmt.liveTexts loop ss

def Block.optionalTexts (loop : Bool) : Option Block → List String
  | none => []
  | some b => Block.texts loop b

end

def Method.texts (d : Method) : List String :=
  d.body.texts false

def Program.texts (P : Program) : List String :=
  P.package.toList.flatMap fun p => p.methods.flatMap (·.texts)

namespace IR

/-- The bytes of a string; other globals have none. -/
def GlobalKind.bytes? : GlobalKind → Option (List UInt8)
  | .string bytes => some bytes
  | _ => none

/-- The strings of a module, in the order of creation. -/
def Module.strings (m : Module) : List (List UInt8) :=
  m.globals.toList.filterMap (·.kind.bytes?)

theorem Module.strings_congr {m m' : Module} (same : m'.globals = m.globals) :
    m'.strings = m.strings := by
  rw [Module.strings, same, Module.strings]

def utf8 (text : String) : List UInt8 :=
  text.toUTF8.toList

/-- The global for which a command asks, and the name that it is to have. -/
def Command.global? : Command r → Option (String × GlobalKind)
  | .globalScalar hint ty init => some (hint, .scalar ty init)
  | .globalArray hint ty length => some (hint, .array ty length)
  | .globalString contents => some (".str", .string (utf8 contents))
  | _ => none

/-- The text for which a command asks for a string. -/
def Command.text? : Command r → Option String
  | .globalString contents => some contents
  | _ => none

namespace Builder

theorem strings_pushGlobal (b : Builder) (hint : String) (kind : GlobalKind) :
    (b.pushGlobal hint kind).2.module.strings = b.module.strings ++ kind.bytes?.toList := by
  have globals : (b.pushGlobal hint kind).2.module.globals.toList = b.module.globals.toList ++ [_] :=
    Array.toList_push
  rw [Module.strings, globals, List.filterMap_append, Module.strings]
  cases found : kind.bytes? <;> simp [found]

theorem globals_extend (b : Builder) (change : Block → Block) :
    (b.extend change).module.globals = b.module.globals := by
  unfold extend
  split
  · rfl
  · split <;> rfl

theorem globals_emit (b : Builder) (ty : Ty) (hint : String) (inst : ValueId → Inst) :
    (b.emit ty hint inst).2.module.globals = b.module.globals := by
  have same := congrArg Module.globals (module_localName b b.insertionFunction? hint)
  unfold emit
  rw [globals_extend]
  exact same

theorem globals_alloca (b : Builder) (ty : Ty) (hint : String) :
    (b.alloca ty hint).2.module.globals = b.module.globals := by
  have same := congrArg Module.globals (module_localName b b.insertionFunction? hint)
  unfold alloca
  dsimp only
  split <;> exact same

/-- Globals are added where a command asks for one, and nowhere else. -/
theorem globals_perform (b : Builder) {r : Reply} (c : Command r) :
    (b.perform c).2.module.globals =
      (c.global?.elim b fun g => (b.pushGlobal g.1 g.2).2).module.globals := by
  cases c with
  | globalString | globalScalar | globalArray => rfl
  | terminate t => exact b.globals_extend _
  | store value address => exact b.globals_extend _
  | alloca ty hint => exact b.globals_alloca ty hint
  | load | elementPtr | binary | unary | zext | phi => exact b.globals_emit _ _ _
  | appendBlock f hint =>
    have same := congrArg Module.globals (module_localName b (some f) hint)
    exact same
  | call callee args =>
    simp only [perform, call]
    split
    · exact b.globals_extend _
    · exact b.globals_emit _ "call" fun dst => .call (some dst) callee args
  | setModuleName | declareFunction | positionAtEnd | const => rfl

/-- Only a command for a string adds a string. -/
theorem strings_perform (b : Builder) {r : Reply} (c : Command r) :
    (b.perform c).2.module.strings = b.module.strings ++ c.text?.toList.map utf8 := by
  have added : (b.perform c).2.module.strings =
      b.module.strings ++ (c.global?.bind (·.2.bytes?)).toList := by
    rw [Module.strings_congr (b.globals_perform c)]
    cases c.global? with
    | none => exact (List.append_nil _).symm
    | some g => exact b.strings_pushGlobal g.1 g.2
  rw [added]
  cases c <;> rfl

end Builder

end IR

namespace Gen

/-- Unless it fails, the computation adds the strings of the texts, and no others. -/
def Spells {α : Type} (x : Gen Builder α) (ts : List String) : Prop :=
  ∀ s, Ends x s (fun _ s' => s'.target.module.strings = s.target.module.strings ++ ts.map utf8)
    fun _ => True

section

variable {α β : Type} {ts us : List String} {m : MethodContext}

theorem Spells.bind {x : Gen Builder α} {g : α → Gen Builder β} (first : Spells x ts)
    (rest : ∀ a, Spells (g a) us) : Spells (x >>= g) (ts ++ us) := by
  intro s
  refine ends_bind (first s) fun a s' same => (rest a s').imp fun _ s'' same' => ?_
  rw [same', same, List.map_append, List.append_assoc]

/-- The first part adds no string. -/
theorem Spells.then {x : Gen Builder α} {g : α → Gen Builder β} (first : Spells x [])
    (rest : ∀ a, Spells (g a) ts) : Spells (x >>= g) ts :=
  first.bind rest

/-- The second part adds no string. -/
theorem Spells.before {x : Gen Builder α} {g : α → Gen Builder β} (first : Spells x ts)
    (rest : ∀ a, Spells (g a) []) : Spells (x >>= g) ts := by
  have both := first.bind rest
  rwa [List.append_nil] at both

theorem Spells.map {x : Gen Builder α} {g : α → β} (h : Spells x ts) : Spells (g <$> x) ts :=
  fun s => ends_map (h s)

/-- A computation that leaves its state as it is. -/
theorem spells_reads {x : Gen Builder α} (reads : ∀ s, (x.run.run s).2 = s) : Spells x [] := by
  intro s
  have same := reads s
  unfold Ends
  split
  · rename_i done
    rw [done] at same
    obtain rfl : _ = s := same
    exact (List.append_nil _).symm
  · trivial

theorem spells_pure (a : α) : Spells (pure a) [] :=
  spells_reads fun _ => rfl

theorem spells_throw (e : CompileError) : Spells (throw e : Gen Builder α) ts :=
  fun _ => ends_throw trivial

theorem spells_fromScopes (query : ScopeStack → Except CompileError α) :
    Spells (fromScopes query) [] :=
  spells_reads fun s => by rw [run_fromScopes]

theorem spells_insertionBlock : Spells (insertionBlock m) [] := by
  refine spells_reads fun s => ?_
  have got : (get : Gen Builder (GenState Builder)).run.run s = (.ok s, s) := rfl
  rw [insertionBlock, run_bind, got]
  dsimp only
  cases Target.insertion? s.target <;> rfl

theorem spells_emit {r : Reply} (c : Command r) : Spells (emit c) c.text?.toList :=
  fun s => ends_emit (s.target.strings_perform c)

theorem spells_bindName (name : String) (d : Descriptor) : Spells (bindName name d) [] :=
  fun _ => ends_bindName (fun _ => (List.append_nil _).symm) fun _ _ => trivial

theorem spells_warn (w : Warning) : Spells (warn w) [] :=
  fun _ => ends_warn (List.append_nil _).symm

theorem spells_branchIfOpen (b : BlockId) : Spells (branchIfOpen b) [] := by
  refine (spells_reads (x := isTerminated) fun _ => rfl).then fun closed => ?_
  split
  · exact spells_pure _
  · exact (spells_emit (.terminate (.br b))).then fun _ => spells_pure _

theorem spells_coerce (v : ValueId) (wanted : Decaf.Ty) : Spells (coerce v wanted) [] := by
  refine (spells_reads (x := typeOf v) fun _ => rfl).then fun found => ?_
  split
  · exact spells_emit (.zext v .i32)
  · exact spells_pure v

theorem Spells.asValue {x : Gen Builder (Option ValueId)} (line : Nat) (h : Spells x ts) :
    Spells (asValue line x) ts := by
  refine h.before fun v => ?_
  cases v with
  | none => exact spells_throw _
  | some v => exact spells_pure v

theorem Spells.instruction {l r : Gen Builder ValueId} (op : BinOp) (hint : String)
    (left : Spells l ts) (right : Spells r us) : Spells (instruction op hint l r) (ts ++ us) := by
  refine left.bind fun v => right.before fun w => ?_
  refine (spells_reads (x := typeOf v) fun _ => rfl).then fun tv => ?_
  refine (spells_reads (x := typeOf w) fun _ => rfl).then fun tw => ?_
  split
  · exact spells_emit (.binary op v w hint)
  · exact (spells_coerce v _).then fun v' => (spells_coerce w _).then fun w' =>
      spells_emit (.binary op v' w' hint)

theorem Spells.connective {l r : Gen Builder ValueId} (c : Connective) (left : Spells l ts)
    (right : Spells r us) : Spells (connective m c l r) (ts ++ us) := by
  refine left.bind fun v => (spells_emit (.appendBlock _ _)).then fun rhs => ?_
  refine (spells_emit (.appendBlock _ _)).then fun done => spells_insertionBlock.then fun exit => ?_
  refine (spells_emit (.terminate _)).then fun _ => (spells_emit (.positionAtEnd _)).then fun _ => ?_
  refine right.before fun w => spells_insertionBlock.then fun exit' => ?_
  refine (spells_branchIfOpen _).then fun _ => (spells_emit (.positionAtEnd _)).then fun _ => ?_
  exact spells_emit (.phi _ _ _)

theorem spells_constant (c : Constant) : Spells (constant c.value) c.texts := by
  obtain ⟨value, lexeme, line⟩ := c
  cases value with
  | int n => exact spells_emit (.const (.i32 n))
  | bool b => exact spells_emit (.const (.bool b))
  | string text => exact spells_emit (.globalString text)

mutual

theorem spells_expr : ∀ e : Expr, Spells (expr m e) e.texts
  | .binary op lhs rhs line => by
    have left := (spells_expr lhs).asValue lhs.line
    have right := (spells_expr rhs).asValue rhs.line
    simp only [expr, Expr.texts]
    split
    · exact .map (.instruction _ _ left right)
    · exact .map (.connective _ left right)
  | .unary op operand line => by
    simp only [expr, Expr.texts]
    refine ((spells_expr operand).asValue _).before fun v => ?_
    cases op with
    | not => exact .map (spells_emit (.unary .not v _))
    | neg => exact .map (spells_emit (.unary .neg v _))
  | .var name line => by
    simp only [expr, Expr.texts]
    exact .map ((spells_fromScopes _).then fun _ => spells_emit (.load _ _ _))
  | .element array index line => by
    simp only [expr, Expr.texts]
    refine (spells_fromScopes _).then fun _ => ((spells_expr index).asValue _).before fun i => ?_
    exact (spells_emit (.elementPtr _ _ _)).then fun a => .map (spells_emit (.load _ _ _))
  | .call callee args line => by
    simp only [expr, Expr.texts]
    intro s
    refine ends_bind (P := fun a s' => s' = s ∧ a.2.length = args.length)
      (ends_fromScopes (fun a found => ⟨rfl, ?_⟩) fun _ _ => trivial) ?_
    · obtain ⟨f, tys⟩ := a
      obtain ⟨d, params, -, -, -, arity, types⟩ := ScopeStack.lookup_of_resolveCall found
      rw [types, List.length_map, arity]
    · rintro ⟨f, params⟩ _ ⟨rfl, arity⟩
      exact ((spells_arguments args params arity).before fun vs => spells_emit (.call f vs)) _
  | .constant c => by
    simp only [expr, Expr.texts]
    exact .map (spells_constant c)

theorem spells_arguments : ∀ (es : List Expr) (tys : List Decaf.Ty), tys.length = es.length →
    Spells (arguments m es tys) (Expr.allTexts es)
  | [], _, _ => by
    simp only [arguments, Expr.allTexts]
    exact spells_pure []
  | e :: es, ty :: tys, arity => by
    simp only [arguments, Expr.allTexts]
    refine ((spells_expr e).asValue _).bind fun v => (spells_coerce v ty).then fun w => ?_
    exact (spells_arguments es tys (Nat.succ.inj arity)).before fun ws => spells_pure _

end

theorem spells_value (e : Expr) : Spells (value m e) e.texts :=
  (spells_expr e).asValue e.line

theorem spells_assignment (a : Assignment) : Spells (assignment m a) a.texts := by
  cases a with
  | scalar name e line =>
    refine (spells_fromScopes _).then fun _ => (spells_value e).before fun v => ?_
    exact (spells_coerce v _).then fun w => spells_emit (.store w _)
  | element array index e line =>
    refine (spells_fromScopes _).then fun _ => (spells_value index).bind fun i => ?_
    refine (spells_value e).before fun v => (spells_coerce v _).then fun w => ?_
    exact (spells_emit (.elementPtr _ _ i)).then fun address => spells_emit (.store w address)

theorem spells_assignments (as : List Assignment) :
    Spells (assignments m as) (as.flatMap (·.texts)) := by
  induction as with
  | nil => exact spells_pure ()
  | cons a as ih => exact (spells_assignment a).bind fun _ => ih

theorem spells_zeroValue (ty : Decaf.Ty) (line : Nat) : Spells (zeroValue ty line) [] := by
  rw [zeroValue]
  split
  · exact spells_emit (.const _)
  · exact spells_throw _

theorem spells_declareLocals (vars : List VarDecl) : Spells (declareLocals vars) [] := by
  induction vars with
  | nil => exact spells_pure ()
  | cons var vars ih =>
    rw [declareLocals]
    cases var.name with
    | none => exact ih
    | some name =>
      refine (spells_emit (.alloca _ name)).then fun slot => (spells_zeroValue _ _).then fun zero => ?_
      exact (spells_emit (.store zero slot)).then fun _ => (spells_bindName _ _).then fun _ => ih

theorem spells_returnDefault (line : Nat) : Spells (returnDefault m line) [] := by
  have default : Spells (defaultValue m.ret line) [] := by
    rw [defaultValue]
    split
    · exact spells_emit (.const _)
    · exact spells_zeroValue _ _
  rw [returnDefault]
  split
  · exact spells_throw _
  · exact (spells_warn _).then fun _ => default.then fun v => spells_emit (.terminate _)

theorem spells_returnStmt (result : Option Expr) (line : Nat) :
    Spells (returnStmt m result line) ((Stmt.return result line).texts false) := by
  cases result with
  | none =>
    simp only [returnStmt, Stmt.texts]
    split
    · exact spells_emit (.terminate _)
    · exact spells_returnDefault line
  | some e =>
    simp only [returnStmt, Stmt.texts]
    split
    · exact spells_throw _
    · exact (spells_value e).before fun v => (spells_coerce v _).then fun w =>
        spells_emit (.terminate _)

theorem spells_jumpStmt (kind : Jump) (line : Nat) : Spells (jumpStmt m kind line) [] := by
  refine (spells_reads (x := innermostLoop?) fun _ => rfl).then fun targets => ?_
  cases targets with
  | some targets => exact spells_emit (.terminate _)
  | none =>
    dsimp only
    split
    · exact spells_throw _
    · exact spells_warn _

end

end Gen

end Decaf
