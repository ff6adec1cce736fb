import Decaf.Proofs.Generation.ScopedCode

/-!
# Well scoped bodies

Variables are declared exactly if their names are fresh. The body of a method compiles exactly
if it is well scoped, statement by statement, up to where control leaves; what is warned of then
is read off the syntax.
-/

namespace Decaf

open IR

namespace Gen

variable {loop closed : Bool} {Γ : Context} {m : MethodContext}

/-- The entities of the bindings of one scope. -/
def entities (bindings : Bindings) : List (String × Entity) :=
  bindings.map fun x => (x.1, x.2.entity)

/-- The names are distinct and none of them is taken. -/
def Fresh (taken : List (String × Entity)) (names : List String) : Prop :=
  names.Nodup ∧ ∀ name ∈ names, taken.lookup name = none

theorem fresh_cons {taken : List (String × Entity)} {name : String} {e : Entity}
    {names : List String} : Fresh taken (name :: names) ↔
      taken.lookup name = none ∧ Fresh ((name, e) :: taken) names := by
  simp only [Fresh, List.nodup_cons, List.forall_mem_cons, List.lookup_cons]
  constructor
  · rintro ⟨⟨apart, distinct⟩, free, rest⟩
    refine ⟨free, distinct, fun other mem => ?_⟩
    rw [beq_false_of_ne (by rintro rfl; exact apart mem)]
    exact rest other mem
  · rintro ⟨free, distinct, rest⟩
    have apart (other : String) (mem : other ∈ names) : other ≠ name := by
      rintro rfl
      have := rest other mem
      simp at this
    refine ⟨⟨fun mem => apart name mem rfl, distinct⟩, free, fun other mem => ?_⟩
    have := rest other mem
    rwa [beq_false_of_ne (apart other mem)] at this

/-- Names are fresh one by one, each with those before it taken as well. -/
theorem fresh_append {taken new : List (String × Entity)} {names : List String} :
    Fresh taken (new.map (·.1) ++ names) ↔
      Fresh taken (new.map (·.1)) ∧ Fresh (new.reverse ++ taken) names := by
  induction new generalizing taken with
  | nil => simp [Fresh]
  | cons x new ih =>
    simp only [List.map_cons, List.cons_append, List.reverse_cons, List.append_assoc,
      List.nil_append]
    rw [fresh_cons (e := x.2), fresh_cons (e := x.2), ih, and_assoc]

theorem fresh_nil {names : List String} : Fresh [] names ↔ names.Nodup := by
  simp [Fresh]

/-- Variables have been declared in the innermost of the scopes inside the package. Code can be
put where it could be before. -/
structure Declares (s s' : GenState Builder) (added : List (String × Entity)) : Prop where
  calm : s.target.Calm s'.target
  loops : s'.loops = s.loops
  warnings : s'.warnings = s.warnings
  scopes : ∃ package bindings bindings' outer, s.scopes = ⟨package, bindings :: outer⟩ ∧
    s'.scopes = ⟨package, bindings' :: outer⟩ ∧ entities bindings' = added ++ entities bindings
  apt : s.scopes.Apt s.target.module → s'.scopes.Apt s'.target.module

theorem Declares.trans {s s' s'' : GenState Builder} {added added' : List (String × Entity)}
    (h : Declares s s' added) (h' : Declares s' s'' added') : Declares s s'' (added' ++ added) where
  calm := h.calm.trans h'.calm
  loops := h'.loops.trans h.loops
  warnings := h'.warnings.trans h.warnings
  scopes := by
    obtain ⟨package, bindings, bindings', outer, before, after, names⟩ := h.scopes
    obtain ⟨_, _, bindings'', _, between, last, names'⟩ := h'.scopes
    rw [after] at between
    cases between
    exact ⟨package, bindings, bindings'', outer, before, last,
      by rw [names', names, List.append_assoc]⟩
  apt apt := h'.apt (h.apt apt)

section

variable {s : GenState Builder} {package bindings : Bindings} {outer : List Bindings}
  (scopes : s.scopes = ⟨package, bindings :: outer⟩)

include scopes

theorem declares_calm {t : Builder} (calm : s.target.Calm t) :
    Declares s { s with target := t } [] where
  calm := calm
  loops := rfl
  warnings := rfl
  scopes := ⟨package, bindings, bindings, outer, scopes, scopes, rfl⟩
  apt apt := apt.congr fun f ty there => by rw [calm.returns, there]

theorem decides_emit_declares {reply : Reply} (c : Command reply) (calm : c.isCalm = true) :
    Decides (emit c) s True fun _ s' => Declares s s' [] :=
  ends_emit ⟨trivial, declares_calm scopes (s.target.calm_perform calm)⟩

theorem decides_zeroValue_declares (ty : Decaf.Ty) (line : Nat) :
    Decides (zeroValue ty line) s (ty ≠ .void) fun _ s' => Declares s s' [] := by
  cases ty with
  | void => exact decides_throw (by simp)
  | _ =>
    simp only [zeroValue, Ty.repr, Const.zero?]
    exact Decides.congr (decides_emit_declares scopes _ rfl) (by simp)

/-- A name is bound exactly if it is free in the innermost scope. -/
theorem decides_bindName_declares {kind : EntityKind} (isVariable : kind.isVariable = true)
    (name : String) (ty : Decaf.Ty) (slot : ValueId) (line : Nat) :
    Decides (bindName name (.scalar kind ty slot line)) s
      ((entities bindings).lookup name = none)
      fun _ s' => Declares s s' [(name, .variable ty)] := by
  have taken : (entities bindings).lookup name =
      (s.scopes.innermost.lookup name).map Descriptor.entity := by
    rw [scopes]
    exact lookup_map_entity bindings name
  rw [taken]
  refine ends_bindName (fun free => ⟨by rw [free]; rfl, ?_⟩) fun previous held => by simp [held]
  exact {
    calm := .refl _
    loops := rfl
    warnings := rfl
    scopes := ⟨package, bindings, (name, .scalar kind ty slot line) :: bindings, outer, scopes,
      by rw [scopes]; rfl, rfl⟩
    apt := fun apt other d there => by
      rw [ScopeStack.lookup_add] at there
      split at there
      · cases there
        exact isVariable
      · exact apt other d there }

/-- One declaration after the other. -/
theorem Decides.declare {α β : Type} {x : Gen Builder α} {f : α → Gen Builder β} {p q : Prop}
    {added added' : List (String × Entity)}
    (first : Decides x s p fun _ s' => Declares s s' added)
    (rest : ∀ a s' bindings', s'.scopes = ⟨package, bindings' :: outer⟩ →
      entities bindings' = added ++ entities bindings →
      Decides (f a) s' q fun _ s'' => Declares s' s'' added') :
    Decides (x >>= f) s (p ∧ q) fun _ s'' => Declares s s'' (added' ++ added) := by
  refine first.bind fun a s' declares => ?_
  obtain ⟨_, _, bindings', _, before, after, names⟩ := declares.scopes
  rw [scopes] at before
  cases before
  exact (rest a s' bindings' after names).imp fun _ _ h => declares.trans h

end

/-- Local variables are declared exactly if their names are fresh and none is `void`. -/
theorem decides_declareLocals (vars : List VarDecl) {s : GenState Builder}
    {package bindings : Bindings} {outer : List Bindings}
    (scopes : s.scopes = ⟨package, bindings :: outer⟩) :
    Decides (declareLocals vars) s
      (Fresh (entities bindings) (declaredNames vars) ∧ vars.all (·.startable) = true)
      fun _ s' => Declares s s' (declaredScope vars) := by
  induction vars generalizing s bindings with
  | nil =>
    exact (decides_pure (declares_calm scopes (.refl _))).congr
      (by simp [Fresh, declaredNames])
  | cons var vars ih =>
    obtain ⟨name, ty, line⟩ := var
    rw [declareLocals]
    cases name with
    | none =>
      refine (ih scopes).congr ?_
      simp [declaredNames, VarDecl.startable]
    | some name =>
      have added : declaredScope (⟨some name, ty, line⟩ :: vars) =
          ((declaredScope vars ++ [(name, .variable ty)]) ++ [] ++ []) ++ [] := by
        simp [declaredScope]
      rw [added]
      refine Decides.congr (p := True ∧ ty ≠ .void ∧ True ∧ (entities bindings).lookup name = none ∧
        Fresh ((name, .variable ty) :: entities bindings) (declaredNames vars) ∧
          vars.all (·.startable) = true) ?_ ?_
      · refine .declare scopes (decides_emit_declares scopes _ rfl) fun slot s₁ _ h₁ names₁ => ?_
        refine .declare h₁ (decides_zeroValue_declares h₁ ty line) fun zero s₂ _ h₂ names₂ => ?_
        refine .declare h₂ (decides_emit_declares h₂ _ rfl) fun _ s₃ _ h₃ names₃ => ?_
        simp only [names₁, names₂, List.nil_append] at names₃
        rw [← names₃]
        refine .declare h₃ (decides_bindName_declares h₃ rfl name ty slot line)
          fun _ s₄ _ h₄ names₄ => ?_
        rw [List.singleton_append] at names₄
        rw [← names₄]
        exact ih h₄
      · have names : declaredNames (⟨some name, ty, line⟩ :: vars) =
          name :: declaredNames vars := rfl
        have startable : VarDecl.startable ⟨some name, ty, line⟩ = (ty != .void) := rfl
        rw [names, fresh_cons (e := .variable ty), List.all_cons, startable]
        simp only [Bool.and_eq_true, bne_iff_ne, true_and, and_assoc, and_left_comm]

/-- Parameters are bound exactly if their names are fresh, whatever their types. -/
theorem decides_bindParams (params : List VarDecl) (index : Nat) {s : GenState Builder}
    {package bindings : Bindings} {outer : List Bindings}
    (scopes : s.scopes = ⟨package, bindings :: outer⟩) :
    Decides (bindParams m index params) s (Fresh (entities bindings) (declaredNames params))
      fun _ s' => Declares s s' (declaredScope params) := by
  induction params generalizing index s bindings with
  | nil =>
    exact (decides_pure (declares_calm scopes (.refl _))).congr
      (by simp [Fresh, declaredNames])
  | cons param params ih =>
    obtain ⟨name, ty, line⟩ := param
    rw [bindParams]
    cases name with
    | none => exact ih (index + 1) scopes
    | some name =>
      have added : declaredScope (⟨some name, ty, line⟩ :: params) =
          (declaredScope params ++ [(name, .variable ty)]) ++ [] ++ [] := by
        simp [declaredScope]
      have names : declaredNames (⟨some name, ty, line⟩ :: params) =
        name :: declaredNames params := rfl
      rw [added, names, fresh_cons (e := .variable ty)]
      have bound (slot : ValueId) {s : GenState Builder} {held : Bindings}
          (scopes : s.scopes = ⟨package, held :: outer⟩) :
          Decides (bindName name (.scalar .parameter ty slot line) >>= fun _ =>
              bindParams m (index + 1) params) s
            ((entities held).lookup name = none ∧
              Fresh ((name, .variable ty) :: entities held) (declaredNames params))
            fun _ s' => Declares s s' (declaredScope params ++ [(name, .variable ty)]) := by
        refine .declare scopes (decides_bindName_declares scopes rfl name ty slot line)
          fun _ s' _ h names => ?_
        rw [List.singleton_append] at names
        rw [← names]
        exact ih (index + 1) h
      refine Decides.congr (Decides.declare scopes (decides_emit_declares scopes _ rfl)
        fun slot s₁ _ h₁ names₁ => ?_) (by rw [true_and])
      rw [List.nil_append] at names₁
      rw [← names₁]
      have asked : Decides (parameter? m.function index) s₁ True fun _ s' => Declares s₁ s' [] :=
        ends_get (ends_pure ⟨trivial, declares_calm h₁ (.refl _)⟩)
      refine Decides.congr (Decides.declare h₁ asked fun incoming s₂ _ h₂ names₂ => ?_)
        (by rw [true_and])
      rw [List.nil_append] at names₂
      rw [← names₂]
      cases incoming with
      | none => exact bound slot h₂
      | some incoming =>
        refine (Decides.congr (Decides.declare h₂ (decides_emit_declares h₂ (.store incoming slot) rfl)
          fun _ s₃ _ h₃ names₃ => ?_) (by rw [true_and])).imp fun _ _ h => by simpa using h
        rw [List.nil_append] at names₃
        rw [← names₃]
        exact bound slot h₃

/-- A scope is opened for some declarations and closed again after what uses them. -/
theorem Judges.declared {x y : Gen Builder Unit} {p q : Prop} {added : List (String × Entity)}
    {told : List Warning}
    (declares : ∀ (s : GenState Builder) (package : Bindings) (outer : List Bindings),
      s.scopes = ⟨package, [] :: outer⟩ → Decides x s p fun _ s' => Declares s s' added)
    (body : Judges loop (added :: Γ) y q closed told) :
    Judges loop Γ (inScope (x >>= fun _ => y)) (p ∧ q) closed told := by
  intro s b ready names loops
  refine decides_inScope ((declares _ s.scopes.package s.scopes.inner rfl).bind fun _ s₂ d => ?_)
  obtain ⟨package, bindings, bindings', outer, before, after, entities'⟩ := d.scopes
  cases before
  have ready₂ : Ready s₂ b := {
    here := d.calm.insertion.trans ready.here
    isOpen := by rw [d.calm.isClosed]; exact ready.isOpen
    apt := d.apt ready.apt }
  have names₂ : s₂.scopes.context = added :: Γ := by
    rw [after, ← names]
    show entities bindings' :: s.scopes.context = _
    rw [entities']
    simp [entities]
  refine (body s₂ b ready₂ names₂ (by rw [d.loops]; exact loops)).imp ?_
  rintro _ s₃ ⟨b₃, r⟩
  have size := d.calm.size
  refine ⟨b₃, { r with
    scopes := by rw [r.scopes, after]; rfl
    loops := r.loops.trans d.loops
    warnings := by rw [r.warnings, d.warnings]
    size := size ▸ r.size
    block := size ▸ r.block
    others := fun c held other => ?_
    waits := fun _ hc => by cases hc
    returns := r.returns.trans d.calm.returns }⟩
  rw [← size] at held
  exact (r.others c held other).trans (by rw [d.calm.isClosed])

mutual

/-- A statement compiles exactly if it is well scoped, and then the block it ends in is closed
exactly if control leaves there. What is warned of is live. -/
theorem judges_stmt {check : Bool} (lenient : m.options = .lenient check) {loop : Bool}
    {Γ : Context} : ∀ st : Stmt,
    Judges loop Γ (stmt m st) (st.scoped m.ret loop Γ = true) (st.leaves loop)
      (warningsAt m.name m.ret (st.live loop))
  | .block body => by
    simp only [stmt, Stmt.scoped, Stmt.leaves, Stmt.live]
    exact judges_block lenient body
  | .ifElse cond thenBlock elseBlock line => by
    simp only [stmt, Stmt.scoped, Stmt.leaves, warningsAt_ifElse, Bool.and_eq_true]
    exact .conditional cond (judges_block lenient thenBlock) (judges_optionalBlock lenient elseBlock)
  | .while cond body line => by
    simp only [stmt, Stmt.scoped, Stmt.leaves, Stmt.live, Bool.and_eq_true]
    exact .whileLoop cond (judges_block lenient body)
  | .for init cond step body line => by
    simp only [stmt, Stmt.scoped, Stmt.leaves, Stmt.live, Bool.and_eq_true]
    exact .forLoop init cond step (judges_block lenient body)
  | .return result line => by
    simp only [stmt, Stmt.leaves]
    exact judges_returnStmt lenient result line
  | .jump kind line => by
    simp only [stmt, Stmt.scoped, Stmt.leaves]
    exact (judges_jumpStmt lenient kind line).congr (by simp)
  | .assign a => by
    simp only [stmt, Stmt.scoped, Stmt.leaves]
    exact judges_assignment a
  | .call callee args line => by
    simp only [stmt, Stmt.scoped, Stmt.leaves]
    intro s b ready names loops
    exact (offers_expr (.call callee args line) s b ready names loops).before
      fun _ _ ⟨_, b', r⟩ => decides_pure ⟨b', r⟩

theorem judges_stmts {check : Bool} (lenient : m.options = .lenient check) {loop : Bool}
    {Γ : Context} : ∀ ss : List Stmt,
    Judges loop Γ (stmts m ss) (Stmt.liveScoped m.ret loop Γ ss = true) (Stmt.anyLeaves loop ss)
      (warningsAt m.name m.ret (Stmt.allLive loop ss))
  | [] => by
    simp only [stmts, Stmt.liveScoped, Stmt.anyLeaves]
    exact (judges_pure ()).congr (by simp)
  | st :: ss => by
    simp only [stmts, Stmt.liveScoped, Stmt.anyLeaves, Stmt.allLive, warningsAt_append,
      Bool.and_eq_true, Bool.or_eq_true]
    intro s b ready names loops
    apply ends_isTerminated
    rw [show Target.isTerminated s.target = false from (Course.start ready).isTerminated,
      if_neg Bool.false_ne_true]
    refine (judges_stmt lenient st s b ready names loops).bind fun _ s' ⟨b', r⟩ => ?_
    cases left : st.leaves loop with
    | true =>
      -- nothing of the rest is looked at
      rw [left] at r
      rw [Decides, Ends, run_stmts_of_terminated r.isTerminated, if_pos rfl,
        show warningsAt m.name m.ret [] = [] from rfl, List.append_nil]
      exact ⟨.inl rfl, b', r⟩
    | false =>
      rw [left] at r
      rw [if_neg Bool.false_ne_true]
      exact ((judges_stmts lenient ss).within r ready names loops).congr (by simp)

theorem judges_block {check : Bool} (lenient : m.options = .lenient check) {loop : Bool}
    {Γ : Context} : ∀ b : Block,
    Judges loop Γ (block m b) (b.scoped m.ret loop Γ = true) (b.leaves loop)
      (warningsAt m.name m.ret (b.live loop))
  | .mk vars ss => by
    simp only [block, Block.scoped, Block.leaves, Block.live, Bool.and_eq_true,
      decide_eq_true_eq]
    refine .declared (fun s package outer scopes => ?_) (judges_stmts lenient ss)
    refine (decides_declareLocals vars scopes).congr ?_
    rw [show entities [] = [] from rfl, fresh_nil]

theorem judges_optionalBlock {check : Bool} (lenient : m.options = .lenient check) {loop : Bool}
    {Γ : Context} : ∀ b : Option Block,
    Judges loop Γ (optionalBlock m b) (Block.optionalScoped m.ret loop Γ b = true)
      (Block.optionalLeaves loop b) (warningsAt m.name m.ret (Block.optionalLive loop b))
  | none => by
    simp only [optionalBlock, Block.optionalScoped, Block.optionalLeaves]
    exact (judges_pure ()).congr (by simp)
  | some b => by
    simp only [optionalBlock, Block.optionalScoped, Block.optionalLeaves, Block.optionalLive]
    exact judges_block lenient b

end

theorem declaredNames_eq (vars : List VarDecl) : declaredNames vars =
    (vars.filterMap fun v => v.name.map fun name => (name, Entity.variable v.ty)).map (·.1) := by
  rw [declaredNames, List.map_filterMap]
  congr 1
  funext v
  cases v.name <;> rfl

theorem declaredNames_append (vars vars' : List VarDecl) :
    declaredNames (vars ++ vars') = declaredNames vars ++ declaredNames vars' :=
  List.filterMap_append ..

theorem declaredScope_append (vars vars' : List VarDecl) :
    declaredScope (vars ++ vars') = declaredScope vars' ++ declaredScope vars := by
  simp [declaredScope]

section Lenient

variable {check : Bool} (lenient : m.options = .lenient check)

include lenient

/-- What a method does in the end is not asked for by its statements. -/
theorem judges_finished (d : Method) (name : m.name = d.name) (ret : m.ret = d.ret) :
    Judges false Γ (stmts m d.body.stmts >>= fun _ => finishBody m d.line)
      (Stmt.liveScoped m.ret false Γ d.body.stmts = true) true d.warnings := by
  intro s b ready names loops
  refine (judges_stmts lenient d.body.stmts s b ready names loops).before fun _ s' ⟨b', r⟩ => ?_
  rw [Method.warnings, Method.endWarnings, ← name, ← ret]
  apply ends_isTerminated
  rw [show Target.isTerminated s'.target = Stmt.anyLeaves false d.body.stmts from r.isTerminated]
  cases closed : Stmt.anyLeaves false d.body.stmts with
  | true =>
    rw [closed] at r
    rw [if_pos (Or.inr rfl), List.append_nil]
    exact decides_pure ⟨b', r⟩
  | false =>
    rw [closed] at r
    rw [if_neg Bool.false_ne_true]
    split
    · rename_i void
      rw [if_pos (Or.inl void), List.append_nil]
      exact (decides_terminate r _).imp fun _ _ r => ⟨b', r⟩
    · rename_i owed
      rw [if_neg (by simp [owed])]
      exact (judges_returnDefault lenient owed d.line).within r ready names loops

theorem judges_methodBody (d : Method) (name : m.name = d.name) (ret : m.ret = d.ret) :
    Judges false Γ (methodBody m d) (d.scoped Γ = true) true d.warnings := by
  have nested : (methodBody m d : Gen Builder Unit) = inScope
      ((bindParams m 0 d.params >>= fun _ => declareLocals d.body.vars) >>= fun _ =>
        (stmts m d.body.stmts >>= fun _ => finishBody m d.line)) := by
    rw [methodBody, bind_assoc]
  rw [nested]
  have body : Judges false (declaredScope (d.params ++ d.body.vars) :: Γ)
      (stmts m d.body.stmts >>= fun _ => finishBody m d.line) _ true d.warnings :=
    judges_finished lenient d name ret
  rw [ret] at body
  have declares (s : GenState Builder) (package : Bindings) (outer : List Bindings)
      (scopes : s.scopes = ⟨package, [] :: outer⟩) :
      Decides (bindParams m 0 d.params >>= fun _ => declareLocals d.body.vars) s
        ((declaredNames (d.params ++ d.body.vars)).Nodup ∧
          d.body.vars.all (·.startable) = true)
        fun _ s' => Declares s s' (declaredScope (d.params ++ d.body.vars)) := by
    rw [declaredScope_append]
    refine Decides.congr (Decides.declare scopes (decides_bindParams d.params 0 scopes)
      (q := Fresh (declaredScope d.params) (declaredNames d.body.vars) ∧
        d.body.vars.all (·.startable) = true) fun _ s' bindings scopes' names => ?_) ?_
    · rw [show entities [] = [] from rfl, List.append_nil] at names
      rw [← names]
      exact decides_declareLocals d.body.vars scopes'
    · rw [show entities [] = [] from rfl, ← and_assoc, declaredNames_append,
        declaredNames_eq d.params, ← fresh_nil, fresh_append, List.append_nil]
      rfl
  exact (Judges.declared declares body).congr (by simp [Method.scoped])

end Lenient

end Gen

end Decaf
