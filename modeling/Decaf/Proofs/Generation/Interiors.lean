import Decaf.Proofs.Generation.Parallels
import Decaf.Proofs.Generation.Conservation

/-!
# The interior of a function

Building the body of a function hands out names inside of that function only. Whatever an
instruction defines there has a name, unless the instruction found no place, which is recorded.
-/

namespace Decaf

open IR

namespace IR.Builder

/-- What building the body of `f` has made of `b`, but for the names of new values. -/
structure Enclosed (b : Builder) (f : FunctionId) (t : Builder) : Prop where
  values : b.module.values.size ≤ t.module.values.size
  blocks : b.module.blocks.size ≤ t.module.blocks.size
  issues : b.module.issues.size ≤ t.module.issues.size
  owners : ∀ c g, b.module.blocks.size ≤ c.index → t.module.functionOf? c = some g → g = f
  here : ∀ c, t.insertion = some c → b.module.blocks.size ≤ c.index
  table : f.index < t.locals.size
  others : ∀ g, g ≠ f → t.locals[g.index]? = b.locals[g.index]?

/-- As long as all instructions have found their places, new values that they define have names. -/
structure Interior (b : Builder) (f : FunctionId) (t : Builder) : Prop extends
    b.Enclosed f t where
  named : t.module.issues.size = b.module.issues.size → ∀ v info c,
    b.module.values.size ≤ v.index → t.module.value? v = some info → info.origin = .inst c →
      info.name ≠ none

variable {b t t' : Builder} {f : FunctionId}

namespace Enclosed

variable (h : b.Enclosed f t)

include h

theorem owner {g : FunctionId} (hg : t.insertionFunction? = some g) : g = f := by
  obtain ⟨c, here, owned⟩ := Option.bind_eq_some_iff.1 hg
  exact h.owners c g (h.here c here) owned

/-- Values and issues may be added. -/
theorem add (blocks : t'.module.blocks = t.module.blocks) (insertion : t'.insertion = t.insertion)
    (locals : t'.locals = t.locals) (values : t.module.values.size ≤ t'.module.values.size)
    (issues : t.module.issues.size ≤ t'.module.issues.size) : b.Enclosed f t' where
  values := Nat.le_trans h.values values
  blocks := blocks ▸ h.blocks
  issues := Nat.le_trans h.issues issues
  owners c g far owned := by
    rw [Module.functionOf?, Module.block?, blocks] at owned
    exact h.owners c g far owned
  here c here := h.here c (insertion ▸ here)
  table := locals ▸ h.table
  others g other := locals ▸ h.others g other

theorem pushValue (info : ValueInfo) : b.Enclosed f (t.pushValue info).2 :=
  h.add rfl rfl rfl (by simp [Builder.pushValue]) (Nat.le_refl _)

theorem record (issue : EmitIssue) : b.Enclosed f (t.record issue) :=
  h.add rfl rfl rfl (Nat.le_refl _) (by simp [Builder.record])

theorem localName {g : Option FunctionId} (inside : ∀ f', g = some f' → f' = f) (hint : String) :
    b.Enclosed f (t.localName g hint).2 := by
  unfold Builder.localName
  split
  · rename_i f' names found
    obtain ⟨f'', rfl, there⟩ := Option.bind_eq_some_iff.1 found
    obtain ⟨table, -, both⟩ := Option.map_eq_some_iff.1 there
    obtain rfl : f'' = f' := congrArg Prod.fst both
    obtain rfl := inside f'' rfl
    exact { h with
      table := by
        show _ < (t.locals.setIfInBounds _ _).size
        rw [Array.size_setIfInBounds]
        exact h.table
      others := fun g other => by
        have apart : f''.index ≠ g.index := fun same => other (by rw [FunctionId.mk.injEq, same])
        show (t.locals.setIfInBounds _ _)[_]? = _
        rw [Array.getElem?_setIfInBounds_ne apart]
        exact h.others g other }
  · exact h

theorem modifyBlock (c : BlockId) {change : Block → Block}
    (keeps : ∀ d, (change d).function = d.function) : b.Enclosed f (t.modifyBlock c change) :=
  { h with
    blocks := by
      show _ ≤ (t.module.blocks.modify _ _).size
      rw [Array.size_modify]
      exact h.blocks
    owners := fun d g far owned => by
      rw [functionOf?_modify (m := t.module) rfl keeps] at owned
      exact h.owners d g far owned }

theorem appendBlock (hint : String) : b.Enclosed f (t.appendBlock f hint).2 := by
  have named := h.localName (g := some f) (fun g hg => (Option.some.inj hg).symm) hint
  refine { named with
    blocks := ?_
    owners := fun c g far owned => ?_ }
  · show _ ≤ (Array.push _ _).size
    rw [Array.size_push]
    exact Nat.le_succ_of_le named.blocks
  · have pushed : (t.appendBlock f hint).2.module.block? c =
        ((t.localName (some f) hint).2.module.blocks.push _)[c.index]? := rfl
    rw [Module.functionOf?, pushed, Array.getElem?_push] at owned
    split at owned
    · cases owned
      rfl
    · exact named.owners c g far owned

end Enclosed

/-- Inside of a function every name that is asked for is given. -/
theorem Enclosed.named (h : b.Enclosed f t) {g : FunctionId} (inside : t.insertionFunction? = some g)
    (hint : String) : (t.localName t.insertionFunction? hint).1 ≠ none := by
  obtain rfl := h.owner inside
  rw [inside]
  simp [Builder.localName, Array.getElem?_eq_getElem h.table]

namespace Interior

variable (h : b.Interior f t)

include h

/-- Nothing but the values of no instructions is added. -/
theorem keep (enclosed : b.Enclosed f t') (issues : t'.module.issues = t.module.issues)
    (values : ∀ v info c, t'.module.value? v = some info → info.origin = .inst c →
      t.module.value? v = some info) : b.Interior f t' :=
  { enclosed with
    named := fun clean v info c far there origin =>
      h.named (issues ▸ clean) v info c far (values v info c there origin) origin }

end Interior

/-- What is recorded shows. -/
theorem Enclosed.recorded (h : b.Enclosed f t) (issue : EmitIssue) : b.Interior f (t.record issue) :=
  { h.record issue with
    named := fun clean => by
      have size : (t.record issue).module.issues.size = t.module.issues.size + 1 :=
        Array.size_push _
      have := h.issues
      omega }

namespace Interior

variable (h : b.Interior f t)

include h

theorem pushValue {info : ValueInfo} (other : ∀ c, info.origin ≠ .inst c) :
    b.Interior f (t.pushValue info).2 := by
  refine h.keep (h.toEnclosed.pushValue info) rfl fun v info' c there origin => ?_
  replace there : (t.module.values.push info)[v.index]? = some info' := there
  rw [Array.getElem?_push] at there
  split at there
  · cases there
    exact absurd origin (other c)
  · exact there

/-- A new value with a name. -/
theorem pushNamed {info : ValueInfo} (name : info.name ≠ none) :
    b.Interior f (t.pushValue info).2 :=
  { h.toEnclosed.pushValue info with
    named := fun clean v info' c far there origin => by
      replace there : (t.module.values.push info)[v.index]? = some info' := there
      rw [Array.getElem?_push] at there
      split at there
      · cases there
        exact name
      · exact h.named clean v info' c far there origin }

theorem localName (hint : String) : b.Interior f (t.localName t.insertionFunction? hint).2 := by
  have same := module_localName t t.insertionFunction? hint
  refine h.keep (h.toEnclosed.localName (fun _ => h.owner) hint) (congrArg Module.issues same) ?_
  intro v info c there _
  rwa [same] at there

theorem modifyBlock (c : BlockId) {change : Block → Block}
    (keeps : ∀ d, (change d).function = d.function) : b.Interior f (t.modifyBlock c change) :=
  h.keep (h.toEnclosed.modifyBlock c keeps) rfl fun _ _ _ there _ => there

theorem pushGlobal (hint : String) (kind : GlobalKind) :
    b.Interior f (t.pushGlobal hint kind).2 := by
  have pushed : b.Interior f (t.pushValue ⟨.ptr, .global ⟨t.module.globals.size⟩,
    some (t.symbols.unique hint).1⟩).2 := h.pushValue nofun
  exact pushed.keep (pushed.toEnclosed.add rfl rfl rfl (Nat.le_refl _) (Nat.le_refl _)) rfl
    fun _ _ _ there _ => there

theorem appendBlock (hint : String) : b.Interior f (t.appendBlock f hint).2 := by
  have same := module_localName t (some f) hint
  have issues := congrArg Module.issues same
  have values := congrArg Module.values same
  refine h.keep (h.toEnclosed.appendBlock hint) issues fun v info c there _ => ?_
  replace there : (t.localName (some f) hint).2.module.values[v.index]? = some info := there
  rwa [values] at there

theorem positionAtEnd {c : BlockId} (far : b.module.blocks.size ≤ c.index) :
    b.Interior f { t with insertion := some c } :=
  { h with here := fun _ same => Option.some.inj same ▸ far }

end Interior

/-- A block is changed that is there, or it is recorded that there is none. -/
theorem Enclosed.extend (h : b.Enclosed f t)
    (placed : ∀ g, t.insertionFunction? = some g → b.Interior f t) {change : Block → Block}
    (keeps : ∀ d, (change d).function = d.function) : b.Interior f (t.extend change) := by
  unfold Builder.extend
  split
  · exact h.recorded _
  · rename_i c here
    split
    · exact h.recorded _
    · rename_i isOpen
      have held := hasBlock_of_isClosed (Bool.eq_false_iff.2 isOpen)
      obtain ⟨g, owned⟩ := Option.ne_none_iff_exists'.1 (Module.functionOf?_ne_none held)
      exact (placed g (by rw [insertionFunction?, here]; exact owned)).modifyBlock c keeps

namespace Interior

variable (h : b.Interior f t)

include h

theorem extend {change : Block → Block} (keeps : ∀ d, (change d).function = d.function) :
    b.Interior f (t.extend change) :=
  h.toEnclosed.extend (fun _ _ => h) keeps

/-- A new value with a name of its own. -/
theorem placed (hint : String) (info : Option String → ValueInfo)
    (name : ∀ n, (info n).name = n) :
    b.Enclosed f ((t.localName t.insertionFunction? hint).2.pushValue
        (info (t.localName t.insertionFunction? hint).1)).2 ∧
      ∀ g, t.insertionFunction? = some g →
        b.Interior f ((t.localName t.insertionFunction? hint).2.pushValue
          (info (t.localName t.insertionFunction? hint).1)).2 := by
  have after := h.localName hint
  refine ⟨after.toEnclosed.pushValue _, fun g inside => after.pushNamed ?_⟩
  rw [name]
  exact h.toEnclosed.named inside hint

theorem emit (ty : Ty) (hint : String) (inst : ValueId → Inst) :
    b.Interior f (t.emit ty hint inst).2 := by
  have alike : t.Alike ((t.localName t.insertionFunction? hint).2.pushValue ⟨ty,
      .inst (t.localName t.insertionFunction? hint).2.insertion,
        (t.localName t.insertionFunction? hint).1⟩).2 :=
    (t.alike_localName _ hint).pushValue _
  obtain ⟨enclosed, placed⟩ := h.placed hint
    (fun name => ⟨ty, .inst (t.localName t.insertionFunction? hint).2.insertion, name⟩) fun _ => rfl
  exact enclosed.extend (fun g inside => placed g (alike.insertionFunction?.symm.trans inside))
    fun _ => rfl

theorem alloca (ty : Ty) (hint : String) : b.Interior f (t.alloca ty hint).2 := by
  obtain ⟨enclosed, placed⟩ := h.placed hint
    (fun name => ⟨.ptr, .inst ((t.insertionFunction?.bind t.module.function?).bind
      Function.entry?), name⟩) fun _ => rfl
  cases entry : (t.insertionFunction?.bind t.module.function?).bind Function.entry? with
  | none =>
    rw [entry] at enclosed
    simp only [Builder.alloca, entry]
    exact enclosed.recorded _
  | some c =>
    obtain ⟨F, there, -⟩ := Option.bind_eq_some_iff.1 entry
    obtain ⟨g, inside, -⟩ := Option.bind_eq_some_iff.1 there
    rw [entry] at placed
    simp only [Builder.alloca, entry]
    exact (placed g inside).modifyBlock c fun _ => rfl

theorem call (callee : FunctionId) (args : List ValueId) :
    b.Interior f (t.call callee args).2 := by
  unfold Builder.call
  dsimp only
  split
  · exact h.extend fun _ => rfl
  · exact h.emit _ "call" fun dst => .call (some dst) callee args

end Interior

/-- The body begins with an entry. -/
theorem interior_enter (table : f.index < b.locals.size) :
    b.Interior f (enterBody b f) := by
  have start : b.Enclosed f { b with insertion := none } := {
    values := Nat.le_refl _
    blocks := Nat.le_refl _
    issues := Nat.le_refl _
    owners := fun c g far owned =>
      absurd (Module.index_lt_of_functionOf? owned) (Nat.not_lt_of_le far)
    here := nofun
    table := table
    others := fun _ _ => rfl }
  have entered : b.Interior f { b with insertion := none } := { start with
    named := fun _ v info c far there =>
      absurd (Array.getElem?_eq_some_iff.1 there).1 (Nat.not_lt_of_le far) }
  have same : enterBody { b with insertion := none } f = enterBody b f := by
    simp only [enterBody, Target.perform, Builder.perform, Builder.appendBlock, Builder.localName]
    split <;> rfl
  exact same ▸ (entered.appendBlock "entry").positionAtEnd (Nat.le_refl _)

end IR.Builder

namespace Matching

/-- Every id stands for itself. Only the body of `f` is built, in blocks that `b` does not hold. -/
def interior (b : Builder) (f : FunctionId) (ws : List Warning) : Matching where
  line := Eq
  value := Eq
  block c c' := c' = c ∧ b.module.blocks.size ≤ c.index
  function := Eq
  body g g' := g = f ∧ g' = f
  given := (ws, ws)

theorem interior_diagonal (b : Builder) (f : FunctionId) (ws : List Warning) :
    (interior b f ws).Diagonal :=
  ⟨Eq.symm, And.left, Eq.symm, fun both => both.2.trans both.1.symm⟩

end Matching

section

variable {b t : Builder} {f : FunctionId} {ws : List Warning}

theorem IR.Builder.Interior.perform (h : b.Interior f t) {r : Reply} {c c' : Command r}
    (related : (Matching.interior b f ws).command c c') :
    (Matching.interior b f ws).reply r (t.perform c).1 (t.perform c).1 ∧
      b.Interior f (t.perform c).2 := by
  cases related with
  | appendBlock hint function =>
    obtain ⟨rfl, -⟩ := function
    exact ⟨⟨rfl, h.blocks⟩, h.appendBlock hint⟩
  | positionAtEnd block => exact ⟨trivial, h.positionAtEnd block.2⟩
  | terminate terminator => exact ⟨trivial, h.extend fun _ => rfl⟩
  | alloca ty hint => exact ⟨rfl, h.alloca ty hint⟩
  | store value address => exact ⟨trivial, h.extend fun _ => rfl⟩
  | call function values => exact ⟨optionRel_refl (fun _ => rfl) _, h.call _ _⟩
  | globalString contents => exact ⟨rfl, h.pushGlobal _ _⟩
  | const c => exact ⟨rfl, h.pushValue nofun⟩
  | load | elementPtr | binary | unary | zext | phi => exact ⟨rfl, h.emit _ _ _⟩

theorem simulates_interior (b : Builder) (f : FunctionId) (ws : List Warning) :
    Simulates (Matching.interior b f ws) (fun t t' => t' = t ∧ b.Interior f t) where
  perform := by
    rintro t _ r c c' ⟨rfl, interior⟩ commands
    rw [(Matching.interior_diagonal b f ws).command commands]
    exact ⟨(interior.perform commands).1, rfl, (interior.perform commands).2⟩
  isTerminated := by
    rintro t _ ⟨rfl, -⟩
    rfl
  insertion := by
    rintro t _ ⟨rfl, interior⟩
    show Option.Rel _ (Builder.insertion _) (Builder.insertion _)
    cases here : Builder.insertion _ with
    | none => exact .none
    | some c => exact .some ⟨rfl, interior.here c here⟩
  typeOf := by
    rintro t _ v _ ⟨rfl, -⟩ rfl
    rfl
  parameter? := by
    rintro t _ g _ ⟨rfl, -⟩ ⟨rfl, rfl⟩ i
    exact optionRel_refl (fun _ => rfl) _
  checkFunction := by
    rintro t _ g _ ⟨rfl, -⟩ ⟨rfl, rfl⟩
    rfl

/-- Defining a method stays inside of its function. -/
theorem Gen.interior_defineMethod (o : Options) (d : Method) {s : GenState Builder}
    (table : f.index < s.target.locals.size) (loops : s.loops = .empty) :
    s.target.Interior f ((Gen.defineMethod o d f).run.run s).2.target := by
  have states : s.Corresponds (.interior s.target f s.warnings) (fun _ _ => True) s := {
    target := trivial
    scopes := Matching.scopes_refl (fun _ => rfl) (fun _ => rfl) (fun _ => rfl) s.scopes
    loops := by
      rw [loops]
      exact .nil
    warnings := ⟨[], [], (List.append_nil _).symm, (List.append_nil _).symm, .nil⟩ }
  obtain ⟨-, after⟩ := (simulates_interior s.target f s.warnings).defineMethod (o := o)
    (d.like_refl fun _ => rfl) ⟨rfl, rfl⟩ states ⟨rfl, Builder.interior_enter table⟩
  exact after.target.2

end

end Decaf
