import Decaf.IR.Text
import Decaf.Proofs.Building.Coherence
import Decaf.Proofs.Building.Naming
import Decaf.Proofs.Generation.Conservation

/-!
# Names inside functions

The parameters of a function, its blocks and the values of its instructions get their names
from one table, whichever function the insertion point is in between. Whatever belongs to a
function therefore has a name that the function's table holds and that nothing else in the
function has, and no two operands or labels of a function are shown alike.
-/

namespace Decaf.IR

namespace NameTable

/-- Names for several hints are distinct, were free and are taken from then on. -/
theorem uniqueAll_fresh (t : NameTable) (hints : List String) :
    (t.uniqueAll hints).1.Nodup ∧ (∀ name ∈ (t.uniqueAll hints).1, name ∉ t.used) ∧
      (t.uniqueAll hints).1 ⊆ (t.uniqueAll hints).2.used ∧ t.used ⊆ (t.uniqueAll hints).2.used := by
  induction hints generalizing t with
  | nil => exact ⟨List.nodup_nil, by simp [uniqueAll], by simp [uniqueAll], fun _ h => h⟩
  | cons hint hints ih =>
    obtain ⟨distinct, free, taken, kept⟩ := ih (t.unique hint).2
    rw [used_unique] at free kept
    obtain ⟨first, old⟩ := List.cons_subset.1 kept
    simp only [uniqueAll]
    refine ⟨List.nodup_cons.2 ⟨fun again => ?_, distinct⟩, ?_, List.cons_subset.2 ⟨first, taken⟩,
      old⟩
    · exact free _ again List.mem_cons_self
    · refine List.forall_mem_cons.2 ⟨t.unique_not_mem hint, fun name new held => ?_⟩
      exact free name new (List.mem_cons_of_mem _ held)

end NameTable

/-- What has a name inside a function. -/
inductive Bearer where
  | value (v : ValueId)
  | block (c : BlockId)
  deriving DecidableEq, Repr

namespace Module

def definedIn (m : Module) (c : BlockId) : List ValueId :=
  match m.block? c with
  | some d => defined d.insts.toList
  | none => []

/-- The parameters of a function, then each block with the values that are defined in it. -/
def bearersOf (m : Module) (F : Function) : List Bearer :=
  F.params.map (.value ·.value) ++
    F.blocks.toList.flatMap fun c => .block c :: (m.definedIn c).map .value

/-- The text that stands for a value or a block wherever it is an operand. -/
def shown (m : Module) : Bearer → String
  | .value v => m.operandText v
  | .block c => "%" ++ m.labelOf c

/-- The function inside of which a value of that origin is defined. -/
def originHome? (m : Module) : Origin → Option FunctionId
  | .param f _ => some f
  | .inst block => block.bind m.functionOf?
  | .const _ | .global _ => none

/-- The function to which a value or a block belongs. -/
def home? (m : Module) : Bearer → Option FunctionId
  | .value v => (m.value? v).bind fun info => m.originHome? info.origin
  | .block c => m.functionOf? c

def nameOf? (m : Module) : Bearer → Option String
  | .value v => (m.value? v).bind (·.name)
  | .block c => (m.block? c).map (·.label)

variable {m m' : Module}

/-- Whatever belongs to a function is shown by its name. -/
theorem shown_eq {x : Bearer} {f : FunctionId} {name : String}
    (owner : m.home? x = some f) (named : m.nameOf? x = some name) :
    m.shown x = "%" ++ name := by
  cases x with
  | value v =>
    obtain ⟨info, there, home⟩ := Option.bind_eq_some_iff.1 owner
    obtain ⟨ty, origin, shown⟩ := info
    rw [nameOf?, there] at named
    obtain rfl : shown = some name := named
    rw [Module.shown, operandText, there]
    cases origin with
    | const c => cases home
    | global g => cases home
    | param f i => rfl
    | inst c => rfl
  | block c =>
    obtain ⟨d, there, rfl⟩ := Option.map_eq_some_iff.1 named
    rw [shown, labelOf, there]

/-- Values and blocks that are there have kept their names and their functions. -/
theorem bearer_of_same (x : Bearer) (values : m'.values = m.values)
    (functions : m'.functionOf? = m.functionOf?)
    (labels : ∀ c, (m'.block? c).map (·.label) = (m.block? c).map (·.label)) :
    m'.home? x = m.home? x ∧ m'.nameOf? x = m.nameOf? x := by
  cases x with
  | value v =>
    have origin : m'.originHome? = m.originHome? := by
      funext o
      cases o <;> simp only [originHome?, functions]
    simp only [home?, nameOf?, value?, values, origin, and_self]
  | block c => exact ⟨congrFun functions c, labels c⟩

end Module

namespace Builder

/-- Whatever belongs to a function has a name that is taken in the table of the function, and
no two things that belong to it have the same one. -/
structure Distinguished (b : Builder) : Prop where
  named : ∀ x f, b.module.home? x = some f → ∃ name table,
    b.module.nameOf? x = some name ∧ b.locals[f.index]? = some table ∧ name ∈ table.used
  apart : ∀ x y f, b.module.home? x = some f → b.module.home? y = some f →
    b.module.nameOf? x = b.module.nameOf? y → x = y

namespace Distinguished

variable {b b' : Builder} (h : b.Distinguished)

include h

/-- Nothing new belongs to a function. -/
theorem keep (locals : b'.locals = b.locals)
    (old : ∀ y g, b'.module.home? y = some g →
      b.module.home? y = some g ∧ b'.module.nameOf? y = b.module.nameOf? y) :
    b'.Distinguished where
  named x f owner := by
    obtain ⟨owner, name⟩ := old x f owner
    rw [name, locals]
    exact h.named x f owner
  apart x y f ownerX ownerY same := by
    obtain ⟨ownerX, nameX⟩ := old x f ownerX
    obtain ⟨ownerY, nameY⟩ := old y f ownerY
    exact h.apart x y f ownerX ownerY (by rw [← nameX, ← nameY, same])

/-- At most one thing is new, and it has got its name from the table of its function. -/
theorem add (x : Bearer) (f : FunctionId) (hint : String) (known : f.index < b.locals.size)
    (locals : b'.locals = (b.localName (some f) hint).2.locals)
    (old : ∀ y g, b'.module.home? y = some g →
      (y = x ∧ g = f ∧ b'.module.nameOf? y = (b.localName (some f) hint).1) ∨
        b.module.home? y = some g ∧ b'.module.nameOf? y = b.module.nameOf? y) :
    b'.Distinguished := by
  have table := Array.getElem?_eq_getElem known
  have given : (b.localName (some f) hint).1 = some (b.locals[f.index].unique hint).1 := by
    simp [Builder.localName, table]
  have grown : b'.locals = b.locals.setIfInBounds f.index (b.locals[f.index].unique hint).2 := by
    rw [locals]
    simp [Builder.localName, table]
  rw [given] at old
  constructor
  case named =>
    intro y g owner
    rcases old y g owner with ⟨rfl, rfl, name⟩ | ⟨owner, name⟩
    · refine ⟨_, _, name, by rw [grown, Array.getElem?_setIfInBounds_self_of_lt known], ?_⟩
      rw [NameTable.used_unique]
      exact List.mem_cons_self
    · obtain ⟨text, table', named, there, taken⟩ := h.named y g owner
      refine ⟨text, ?_⟩
      rw [name, named, grown, Array.getElem?_setIfInBounds]
      by_cases same : f.index = g.index
      · rw [if_pos same, if_pos known]
        refine ⟨_, rfl, rfl, ?_⟩
        rw [← same, table] at there
        cases there
        rw [NameTable.used_unique]
        exact List.mem_cons_of_mem _ taken
      · rw [if_neg same]
        exact ⟨table', rfl, there, taken⟩
  case apart =>
    -- a name that was taken before is not the one that is new
    have other {y : Bearer} (owner : b.module.home? y = some f)
        (same : b.module.nameOf? y = some (b.locals[f.index].unique hint).1) : False := by
      obtain ⟨text, table', named, there, taken⟩ := h.named y f owner
      rw [table] at there
      cases there
      rw [named] at same
      cases same
      exact b.locals[f.index].unique_not_mem hint taken
    intro y z g ownerY ownerZ same
    rcases old y g ownerY with ⟨rfl, here, nameY⟩ | ⟨ownerY, nameY⟩ <;>
      rcases old z g ownerZ with ⟨rfl, here', nameZ⟩ | ⟨ownerZ, nameZ⟩
    · rfl
    · exact (other (here ▸ ownerZ) (by rw [← nameZ, ← same, nameY])).elim
    · exact (other (here' ▸ ownerY) (by rw [← nameY, same, nameZ])).elim
    · exact h.apart y z g ownerY ownerZ (by rw [← nameY, ← nameZ, same])

theorem modifyBlock (c : BlockId) {change : Block → Block}
    (function : ∀ d, (change d).function = d.function) (label : ∀ d, (change d).label = d.label) :
    (b.modifyBlock c change).Distinguished := by
  refine h.keep rfl fun y g owner => ?_
  have same : (b.modifyBlock c change).module.home? y = b.module.home? y ∧
      (b.modifyBlock c change).module.nameOf? y = b.module.nameOf? y := by
    refine Module.bearer_of_same y rfl (functionOf?_modify rfl function) fun e => ?_
    rw [Module.block?, Builder.modifyBlock, Array.getElem?_modify, Module.block?]
    split
    · cases b.module.blocks[e.index]? <;> simp [label]
    · rfl
  exact ⟨same.1 ▸ owner, same.2⟩

theorem record (issue : EmitIssue) : (b.record issue).Distinguished :=
  h.keep rfl fun _ _ owner => ⟨owner, rfl⟩

theorem extend {change : Block → Block} (function : ∀ d, (change d).function = d.function)
    (label : ∀ d, (change d).label = d.label) : (b.extend change).Distinguished := by
  unfold Builder.extend
  split
  · exact h.record _
  · split
    · exact h.record _
    · exact h.modifyBlock _ function label

omit h in
/-- What belongs to a function after a value has been added is that value or was there before. -/
theorem home_pushValue {info : ValueInfo} {y : Bearer} {g : FunctionId}
    (home : (b.pushValue info).2.module.home? y = some g) :
    (y = .value ⟨b.module.values.size⟩ ∧ b.module.originHome? info.origin = some g ∧
        (b.pushValue info).2.module.nameOf? y = info.name) ∨
      b.module.home? y = some g ∧
        (b.pushValue info).2.module.nameOf? y = b.module.nameOf? y := by
  cases y with
  | block c => exact .inr ⟨home, rfl⟩
  | value v =>
    have look : (b.pushValue info).2.module.value? v =
        if v.index = b.module.values.size then some info else b.module.value? v :=
      Array.getElem?_push
    rw [Module.home?, look] at home
    rw [Module.nameOf?, look]
    split at home
    · rename_i last
      rw [if_pos last]
      exact .inl ⟨by rw [← last], home, rfl⟩
    · rename_i other
      rw [if_neg other]
      exact .inr ⟨home, rfl⟩

/-- A value of an instruction gets its name from the table of the function that it is in. -/
theorem value (f : Option FunctionId) (hint : String) (ty : Ty) (block : Option BlockId)
    (known : ∀ g, f = some g → g.index < b.locals.size)
    (inside : ∀ g, block.bind b.module.functionOf? = some g → f = some g) :
    ((b.localName f hint).2.pushValue
      ⟨ty, .inst block, (b.localName f hint).1⟩).2.Distinguished := by
  have module := module_localName b f hint
  cases f with
  | none =>
    refine h.keep rfl fun y g home => ?_
    rcases home_pushValue home with ⟨-, new, -⟩ | old
    · cases inside g new
    · exact old
  | some f =>
    refine h.add (.value ⟨(b.localName (some f) hint).2.module.values.size⟩) f hint (known f rfl)
      rfl fun y g home => ?_
    rcases home_pushValue home with ⟨rfl, new, name⟩ | ⟨old, name⟩
    · rw [module] at new
      exact .inl ⟨rfl, (Option.some.inj (inside g new)).symm, name⟩
    · rw [module] at old name
      exact .inr ⟨old, name⟩

theorem emit (known : ∀ g, b.insertionFunction? = some g → g.index < b.locals.size) (ty : Ty)
    (hint : String) (inst : ValueId → Inst) : (b.emit ty hint inst).2.Distinguished := by
  have insertion := insertion_localName b b.insertionFunction? hint
  have named := h.value b.insertionFunction? hint ty
    (b.localName b.insertionFunction? hint).2.insertion known fun g home => by
      rwa [insertion] at home
  exact named.extend (fun _ => rfl) fun _ => rfl

theorem alloca (known : ∀ g, b.insertionFunction? = some g → g.index < b.locals.size)
    (owned : b.module.Owned) (ty : Ty) (hint : String) : (b.alloca ty hint).2.Distinguished := by
  have named := h.value b.insertionFunction? hint .ptr
    ((b.insertionFunction?.bind b.module.function?).bind Function.entry?) known fun g home => by
      obtain ⟨c, entry, owner⟩ := Option.bind_eq_some_iff.1 home
      obtain ⟨F, there, first⟩ := Option.bind_eq_some_iff.1 entry
      obtain ⟨f, here, hF⟩ := Option.bind_eq_some_iff.1 there
      have listed : c ∈ b.module.blocksOf f := by
        rw [Module.blocksOf, hF]
        exact Array.mem_toList_iff.2 (Array.mem_of_getElem? first)
      rw [(owned.listed c f).1 listed] at owner
      rw [here, owner]
  unfold Builder.alloca
  dsimp only
  split
  · exact named.modifyBlock _ (fun _ => rfl) fun _ => rfl
  · exact named.record _

theorem call (known : ∀ g, b.insertionFunction? = some g → g.index < b.locals.size)
    (callee : FunctionId) (args : List ValueId) : (b.call callee args).2.Distinguished := by
  have emitted := h.emit known (((b.module.function? callee).map (·.ret)).getD .void) "call"
    fun dst => .call (some dst) callee args
  unfold Builder.call
  dsimp only
  split
  · exact h.extend (fun _ => rfl) fun _ => rfl
  · exact emitted

theorem pushGlobal (hint : String) (kind : GlobalKind) :
    (b.pushGlobal hint kind).2.Distinguished := by
  refine h.keep rfl fun y g home => ?_
  rcases home_pushValue (b := b) home with ⟨-, new, -⟩ | old
  · cases new
  · exact old

theorem appendBlock (arranged : b.module.Arranged) {f : FunctionId}
    (known : f.index < b.locals.size) (hint : String) :
    (b.appendBlock f hint).2.Distinguished := by
  have module := module_localName b (some f) hint
  have blocks (c : BlockId) : (b.appendBlock f hint).2.module.block? c =
      if c.index = b.module.blocks.size then
        some ⟨⟨b.module.blocks.size⟩, f, (b.localName (some f) hint).1.getD hint, #[], none⟩
      else b.module.block? c := by
    simp only [Builder.appendBlock, Module.block?, module]
    exact Array.getElem?_push
  have values : (b.appendBlock f hint).2.module.values = b.module.values := by
    simp only [Builder.appendBlock, module]
  have given : (b.localName (some f) hint).1 = some ((b.localName (some f) hint).1.getD hint) := by
    simp [Builder.localName, Array.getElem?_eq_getElem known]
  refine h.add (.block ⟨b.module.blocks.size⟩) f hint known rfl fun y g home => ?_
  cases y with
  | block c =>
    rw [Module.home?, Module.functionOf?, blocks] at home
    rw [Module.nameOf?, blocks]
    split at home
    · rename_i last
      cases home
      rw [if_pos last]
      exact .inl ⟨by rw [← last], rfl, given.symm⟩
    · rename_i other
      rw [if_neg other]
      exact .inr ⟨home, rfl⟩
  | value v =>
    -- a value names no block that was not there when it was defined
    rw [Module.home?, Module.value?, values] at home
    rw [Module.nameOf?, Module.value?, values]
    refine .inr ⟨?_, rfl⟩
    obtain ⟨info, there, home⟩ := Option.bind_eq_some_iff.1 home
    have origin := arranged.origins info (Array.mem_toList_iff.2 (Array.mem_of_getElem? there))
    rw [Module.home?, Module.value?, there, Option.bind_some, ← home]
    cases kind : info.origin with
    | inst block =>
      cases block with
      | none => rfl
      | some c =>
        have held : c.index < b.module.blocks.size := by
          rw [kind] at origin
          exact origin c rfl
        simp only [Module.originHome?, Option.bind_some, Module.functionOf?, blocks,
          if_neg (Nat.ne_of_lt held)]
    | _ => rfl

omit h in
/-- After a function has been declared, what belongs to a function is one of the parameters or
was there before. -/
theorem home_declareFunction {name : String} {ret : Ty} {params : List (Option String × Ty)}
    {y : Bearer} {g : FunctionId}
    (home : (b.declareFunction name ret params).2.module.home? y = some g) :
    (∃ i shown, y = .value ⟨b.module.values.size + i⟩ ∧ g = ⟨b.module.functions.size⟩ ∧
      (NameTable.empty.uniqueAll (params.map fun p => p.1.getD "")).1[i]? = some shown ∧
      (b.declareFunction name ret params).2.module.nameOf? y = some shown) ∨
    b.module.home? y = some g ∧
      (b.declareFunction name ret params).2.module.nameOf? y = b.module.nameOf? y := by
  cases y with
  | block c => exact .inr ⟨home, rfl⟩
  | value v =>
    have values : (b.declareFunction name ret params).2.module.values.toList =
        b.module.values.toList ++ (params.zip
          (NameTable.empty.uniqueAll (params.map fun p => p.1.getD "")).1).mapIdx fun i x =>
            ⟨x.1.2, .param ⟨b.module.functions.size⟩ i, some x.2⟩ :=
      Array.toList_appendList
    have look : (b.declareFunction name ret params).2.module.value? v =
        (b.declareFunction name ret params).2.module.values.toList[v.index]? :=
      Array.getElem?_toList.symm
    rw [values] at look
    rcases Nat.lt_or_ge v.index b.module.values.toList.length with old | new
    · rw [List.getElem?_append_left old, Array.getElem?_toList] at look
      rw [Module.home?, look] at home
      rw [Module.nameOf?, look]
      exact .inr ⟨home, rfl⟩
    · rw [List.getElem?_append_right new] at look
      obtain ⟨info, there, home⟩ := Option.bind_eq_some_iff.1 home
      rw [look] at there
      rw [Module.nameOf?, look, there]
      rw [List.getElem?_mapIdx, Option.map_eq_some_iff] at there
      obtain ⟨⟨p, shown⟩, both, rfl⟩ := there
      cases home
      rw [Array.length_toList] at new both
      refine .inl ⟨v.index - b.module.values.size, shown, ?_, rfl, ?_, rfl⟩
      · rw [Nat.add_sub_cancel' new]
      · exact (List.getElem?_zip_eq_some.1 both).2

theorem declareFunction (aligned : b.Aligned) (name : String) (ret : Ty)
    (params : List (Option String × Ty)) : (b.declareFunction name ret params).2.Distinguished := by
  have locals : (b.declareFunction name ret params).2.locals =
    b.locals.push (NameTable.empty.uniqueAll (params.map fun p => p.1.getD "")).2 := rfl
  obtain ⟨distinct, -, taken, -⟩ :=
    NameTable.empty.uniqueAll_fresh (params.map fun p => p.1.getD "")
  have old {y : Bearer} {g : FunctionId} (home : b.module.home? y = some g) :
      g.index < b.locals.size := by
    obtain ⟨-, table, -, there, -⟩ := h.named y g home
    exact (Array.getElem?_eq_some_iff.1 there).1
  have apart {y : Bearer} (home : b.module.home? y = some ⟨b.module.functions.size⟩) : False := by
    have := old home
    rw [show b.locals.size = b.module.functions.size from aligned] at this
    exact Nat.lt_irrefl _ this
  constructor
  case named =>
    intro y g home
    rcases home_declareFunction home with ⟨i, shown, rfl, rfl, there, name⟩ | ⟨home, name⟩
    · refine ⟨shown, _, name, ?_, taken (List.mem_of_getElem? there)⟩
      rw [locals, ← show b.locals.size = b.module.functions.size from aligned]
      exact Array.getElem?_push_size
    · obtain ⟨text, table, named, there, held⟩ := h.named y g home
      refine ⟨text, table, name.trans named, ?_, held⟩
      rw [locals, Array.getElem?_push_lt (old home), ← Array.getElem?_eq_getElem (old home)]
      exact there
  case apart =>
    intro y z g homeY homeZ same
    rcases home_declareFunction homeY with ⟨i, text, rfl, rfl, there, nameY⟩ | ⟨homeY, nameY⟩ <;>
      rcases home_declareFunction homeZ with ⟨j, text', rfl, here, there', nameZ⟩ | ⟨homeZ, nameZ⟩
    · rw [nameY, nameZ] at same
      cases same
      have inside := (List.getElem?_eq_some_iff.1 there).1
      rw [(List.getElem?_inj inside distinct).1 (there.trans there'.symm)]
    · exact (apart homeZ).elim
    · exact (apart (here ▸ homeY)).elim
    · exact h.apart y z g homeY homeZ (by rw [← nameY, ← nameZ, same])

theorem perform (reachable : b.Reachable) {r : Reply} {c : Command r} (known : b.Knows c) :
    (b.perform c).2.Distinguished := by
  have aligned := reachable.aligned
  have inside (g : FunctionId) (here : b.insertionFunction? = some g) :
      g.index < b.locals.size := by
    rw [aligned]
    exact reachable.arranged.owner here
  cases c with
  | setModuleName | positionAtEnd => exact h.keep rfl fun _ _ home => ⟨home, rfl⟩
  | declareFunction name ret params => exact h.declareFunction aligned name ret params
  | appendBlock f hint =>
    refine h.appendBlock reachable.arranged.module ?_ hint
    rw [aligned]
    exact known
  | terminate | store => exact h.extend (fun _ => rfl) fun _ => rfl
  | alloca ty hint => exact h.alloca inside reachable.owned ty hint
  | load | elementPtr | binary | unary | zext | phi => exact h.emit inside _ _ _
  | call callee args => exact h.call inside callee args
  | globalScalar | globalArray | globalString => exact h.pushGlobal _ _
  | const c =>
    refine h.keep rfl fun y g home => ?_
    rcases home_pushValue (b := b) home with ⟨-, new, -⟩ | old
    · cases new
    · exact old

end Distinguished

theorem Reachable.distinguished {b : Builder} (h : b.Reachable) : b.Distinguished := by
  induction h with
  | empty =>
    have none (x : Bearer) (f : FunctionId) : Builder.empty.module.home? x ≠ some f := by
      cases x <;>
        simp [Module.home?, Builder.empty, Module.empty, Module.value?, Module.functionOf?,
          Module.block?]
    exact ⟨fun x f home => absurd home (none x f), fun x _ f home => absurd home (none x f)⟩
  | perform c before known ih => exact ih.perform before known

/-- The parameters of the function are values of its own. -/
structure HoldsParams (m : Module) (F : Function) : Prop where
  distinct : (F.params.map (·.value)).Nodup
  origins : ∀ q ∈ F.params, ∃ i name, m.value? q.value = some ⟨q.ty, .param F.id i, name⟩

theorem functions_extend (b : Builder) (change : Block → Block) :
    (b.extend change).module.functions = b.module.functions := by
  unfold extend
  split
  · rfl
  · split <;> rfl

theorem functions_emit (b : Builder) (ty : Ty) (hint : String) (inst : ValueId → Inst) :
    (b.emit ty hint inst).2.module.functions = b.module.functions :=
  (functions_extend _ _).trans (congrArg (·.functions) (module_localName b _ hint))

theorem holdsParams_declareFunction {b : Builder} (grounded : b.module.Grounded) (name : String)
    (ret : Ty) (params : List (Option String × Ty)) {F : Function}
    (there : (b.declareFunction name ret params).2.module.function?
      ⟨b.module.functions.size⟩ = some F) :
    HoldsParams (b.declareFunction name ret params).2.module F := by
  obtain ⟨-, -, bodiless⟩ := b.declareFunction_outside name ret params grounded
  obtain ⟨⟨id, -⟩, -, -, -, values⟩ := bodiless.found there
  refine ⟨?_, id ▸ values⟩
  have last : (b.declareFunction name ret params).2.module.function?
      ⟨b.module.functions.size⟩ = some _ := Array.getElem?_push_size
  rw [last] at there
  cases there
  refine List.nodup_iff_injective_get.2 fun i j same => ?_
  simpa [Fin.ext_iff] using same

/-- A command leaves the parameters of all functions as they are, unless it declares one. -/
theorem function?_perform (b : Builder) {r : Reply} (c : Command r) {f : FunctionId}
    {F : Function} (there : (b.perform c).2.module.function? f = some F) :
    (∃ name ret params, f = ⟨b.module.functions.size⟩ ∧
      (b.perform c).2 = (b.declareFunction name ret params).2) ∨
    ∃ old, b.module.function? f = some old ∧ F.id = old.id ∧ F.params = old.params := by
  have same (functions : (b.perform c).2.module.functions = b.module.functions) :
      ∃ old, b.module.function? f = some old ∧ F.id = old.id ∧ F.params = old.params := by
    rw [Module.function?, functions] at there
    exact ⟨F, there, rfl, rfl⟩
  cases c with
  | declareFunction name ret params =>
    have push : (b.declareFunction name ret params).2.module.function? f =
        if f.index = b.module.functions.size then _ else b.module.function? f :=
      Array.getElem?_push
    split at push
    · rename_i last
      exact .inl ⟨name, ret, params, by rw [← last], rfl⟩
    · exact .inr ⟨F, push.symm.trans there, rfl, rfl⟩
  | appendBlock g hint =>
    have functions : (b.appendBlock g hint).2.module.functions =
        b.module.functions.modify g.index fun F =>
          { F with blocks := F.blocks.push ⟨b.module.blocks.size⟩ } := by
      simp only [appendBlock, module_localName]
    rw [Module.function?, perform, functions, Array.getElem?_modify] at there
    split at there
    · obtain ⟨old, before, rfl⟩ := Option.map_eq_some_iff.1 there
      exact .inr ⟨old, before, rfl, rfl⟩
    · exact .inr ⟨F, there, rfl, rfl⟩
  | terminate | store => exact .inr (same (b.functions_extend _))
  | load | elementPtr | binary | unary | zext | phi => exact .inr (same (b.functions_emit _ _ _))
  | alloca ty hint =>
    refine .inr (same ?_)
    simp only [perform, alloca]
    split <;> simp only [modifyBlock, record, pushValue, module_localName]
  | call callee args =>
    refine .inr (same ?_)
    simp only [perform, call]
    split
    · exact b.functions_extend _
    · exact b.functions_emit (((b.module.function? callee).map (·.ret)).getD .void) "call"
        fun dst => .call (some dst) callee args
  | setModuleName | positionAtEnd | globalScalar | globalArray | globalString | const =>
    exact .inr (same rfl)

theorem Reachable.holdsParams {b : Builder} (h : b.Reachable) {f : FunctionId} {F : Function}
    (there : b.module.function? f = some F) : HoldsParams b.module F := by
  induction h generalizing f F with
  | empty => simp [Builder.empty, Module.empty, Module.function?] at there
  | @perform b r c reachable known ih =>
    rcases b.function?_perform c there with ⟨name, ret, params, rfl, same⟩ | ⟨G, old, id, params⟩
    · rw [same] at there ⊢
      exact holdsParams_declareFunction reachable.owned.grounded name ret params there
    · obtain ⟨distinct, origins⟩ := ih old
      refine ⟨params ▸ distinct, fun q hq => ?_⟩
      obtain ⟨i, name, value⟩ := origins q (params ▸ hq)
      exact ⟨i, name, id ▸ Module.getElem?_of_prefix (reachable.later_perform known).values value⟩

section

variable {b : Builder} {f : FunctionId} {F : Function}

theorem Reachable.blocks_nodup (h : b.Reachable) (there : b.module.function? f = some F) :
    F.blocks.toList.Nodup := by
  have arranged := h.arranged.module
  rw [arranged.listed F (Array.mem_toList_iff.2 (Array.mem_of_getElem? there))]
  have ids : (b.module.blocks.toList.map (·.id)).Nodup := by
    refine List.nodup_iff_injective_get.2 fun i j same => ?_
    have place (k : Fin (b.module.blocks.toList.map (·.id)).length) :
        (b.module.blocks.toList.map (·.id)).get k = ⟨k⟩ := by
      rw [List.get_eq_getElem, List.getElem_map]
      exact arranged.blockIds k _ (by rw [← Array.getElem?_toList, List.getElem?_eq_getElem])
    rw [place, place] at same
    exact Fin.ext (congrArg BlockId.index same)
  exact ids.sublist (List.filter_sublist.map _)

theorem Reachable.definedIn_spec (h : b.Reachable) (c : BlockId) :
    (b.module.definedIn c).Nodup ∧ ∀ v ∈ b.module.definedIn c, ∃ ty name,
      b.module.value? v = some ⟨ty, .inst (some c), name⟩ := by
  unfold Module.definedIn
  split
  · rename_i d there
    obtain ⟨house, id⟩ := h.arranged.houses there
    exact ⟨house.nodup, id ▸ house.placed⟩
  · exact ⟨List.nodup_nil, by simp⟩

/-- Whatever is listed for a function belongs to it. -/
theorem Reachable.home_of_mem (h : b.Reachable) (there : b.module.function? f = some F)
    {x : Bearer} (mem : x ∈ b.module.bearersOf F) : b.module.home? x = some f := by
  have owner {c : BlockId} (listed : c ∈ F.blocks.toList) : b.module.functionOf? c = some f := by
    refine (h.owned.listed c f).1 ?_
    rwa [Module.blocksOf, there]
  rcases List.mem_append.1 mem with param | inside
  · obtain ⟨q, hq, rfl⟩ := List.mem_map.1 param
    obtain ⟨i, name, value⟩ := (h.holdsParams there).origins q hq
    rw [Module.home?, value, ← h.owned.position f F there]
    rfl
  · obtain ⟨c, listed, placed⟩ := List.mem_flatMap.1 inside
    rcases List.mem_cons.1 placed with rfl | defined
    · exact owner listed
    · obtain ⟨v, hv, rfl⟩ := List.mem_map.1 defined
      obtain ⟨ty, name, value⟩ := (h.definedIn_spec c).2 v hv
      rw [Module.home?, value]
      exact owner listed

/-- Parameters, blocks and values are listed once: an origin tells where a value is listed. -/
theorem Reachable.bearersOf_nodup (h : b.Reachable) (there : b.module.function? f = some F) :
    (b.module.bearersOf F).Nodup := by
  have values : Function.Injective Bearer.value := fun _ _ same => Bearer.value.inj same
  obtain ⟨distinct, origins⟩ := h.holdsParams there
  refine List.Nodup.append ?_ (List.nodup_flatMap.2 ⟨fun c _ => ?_, ?_⟩) ?_
  · have mapped := distinct.map values
    rwa [List.map_map] at mapped
  · refine List.nodup_cons.2 ⟨by simp, (h.definedIn_spec c).1.map values⟩
  · refine (h.blocks_nodup there).imp fun {c c'} other x left right => other ?_
    rcases List.mem_cons.1 left with rfl | defined <;>
      rcases List.mem_cons.1 right with same | defined'
    · exact Bearer.block.inj same
    · simp at defined'
    · subst same
      simp at defined
    · obtain ⟨v, hv, rfl⟩ := List.mem_map.1 defined
      obtain ⟨u, hu, same⟩ := List.mem_map.1 defined'
      cases same
      obtain ⟨ty, name, value⟩ := (h.definedIn_spec c).2 v hv
      obtain ⟨ty', name', value'⟩ := (h.definedIn_spec c').2 v hu
      rw [value] at value'
      simpa using congrArg ValueInfo.origin (Option.some.inj value')
  · intro x param inside
    obtain ⟨q, hq, rfl⟩ := List.mem_map.1 param
    obtain ⟨i, name, value⟩ := origins q hq
    obtain ⟨c, -, placed⟩ := List.mem_flatMap.1 inside
    obtain ⟨v, hv, same⟩ := List.mem_map.1 ((List.mem_cons.1 placed).resolve_left (by simp))
    cases same
    obtain ⟨ty, name', value'⟩ := (h.definedIn_spec c).2 _ hv
    rw [value] at value'
    simpa using congrArg ValueInfo.origin (Option.some.inj value')

/-- Whatever the hints were and wherever code was added in between, no two of the parameters,
the blocks and the values of a function are shown alike. -/
theorem Reachable.shown_nodup (h : b.Reachable) (there : b.module.function? f = some F) :
    ((b.module.bearersOf F).map b.module.shown).Nodup := by
  refine (h.bearersOf_nodup there).map_on fun x left y right same => ?_
  have home := h.home_of_mem there left
  have home' := h.home_of_mem there right
  obtain ⟨name, -, named, -⟩ := h.distinguished.named x f home
  obtain ⟨name', -, named', -⟩ := h.distinguished.named y f home'
  rw [Module.shown_eq home named, Module.shown_eq home' named', String.append_right_inj] at same
  exact h.distinguished.apart x y f home home' (by rw [named, named', same])

end

/-- Two functions in turns: parameters, blocks and values ask for names that are empty, the same
as others or like ones that were made up, and a slot goes to the entry of the function that the
insertion point is in. -/
def colliding : List AnyCommand :=
  [⟨_, .declareFunction "f" .i32 [(some "x", .i32), (some "x", .i32), (none, .i32)]⟩,
    ⟨_, .declareFunction "g" .void [(some "x1", .i32)]⟩, ⟨_, .appendBlock ⟨0⟩ "x1"⟩,
    ⟨_, .appendBlock ⟨1⟩ ""⟩, ⟨_, .positionAtEnd ⟨0⟩⟩, ⟨_, .binary .add ⟨0⟩ ⟨1⟩ "x"⟩,
    ⟨_, .positionAtEnd ⟨1⟩⟩, ⟨_, .alloca .i32 "x1"⟩, ⟨_, .binary .add ⟨3⟩ ⟨3⟩ ""⟩,
    ⟨_, .appendBlock ⟨0⟩ "x1"⟩, ⟨_, .positionAtEnd ⟨2⟩⟩, ⟨_, .alloca .i32 "x11"⟩,
    ⟨_, .terminate (.ret (some ⟨4⟩))⟩]

theorem colliding_shown_nodup : Builder.empty.KnowsAll colliding ∧
    ∃ F, (Builder.empty.performAll colliding).module.function? ⟨0⟩ = some F ∧
      (((Builder.empty.performAll colliding).module.bearersOf F).map
        (Builder.empty.performAll colliding).module.shown).Nodup := by
  have known : Builder.empty.KnowsAll colliding := by decide
  obtain ⟨F, there⟩ : ∃ F, (Builder.empty.performAll colliding).module.function? ⟨0⟩ = some F :=
    ⟨_, rfl⟩
  exact ⟨known, F, there, (reachable_performAll .empty known).shown_nodup there⟩

end Builder

end Decaf.IR
