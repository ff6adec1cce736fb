import Decaf.Proofs.Building.LocalNames
import Decaf.Proofs.Generation.Literals

/-!
# Symbols

The names of functions and globals share one table. A global has the name that the table hands
out for it, a function the one under which it was declared, which the table takes in all the same.
So the symbols of a module are distinct exactly if each function was declared under a name that no
symbol had by then. Globals can be found by their names whatever was declared.
-/

namespace Decaf.IR

namespace NameTable

theorem unique_ne_empty (t : NameTable) (hint : String) : (t.unique hint).1 ≠ "" := by
  have named : base hint ≠ "" := by
    unfold base
    split
    · decide
    · rename_i filled
      simpa using filled
  simp only [unique]
  split
  · intro empty
    exact named (String.append_eq_empty_iff.1 empty).1
  · exact named

/-- Once a name was asked for it is taken. -/
theorem mem_used_unique (t : NameTable) {hint : String} (named : hint ≠ "") :
    hint ∈ (t.unique hint).2.used := by
  have own : base hint = hint := if_neg (by simpa using named)
  rw [used_unique]
  by_cases taken : hint ∈ t.used
  · exact List.mem_cons_of_mem _ taken
  · rw [unique_of_not_mem (own.symm ▸ taken), own]
    exact List.mem_cons_self

theorem used_subset_unique (t : NameTable) (hint : String) : t.used ⊆ (t.unique hint).2.used := by
  rw [used_unique]
  exact List.subset_cons_self _ _

end NameTable

/-- Where names are distinct, looking for one finds what has it. -/
theorem find?_eq_some_iff_of_nodup {α : Type} {name : α → String} {xs : Array α}
    (distinct : (xs.toList.map name).Nodup) {x : α} {wanted : String} :
    xs.find? (name · == wanted) = some x ↔ x ∈ xs ∧ name x = wanted := by
  constructor
  · intro found
    exact ⟨Array.mem_of_find?_eq_some found, by simpa using Array.find?_some found⟩
  · rintro ⟨mem, rfl⟩
    rw [← Array.find?_toList]
    exact find?_of_mem distinct (Array.mem_toList_iff.2 mem)

namespace Module

def functionNames (m : Module) : List String :=
  m.functions.toList.map (·.name)

def globalNames (m : Module) : List String :=
  m.globals.toList.map (·.name)

/-- The names that the module shows behind an `@`, one for each function and each global. -/
def symbols (m : Module) : List String :=
  m.functionNames ++ m.globalNames

theorem functionByName?_eq_some_iff {m : Module} (distinct : m.functionNames.Nodup) {F : Function}
    {name : String} : m.functionByName? name = some F ↔ F ∈ m.functions ∧ F.name = name :=
  find?_eq_some_iff_of_nodup distinct

theorem globalByName?_eq_some_iff {m : Module} (distinct : m.globalNames.Nodup) {G : Global}
    {name : String} : m.globalByName? name = some G ↔ G ∈ m.globals ∧ G.name = name :=
  find?_eq_some_iff_of_nodup distinct

end Module

/-- The name under which a command declares a function. -/
def Command.declared? : Command r → Option String
  | .declareFunction name _ _ => some name
  | _ => none

namespace Builder

variable {b b' : Builder}

theorem symbols_extend (b : Builder) (change : Block → Block) :
    (b.extend change).symbols = b.symbols := by
  unfold extend
  split
  · rfl
  · split <;> rfl

theorem symbols_localName (b : Builder) (f : Option FunctionId) (hint : String) :
    (b.localName f hint).2.symbols = b.symbols := by
  unfold localName
  split <;> rfl

theorem symbols_emit (b : Builder) (ty : Ty) (hint : String) (inst : ValueId → Inst) :
    (b.emit ty hint inst).2.symbols = b.symbols := by
  unfold emit
  rw [symbols_extend]
  exact b.symbols_localName b.insertionFunction? hint

theorem functionNames_appendBlock (b : Builder) (f : FunctionId) (hint : String) :
    (b.appendBlock f hint).2.module.functionNames = b.module.functionNames := by
  have functions : (b.appendBlock f hint).2.module.functions =
      b.module.functions.modify f.index fun F =>
        { F with blocks := F.blocks.push ⟨b.module.blocks.size⟩ } := by
    simp only [appendBlock, module_localName]
  rw [Module.functionNames, functions, Array.toList_modify]
  refine List.ext_getElem? fun i => ?_
  rw [List.getElem?_map, List.getElem?_modify, Module.functionNames, List.getElem?_map]
  split <;> cases b.module.functions.toList[i]? <;> rfl

/-- What one command can do to functions, to globals and to the table of their names. The index is
the name under which a function is declared. -/
inductive SymbolStep (b b' : Builder) : Option String → Prop where
  | function (name : String) :
      b'.module.functionNames = b.module.functionNames ++ [name] →
      b'.module.globals = b.module.globals → b'.symbols = (b.symbols.unique name).2 →
      SymbolStep b b' (some name)
  | global (hint : String) (G : Global) :
      b'.module.functionNames = b.module.functionNames →
      b'.module.globals = b.module.globals.push G → G.name = (b.symbols.unique hint).1 →
      b'.symbols = (b.symbols.unique hint).2 → SymbolStep b b' none
  | same : b'.module.functionNames = b.module.functionNames →
      b'.module.globals = b.module.globals → b'.symbols = b.symbols → SymbolStep b b' none

theorem SymbolStep.of_functions (functions : b'.module.functions = b.module.functions)
    (globals : b'.module.globals = b.module.globals) (symbols : b'.symbols = b.symbols) :
    SymbolStep b b' none :=
  .same (by rw [Module.functionNames, functions, Module.functionNames]) globals symbols

theorem symbolStep_extend (b : Builder) (change : Block → Block) :
    SymbolStep b (b.extend change) none :=
  .of_functions (b.functions_extend change) (b.globals_extend change) (b.symbols_extend change)

theorem symbolStep_emit (b : Builder) (ty : Ty) (hint : String) (inst : ValueId → Inst) :
    SymbolStep b (b.emit ty hint inst).2 none :=
  .of_functions (b.functions_emit ty hint inst) (b.globals_emit ty hint inst)
    (b.symbols_emit ty hint inst)

theorem symbolStep_alloca (b : Builder) (ty : Ty) (hint : String) :
    SymbolStep b (b.alloca ty hint).2 none := by
  refine .of_functions ?_ (b.globals_alloca ty hint) ?_
  · have functions := congrArg Module.functions (module_localName b b.insertionFunction? hint)
    unfold alloca
    dsimp only
    split <;> exact functions
  · have table := b.symbols_localName b.insertionFunction? hint
    unfold alloca
    dsimp only
    split <;> exact table

theorem symbolStep_pushGlobal (b : Builder) (hint : String) (kind : GlobalKind) :
    SymbolStep b (b.pushGlobal hint kind).2 none :=
  .global hint ⟨⟨b.module.globals.size⟩, (b.symbols.unique hint).1, kind, ⟨b.module.values.size⟩⟩
    rfl rfl rfl rfl

theorem symbolStep_perform (b : Builder) {r : Reply} (c : Command r) :
    SymbolStep b (b.perform c).2 c.declared? := by
  cases c with
  | declareFunction name ret params =>
    refine .function name ?_ rfl rfl
    have functions : (b.declareFunction name ret params).2.module.functions =
      b.module.functions.push _ := rfl
    rw [Module.functionNames, perform, functions, Array.toList_push, List.map_append,
      List.map_singleton, Module.functionNames]
  | appendBlock f hint =>
    have globals := congrArg Module.globals (module_localName b (some f) hint)
    exact .same (b.functionNames_appendBlock f hint) globals (b.symbols_localName (some f) hint)
  | globalScalar | globalArray | globalString => exact b.symbolStep_pushGlobal _ _
  | terminate | store => exact b.symbolStep_extend _
  | load | elementPtr | binary | unary | zext | phi => exact b.symbolStep_emit _ _ _
  | alloca ty hint => exact b.symbolStep_alloca ty hint
  | call callee args =>
    simp only [perform, call]
    split
    · exact b.symbolStep_extend _
    · exact b.symbolStep_emit _ "call" fun dst => .call (some dst) callee args
  | setModuleName | positionAtEnd | const => exact .of_functions rfl rfl rfl

theorem SymbolStep.functionNames {declared : Option String} (step : SymbolStep b b' declared) :
    b'.module.functionNames = b.module.functionNames ++ declared.toList := by
  cases step with
  | function name functions => exact functions
  | global hint G functions | same functions => rw [functions, Option.toList_none, List.append_nil]

/-- Every symbol but the empty one is taken. -/
def Claims (b : Builder) : Prop :=
  ∀ name ∈ b.module.symbols, name = "" ∨ name ∈ b.symbols.used

theorem Claims.unique_not_mem (h : b.Claims) (hint : String) :
    (b.symbols.unique hint).1 ∉ b.module.symbols := by
  intro mem
  rcases h _ mem with empty | taken
  · exact b.symbols.unique_ne_empty hint empty
  · exact b.symbols.unique_not_mem hint taken

/-- At most one symbol comes in addition, and the table takes it. -/
structure AddsSymbol (b b' : Builder) (new : Option String) : Prop where
  symbols : b'.module.symbols.Perm (new.toList ++ b.module.symbols)
  kept : b.symbols.used ⊆ b'.symbols.used
  taken : ∀ name ∈ new, name = "" ∨ name ∈ b'.symbols.used

theorem AddsSymbol.claims {new : Option String} (h : AddsSymbol b b' new) (claims : b.Claims) :
    b'.Claims := by
  intro name mem
  rcases List.mem_append.1 (h.symbols.mem_iff.1 mem) with added | old
  · exact h.taken name (Option.mem_toList.1 added)
  · exact (claims name old).imp_right fun taken => h.kept taken

/-- What comes in addition is the name of a function as it was declared, or a name for a global that
the table hands out. -/
theorem SymbolStep.adds {declared : Option String} (step : SymbolStep b b' declared) :
    AddsSymbol b b' declared ∨
      declared = none ∧ ∃ hint, AddsSymbol b b' (some (b.symbols.unique hint).1) := by
  cases step with
  | function name functions globals table =>
    refine .inl ⟨?_, table ▸ b.symbols.used_subset_unique name, fun other same => ?_⟩
    · rw [Module.symbols, functions, Module.globalNames, globals, List.append_assoc]
      exact List.perm_middle
    · cases same
      rw [table]
      exact or_iff_not_imp_left.2 fun named => b.symbols.mem_used_unique named
  | global hint G functions globals name table =>
    refine .inr ⟨rfl, hint, ?_, table ▸ b.symbols.used_subset_unique hint, fun other same => ?_⟩
    · rw [Module.symbols, functions, Module.globalNames, globals, Array.toList_push,
        List.map_append, List.map_singleton, name, ← List.append_assoc]
      exact List.perm_append_singleton _ _
    · cases same
      rw [table, NameTable.used_unique]
      exact .inr List.mem_cons_self
  | same functions globals table =>
    refine .inl ⟨?_, fun _ used => table ▸ used, nofun⟩
    rw [Module.symbols, functions, Module.globalNames, globals]
    exact .refl _

theorem SymbolStep.claims {declared : Option String} (step : SymbolStep b b' declared)
    (claims : b.Claims) : b'.Claims := by
  rcases step.adds with adds | ⟨-, hint, adds⟩
  · exact adds.claims claims
  · exact adds.claims claims

/-- If the command declares a function, no symbol has its name yet. -/
def DeclaresFresh (b : Builder) (c : Command r) : Prop :=
  ∀ name ∈ c.declared?, name ∉ b.module.symbols

instance (b : Builder) (c : Command r) : Decidable (b.DeclaresFresh c) :=
  inferInstanceAs (Decidable (∀ name ∈ c.declared?, _))

/-- Each function is declared under a name that no symbol has by then. -/
def DeclaresAllFresh (b : Builder) : List AnyCommand → Prop
  | [] => True
  | ⟨_, c⟩ :: rest => b.DeclaresFresh c ∧ (b.perform c).2.DeclaresAllFresh rest

instance decidableDeclaresAllFresh (b : Builder) : (commands : List AnyCommand) →
    Decidable (b.DeclaresAllFresh commands)
  | [] => inferInstanceAs (Decidable True)
  | ⟨_, c⟩ :: rest =>
    have := decidableDeclaresAllFresh (b.perform c).2 rest
    inferInstanceAs (Decidable (b.DeclaresFresh c ∧ (b.perform c).2.DeclaresAllFresh rest))

/-- A command keeps symbols distinct exactly if it declares no function under one of them. -/
theorem symbols_nodup_perform (claims : b.Claims) {r : Reply} (c : Command r) :
    (b.perform c).2.module.symbols.Nodup ↔ b.module.symbols.Nodup ∧ b.DeclaresFresh c := by
  have added (new : Option String) : (new.toList ++ b.module.symbols).Nodup ↔
      b.module.symbols.Nodup ∧ ∀ name ∈ new, name ∉ b.module.symbols := by
    cases new <;> simp [and_comm]
  rcases (b.symbolStep_perform c).adds with adds | ⟨none, hint, adds⟩
  · rw [adds.symbols.nodup_iff, added, DeclaresFresh]
  · rw [adds.symbols.nodup_iff, added, DeclaresFresh, none]
    refine and_congr_right fun _ => iff_of_true (fun name same => ?_) nofun
    cases same
    exact claims.unique_not_mem hint

theorem symbols_nodup_performAll (claims : b.Claims) (commands : List AnyCommand) :
    (b.performAll commands).module.symbols.Nodup ↔
      b.module.symbols.Nodup ∧ b.DeclaresAllFresh commands := by
  induction commands generalizing b with
  | nil => exact (and_iff_left trivial).symm
  | cons c rest ih =>
    rw [performAll, ih ((b.symbolStep_perform c.2).claims claims), symbols_nodup_perform claims,
      DeclaresAllFresh, and_assoc]

theorem Labelled.performAll (h : b.Labelled) (commands : List AnyCommand) :
    (b.performAll commands).Labelled := by
  induction commands generalizing b with
  | nil => exact h
  | cons c rest ih => exact ih (h.perform c.2)

/-- The address of a global is shown by the name of the global. -/
theorem Labelled.operandText (h : b.Labelled) {v : ValueId} {info : ValueInfo} {g : GlobalId}
    (there : b.module.value? v = some info) (origin : info.origin = .global g) :
    ∃ G, b.module.globals[g.index]? = some G ∧ b.module.operandText v = "@" ++ G.name := by
  obtain ⟨G, hG, name⟩ := h.shown v info g there origin
  refine ⟨G, hG, ?_⟩
  obtain ⟨ty, _, _⟩ := info
  cases origin
  cases name
  rw [Module.operandText, there]
  rfl

/-- Whatever is built, the symbols of the module are distinct exactly if each function was declared
under a name that no symbol had by then, and functions are then found by their names. Globals are
found by their names in any case, which are the names that their addresses show. -/
theorem symbols_nodup_iff (commands : List AnyCommand) :
    let m := (Builder.empty.performAll commands).module
    (m.symbols.Nodup ↔ Builder.empty.DeclaresAllFresh commands) ∧
    (Builder.empty.DeclaresAllFresh commands → ∀ name F,
      m.functionByName? name = some F ↔ F ∈ m.functions ∧ F.name = name) ∧
    (∀ name G, m.globalByName? name = some G ↔ G ∈ m.globals ∧ G.name = name) ∧
    ∀ v info g, m.value? v = some info → info.origin = .global g →
      ∃ G, m.globals[g.index]? = some G ∧ m.operandText v = "@" ++ G.name := by
  intro m
  have distinct : m.symbols.Nodup ↔ Builder.empty.DeclaresAllFresh commands := by
    rw [symbols_nodup_performAll (b := Builder.empty) nofun]
    exact and_iff_right List.nodup_nil
  have labelled := Labelled.empty.performAll commands
  refine ⟨distinct, fun fresh name F => ?_, fun name G => ?_, fun v info g => labelled.operandText⟩
  · exact Module.functionByName?_eq_some_iff (List.nodup_append.1 (distinct.2 fresh)).1
  · exact Module.globalByName?_eq_some_iff labelled.distinct

/-- Globals that ask for names which look like generated ones, between two functions. -/
def crowding : List AnyCommand :=
  [⟨_, .globalScalar "x" .i32 (.i32 0)⟩, ⟨_, .declareFunction "x1" .void []⟩,
    ⟨_, .globalArray "x" .i32 3⟩, ⟨_, .globalScalar ".str1" .i1 (.bool true)⟩,
    ⟨_, .globalString "a"⟩, ⟨_, .globalString "b"⟩, ⟨_, .declareFunction "x3" .i32 []⟩]

theorem crowding_symbols_nodup :
    let m := (Builder.empty.performAll crowding).module
    m.symbols = ["x1", "x3", "x", "x2", ".str1", ".str", ".str2"] ∧ m.symbols.Nodup ∧
      ∀ name F, m.functionByName? name = some F ↔ F ∈ m.functions ∧ F.name = name := by
  intro m
  obtain ⟨distinct, found, -, -⟩ := symbols_nodup_iff crowding
  have fresh : Builder.empty.DeclaresAllFresh crowding := by decide
  exact ⟨by decide, distinct.2 fresh, found fresh⟩

/-- A function and a global, and then one more function under each of the two names. -/
def doubling : List AnyCommand :=
  [⟨_, .declareFunction "f" .void []⟩, ⟨_, .globalScalar "g" .i32 (.i32 0)⟩,
    ⟨_, .declareFunction "f" .i32 []⟩, ⟨_, .declareFunction "g" .void []⟩]

/-- Two symbols stand twice, and the second of two functions is not found by any name. -/
theorem doubling_symbols :
    let m := (Builder.empty.performAll doubling).module
    Builder.empty.KnowsAll doubling ∧ m.symbols = ["f", "f", "g", "g"] ∧ ¬ m.symbols.Nodup ∧
      ∃ F, m.function? ⟨1⟩ = some F ∧ ∀ name, m.functionByName? name ≠ some F := by
  intro m
  let second : Function := ⟨⟨1⟩, "f", .i32, [], #[]⟩
  refine ⟨by decide, by decide, by decide, second, rfl, fun name found => ?_⟩
  obtain rfl : second.name = name := by simpa using Array.find?_some found
  exact absurd found (by decide)

end Builder

end Decaf.IR
