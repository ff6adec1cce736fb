import Mathlib.Data.List.Nodup
import Mathlib.Data.List.Perm.Subperm
import Decaf.Proofs.Building.Effects

/-!
# Names that are handed out

A table never hands out a name twice: as many numbers are tried for a hint as there are names in
use, and one more, so one of them is free. The globals of a module therefore have different names,
and each is known to its address by its name.
-/

namespace Decaf.IR

namespace NameTable

theorem numbered_injective (base : String) : Function.Injective (numbered base) := by
  intro i j same
  have digits := congrArg String.toList same
  simp only [numbered, String.toList_append] at digits
  have read := congrArg (fun ds => Nat.ofDigitChars 10 ds 0) (List.append_cancel_left digits)
  simpa [Nat.toString_eq_ofList_toDigits] using read

/-- Only a search that has run out of tries ends with a name that is taken. -/
theorem firstFree_of_mem {used : List String} {base : String} {last tries : Nat}
    (taken : numbered base (firstFree used base last tries) ∈ used) :
    firstFree used base last tries = last + tries + 1 := by
  induction tries generalizing last with
  | zero => rfl
  | succ tries ih =>
    rw [firstFree] at taken ⊢
    split at taken
    · rename_i next
      rw [if_pos next, ih taken]
      omega
    · rename_i free
      exact absurd taken free

/-- A number changes the name. -/
theorem numbered_ne (base : String) (n : Nat) : numbered base n ≠ base := by
  intro same
  have digits := congrArg String.toList same
  rw [numbered, Nat.toString_eq_ofList_toDigits, String.toList_append, String.toList_ofList,
    List.append_right_eq_self] at digits
  exact Nat.toDigits_ne_nil digits

/-- Numbers in a row whose names are all taken are no more than the names in use, the name without
a number left aside. -/
theorem count_le_of_taken {used : List String} {base : String} (first : Nat) {count : Nat}
    (taken : ∀ n, first ≤ n → n < first + count → numbered base n ∈ used) :
    count ≤ (used.erase base).length := by
  have all : (List.range' first count).map (numbered base) ⊆ used.erase base := by
    intro name hname
    obtain ⟨n, hn, rfl⟩ := List.mem_map.1 hname
    obtain ⟨after, before⟩ := List.mem_range'_1.1 hn
    exact (List.mem_erase_of_ne (numbered_ne base n)).2 (taken n after before)
  have distinct : ((List.range' first count).map (numbered base)).Nodup :=
    List.Nodup.map (numbered_injective base) List.nodup_range'
  have fits := (List.Nodup.subperm distinct all).length_le
  rwa [List.length_map, List.length_range'] at fits

theorem numbered_firstFree_not_mem (used : List String) (base : String) (last : Nat) :
    numbered base (firstFree used base last used.length) ∉ used := by
  intro taken
  have stop := firstFree_of_mem taken
  have fits : used.length + 1 ≤ (used.erase base).length := by
    refine count_le_of_taken (last + 1) fun n after before => ?_
    by_cases final : n = last + used.length + 1
    · rwa [final, ← stop]
    · have tried : n < firstFree used base last used.length := by omega
      exact numbered_mem_of_lt_firstFree after tried
  have erased : (used.erase base).length ≤ used.length := List.length_erase_le
  omega

/-- A name is handed out once. -/
theorem unique_not_mem (t : NameTable) (hint : String) : (t.unique hint).1 ∉ t.used := by
  simp only [unique]
  split
  · exact numbered_firstFree_not_mem t.used (NameTable.base hint) _
  · assumption

end NameTable

namespace Builder

/-- The names of globals are taken, each by one global, and addresses show the names of what they
are the addresses of. -/
structure Labelled (b : Builder) : Prop where
  taken : ∀ G ∈ b.module.globals.toList, G.name ∈ b.symbols.used
  distinct : (b.module.globals.toList.map (·.name)).Nodup
  shown : ∀ v info g, b.module.value? v = some info → info.origin = .global g →
    ∃ G, b.module.globals[g.index]? = some G ∧ info.name = some G.name

/-- Globals and the names of symbols are as they were. -/
structure SameSymbols (b b' : Builder) : Prop where
  globals : b'.module.globals = b.module.globals
  symbols : b'.symbols = b.symbols

namespace Labelled

variable {b b' : Builder} (h : b.Labelled)

theorem empty : Builder.empty.Labelled where
  taken G hG := by cases hG
  distinct := List.nodup_nil
  shown v info g there := by
    have none : (#[] : Array ValueInfo)[v.index]? = some info := there
    simp at none

include h

theorem same (symbols : b.SameSymbols b') (values : b'.module.values = b.module.values) :
    b'.Labelled where
  taken := by
    rw [symbols.globals, symbols.symbols]
    exact h.taken
  distinct := by
    rw [symbols.globals]
    exact h.distinct
  shown v info g there := by
    rw [Module.value?, values] at there
    rw [symbols.globals]
    exact h.shown v info g there

theorem pushValue {info : ValueInfo} (other : ∀ g, info.origin ≠ .global g) :
    (b.pushValue info).2.Labelled where
  taken := h.taken
  distinct := h.distinct
  shown v info' g there origin := by
    replace there : (b.module.values.push info)[v.index]? = some info' := there
    rw [Array.getElem?_push] at there
    split at there
    · cases there
      exact absurd origin (other g)
    · exact h.shown v info' g there origin

theorem pushGlobal (hint : String) (kind : GlobalKind) : (b.pushGlobal hint kind).2.Labelled := by
  have globals : (b.pushGlobal hint kind).2.module.globals = b.module.globals.push
      ⟨⟨b.module.globals.size⟩, (b.symbols.unique hint).1, kind, ⟨b.module.values.size⟩⟩ := rfl
  have symbols : (b.pushGlobal hint kind).2.symbols = (b.symbols.unique hint).2 := rfl
  constructor
  case taken =>
    intro G hG
    rw [globals, Array.toList_push] at hG
    rw [symbols, NameTable.used_unique]
    rcases List.mem_append.1 hG with old | new
    · exact List.mem_cons_of_mem _ (h.taken G old)
    · rw [List.mem_singleton.1 new]
      exact List.mem_cons_self
  case distinct =>
    rw [globals, Array.toList_push, List.map_append, List.map_singleton, List.nodup_append]
    refine ⟨h.distinct, List.nodup_singleton _, fun name old other new same => ?_⟩
    obtain ⟨G, hG, rfl⟩ := List.mem_map.1 old
    obtain rfl := List.mem_singleton.1 new
    have taken := h.taken G hG
    rw [same] at taken
    exact b.symbols.unique_not_mem hint taken
  case shown =>
    intro v info g there origin
    replace there : (b.module.values.push ⟨.ptr, .global ⟨b.module.globals.size⟩,
      some (b.symbols.unique hint).1⟩)[v.index]? = some info := there
    rw [globals, Array.getElem?_push]
    rw [Array.getElem?_push] at there
    split at there
    · cases there
      cases origin
      exact ⟨_, if_pos rfl, rfl⟩
    · obtain ⟨G, hG, name⟩ := h.shown v info g there origin
      have held := (Array.getElem?_eq_some_iff.1 hG).1
      rw [if_neg (Nat.ne_of_lt held)]
      exact ⟨G, hG, name⟩

theorem declareFunction (name : String) (ret : Ty) (params : List (Option String × Ty)) :
    (b.declareFunction name ret params).2.Labelled where
  taken G hG := by
    have symbols : (b.declareFunction name ret params).2.symbols = (b.symbols.unique name).2 := rfl
    rw [symbols, NameTable.used_unique]
    exact List.mem_cons_of_mem _ (h.taken G hG)
  distinct := h.distinct
  shown v info g there origin := by
    rw [Module.value?, ← Array.getElem?_toList] at there
    simp only [Builder.declareFunction, Array.toList_appendList] at there
    rcases Nat.lt_or_ge v.index b.module.values.toList.length with old | new
    · rw [List.getElem?_append_left old, Array.getElem?_toList] at there
      exact h.shown v info g there origin
    · rw [List.getElem?_append_right new] at there
      obtain ⟨i, hi, rfl⟩ := List.mem_mapIdx.1 (List.mem_of_getElem? there)
      cases origin

theorem localName (f : Option FunctionId) (hint : String) : (b.localName f hint).2.Labelled := by
  have symbols : (b.localName f hint).2.symbols = b.symbols := by
    unfold Builder.localName
    split <;> rfl
  have module := module_localName b f hint
  exact h.same ⟨congrArg Module.globals module, symbols⟩ (congrArg Module.values module)

theorem extend (change : Block → Block) : (b.extend change).Labelled := by
  unfold Builder.extend
  split
  · exact h.same ⟨rfl, rfl⟩ rfl
  · split <;> exact h.same ⟨rfl, rfl⟩ rfl

/-- A value of an instruction, with a name of its own. -/
theorem named (f : Option FunctionId) (hint : String) (ty : Ty) (block : Option BlockId) :
    ((b.localName f hint).2.pushValue ⟨ty, .inst block, (b.localName f hint).1⟩).2.Labelled :=
  (h.localName f hint).pushValue nofun

theorem emit (ty : Ty) (hint : String) (inst : ValueId → Inst) :
    (b.emit ty hint inst).2.Labelled :=
  (h.named b.insertionFunction? hint ty _).extend _

theorem alloca (ty : Ty) (hint : String) : (b.alloca ty hint).2.Labelled := by
  have named := h.named b.insertionFunction? hint .ptr
    ((b.insertionFunction?.bind b.module.function?).bind Function.entry?)
  unfold Builder.alloca
  dsimp only
  split <;> exact named.same ⟨rfl, rfl⟩ rfl

theorem call (callee : FunctionId) (args : List ValueId) : (b.call callee args).2.Labelled := by
  unfold Builder.call
  dsimp only
  split
  · exact h.extend _
  · exact h.emit _ "call" fun dst => .call (some dst) callee args

theorem perform {r : Reply} (c : Command r) : (b.perform c).2.Labelled := by
  cases c with
  | setModuleName | positionAtEnd => exact h.same ⟨rfl, rfl⟩ rfl
  | declareFunction name ret params => exact h.declareFunction name ret params
  | appendBlock f hint => exact (h.localName (some f) hint).same ⟨rfl, rfl⟩ rfl
  | terminate | store => exact h.extend _
  | alloca ty hint => exact h.alloca ty hint
  | load | elementPtr | binary | unary | zext | phi => exact h.emit _ _ _
  | call callee args => exact h.call callee args
  | globalScalar | globalArray | globalString => exact h.pushGlobal _ _
  | const c => exact h.pushValue nofun

end Labelled

end Builder

end Decaf.IR
