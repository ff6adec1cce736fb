import Decaf.Proofs.Generation.Edit

/-!
# Growth of a function

Code for a construct begins at the end of one block and leaves every other block that was
there as it was. It adds blocks of its own, closes those it is done with, and sends control
only to its own blocks and to the targets of the loops around it. Growth says this of two
modules, and names the blocks that may still be open.
-/

namespace Decaf.IR.Module

/-- The module grows, at the block `b` and by new blocks of the function `f`. -/
structure Grown (m : Module) (f : FunctionId) (loops : List BlockId) (b : BlockId) (m' : Module)
    (pending : List BlockId) : Prop where
  ext : m.Extends m'
  strings : m.StringsAfter m'
  issues : m'.issues = m.issues
  size : m.blocks.size ≤ m'.blocks.size
  functions : ∀ g, g ≠ f → m'.function? g = m.function? g
  others : ∀ c g, m.functionOf? c = some g → g ≠ f → m'.block? c = m.block? c
  new : ∀ c, m.blocks.size ≤ c.index → c.index < m'.blocks.size → m'.functionOf? c = some f
  keep : ∀ c, c.index < m.blocks.size → c ≠ b →
    m'.codeOf c = m.codeOf c ∧ m'.terminator? c = m.terminator? c
  here : ∃ more, m'.codeOf b = m.codeOf b ++ more ∧ ∀ i ∈ more, i.isPhi = false
  opens : ∀ c, m'.functionOf? c = some f → m'.terminator? c = none →
    c ∈ pending ∨ c ≠ b ∧ m.functionOf? c = some f ∧ m.terminator? c = none
  edges : ∀ q s, s ∈ m'.successorsOf q →
    s ∈ m.successorsOf q ∨ m.blocks.size ≤ s.index ∨ s ∈ loops
  /-- What is pending is the block at which the construct began, or new. -/
  region : ∀ c ∈ pending, c = b ∨ m.blocks.size ≤ c.index

variable {m m₁ m' : Module} {f : FunctionId} {loops loops' pending pending' : List BlockId}
  {b c : BlockId}

theorem index_lt_of_functionOf? (h : m.functionOf? b = some f) : b.index < m.blocks.size := by
  obtain ⟨data, hdata, -⟩ := functionOf?_eq_some.1 h
  exact (Array.getElem?_eq_some_iff.1 hdata).1

theorem functionOf?_ne_none (h : b.index < m.blocks.size) : m.functionOf? b ≠ none := by
  simp [functionOf?, block?, h]

namespace Grown

theorem refl (m : Module) (f : FunctionId) (loops : List BlockId) (b : BlockId) :
    m.Grown f loops b m [b] where
  ext := .refl m
  strings := .of_eq rfl
  issues := rfl
  size := Nat.le_refl _
  functions _ _ := rfl
  others _ _ _ _ := rfl
  new c old held := absurd old (by omega)
  keep _ _ _ := ⟨rfl, rfl⟩
  here := ⟨[], by simp, by simp⟩
  opens c owned isOpen := by
    by_cases h : c = b
    · exact .inl (by simp [h])
    · exact .inr ⟨h, owned, isOpen⟩
  edges _ _ h := .inl h
  region c hc := .inl (by simpa using hc)

/-- The next edit takes place at a pending block, or only adds slots and values. -/
theorem edit {slots : List (ValueId × Ty)} {code : List Inst} {terminator : Option Terminator}
    (g : m.Grown f loops b m₁ pending) (e : m₁.Edit m' c slots code terminator)
    (owned : m₁.functionOf? c = some f)
    (region : c ∈ pending ∨ code = [] ∧ terminator = none)
    (isOpen : terminator ≠ none → m₁.terminator? c = none)
    (noPhi : c = b → ∀ i ∈ code, i.isPhi = false)
    (targets : ∀ t, terminator = some t → ∀ s ∈ t.successors,
      m.blocks.size ≤ s.index ∨ s ∈ loops) : m.Grown f loops b m' pending where
  ext := g.ext.trans e.ext
  strings := g.strings.trans e.strings
  issues := e.issues.trans g.issues
  size := by rw [e.size]; exact g.size
  functions h hne := by
    rw [← g.functions h hne, function?, e.functions, function?]
  others d h hd hne := by
    rw [← g.others d h hd hne]
    refine e.others d ?_
    rintro rfl
    rw [g.ext.blocks d h hd] at owned
    exact hne (Option.some.inj owned)
  new d old held := by
    rw [e.owners]
    exact g.new d old (by rwa [e.size] at held)
  keep d held hne := by
    obtain ⟨code_eq, term_eq⟩ := g.keep d held hne
    rw [e.code, e.terms, code_eq, term_eq]
    split
    · rename_i same
      subst same
      rcases region with mem | ⟨rfl, rfl⟩
      · rcases g.region d mem with same | new
        · exact absurd same hne
        · omega
      · simp
    · simp
  here := by
    obtain ⟨more, eq, plain⟩ := g.here
    rw [e.code, eq]
    by_cases h : b = c
    · refine ⟨more ++ code, by simp [h], fun i hi => ?_⟩
      rcases List.mem_append.1 hi with old | new
      · exact plain i old
      · exact noPhi h.symm i new
    · exact ⟨more, by simp [h], plain⟩
  opens d hd isOpen' := by
    rw [e.owners] at hd
    rw [e.terms] at isOpen'
    refine g.opens d hd ?_
    split at isOpen'
    · exact (Option.or_eq_none_iff.1 isOpen').2
    · exact isOpen'
  edges q s hs := by
    rw [e.successorsOf isOpen] at hs
    rcases hs with old | ⟨-, t, ht, hs⟩
    · exact g.edges q s old
    · exact .inr (targets t ht s hs)
  region := g.region

/-- A block that has its terminator is no longer pending. -/
theorem drop (g : m.Grown f loops b m' (c :: pending)) (closed : m'.terminator? c ≠ none) :
    m.Grown f loops b m' pending where
  ext := g.ext
  strings := g.strings
  issues := g.issues
  size := g.size
  functions := g.functions
  others := g.others
  new := g.new
  keep := g.keep
  here := g.here
  opens d hd isOpen := by
    refine (g.opens d hd isOpen).imp (fun mem => ?_) id
    rcases List.mem_cons.1 mem with rfl | mem
    · exact absurd isOpen closed
    · exact mem
  edges := g.edges
  region d hd := g.region d (List.mem_cons_of_mem _ hd)

theorem append (g : m.Grown f loops b m₁ pending) (a : m₁.Append m' f c) :
    m.Grown f loops b m' (pending ++ [c]) where
  ext := g.ext.trans a.ext
  strings := g.strings.trans (.of_eq a.globals)
  issues := a.issues.trans g.issues
  size := by have := g.size; rw [a.size]; omega
  functions h hne := by rw [← g.functions h hne, a.functions h hne]
  others d h hd hne := by
    rw [← g.others d h hd hne]
    refine a.others d ?_
    rintro rfl
    have := a.not_owned
    rw [g.ext.blocks d h hd] at this
    cases this
  new d old held := by
    by_cases same : d = c
    · subst same
      exact a.functionOf?
    · rw [a.functionOf?_of_ne same]
      refine g.new d old ?_
      have apart : d.index ≠ c.index := fun eq => same (by rw [BlockId.mk.injEq, eq])
      have := a.position
      have := a.size
      omega
  keep d held hne := by
    rw [a.codeOf, a.terminator?]
    exact g.keep d held hne
  here := by
    rw [a.codeOf]
    exact g.here
  opens d hd isOpen := by
    by_cases same : d = c
    · exact .inl (by simp [same])
    · rw [a.functionOf?_of_ne same] at hd
      rw [a.terminator?] at isOpen
      exact (g.opens d hd isOpen).imp (List.mem_append_left _) id
  edges q s hs := by
    rw [a.successorsOf] at hs
    exact g.edges q s hs
  region d hd := by
    rcases List.mem_append.1 hd with old | new
    · exact g.region d old
    · obtain rfl := List.mem_singleton.1 new
      have := a.position
      have := g.size
      exact .inr (by omega)

/-- A construct that is part of another one works at one of its pending blocks. -/
theorem trans (g : m.Grown f loops b m₁ (c :: pending)) (h : m₁.Grown f loops' c m' pending')
    (base : b.index < m.blocks.size)
    (sub : ∀ s ∈ loops', s ∈ loops ∨ m.blocks.size ≤ s.index) :
    m.Grown f loops b m' (pending' ++ pending) := by
  have begun := g.region c (by simp)
  have apart : ∀ d : BlockId, d.index < m.blocks.size → d ≠ b → d ≠ c := by
    rintro d held hne rfl
    rcases begun with same | new
    · exact hne same
    · omega
  have size := g.size
  constructor
  case ext => exact g.ext.trans h.ext
  case strings => exact g.strings.trans h.strings
  case issues => exact h.issues.trans g.issues
  case size => exact Nat.le_trans g.size h.size
  case functions => exact fun k hk => (h.functions k hk).trans (g.functions k hk)
  case others =>
    intro d k hd hk
    rw [← g.others d k hd hk]
    exact h.others d k (g.ext.blocks d k hd) hk
  case new =>
    intro d old held
    by_cases before : d.index < m₁.blocks.size
    · exact h.ext.blocks d f (g.new d old before)
    · exact h.new d (by omega) held
  case keep =>
    intro d held hne
    obtain ⟨code, term⟩ := g.keep d held hne
    obtain ⟨code', term'⟩ := h.keep d (by omega) (apart d held hne)
    exact ⟨code'.trans code, term'.trans term⟩
  case here =>
    obtain ⟨more, eq, plain⟩ := g.here
    by_cases same : b = c
    · subst same
      obtain ⟨more', eq', plain'⟩ := h.here
      refine ⟨more ++ more', by rw [eq', eq, List.append_assoc], fun i hi => ?_⟩
      exact (List.mem_append.1 hi).elim (plain i) (plain' i)
    · exact ⟨more, by rw [(h.keep b (by omega) same).1, eq], plain⟩
  case opens =>
    intro d hd isOpen
    rcases h.opens d hd isOpen with mem | ⟨hne, owned, isOpen⟩
    · exact .inl (List.mem_append_left _ mem)
    · refine (g.opens d owned isOpen).imp (fun mem => ?_) id
      rcases List.mem_cons.1 mem with same | mem
      · exact absurd same hne
      · exact List.mem_append_right _ mem
  case edges =>
    intro q s hs
    rcases h.edges q s hs with old | new | loop
    · exact g.edges q s old
    · exact .inr (.inl (by omega))
    · rcases sub s loop with outer | new
      · exact .inr (.inr outer)
      · exact .inr (.inl new)
  case region =>
    intro d hd
    rcases List.mem_append.1 hd with inner | outer
    · rcases h.region d inner with rfl | new
      · exact begun
      · exact .inr (by omega)
    · exact g.region d (List.mem_cons_of_mem _ outer)

end Grown

end Decaf.IR.Module
