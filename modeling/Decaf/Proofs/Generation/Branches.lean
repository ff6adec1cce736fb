import Decaf.Proofs.Generation.Operands

/-!
# Generating branches

The steps from which control flow is put together: a block is appended and waits, the block
where the builder stands gets its terminator, and the builder moves to a block that waited.
-/

namespace Decaf

open IR

section

variable {typed : Prop} {p₀ p : Plan} {s₀ s : GenState Builder} {b₀ b c : BlockId}
  {rest : List BlockId}

/-- A waiting block can be joined from wherever the construct has got to. -/
theorem Reached.joinable (r : Reached typed p₀ s₀ b₀ p s b rest) (waits : c ∈ rest) :
    s.target.module.Joinable p (s.target.module.there p b) c :=
  (r.waiting c waits).1.joinable r.there

theorem IR.Module.Joinable.closes_br {m : Module} {there : List ValueId}
    (h : m.Joinable p there c) : m.Closes typed p b there (.br c) where
  ok := h.leads
  joins d hd := by
    obtain rfl : d = c := by simpa [Terminator.successors] using hd
    exact h
  dead := nofun

/-- A branch to two of the blocks that wait. -/
theorem Reached.closes_condBr (r : Reached typed p₀ s₀ b₀ p s b rest) {v : ValueId} {x y : BlockId}
    (operand : Operand typed s.target.module p b .i1 v) (hx : x ∈ rest) (hy : y ∈ rest) :
    s.target.module.Closes typed p b (s.target.module.there p b) (.condBr v x y) ∧
      ∀ d ∈ (Terminator.condBr v x y).successors,
        d ∈ s₀.loops.blocks ∨ s₀.target.module.blocks.size ≤ d.index := by
  have member {d : BlockId} (hd : d ∈ (Terminator.condBr v x y).successors) : d ∈ rest := by
    rcases List.mem_cons.1 hd with rfl | hd
    · exact hx
    · obtain rfl := List.mem_singleton.1 hd
      exact hy
  exact ⟨⟨⟨operand.usable, operand.type, (r.joinable hx).leads, (r.joinable hy).leads⟩,
      fun d hd => r.joinable (member hd), fun same => by cases same⟩,
    fun d hd => .inr (r.waiting d (member hd)).2.2⟩

/-- A block of the construct to which control may be sent, also after it was filled. -/
structure IR.Module.Header (m : Module) (p : Plan) (there : List ValueId) (c : BlockId) : Prop
    where
  owned : m.functionOf? c = some p.function
  inner : c ≠ p.entry
  avail : p.avail c = there
  noPhi : ∀ i ∈ m.codeOf c, i.isPhi = false
  alive : m.terminator? c ≠ some .unreachable

/-- No block of the function leads to `c`. -/
def IR.Module.Unjoined (m : Module) (f : FunctionId) (c : BlockId) : Prop :=
  ∀ q, m.functionOf? q = some f → c ∉ m.successorsOf q

/-- Of the blocks of the function `b` leads to `c`, and no other one. -/
def IR.Module.JoinedBy (m : Module) (f : FunctionId) (b c : BlockId) : Prop :=
  ∀ q, m.functionOf? q = some f → (c ∈ m.successorsOf q ↔ q = b)

theorem Operand.edit {m m' : Module} {slots : List (ValueId × IR.Ty)} {code : List Inst}
    {t : Option Terminator} {ty : IR.Ty} {v : ValueId} (h : Operand typed m p b ty v)
    (e : m.Edit m' c slots code t) : Operand typed m' p b ty v :=
  ⟨h.usable.mono e.ext (Module.there_prefix (e.codeOf_prefix b)),
    fun t => (h.usable.typeOf e.ext).trans (h.type t)⟩

namespace IR.Module

variable {m m' : Module} {there more : List ValueId} {f : FunctionId}

theorem Header.joinable (h : m.Header p there c) (sub : there ⊆ more) : m.Joinable p more c :=
  ⟨⟨h.owned, h.inner, by rw [h.avail]; exact sub⟩, h.noPhi, h.alive⟩

theorem Header.edit {slots : List (ValueId × IR.Ty)} {code : List Inst} {t : Option Terminator}
    (h : m.Header p there c) (e : m.Edit m' b slots code t) (apart : c ≠ b) :
    m'.Header p there c where
  owned := (e.owners c).trans h.owned
  inner := h.inner
  avail := h.avail
  noPhi := by
    rw [e.code, if_neg apart, List.append_nil]
    exact h.noPhi
  alive := by
    rw [e.terms, if_neg apart]
    exact h.alive

/-- A block to which some other block leads does not end in `unreachable`. -/
theorem Body.alive_of_edge (body : m.Body typed p) {q : BlockId}
    (owned : m.functionOf? q = some p.function) (edge : c ∈ m.successorsOf q) :
    m.terminator? c ≠ some .unreachable :=
  fun dead => (body.dead c dead).2 q owned edge

theorem Append.unjoined (body : m.Body typed p) (a : m.Append m' p.function c) :
    m'.Unjoined p.function c := by
  intro q owned edge
  have apart : q ≠ c := by
    rintro rfl
    rw [a.successorsOf_self] at edge
    cases edge
  rw [a.successorsOf] at edge
  rw [a.functionOf?_of_ne apart] at owned
  have := body.successor_owned owned edge
  rw [a.not_owned] at this
  cases this

theorem Unjoined.edit {slots : List (ValueId × IR.Ty)} {code : List Inst}
    {t : Option Terminator} (h : m.Unjoined f c) (e : m.Edit m' b slots code t)
    (isOpen : t ≠ none → m.terminator? b = none)
    (apart : ∀ u, t = some u → c ∉ u.successors) : m'.Unjoined f c := by
  intro q owned edge
  rw [e.owners] at owned
  rcases (e.successorsOf isOpen).1 edge with old | ⟨-, u, hu, hc⟩
  · exact h q owned old
  · exact apart u hu hc

theorem Unjoined.grown {loops pending : List BlockId} (h : m.Unjoined f c)
    (g : m.Grown f loops b m' pending) (held : c.index < m.blocks.size) (apart : c ∉ loops) :
    m'.Unjoined f c := by
  intro q owned edge
  rcases g.edges q c edge with old | new | loop
  · obtain ⟨k, hk⟩ := owner_of_mem_successorsOf old
    have same := g.ext.blocks q k hk
    rw [owned] at same
    cases same
    exact h q hk old
  · omega
  · exact apart loop

theorem Unjoined.close {slots : List (ValueId × IR.Ty)} {code : List Inst} {u : Terminator}
    (h : m.Unjoined f c) (e : m.Edit m' b slots code (some u))
    (isOpen : m.terminator? b = none) (leads : c ∈ u.successors) : m'.JoinedBy f b c := by
  intro q owned
  rw [e.owners] at owned
  rw [e.successorsOf fun _ => isOpen, or_iff_right (h q owned), and_iff_left]
  exact ⟨u, rfl, leads⟩

/-- A construct that begins at another block leads to no block that was there but its own and the
targets of the loops around it. -/
theorem JoinedBy.grown {q : BlockId} {loops pending : List BlockId} (h : m.JoinedBy f q c)
    (g : m.Grown f loops b m' pending) (owned : m.functionOf? q = some f)
    (held : c.index < m.blocks.size) (apart : q ≠ b) (outside : c ∉ loops) :
    m'.JoinedBy f q c := by
  intro q' owned'
  constructor
  · intro edge
    rcases g.edges q' c edge with old | new | loop
    · obtain ⟨k, hk⟩ := owner_of_mem_successorsOf old
      have same := g.ext.blocks q' k hk
      rw [owned'] at same
      cases same
      exact (h q' hk).1 old
    · omega
    · exact absurd loop outside
  · rintro rfl
    have kept := (g.keep q' (index_lt_of_functionOf? owned) apart).2
    rw [successorsOf_eq, kept, ← successorsOf_eq]
    exact (h q' owned).2 rfl

/-- A second block that leads there makes two of them. -/
theorem JoinedBy.close_br {q : BlockId} (h : m.JoinedBy f q c)
    (e : m.Edit m' b [] [] (some (.br c))) (isOpen : m.terminator? b = none)
    (first : m.functionOf? q = some f) (second : m.functionOf? b = some f) (d : BlockId) :
    d ∈ [q, b] ↔ m'.functionOf? d = some f ∧ c ∈ m'.successorsOf d := by
  have leads : c ∈ m'.successorsOf d ↔ c ∈ m.successorsOf d ∨ d = b := by
    rw [e.successorsOf fun _ => isOpen]
    simp [Terminator.successors]
  rw [e.owners, leads]
  constructor
  · intro mem
    rcases List.mem_cons.1 mem with rfl | mem
    · exact ⟨first, .inl ((h d first).2 rfl)⟩
    · obtain rfl := List.mem_singleton.1 mem
      exact ⟨second, .inr rfl⟩
  · rintro ⟨owned, edge | rfl⟩
    · obtain rfl := (h d owned).1 edge
      exact List.mem_cons_self
    · exact List.mem_cons_of_mem _ (List.mem_singleton_self _)

end IR.Module

theorem IR.Module.Waiting.header {m : Module} {there : List ValueId} (h : m.Waiting p there c) :
    m.Header p there c :=
  ⟨h.owned, h.inner, h.avail, by simp [h.empty], by simp [h.isOpen]⟩

/-- The loops around a construct have targets outside of it. -/
theorem Site.not_target (site : Site typed p s b)
    (new : s.target.module.blocks.size ≤ c.index) : c ∉ s.loops.blocks := by
  intro mem
  have := Module.index_lt_of_functionOf? (site.loops c mem).1.leads.1
  omega

namespace Reached

variable {p' : Plan} {s' : GenState Builder} {b' : BlockId}

theorem exit_ne (q : Reached typed p s b p' s' b' rest)
    (held : c.index < s.target.module.blocks.size) (apart : c ≠ b) : b' ≠ c := by
  rintro rfl
  rcases q.grown.region b' (by simp) with same | new
  · exact apart same
  · omega

theorem header {there : List ValueId} (q : Reached typed p s b p' s' b' rest)
    (h : s.target.module.Header p there c) (apart : c ≠ b) :
    s'.target.module.Header p' there c := by
  have held := Module.index_lt_of_functionOf? h.owned
  obtain ⟨code, term⟩ := q.grown.keep c held apart
  refine ⟨?_, by rw [q.plan.entry]; exact h.inner, (q.plan.avail c held).trans h.avail,
    by rw [code]; exact h.noPhi, by rw [term]; exact h.alive⟩
  rw [q.plan.function]
  exact q.grown.ext.blocks _ _ h.owned

/-- What could be used where the construct begins can be used there later too. -/
theorem operand_start {ty : IR.Ty} {v : ValueId} (q : Reached typed p s b p' s' b' rest)
    (h : Operand typed s.target.module p b ty v) : Operand typed s'.target.module p' b ty v := by
  obtain ⟨more, code, -⟩ := q.grown.here
  have sub : s.target.module.there p b ⊆ s'.target.module.there p' b := by
    intro w hw
    rw [Module.there, q.plan.avail b q.base.index_lt, code, defined_append, ← List.append_assoc]
    exact List.mem_append_left _ hw
  exact ⟨(Module.Usable.congr q.plan.function).2 (h.usable.mono q.grown.ext sub),
    fun t => (h.usable.typeOf q.grown.ext).trans (h.type t)⟩

theorem unjoined (q : Reached typed p s b p' s' b' rest)
    (h : s.target.module.Unjoined p.function c) (held : c.index < s.target.module.blocks.size)
    (apart : c ∉ s.loops.blocks) : s'.target.module.Unjoined p'.function c := by
  rw [q.plan.function]
  exact h.grown q.grown held apart

end Reached

end

/-- The block `b` has got its terminator, and the builder stands at the block `c`, in which there
is nothing yet. -/
structure Moved (typed : Prop) (p₀ : Plan) (s₀ : GenState Builder) (b₀ : BlockId) (p : Plan)
    (s : GenState Builder) (b : BlockId) (u : Terminator) (c : BlockId) (rest : List BlockId)
    (s' : GenState Builder) : Prop where
  reached : Reached typed p₀ s₀ b₀ p s' c rest
  edit : s.target.module.Edit s'.target.module b [] [] (some u)
  closed : s'.target.module.terminator? b = some u
  isOpen : s'.target.module.terminator? c = none
  empty : s'.target.module.codeOf c = []

/-- Of two blocks that the block `b` leads to, what is built in the first does not lead to the
second. -/
theorem Moved.joinedBy {typed : Prop} {p₀ p p' : Plan} {s₀ s s' s₁ : GenState Builder}
    {b₀ b b' c d : BlockId} {u : Terminator} {rest more : List BlockId}
    (moved : Moved typed p₀ s₀ b₀ p s b u c rest s') (site : Site typed p s b)
    (isOpen : s.target.module.terminator? b = none)
    (free : s.target.module.Unjoined p.function d) (leads : d ∈ u.successors) (waits : d ∈ rest)
    (apart : b ≠ c) (q : Reached typed p s' c p' s₁ b' more) :
    s₁.target.module.JoinedBy p.function b d := by
  obtain ⟨waiting, -, new⟩ := moved.reached.waiting d waits
  refine (free.close moved.edit isOpen leads).grown q.grown ?_
    (Module.index_lt_of_functionOf? waiting.owned) apart ?_
  · rw [moved.edit.owners]
    exact site.owned
  · rw [moved.reached.loops]
    exact moved.reached.base.not_target new

namespace Gen

variable {typed : Prop} {mc : MethodContext} {p₀ p : Plan} {s₀ s : GenState Builder}
  {b₀ b c : BlockId} {rest : List BlockId} {E : CompileError → Prop}

theorem ends_appendBlock (r : Reached typed p₀ s₀ b₀ p s b rest) (serves : mc.Serves p)
    (hint : String) :
    Ends (appendBlock mc hint) s (fun c s' =>
      Reached typed p₀ s₀ b₀ (p.rely c (s₀.target.module.there p₀ b₀)) s' b (rest ++ [c]) ∧
        s.target.module.Append s'.target.module p.function c) E := by
  apply ends_emit
  obtain ⟨a, here⟩ := s.target.appendBlock_append p.function hint
  rw [← serves.function]
  exact ⟨r.append (here.trans r.site.here) a, a⟩

theorem ends_terminate (r : Reached typed p₀ s₀ b₀ p s b rest)
    (isOpen : s.target.module.terminator? b = none) {u : Terminator}
    (closes : s.target.module.Closes typed p b (s.target.module.there p b) u)
    (joins : ∀ d ∈ u.successors, d ∈ s₀.loops.blocks ∨
      s₀.target.module.blocks.size ≤ d.index) :
    Ends (emit (.terminate u)) s (fun _ s' => Reached typed p₀ s₀ b₀ p s' b rest ∧
      s.target.module.Edit s'.target.module b [] [] (some u) ∧
      s'.target.module.terminator? b = some u) E := by
  apply ends_emit
  have e := (r.site.stands isOpen).close u
  obtain ⟨reached, closed⟩ :=
    r.close isOpen ((Builder.insertion_extend ..).trans r.site.here) e closes joins
  exact ⟨reached, e, closed⟩

/-- The builder leaves a closed block for one in which there is nothing yet. -/
theorem ends_position (r : Reached typed p₀ s₀ b₀ p s b (c :: rest))
    (closed : s.target.module.terminator? b ≠ none) :
    Ends (emit (.positionAtEnd c)) s (fun _ s' => Reached typed p₀ s₀ b₀ p s' c rest ∧
      s'.target.module = s.target.module ∧ s'.target.module.terminator? c = none ∧
      s'.target.module.codeOf c = []) E :=
  have waiting := (r.waiting c List.mem_cons_self).1
  ends_emit ⟨r.position closed, rfl, waiting.isOpen, waiting.empty⟩

/-- The block is closed, and the builder goes on at the first of those that wait. -/
theorem ends_goOn {β : Type} {u : Terminator} {k : Gen Builder β} {R : β → GenState Builder → Prop}
    (r : Reached typed p₀ s₀ b₀ p s b (c :: rest))
    (isOpen : s.target.module.terminator? b = none)
    (closes : s.target.module.Closes typed p b (s.target.module.there p b) u)
    (joins : ∀ d ∈ u.successors, d ∈ s₀.loops.blocks ∨ s₀.target.module.blocks.size ≤ d.index)
    (next : ∀ s', Moved typed p₀ s₀ b₀ p s b u c rest s' → Ends k s' R E) :
    Ends (do
      emit (.terminate u)
      emit (.positionAtEnd c)
      k) s R E := by
  refine ends_bind (ends_terminate r isOpen closes joins) ?_
  rintro _ s₁ ⟨r₁, e₁, closed₁⟩
  refine ends_bind (ends_position r₁ (by simp [closed₁])) ?_
  rintro _ s₂ ⟨r₂, same₂, open₂, empty₂⟩
  refine next s₂ ⟨r₂, ?_, ?_, open₂, empty₂⟩
  · rw [same₂]
    exact e₁
  · rw [same₂]
    exact closed₁

/-- Afterwards the block is closed; it leads to the target if it was open before. -/
theorem ends_branchIfOpen (r : Reached typed p₀ s₀ b₀ p s b rest)
    (joinable : s.target.module.Joinable p (s.target.module.there p b) c)
    (new : s₀.target.module.blocks.size ≤ c.index) :
    Ends (branchIfOpen c) s (fun fell s' => Reached typed p₀ s₀ b₀ p s' b rest ∧
      s'.target.module.terminator? b ≠ none ∧ s'.scopes = s.scopes ∧
      s.target.module.Edit s'.target.module b [] [] (if fell then some (.br c) else none) ∧
      fell = (s.target.module.terminator? b).isNone ∧ (fell = false → s' = s)) E := by
  apply ends_isTerminated
  rw [show Target.isTerminated s.target = _ from r.site.isTerminated]
  cases h : s.target.module.terminator? b with
  | some u =>
    refine ends_pure ⟨r, by simp [h], rfl, ?_, rfl, fun _ => rfl⟩
    exact Module.edit_values (List.prefix_refl _) (List.prefix_refl _) (.of_eq rfl)
  | none =>
    refine ends_bind (ends_terminate r h joinable.closes_br fun d hd => ?_) ?_
    · obtain rfl : d = c := by simpa [Terminator.successors] using hd
      exact .inr new
    · rintro _ s' ⟨reached, e, closed⟩
      exact ends_pure ⟨reached, by simp [closed], reached.scopes.trans r.scopes.symm, e, rfl,
        nofun⟩

end Gen

end Decaf
