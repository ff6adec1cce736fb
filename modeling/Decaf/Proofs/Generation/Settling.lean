import Decaf.Proofs.Generation.Branches
import Decaf.Proofs.Generation.Shape

/-!
# What becomes of code

While a function is built further its blocks are extended but never changed, and a block
that has its terminator stays as it is. So what is known about code at one moment of
building still holds when the function is finished. `Settles` says this of a moment and a
later module; it is traced back from the end through all that was built: through one command,
through a block that is closed, and from a block that waited to the one that was left for it.
-/

namespace Decaf

open IR

namespace IR.Module

/-- The module `M` is what comes of `m` when building goes on from the block `b` of `f`. -/
structure Settles (m : Module) (f : FunctionId) (b : BlockId) (M : Module) : Prop where
  ext : m.Extends M
  code : ∀ c, m.functionOf? c = some f → ∃ more, M.codeOf c = m.codeOf c ++ more ∧
    (c = b → ∀ i ∈ more, i.isPhi = false)
  closed : ∀ c t, m.functionOf? c = some f → m.terminator? c = some t →
    M.terminator? c = some t ∧ M.codeOf c = m.codeOf c

namespace Settles

variable {m m' M : Module} {f : FunctionId} {b b' c : BlockId}

/-- Back through an edit of an open block, or one that adds only slots and values. -/
theorem edit {slots : List (ValueId × Ty)} {code : List Inst} {t : Option Terminator}
    (h : m'.Settles f b M) (e : m.Edit m' c slots code t)
    (isOpen : code ≠ [] ∨ t ≠ none → m.terminator? c = none)
    (noPhi : ∀ i ∈ code, i.isPhi = false) : m.Settles f b M where
  ext := e.ext.trans h.ext
  code d owned := by
    obtain ⟨more, eq, plain⟩ := h.code d ((e.owners d).trans owned)
    rw [e.code, List.append_assoc] at eq
    refine ⟨_, eq, fun here i hi => ?_⟩
    rcases List.mem_append.1 hi with added | later
    · split at added
      · exact noPhi i added
      · cases added
    · exact plain here i later
  closed d u owned closed := by
    have kept : m'.codeOf d = m.codeOf d ∧ m'.terminator? d = some u := by
      rw [e.code, e.terms]
      split
      · rename_i same
        subst same
        have fixed (changed : code ≠ [] ∨ t ≠ none) : False := by
          rw [isOpen changed] at closed
          cases closed
        have unchanged : code = [] ∧ t = none :=
          ⟨Decidable.not_not.1 fun h => fixed (.inl h), Decidable.not_not.1 fun h => fixed (.inr h)⟩
        simp [unchanged, closed]
      · simp [closed]
    obtain ⟨term, code⟩ := h.closed d u ((e.owners d).trans owned) kept.2
    exact ⟨term, code.trans kept.1⟩

theorem append (h : m'.Settles f b M) (a : m.Append m' f c) : m.Settles f b M where
  ext := a.ext.trans h.ext
  code d owned := by
    obtain ⟨more, eq, plain⟩ := h.code d (a.ext.blocks d f owned)
    exact ⟨more, by rw [eq, a.codeOf], plain⟩
  closed d u owned closed := by
    obtain ⟨term, code⟩ := h.closed d u (a.ext.blocks d f owned) ((a.terminator? d).trans closed)
    exact ⟨term, code.trans (a.codeOf d)⟩

theorem appends (h : m'.Settles f b M) (a : m.Appends f m') : m.Settles f b M := by
  induction a with
  | refl => exact h
  | append _ a ih => exact ih (h.append a)

/-- Back to a block that was closed when building went on elsewhere. -/
theorem position (h : m.Settles f c M) (owned : m.functionOf? b = some f)
    (closed : m.terminator? b ≠ none) : m.Settles f b M where
  ext := h.ext
  code d hd := by
    obtain ⟨more, eq, -⟩ := h.code d hd
    refine ⟨more, eq, ?_⟩
    rintro rfl
    obtain ⟨t, ht⟩ := Option.ne_none_iff_exists'.1 closed
    have same := (h.closed d t owned ht).2
    rw [eq] at same
    rw [List.append_cancel_left (same.trans (List.append_nil _).symm)]
    simp
  closed := h.closed

/-- Back through whatever was put into a block that is still empty. -/
theorem fill {code : List Inst} (h : m'.Settles f c M) (e : m.Edit m' c [] code none)
    (isOpen : m.terminator? c = none) (owned : m.functionOf? b = some f)
    (closed : m.terminator? b ≠ none) : m.Settles f b M := by
  have apart : b ≠ c := by
    rintro rfl
    exact closed isOpen
  have back : m'.Settles f b M := by
    refine h.position ((e.owners b).trans owned) ?_
    rw [e.terms, if_neg apart]
    exact closed
  exact {
    ext := e.ext.trans back.ext
    code := fun d hd => by
      obtain ⟨more, eq, plain⟩ := back.code d ((e.owners d).trans hd)
      rw [e.code, List.append_assoc] at eq
      refine ⟨_, eq, fun here => ?_⟩
      subst here
      rw [if_neg apart]
      exact plain rfl
    closed := fun d u hd closed => by
      have other : d ≠ c := by
        rintro rfl
        rw [isOpen] at closed
        cases closed
      have term : m'.terminator? d = some u := by
        rw [e.terms, if_neg other, closed]
      have same : m'.codeOf d = m.codeOf d := by
        rw [e.code, if_neg other, List.append_nil]
      obtain ⟨term, code⟩ := back.closed d u ((e.owners d).trans hd) term
      exact ⟨term, code.trans same⟩ }

/-- Back through a whole construct. -/
theorem grown {loops rest : List BlockId} (h : m'.Settles f b' M)
    (g : m.Grown f loops b m' (b' :: rest)) (owned : m.functionOf? b = some f)
    (isOpen : m.terminator? b = none) (new : ∀ c ∈ rest, m.blocks.size ≤ c.index) :
    m.Settles f b M where
  ext := g.ext.trans h.ext
  code d hd := by
    obtain ⟨more, eq, plain⟩ := h.code d (g.ext.blocks d f hd)
    by_cases here : d = b
    · subst here
      obtain ⟨added, code, plain'⟩ := g.here
      refine ⟨added ++ more, by rw [eq, code, List.append_assoc], fun _ i hi => ?_⟩
      rcases List.mem_append.1 hi with old | later
      · exact plain' i old
      by_cases same : d = b'
      · exact plain same i later
      -- the block was left and so is closed
      · have closed : m'.terminator? d ≠ none := by
          intro still
          rcases g.opens d (g.ext.blocks d f owned) still with mem | ⟨other, -⟩
          · have held := index_lt_of_functionOf? owned
            rcases List.mem_cons.1 mem with same' | waits
            · exact same same'
            · have := new d waits
              omega
          · exact other rfl
        obtain ⟨t, ht⟩ := Option.ne_none_iff_exists'.1 closed
        have kept := (h.closed d t (g.ext.blocks d f owned) ht).2
        rw [eq] at kept
        rw [List.append_cancel_left (kept.trans (List.append_nil _).symm)] at later
        cases later
    · have held := index_lt_of_functionOf? hd
      exact ⟨more, by rw [eq, (g.keep d held here).1], fun same => absurd same here⟩
  closed d u hd closed := by
    have here : d ≠ b := by
      rintro rfl
      rw [isOpen] at closed
      cases closed
    obtain ⟨code, term⟩ := g.keep d (index_lt_of_functionOf? hd) here
    obtain ⟨term', code'⟩ := h.closed d u (g.ext.blocks d f hd) (term.trans closed)
    exact ⟨term', code'.trans code⟩

/-- A block that is still empty when building goes on there gets no phi. -/
theorem plain (h : m.Settles f b M) (owned : m.functionOf? b = some f)
    (empty : m.codeOf b = []) : Shape.Plain M b := by
  obtain ⟨more, eq, plain⟩ := h.code b owned
  rw [empty, List.nil_append] at eq
  rw [Shape.Plain, eq]
  exact plain rfl

theorem exits (h : m.Settles f b M) (owned : m.functionOf? c = some f) {t : Terminator}
    (closed : m.terminator? c = some t) (values : Nat) :
    Shape.Exits M ⟨c, m.codeOf c, values⟩ t :=
  ⟨(h.closed c t owned closed).2, (h.closed c t owned closed).1⟩

end Settles

end IR.Module

/-- The place at the end of a block. -/
def GenState.place (s : GenState Builder) (b : BlockId) : Place :=
  ⟨b, s.target.module.codeOf b, s.target.module.values.size⟩

/-- The place at the end of a block, unless it is closed. -/
def GenState.exit (s : GenState Builder) (b : BlockId) : Option Place :=
  if s.target.module.terminator? b = none then some (s.place b) else none

section

variable {s : GenState Builder} {b : BlockId}

theorem GenState.exit_open (isOpen : s.target.module.terminator? b = none) :
    s.exit b = some (s.place b) :=
  if_pos isOpen

theorem GenState.exit_closed (closed : s.target.module.terminator? b ≠ none) :
    s.exit b = none :=
  if_neg closed

/-- The block in which a construct goes on, at its start. -/
theorem GenState.place_start (empty : s.target.module.codeOf b = []) :
    s.place b = .start b s.target.module.values.size := by
  rw [place, empty]
  rfl

end

theorem Reached.settles {p₀ p : Plan} {s₀ s : GenState Builder} {b₀ b : BlockId}
    {rest : List BlockId} {typed : Prop} (r : Reached typed p₀ s₀ b₀ p s b rest)
    (isOpen : s₀.target.module.terminator? b₀ = none) {f : FunctionId} (hf : p₀.function = f)
    {M : Module} (h : s.target.module.Settles f b M) : s₀.target.module.Settles f b₀ M := by
  subst hf
  exact h.grown r.grown r.base.owned isOpen fun c hc => (r.waiting c hc).2.2

theorem Reached.values_le {p₀ p : Plan} {s₀ s : GenState Builder} {b₀ b : BlockId}
    {rest : List BlockId} {typed : Prop} (r : Reached typed p₀ s₀ b₀ p s b rest) :
    s₀.target.module.values.size ≤ s.target.module.values.size :=
  r.grown.ext.size_le

namespace Gen

variable {α : Type}

/-- Two things that hold of one run. -/
theorem Ends.and {x : Gen Builder α} {s : GenState Builder} {P Q : α → GenState Builder → Prop}
    {E : CompileError → Prop} (h : Ends x s P E) (k : Ends x s Q fun _ => True) :
    Ends x s (fun a s' => P a s' ∧ Q a s') E := by
  unfold Ends at h k ⊢
  split <;> simp_all only [and_self]

/-- As far as errors do not matter. -/
theorem Ends.lax {x : Gen Builder α} {s : GenState Builder} {P : α → GenState Builder → Prop}
    {E : CompileError → Prop} (h : Ends x s P E) : Ends x s P fun _ => True :=
  h.mono (fun _ _ h => h) fun _ _ => trivial

theorem ends_emit_of {r : Reply} {c : Command r} {s : GenState Builder}
    {P : r.Carrier → GenState Builder → Prop} {E : CompileError → Prop} {out : r.Carrier × Builder}
    (perform : s.target.perform c = out) (h : P out.1 { s with target := out.2 }) :
    Ends (emit c) s P E := by
  subst perform
  exact ends_emit h

theorem Ends.imp {x : Gen Builder α} {s : GenState Builder} {P Q : α → GenState Builder → Prop}
    {E : CompileError → Prop} (h : Ends x s P E) (value : ∀ a s', P a s' → Q a s') :
    Ends x s Q E :=
  h.mono value fun _ h => h

/-- One more instruction where the builder stands, and a way back. -/
structure Puts (f : FunctionId) (s : GenState Builder) (b : BlockId) (i : Inst)
    (s' : GenState Builder) : Prop where
  stands : s'.target.StandsAt b f
  values : s.target.module.values.size ≤ s'.target.module.values.size
  ext : s.target.module.Extends s'.target.module
  code : s'.target.module.codeOf b = s.target.module.codeOf b ++ [i]
  scopes : s'.scopes = s.scopes
  settles : ∀ M, s'.target.module.Settles f b M → s.target.module.Settles f b M

namespace Puts

variable {f : FunctionId} {s s' : GenState Builder} {b : BlockId} {i : Inst} {M : Module}

theorem of_edit (at_ : s.target.StandsAt b f) {t : Builder} (here : t.insertion = some b)
    (e : s.target.module.Edit t.module b [] [i] none) (plain : i.isPhi = false) :
    Puts f s b i { s with target := t } where
  stands := ⟨here, (e.owners b).trans at_.owned, by rw [e.terms, if_pos rfl, at_.isOpen]; rfl⟩
  values := e.ext.size_le
  ext := e.ext
  code := by
    have := e.code b
    rwa [if_pos rfl] at this
  scopes := rfl
  settles M h := h.edit e (fun _ => at_.isOpen) (by simpa using plain)

theorem does (q : Puts f s b i s') (h : s'.target.module.Settles f b M) :
    Shape.Does M (s.place b) i (s'.place b) where
  next := by
    obtain ⟨more, eq, -⟩ := h.code b q.stands.owned
    refine ⟨more, ?_⟩
    show M.codeOf b = s.target.module.codeOf b ++ i :: more
    rw [eq, q.code, List.append_assoc, List.singleton_append]
  block := rfl
  before := q.code
  values := q.values

end Puts

variable {f : FunctionId} {s : GenState Builder} {b : BlockId} {E : CompileError → Prop}

/-- A command that emits one instruction with a new value. -/
theorem puts_emit (at_ : s.target.StandsAt b f) {c : Command .value} (found : IR.Ty)
    (hint : String) (inst : ValueId → Inst)
    (perform : s.target.perform c = s.target.emit found hint inst)
    (plain : ∀ v, (inst v).isAlloca = false ∧ (inst v).isPhi = false) :
    Ends (emit c) s (fun v s' => Puts f s b (inst v) s' ∧ v.index < s'.target.module.values.size ∧
      ∀ M, s'.target.module.Settles f b M → Shape.Emits M (s.place b) v (inst v) (s'.place b))
      E := by
  refine ends_emit_of perform ?_
  obtain ⟨id, here, e, name, value⟩ := at_.emit found hint inst fun v => (plain v).1
  rw [id]
  have puts := Puts.of_edit at_ here e (plain _).2
  have held := (Array.getElem?_eq_some_iff.1 value).1
  exact ⟨puts, held, fun M h => ⟨puts.does h, Nat.le_refl _, held⟩⟩

theorem puts_store (at_ : s.target.StandsAt b f) (v a : ValueId) :
    Ends (emit (.store v a)) s (fun _ s' => Puts f s b (.store v a) s') E :=
  ends_emit (Puts.of_edit at_ ((Builder.insertion_extend ..).trans at_.here)
    (at_.push (i := .store v a) rfl) rfl)

theorem ends_emit_constant (at_ : s.target.StandsAt b f) (c : Const) :
    Ends (emit (.const c)) s (fun v s' => s'.target.StandsAt b f ∧ s'.scopes = s.scopes ∧
      s.target.module.Extends s'.target.module ∧
      ∀ M, s'.target.module.Settles f b M → s.target.module.Settles f b M ∧
        Shape.Constant M c (s.place b) v (s'.place b)) E := by
  apply ends_emit
  obtain ⟨e, value⟩ := s.target.edit_pushValue b ⟨c.ty, .const c, none⟩
  refine ⟨⟨at_.here, (e.owners b).trans at_.owned, (e.terms b).trans (by simp [at_.isOpen])⟩, rfl,
    e.ext, fun M h => ⟨h.edit e (by simp) (by simp), ⟨rfl, ?_, e.ext.size_le⟩,
      ⟨none, h.ext.value? value⟩, ?_⟩⟩
  · exact (e.code b).trans (by simp [GenState.place])
  · exact (Array.getElem?_eq_some_iff.1 value).1

theorem ends_emit_text (at_ : s.target.StandsAt b f) (text : String) :
    Ends (emit (.globalString text)) s (fun v s' => s'.target.insertion = some b ∧
      ∀ M, s'.target.module.Settles f b M → Shape.Text M text (s.place b) v (s'.place b)) E := by
  apply ends_emit
  have e := s.target.edit_pushString b ".str" text.toUTF8.toList
  have isGlobal := s.target.isGlobal_pushGlobal ".str" (.string text.toUTF8.toList)
  refine ⟨at_.here, fun M h => ⟨⟨rfl, (e.code b).trans (by simp [GenState.place]), e.ext.size_le⟩,
    isGlobal.mono h.ext, ?_⟩⟩
  obtain ⟨g, name, G, value, -⟩ := isGlobal
  exact (Array.getElem?_eq_some_iff.1 value).1

/-- Where an integer is wanted a truth value is widened. -/
theorem ends_coerced (at_ : s.target.StandsAt b f) (v : ValueId) (wanted : Decaf.Ty)
    (held : v.index < s.target.module.values.size) :
    Ends (coerce v wanted) s (fun w s' => s'.target.StandsAt b f ∧ s'.scopes = s.scopes ∧
      s.target.module.Extends s'.target.module ∧ w.index < s'.target.module.values.size ∧
      ∀ M, s'.target.module.Settles f b M → s.target.module.Settles f b M ∧
        Shape.coerce M wanted (s.place b) v w (s'.place b)) E := by
  have recorded (M : Module) (h : s.target.module.Settles f b M) :
      M.typeOf v = s.target.module.typeOf v :=
    h.ext.typeOf (Array.getElem?_eq_getElem held)
  apply ends_typeOf
  split
  · rename_i widened
    refine (puts_emit at_ .i32 "zext" (fun dst => .zext dst v .i32) rfl
      fun _ => ⟨rfl, rfl⟩).mono ?_ fun _ h => h
    rintro w s' ⟨puts, held', emits⟩
    refine ⟨puts.stands, puts.scopes, puts.ext, held', fun M h => ⟨puts.settles M h, ?_⟩⟩
    rw [Shape.coerce, recorded M (puts.settles M h)]
    exact (if_pos widened).mpr (emits M h)
  · rename_i kept
    refine ends_pure ⟨at_, rfl, .refl _, held, fun M h => ⟨h, ?_⟩⟩
    rw [Shape.coerce, recorded M h]
    exact (if_neg kept).mpr ⟨rfl, rfl⟩

/-- The terminator of the block at which the builder stands. -/
theorem ends_emit_terminator {f : FunctionId} {s : GenState Builder} {b : BlockId}
    (at_ : s.target.StandsAt b f) (t : Terminator) :
    Ends (emit (.terminate t)) s (fun _ s' => s'.target.insertion = some b ∧
      s'.target.module.terminator? b = some t ∧ ∀ M, s'.target.module.Settles f b M →
        s.target.module.Settles f b M ∧ Shape.Exits M (s.place b) t) E := by
  apply ends_emit
  have e := at_.close t
  have closed : (s.target.extend (Block.close t)).module.terminator? b = some t := by
    rw [e.terms, if_pos rfl]
    rfl
  refine ⟨(Builder.insertion_extend ..).trans at_.here, closed, fun M h => ?_⟩
  have exits : Shape.Exits M ⟨b, (s.target.extend (Block.close t)).module.codeOf b,
      s.target.module.values.size⟩ t :=
    h.exits ((e.owners b).trans at_.owned) closed s.target.module.values.size
  rw [e.code, if_pos rfl, List.append_nil] at exits
  exact ⟨h.edit e (fun _ => at_.isOpen) (by simp), exits⟩

/-- Building has moved from a closed block to the start of one that was waiting. -/
structure Moves (mc : MethodContext) (s : GenState Builder) (b : BlockId) (s' : GenState Builder)
    (c : BlockId) : Prop where
  same : s'.target.module = s.target.module
  isOpen : s'.target.module.terminator? c = none
  empty : s'.target.module.codeOf c = []
  settles : ∀ M, s'.target.module.Settles mc.function c M →
    s.target.module.Settles mc.function b M ∧ Shape.Plain M c

section

variable {mc : MethodContext} {p₀ p : Plan} {s₀ s s' : GenState Builder} {b₀ b c : BlockId}
  {rest : List BlockId} (r : Reached False p₀ s₀ b₀ p s b rest)

theorem Moves.values_le (h : Moves mc s b s' c) :
    s.target.module.values.size ≤ s'.target.module.values.size :=
  Nat.le_of_eq (by rw [h.same])

theorem ends_moves (r : Reached False p₀ s₀ b₀ p s b (c :: rest)) (serves : mc.Serves p₀)
    (closed : s.target.module.terminator? b ≠ none) :
    Ends (emit (.positionAtEnd c)) s
      (fun _ s' => Reached False p₀ s₀ b₀ p s' c rest ∧ Moves mc s b s' c) E := by
  obtain ⟨waiting, -, -⟩ := r.waiting c List.mem_cons_self
  have owned {d : BlockId} (h : s.target.module.functionOf? d = some p.function) :
      s.target.module.functionOf? d = some mc.function :=
    (serves.refines r.plan).function ▸ h
  refine (ends_position r closed).imp ?_
  rintro _ s' ⟨r', same, isOpen, empty⟩
  refine ⟨r', same, isOpen, empty, fun M h => ?_⟩
  rw [same] at h
  exact ⟨h.position (owned r.site.owned) closed, h.plain (owned waiting.owned) waiting.empty⟩

include r

/-- The block is closed with a terminator. -/
theorem ends_exits (serves : mc.Serves p₀) (isOpen : s.target.module.terminator? b = none)
    {u : Terminator} (closes : s.target.module.Closes False p b (s.target.module.there p b) u)
    (joins : ∀ d ∈ u.successors, d ∈ s₀.loops.blocks ∨ s₀.target.module.blocks.size ≤ d.index) :
    Ends (emit (.terminate u)) s (fun _ s' => Reached False p₀ s₀ b₀ p s' b rest ∧
      s'.target.module.terminator? b ≠ none ∧ s.target.module.Extends s'.target.module ∧
      ∀ M, s'.target.module.Settles mc.function b M →
        s.target.module.Settles mc.function b M ∧ Shape.Exits M (s.place b) u) E := by
  have at_ := (serves.refines r.plan).function ▸ r.site.stands isOpen
  refine ((ends_terminate r isOpen closes joins).and (ends_emit_terminator at_ u)).imp ?_
  rintro _ s' ⟨⟨r', e, closed⟩, -, -, exits⟩
  exact ⟨r', by simp [closed], e.ext, exits⟩

/-- Whatever was open before now leads to the block. -/
theorem ends_falls (serves : mc.Serves p₀)
    (joinable : s.target.module.Joinable p (s.target.module.there p b) c)
    (new : s₀.target.module.blocks.size ≤ c.index) :
    Ends (branchIfOpen c) s (fun fell s' => Reached False p₀ s₀ b₀ p s' b rest ∧
      s'.target.module.terminator? b ≠ none ∧
      s.target.module.Edit s'.target.module b [] [] (if fell then some (.br c) else none) ∧
      (fell = false ↔ s.exit b = none) ∧ ∀ M, s'.target.module.Settles mc.function b M →
        s.target.module.Settles mc.function b M ∧ Shape.Falls M (s.exit b) c) E := by
  have owned : s.target.module.functionOf? b = some mc.function :=
    (serves.refines r.plan).function ▸ r.site.owned
  refine (ends_branchIfOpen r joinable new).imp ?_
  rintro fell s' ⟨r', closed, -, e, same, -⟩
  refine ⟨r', closed, e, ?_⟩
  cases isOpen : s.target.module.terminator? b with
  | some t =>
    obtain rfl : fell = false := by simpa [isOpen] using same
    rw [GenState.exit_closed (by simp [isOpen])]
    exact ⟨by simp, fun M h => ⟨h.edit e (by simp) (by simp), fun y hy => by cases hy⟩⟩
  | none =>
    obtain rfl : fell = true := by simpa [isOpen] using same
    rw [GenState.exit_open isOpen]
    refine ⟨by simp, fun M h => ⟨h.edit e (fun _ => isOpen) (by simp), fun y hy => ?_⟩⟩
    cases hy
    have closed : s'.target.module.terminator? b = some (.br c) := by
      rw [e.terms, if_pos rfl]
      rfl
    have exits := h.exits ((e.owners b).trans owned) closed s.target.module.values.size
    rw [e.code, if_pos rfl, List.append_nil] at exits
    exact exits

end

end Gen

end Decaf
