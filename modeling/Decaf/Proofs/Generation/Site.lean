import Decaf.Compile.Program
import Decaf.Proofs.Generation.Commands
import Decaf.Proofs.Generation.Growth

/-!
# Sites

A site is a state of code generation together with the block at which the builder stands:
what is known about the body holds, every name in scope stands for something in the module,
and the targets of all loops can be joined. `Reached` says that one site was reached from
another inside one construct, with some blocks still waiting to be filled.
-/

namespace Decaf

open IR

/-- What the descriptor says is true of the module. -/
def Descriptor.Fits (m : Module) (p : Plan) (d : Descriptor) : Prop :=
  match d.handle with
  | .slot a => d.kind.isVariable = true ∧ m.IsSlot p a d.ty.repr
  | .array base _ => d.kind.isVariable = true ∧
    ∃ length, m.IsGlobal base (.array d.ty.repr length)
  | .function id params => d.kind = .function ∧ ∃ F, m.function? id = some F ∧
    F.ret = d.ty.repr ∧ F.params.map (·.ty) = params.map fun q => q.2.repr

def ScopeStack.Fits (m : Module) (p : Plan) (s : ScopeStack) : Prop :=
  ∀ bindings ∈ s.scopes, ∀ x ∈ bindings, x.2.Fits m p

/-- The blocks to which jumps can go. -/
def LoopStack.blocks (s : LoopStack) : List BlockId :=
  s.loops.flatMap fun t => [t.onContinue, t.onBreak]

namespace IR.Module

/-- The values that are defined at the end of a block. -/
def there (m : Module) (p : Plan) (b : BlockId) : List ValueId :=
  p.avail b ++ defined (m.codeOf b)

/-- The block was appended for later and is still empty. -/
structure Waiting (m : Module) (p : Plan) (there : List ValueId) (c : BlockId) : Prop where
  owned : m.functionOf? c = some p.function
  inner : c ≠ p.entry
  empty : m.codeOf c = []
  isOpen : m.terminator? c = none
  avail : p.avail c = there

end IR.Module

structure Site (typed : Prop) (p : Plan) (s : GenState Builder) (b : BlockId) : Prop where
  body : s.target.module.Body typed p
  here : s.target.insertion = some b
  owned : s.target.module.functionOf? b = some p.function
  scopes : s.scopes.Fits s.target.module p
  loops : ∀ c ∈ s.loops.blocks,
    s.target.module.Joinable p (s.target.module.there p b) c ∧ c ≠ b

/-- The second plan is the first with further blocks. -/
structure IR.Plan.Refines (q p : Plan) (blocks : Nat) : Prop where
  function : q.function = p.function
  ret : q.ret = p.ret
  entry : q.entry = p.entry
  avail : ∀ b : BlockId, b.index < blocks → q.avail b = p.avail b

/-- From the site given first the second was reached, and the blocks `rest` wait. -/
structure Reached (typed : Prop) (p₀ : Plan) (s₀ : GenState Builder) (b₀ : BlockId) (p : Plan)
    (s : GenState Builder) (b : BlockId) (rest : List BlockId) : Prop where
  base : Site typed p₀ s₀ b₀
  site : Site typed p s b
  grown : s₀.target.module.Grown p₀.function s₀.loops.blocks b₀ s.target.module (b :: rest)
  scopes : s.scopes = s₀.scopes
  loops : s.loops = s₀.loops
  plan : p.Refines p₀ s₀.target.module.blocks.size
  there : s₀.target.module.there p₀ b₀ ⊆ s.target.module.there p b
  waiting : ∀ c ∈ rest, s.target.module.Waiting p (s₀.target.module.there p₀ b₀) c ∧ c ≠ b ∧
    s₀.target.module.blocks.size ≤ c.index
  nodup : rest.Nodup

section

variable {typed : Prop} {m m' : Module} {p p₀ p' : Plan} {s s₀ s' : GenState Builder}
  {b b₀ b' : BlockId} {rest : List BlockId}

theorem Descriptor.Fits.mono (ext : m.Extends m') {d : Descriptor} (h : d.Fits m p) :
    d.Fits m' p := by
  unfold Descriptor.Fits at h ⊢
  split at h
  · exact ⟨h.1, h.2.mono ext⟩
  · obtain ⟨kind, length, isGlobal⟩ := h
    exact ⟨kind, length, isGlobal.mono ext⟩
  · obtain ⟨kind, F, hF, ret, params⟩ := h
    obtain ⟨F', hF', -, ret', params'⟩ := ext.functions _ F hF
    exact ⟨kind, F', hF', ret'.trans ret, by rw [params', params]⟩

theorem ScopeStack.Fits.mono (ext : m.Extends m') {scopes : ScopeStack}
    (h : scopes.Fits m p) : scopes.Fits m' p :=
  fun bindings hb x hx => (h bindings hb x hx).mono ext

theorem Descriptor.Fits.congr (entry : p'.entry = p.entry) {d : Descriptor} (h : d.Fits m p) :
    d.Fits m p' := by
  unfold Descriptor.Fits at h ⊢
  split at h
  · exact ⟨h.1, by rw [Module.IsSlot, entry]; exact h.2⟩
  · exact h
  · exact h

theorem ScopeStack.Fits.congr (entry : p'.entry = p.entry) {scopes : ScopeStack}
    (h : scopes.Fits m p) : scopes.Fits m p' :=
  fun bindings hb x hx => (h bindings hb x hx).congr entry

theorem ScopeStack.Fits.lookup {scopes : ScopeStack} (h : scopes.Fits m p) {name : String}
    {d : Descriptor} (found : scopes.lookup name = some d) : d.Fits m p := by
  obtain ⟨bindings, hb, hd⟩ := List.exists_of_findSome?_eq_some found
  obtain ⟨before, after, rfl, -⟩ := List.lookup_eq_some_iff.1 hd
  exact h _ hb (name, d) (by simp)

theorem ScopeStack.Fits.push {scopes : ScopeStack} (h : scopes.Fits m p) :
    scopes.push.Fits m p := by
  intro bindings hb x hx
  rcases List.mem_cons.1 hb with rfl | hb
  · cases hx
  · exact h bindings hb x hx

theorem ScopeStack.Fits.add {scopes : ScopeStack} (h : scopes.Fits m p) {name : String}
    {d : Descriptor} (fits : d.Fits m p) : (scopes.add name d).Fits m p := by
  obtain ⟨package, inner⟩ := scopes
  cases inner with
  | nil =>
    intro bindings hb x hx
    obtain rfl : bindings = (name, d) :: package := by
      simpa [ScopeStack.add, ScopeStack.scopes] using hb
    rcases List.mem_cons.1 hx with rfl | hx
    · exact fits
    · exact h package (by simp [ScopeStack.scopes]) x hx
  | cons first outer =>
    intro bindings hb x hx
    rcases List.mem_cons.1 hb with rfl | hb
    · rcases List.mem_cons.1 hx with rfl | hx
      · exact fits
      · exact h first (by simp [ScopeStack.scopes]) x hx
    · exact h bindings (List.mem_cons_of_mem _ hb) x hx

namespace IR.Module

theorem there_prefix (code : m.codeOf b <+: m'.codeOf b) : m.there p b ⊆ m'.there p b := by
  obtain ⟨more, eq⟩ := code
  intro v hv
  rw [there, ← eq, defined_append, ← List.append_assoc]
  exact List.mem_append_left _ hv

/-- Whatever is defined at the end of a block belongs to the function. -/
theorem Body.owner_of_there (body : m.Body typed p) (owned : m.functionOf? b = some p.function)
    {v : ValueId} (hv : v ∈ m.there p b) : m.owner? v = some p.function := by
  rcases List.mem_append.1 hv with avail | own
  · exact body.avail b owned v avail
  · obtain ⟨i, hi, hd⟩ := List.mem_filterMap.1 own
    obtain ⟨pre, post, code⟩ := List.append_of_mem hi
    have defines : ∃ ty, m.Defines p b v ty := by
      rcases body.insts b owned pre i post code with ok | phi
      · cases i <;> simp only [Inst.defined?, Option.some.injEq] at hd
        case alloca => cases ok
        case load => exact ⟨_, hd ▸ ok.1⟩
        case store => cases hd
        case elementPtr => exact ⟨_, hd ▸ ok.1⟩
        case binary => exact ⟨_, hd ▸ ok.1⟩
        case unary => exact ⟨_, hd ▸ ok.1⟩
        case zext => exact ⟨_, hd ▸ ok.1⟩
        case phi => cases ok
        case call =>
          obtain ⟨F, -, -, -, result, -⟩ := ok
          exact ⟨_, (result v hd).2⟩
      · obtain ⟨dst, incoming, rfl, -, -, result, -⟩ := phi
        cases hd
        exact ⟨_, result⟩
    obtain ⟨ty, ⟨name, value⟩, -⟩ := defines
    simp [owner?, value, owned]

theorem Joinable.append {c : BlockId} {f : FunctionId} (a : m.Append m' f b)
    {there : List ValueId} (h : m.Joinable p there c) : m'.Joinable p there c where
  leads := h.leads.mono a.ext fun _ mem => mem
  noPhi := by rw [a.codeOf]; exact h.noPhi
  alive := by rw [a.terminator?]; exact h.alive

theorem Waiting.append {c d : BlockId} {f : FunctionId} {there : List ValueId}
    (h : m.Waiting p there d) (a : m.Append m' f c) (agree : m.Agree p p') :
    m'.Waiting p' there d where
  owned := by rw [agree.function]; exact a.ext.blocks _ _ h.owned
  inner := by rw [agree.entry]; exact h.inner
  empty := (a.codeOf d).trans h.empty
  isOpen := (a.terminator? d).trans h.isOpen
  avail := (agree.avail d h.owned).trans h.avail

theorem Waiting.joinable {c : BlockId} {there more : List ValueId} (sub : there ⊆ more)
    (h : m.Waiting p there c) : m.Joinable p more c where
  leads := ⟨h.owned, h.inner, by rw [h.avail]; exact sub⟩
  noPhi := by simp [h.empty]
  alive := by simp [h.isOpen]

end IR.Module

namespace IR.Plan.Refines

theorem refl (p : Plan) (blocks : Nat) : p.Refines p blocks :=
  ⟨rfl, rfl, rfl, fun _ _ => rfl⟩

theorem trans {q : Plan} {n n' : Nat} (le : n ≤ n') (h : p.Refines p₀ n)
    (k : q.Refines p n') : q.Refines p₀ n :=
  ⟨k.function.trans h.function, k.ret.trans h.ret, k.entry.trans h.entry,
    fun b hb => (k.avail b (by omega)).trans (h.avail b hb)⟩

theorem rely {n : Nat} (h : p.Refines p₀ n) {c : BlockId} (new : n ≤ c.index)
    (there : List ValueId) : (p.rely c there).Refines p₀ n where
  function := h.function
  ret := h.ret
  entry := h.entry
  avail d hd := by
    rw [← h.avail d hd]
    refine if_neg fun same => ?_
    rw [same] at hd
    omega

end IR.Plan.Refines

namespace Site

theorem index_lt (site : Site typed p s b) : b.index < s.target.module.blocks.size :=
  Module.index_lt_of_functionOf? site.owned

theorem stands (site : Site typed p s b) (isOpen : s.target.module.terminator? b = none) :
    s.target.StandsAt b p.function :=
  ⟨site.here, site.owned, isOpen⟩

theorem isTerminated (site : Site typed p s b) :
    s.target.isTerminated = (s.target.module.terminator? b).isSome := by
  rw [Builder.isTerminated, site.here]
  exact Builder.isClosed_eq site.owned

end Site

namespace Reached

theorem refl (site : Site typed p s b) : Reached typed p s b p s b [] where
  base := site
  site := site
  grown := .refl ..
  scopes := rfl
  loops := rfl
  plan := .refl ..
  there _ mem := mem
  waiting := by simp
  nodup := List.nodup_nil

/-- The next edit takes place where the builder stands, or adds only slots and values. -/
theorem edit (r : Reached typed p₀ s₀ b₀ p s b rest) {t : Builder} {c : BlockId}
    {slots : List (ValueId × IR.Ty)} {code : List Inst} {terminator : Option Terminator}
    (here : t.insertion = some b)
    (e : s.target.module.Edit t.module c slots code terminator)
    (body : t.module.Body typed p) (owned : s.target.module.functionOf? c = some p.function)
    (region : c = b ∨ code = [] ∧ terminator = none)
    (isOpen : terminator ≠ none → s.target.module.terminator? c = none)
    (noPhi : c = b₀ → ∀ i ∈ code, i.isPhi = false)
    (joins : ∀ u, terminator = some u → ∀ d ∈ u.successors, d ∈ s₀.loops.blocks ∨
      s₀.target.module.blocks.size ≤ d.index) :
    Reached typed p₀ s₀ b₀ p { s with target := t } b rest := by
  have there : s.target.module.there p b ⊆ t.module.there p b :=
    Module.there_prefix (e.codeOf_prefix b)
  -- an edit that is not at the block where the builder stands adds no code
  have unchanged (d : BlockId) (apart : d ≠ b) :
      t.module.codeOf d = s.target.module.codeOf d ∧
        t.module.terminator? d = s.target.module.terminator? d := by
    rw [e.code, e.terms]
    rcases region with rfl | ⟨rfl, rfl⟩
    · simp [apart]
    · simp
  exact {
    base := r.base
    site := {
      body := body
      here := here
      owned := (e.owners b).trans r.site.owned
      scopes := r.site.scopes.mono e.ext
      loops := fun d hd => by
        obtain ⟨joinable, apart⟩ := r.site.loops d hd
        refine ⟨⟨joinable.leads.mono e.ext there, ?_, ?_⟩, apart⟩
        · rw [(unchanged d apart).1]
          exact joinable.noPhi
        · rw [(unchanged d apart).2]
          exact joinable.alive }
    grown := by
      refine r.grown.edit e (by rw [← r.plan.function]; exact owned) ?_ isOpen
        noPhi fun u hu d hd => (joins u hu d hd).symm
      exact region.imp (fun same => by simp [same]) id
    scopes := r.scopes
    loops := r.loops
    plan := r.plan
    there := fun _ mem => there (r.there mem)
    waiting := fun d hd => by
      obtain ⟨waiting, apart, new⟩ := r.waiting d hd
      exact ⟨⟨(e.owners d).trans waiting.owned, waiting.inner,
        (unchanged d apart).1.trans waiting.empty, (unchanged d apart).2.trans waiting.isOpen,
        waiting.avail⟩, apart, new⟩
    nodup := r.nodup }

/-- New values and globals, as for constants. -/
theorem values (r : Reached typed p₀ s₀ b₀ p s b rest) {t : Builder}
    (here : t.insertion = some b)
    (e : s.target.module.Edit t.module b [] [] none) :
    Reached typed p₀ s₀ b₀ p { s with target := t } b rest :=
  r.edit here e
    (r.site.body.edit e (by simp) (by simp) List.nodup_nil (by simp) (by simp))
    r.site.owned (.inl rfl) (by simp) (by simp) (by simp)

/-- One more instruction where the builder stands. -/
theorem push (r : Reached typed p₀ s₀ b₀ p s b rest)
    (isOpen : s.target.module.terminator? b = none) {t : Builder} {i : Inst}
    (here : t.insertion = some b) (e : s.target.module.Edit t.module b [] [i] none)
    (noPhi : i.isPhi = false)
    (ok : t.module.InstOk typed p b (s.target.module.codeOf b) i) :
    Reached typed p₀ s₀ b₀ p { s with target := t } b rest := by
  refine r.edit here e ?_ r.site.owned (.inl rfl) (by simp) (by simpa using fun _ => noPhi)
    (by simp)
  refine r.site.body.edit e (fun _ => isOpen) (by simp) List.nodup_nil ?_ (by simp)
  intro pre j post hj
  cases pre with
  | nil =>
    obtain ⟨rfl, -⟩ := List.cons.inj hj
    exact .inl (by simpa using ok)
  | cons k pre => simp at hj

/-- The block where the builder stands gets its terminator. -/
theorem close (r : Reached typed p₀ s₀ b₀ p s b rest)
    (isOpen : s.target.module.terminator? b = none) {t : Builder} {u : Terminator}
    (here : t.insertion = some b) (e : s.target.module.Edit t.module b [] [] (some u))
    (closes : s.target.module.Closes typed p b (s.target.module.there p b) u)
    (joins : ∀ d ∈ u.successors, d ∈ s₀.loops.blocks ∨
      s₀.target.module.blocks.size ≤ d.index) :
    Reached typed p₀ s₀ b₀ p { s with target := t } b rest ∧
      t.module.terminator? b = some u := by
  refine ⟨r.edit here e ?_ r.site.owned (.inl rfl) (fun _ => isOpen) (by simp) ?_, ?_⟩
  · exact r.site.body.edit e (fun _ => isOpen) (by simp) List.nodup_nil (by simp)
      fun u' hu => by cases hu; exact closes
  · intro u' hu
    cases hu
    exact joins
  · rw [e.terms, if_pos rfl]
    rfl

/-- One more slot in the entry. -/
theorem slot (r : Reached typed p₀ s₀ b₀ p s b rest) {t : Builder} {v : ValueId} {ty : IR.Ty}
    (here : t.insertion = some b)
    (e : s.target.module.Edit t.module p.entry [(v, ty)] [] none)
    (new : s.target.module.values.size ≤ v.index) (type : typed → ty ≠ .void)
    (value : ∃ name, t.module.value? v = some ⟨.ptr, .inst (some p.entry), name⟩) :
    Reached typed p₀ s₀ b₀ p { s with target := t } b rest :=
  r.edit here e
    (r.site.body.edit e (by simp) (by simpa using ⟨new, type, value⟩)
      (by simp) (by simp) (by simp))
    r.site.body.entry_owned (.inr ⟨rfl, rfl⟩) (by simp) (by simp) (by simp)

/-- A further block waits, and relies on what was there when the construct began. -/
theorem append (r : Reached typed p₀ s₀ b₀ p s b rest) {t : Builder} {c : BlockId}
    (here : t.insertion = some b) (a : s.target.module.Append t.module p.function c) :
    Reached typed p₀ s₀ b₀ (p.rely c (s₀.target.module.there p₀ b₀)) { s with target := t } b
      (rest ++ [c]) := by
  have agree : s.target.module.Agree p (p.rely c (s₀.target.module.there p₀ b₀)) :=
    Module.agree_rely a.not_owned _
  have size := r.grown.size
  have position := a.position
  have apart {d : BlockId} (hd : s.target.module.functionOf? d = some p.function) : d ≠ c := by
    rintro rfl
    rw [a.not_owned] at hd
    cases hd
  have there : t.module.there (p.rely c (s₀.target.module.there p₀ b₀)) b =
      s.target.module.there p b := by
    unfold Module.there at agree ⊢
    rw [a.codeOf, agree.avail b r.site.owned]
  have leads {d : BlockId} (hd : s.target.module.Joinable p (s.target.module.there p b) d) :
      t.module.Joinable (p.rely c (s₀.target.module.there p₀ b₀)) (s.target.module.there p b)
        d := (⟨hd.leads.congr agree, hd.noPhi, hd.alive⟩ :
          s.target.module.Joinable _ _ d).append a
  exact {
    base := r.base
    site := {
      body := by
        refine (r.site.body.congr agree).append a fun v hv => ?_
        have old : v ∈ s₀.target.module.there p₀ b₀ := by
          simpa [Plan.rely] using hv
        exact r.site.body.owner_of_there r.site.owned (r.there old)
      here := here
      owned := a.ext.blocks _ _ r.site.owned
      scopes := (r.site.scopes.congr rfl).mono a.ext
      loops := fun d hd => by
        obtain ⟨joinable, apart⟩ := r.site.loops d hd
        rw [there]
        exact ⟨leads joinable, apart⟩ }
    grown := r.grown.append (r.plan.function ▸ a)
    scopes := r.scopes
    loops := r.loops
    plan := r.plan.rely (by omega) _
    there := by
      rw [there]
      exact r.there
    waiting := fun d hd => by
      rcases List.mem_append.1 hd with old | new
      · obtain ⟨waiting, ne, new⟩ := r.waiting d old
        exact ⟨waiting.append a agree, ne, new⟩
      · obtain rfl := List.mem_singleton.1 new
        refine ⟨⟨a.functionOf?, ?_, a.codeOf_self, ?_, if_pos rfl⟩, ?_, by omega⟩
        · exact (apart r.site.body.entry_owned).symm
        · exact a.terminator?_self
        · exact (apart r.site.owned).symm
    nodup := by
      rw [List.nodup_append]
      refine ⟨r.nodup, by simp, fun d hd e he same => ?_⟩
      obtain rfl := List.mem_singleton.1 he
      exact apart (r.waiting d hd).1.owned same }

/-- The builder leaves a closed block for one that waits. -/
theorem position {c : BlockId} (r : Reached typed p₀ s₀ b₀ p s b (c :: rest))
    (closed : s.target.module.terminator? b ≠ none) :
    Reached typed p₀ s₀ b₀ p { s with target.insertion := some c } c rest := by
  obtain ⟨waiting, apart, new⟩ := r.waiting c (by simp)
  have there : s.target.module.there p c = s₀.target.module.there p₀ b₀ := by
    rw [Module.there, waiting.avail, waiting.empty, defined_nil, List.append_nil]
  exact {
    base := r.base
    site := {
      body := r.site.body
      here := rfl
      owned := waiting.owned
      scopes := r.site.scopes
      loops := fun d hd => by
        have joinable := (r.site.loops d hd).1
        have outer := (r.base.loops d (by rw [← r.loops]; exact hd)).1.leads
        have held := Module.index_lt_of_functionOf? outer.1
        refine ⟨⟨⟨joinable.leads.1, joinable.leads.2.1, ?_⟩, joinable.noPhi, joinable.alive⟩, ?_⟩
        · rw [show s.target.module.there p c = _ from there, r.plan.avail d held]
          exact outer.2.2
        · rintro rfl
          omega }
    grown := (r.grown.drop closed)
    scopes := r.scopes
    loops := r.loops
    plan := r.plan
    there := by
      rw [show s.target.module.there p c = _ from there]
      exact fun _ mem => mem
    waiting := fun d hd => by
      obtain ⟨waiting, -, new⟩ := r.waiting d (List.mem_cons_of_mem _ hd)
      refine ⟨waiting, ?_, new⟩
      rintro rfl
      exact (List.nodup_cons.1 r.nodup).1 hd
    nodup := (List.nodup_cons.1 r.nodup).2 }

/-- A construct inside another one, possibly in a scope or a loop of its own. -/
theorem trans {s₁ s₂ : GenState Builder} (r : Reached typed p₀ s₀ b₀ p s b rest)
    (q : Reached typed p s₁ b p' s' b' []) (begin : s₁.target = s.target)
    (outer : ∀ c ∈ s.loops.blocks, c ∈ s₁.loops.blocks)
    (inner : ∀ c ∈ s₁.loops.blocks, c ∈ s.loops.blocks ∨
      s₀.target.module.blocks.size ≤ c.index)
    (target : s₂.target = s'.target) (scopes : s₂.scopes = s.scopes)
    (loops : s₂.loops = s.loops) : Reached typed p₀ s₀ b₀ p' s₂ b' rest := by
  have grown := q.grown
  have plan := q.plan
  have there := q.there
  rw [begin] at grown plan there
  have stay : b' = b ∨ s.target.module.blocks.size ≤ b'.index := grown.region b' (by simp)
  exact {
    base := r.base
    site := {
      body := target ▸ q.site.body
      here := target ▸ q.site.here
      owned := target ▸ q.site.owned
      scopes := by
        rw [target, scopes]
        exact (r.site.scopes.mono grown.ext).congr plan.entry
      loops := fun c hc => by
        rw [target]
        rw [loops] at hc
        exact q.site.loops c (q.loops ▸ outer c hc) }
    grown := by
      rw [target]
      have := r.grown.trans (r.plan.function ▸ grown) r.base.index_lt
        fun c hc => (inner c hc).imp (fun mem => r.loops ▸ mem) id
      simpa using this
    scopes := scopes.trans r.scopes
    loops := loops.trans r.loops
    plan := r.plan.trans r.grown.size plan
    there := by
      rw [target]
      exact fun _ mem => there (r.there mem)
    waiting := fun c hc => by
      obtain ⟨waiting, apart, new⟩ := r.waiting c hc
      have held := Module.index_lt_of_functionOf? waiting.owned
      obtain ⟨code, term⟩ := grown.keep c held apart
      rw [target]
      refine ⟨⟨?_, ?_, code.trans waiting.empty, term.trans waiting.isOpen,
        (plan.avail c held).trans waiting.avail⟩, ?_, new⟩
      · rw [plan.function]
        exact grown.ext.blocks _ _ waiting.owned
      · rw [plan.entry]
        exact waiting.inner
      · rintro rfl
        rcases stay with rfl | new
        · exact apart rfl
        · omega
    nodup := r.nodup }

end Reached

end

end Decaf
