import Decaf.Proofs.Building.Closing
import Decaf.Proofs.Generation.Departure
import Decaf.Proofs.Generation.Resolution

/-!
# The course of code generation

Where code generation stands and which blocks are open, as far as this decides what is compiled
next. A course begins in an open block; blocks that were appended on the way wait, open, until
it comes to them; what else there was before the course is left as it was. A course gives
warnings, most of them none. `Decides` says of a computation that it comes to its end exactly
under a condition.
-/

namespace Decaf

open IR

/-- The handle is of the kind that the descriptor names, and a function returns what it says. -/
def Descriptor.Apt (m : Module) (d : Descriptor) : Prop :=
  match d.handle with
  | .function id _ => d.kind = .function ∧ m.returnOf? id = some d.ty.repr
  | .slot _ | .array _ _ => d.kind.isVariable = true

def ScopeStack.Apt (m : Module) (scopes : ScopeStack) : Prop :=
  ∀ name d, scopes.lookup name = some d → d.Apt m

/-- Code is about to be put into an open block. -/
structure Ready (s : GenState Builder) (b : BlockId) : Prop where
  here : s.target.insertion = some b
  isOpen : s.target.isClosed b = false
  apt : s.scopes.Apt s.target.module

/-- From `s₀`, at block `b₀`, code generation has come to `s`, at block `b`. -/
structure Course (s₀ : GenState Builder) (b₀ : BlockId) (s : GenState Builder) (b : BlockId)
    (closed : Bool) (waiting : List BlockId) (told : List Warning := []) : Prop where
  scopes : s.scopes = s₀.scopes
  loops : s.loops = s₀.loops
  warnings : s.warnings = s₀.warnings ++ told
  here : s.target.insertion = some b
  isClosed : s.target.isClosed b = closed
  inside : b.index < s.target.module.blocks.size
  size : s₀.target.module.blocks.size ≤ s.target.module.blocks.size
  /-- A course that has left its first block is at one of its own. -/
  block : b = b₀ ∨ s₀.target.module.blocks.size ≤ b.index
  others : ∀ c, c.index < s₀.target.module.blocks.size → c ≠ b₀ →
    s.target.isClosed c = s₀.target.isClosed c
  waits : ∀ c ∈ waiting, s₀.target.module.blocks.size ≤ c.index ∧
    c.index < s.target.module.blocks.size ∧ c ≠ b ∧ s.target.isClosed c = false
  distinct : waiting.Nodup
  returns : s.target.module.returnOf? = s₀.target.module.returnOf?

theorem Descriptor.Apt.congr {m m' : Module} (returns : ∀ f ty, m.returnOf? f = some ty →
    m'.returnOf? f = some ty) {d : Descriptor} (h : d.Apt m) : d.Apt m' := by
  unfold Descriptor.Apt at h ⊢
  split at h
  · exact ⟨h.1, returns _ _ h.2⟩
  · exact h
  · exact h

theorem ScopeStack.Apt.congr {m m' : Module} (returns : ∀ f ty, m.returnOf? f = some ty →
    m'.returnOf? f = some ty) {scopes : ScopeStack} (h : scopes.Apt m) : scopes.Apt m' :=
  fun name d there => (h name d there).congr returns

namespace Course

variable {s₀ s s' : GenState Builder} {b₀ b b' : BlockId} {closed closed' : Bool}
  {waiting : List BlockId} {told told' : List Warning}

theorem start (h : Ready s b) : Course s b s b false [] where
  scopes := rfl
  loops := rfl
  warnings := (List.append_nil _).symm
  here := h.here
  isClosed := h.isOpen
  inside := Builder.hasBlock_of_isClosed h.isOpen
  size := Nat.le_refl _
  block := .inl rfl
  others _ _ _ := rfl
  waits _ hc := by cases hc
  distinct := List.nodup_nil
  returns := rfl

theorem apt (r : Course s₀ b₀ s b closed waiting told) (h : s₀.scopes.Apt s₀.target.module) :
    s.scopes.Apt s.target.module := by
  rw [r.scopes]
  exact h.congr fun f ty there => by rw [r.returns, there]

theorem ready (r : Course s₀ b₀ s b false waiting told) (h : Ready s₀ b₀) : Ready s b :=
  ⟨r.here, r.isClosed, r.apt h.apt⟩

theorem calm (r : Course s₀ b₀ s b closed waiting told) {t : Builder} (calm : s.target.Calm t) :
    Course s₀ b₀ { s with target := t } b closed waiting told where
  scopes := r.scopes
  loops := r.loops
  warnings := r.warnings
  here := calm.insertion.trans r.here
  isClosed := by rw [calm.isClosed, r.isClosed]
  inside := by rw [calm.size]; exact r.inside
  size := by rw [calm.size]; exact r.size
  block := r.block
  others c old other := by rw [calm.isClosed, r.others c old other]
  waits c hc := by rw [calm.size, calm.isClosed]; exact r.waits c hc
  distinct := r.distinct
  returns := calm.returns.trans r.returns

/-- A new block waits behind those that do already. -/
theorem append (r : Course s₀ b₀ s b closed waiting told) (f : FunctionId) (hint : String) :
    Course s₀ b₀ { s with target := (s.target.appendBlock f hint).2 } b closed
      (waiting ++ [(s.target.appendBlock f hint).1]) told := by
  obtain ⟨id, insertion, size, isOpen, old, returns⟩ := s.target.appendBlock_opens f hint
  have wider : s.target.module.blocks.size ≤
    (s.target.appendBlock f hint).2.module.blocks.size := by omega
  rw [id]
  exact {
    scopes := r.scopes
    loops := r.loops
    warnings := r.warnings
    here := insertion.trans r.here
    isClosed := (old b r.inside).trans r.isClosed
    inside := Nat.lt_of_lt_of_le r.inside wider
    size := Nat.le_trans r.size wider
    block := r.block
    others := fun c held other =>
      (old c (Nat.lt_of_lt_of_le held r.size)).trans (r.others c held other)
    waits := by
      intro c hc
      rcases List.mem_append.1 hc with hc | hc
      · obtain ⟨own, held, apart, isOpen⟩ := r.waits c hc
        exact ⟨own, Nat.lt_of_lt_of_le held wider, apart, (old c held).trans isOpen⟩
      · obtain rfl := List.mem_singleton.1 hc
        refine ⟨r.size, by rw [size]; exact Nat.lt_succ_self _, ?_, isOpen⟩
        rintro rfl
        exact Nat.lt_irrefl _ r.inside
    distinct := by
      rw [List.nodup_append]
      refine ⟨r.distinct, by simp, fun c hc d hd => ?_⟩
      obtain rfl := List.mem_singleton.1 hd
      rintro rfl
      exact Nat.lt_irrefl _ (r.waits _ hc).2.1
    returns := returns.trans r.returns }

theorem terminate (r : Course s₀ b₀ s b false waiting told) (t : Terminator) :
    Course s₀ b₀ { s with target := (s.target.perform (.terminate t)).2 } b true waiting told := by
  obtain ⟨insertion, size, closed, others, returns⟩ :=
    Builder.terminate_of_open r.here r.isClosed t
  exact {
    scopes := r.scopes
    loops := r.loops
    warnings := r.warnings
    here := insertion
    isClosed := closed
    inside := by rw [size]; exact r.inside
    size := by rw [size]; exact r.size
    block := r.block
    others := fun c held other => by
      have apart : c ≠ b := by
        rintro rfl
        rcases r.block with rfl | own
        · exact other rfl
        · omega
      rw [others c apart, r.others c held other]
    waits := fun c hc => by
      obtain ⟨own, held, apart, isOpen⟩ := r.waits c hc
      rw [size, others c apart]
      exact ⟨own, held, apart, isOpen⟩
    distinct := r.distinct
    returns := returns.trans r.returns }

/-- The first of the waiting blocks comes next. -/
theorem next {c : BlockId} (r : Course s₀ b₀ s b closed (c :: waiting) told) :
    Course s₀ b₀ { s with target := (s.target.perform (.positionAtEnd c)).2 } c false waiting told := by
  obtain ⟨own, held, -, isOpen⟩ := r.waits c (List.mem_cons_self ..)
  obtain ⟨first, rest⟩ := List.nodup_cons.1 r.distinct
  exact {
    scopes := r.scopes
    loops := r.loops
    warnings := r.warnings
    here := rfl
    isClosed := isOpen
    inside := held
    size := r.size
    block := .inr own
    others := r.others
    waits := fun d hd => by
      obtain ⟨own, held, -, isOpen⟩ := r.waits d (List.mem_cons_of_mem _ hd)
      refine ⟨own, held, ?_, isOpen⟩
      rintro rfl
      exact first hd
    distinct := rest
    returns := r.returns }

/-- A course can take place within another one. -/
theorem trans (r : Course s₀ b₀ s b false waiting told) (h : Course s b s' b' closed [] told') :
    Course s₀ b₀ s' b' closed waiting (told ++ told') where
  scopes := h.scopes.trans r.scopes
  loops := h.loops.trans r.loops
  warnings := by rw [h.warnings, r.warnings, List.append_assoc]
  here := h.here
  isClosed := h.isClosed
  inside := h.inside
  size := Nat.le_trans r.size h.size
  block := by
    rcases h.block with rfl | own
    · exact r.block
    · exact .inr (Nat.le_trans r.size own)
  others c held other := by
    have apart : c ≠ b := by
      rintro rfl
      rcases r.block with rfl | own
      · exact other rfl
      · omega
    rw [h.others c (Nat.lt_of_lt_of_le held r.size) apart, r.others c held other]
  waits c hc := by
    obtain ⟨own, held, apart, isOpen⟩ := r.waits c hc
    refine ⟨own, Nat.lt_of_lt_of_le held h.size, ?_, (h.others c held apart).trans isOpen⟩
    rintro rfl
    rcases h.block with rfl | new
    · exact apart rfl
    · omega
  distinct := r.distinct
  returns := h.returns.trans r.returns

theorem isTerminated (r : Course s₀ b₀ s b closed waiting told) : s.target.isTerminated = closed := by
  rw [Builder.isTerminated, r.here]
  exact r.isClosed

end Course

namespace Gen

section Decides

variable {τ α β : Type} {s : GenState τ} {p q : Prop} {P : α → GenState τ → Prop}
  {Q : β → GenState τ → Prop}

/-- The computation comes to its end exactly if `p` holds, and then leaves what `P` says. -/
def Decides (x : Gen τ α) (s : GenState τ) (p : Prop) (P : α → GenState τ → Prop) : Prop :=
  Ends x s (fun a s' => p ∧ P a s') fun _ => ¬ p

theorem Decides.bind {x : Gen τ α} {f : α → Gen τ β} (first : Decides x s p P)
    (rest : ∀ a s', P a s' → Decides (f a) s' q Q) : Decides (x >>= f) s (p ∧ q) Q := by
  refine ends_bind (first.mono (fun _ _ h => h) fun e h => fun both => h both.1) ?_
  rintro a s' ⟨hp, holds⟩
  exact (rest a s' holds).mono (fun _ _ h => ⟨⟨hp, h.1⟩, h.2⟩) fun e h both => h both.2

/-- The first part always comes to its end. -/
theorem Decides.then {x : Gen τ α} {f : α → Gen τ β} (first : Decides x s True P)
    (rest : ∀ a s', P a s' → Decides (f a) s' q Q) : Decides (x >>= f) s q Q := by
  have both := first.bind rest
  rwa [true_and] at both

/-- The second part always comes to its end. -/
theorem Decides.before {x : Gen τ α} {f : α → Gen τ β} (first : Decides x s p P)
    (rest : ∀ a s', P a s' → Decides (f a) s' True Q) : Decides (x >>= f) s p Q := by
  have both := first.bind rest
  rwa [and_true] at both

theorem Decides.imp {x : Gen τ α} {P' : α → GenState τ → Prop} (h : Decides x s p P)
    (weaker : ∀ a s', P a s' → P' a s') : Decides x s p P' :=
  h.mono (fun a s' h => ⟨h.1, weaker a s' h.2⟩) fun _ h => h

theorem Decides.congr {x : Gen τ α} (h : Decides x s p P) (same : p ↔ q) : Decides x s q P := by
  rwa [propext same] at h

theorem Decides.map {x : Gen τ α} {f : α → β} (h : Decides x s p fun a s' => Q (f a) s') :
    Decides (f <$> x) s p Q :=
  ends_map h

theorem decides_pure {a : α} (h : P a s) : Decides (pure a) s True P :=
  ends_pure ⟨trivial, h⟩

theorem decides_throw {e : CompileError} (h : ¬ p) : Decides (throw e) s p P :=
  ends_throw h

theorem decides_fromScopes {query : ScopeStack → Except CompileError α}
    (value : ∀ a, query s.scopes = .ok a → p ∧ P a s)
    (error : ∀ e, query s.scopes = .error e → ¬ p) : Decides (fromScopes query) s p P :=
  ends_fromScopes value error

theorem decides_inScope {x : Gen τ α}
    (h : Decides x { s with scopes := s.scopes.push } p
      fun a s' => P a { s' with scopes := s'.scopes.pop }) : Decides (inScope x) s p P :=
  ends_inScope h

theorem decides_inLoop {x : Gen τ α} {targets : LoopTargets}
    (h : Decides x { s with loops := s.loops.push targets } p
      fun a s' => P a { s' with loops := s'.loops.pop }) : Decides (inLoop targets x) s p P :=
  ends_inLoop h

end Decides

section Courses

variable {s₀ s : GenState Builder} {b₀ b c : BlockId} {closed : Bool} {waiting : List BlockId}
  {told : List Warning} {m : MethodContext} {α β : Type}

theorem decides_emit (r : Course s₀ b₀ s b closed waiting told) {reply : Reply} {c : Command reply}
    (calm : c.isCalm = true) :
    Decides (emit c) s True fun _ s' => Course s₀ b₀ s' b closed waiting told :=
  ends_emit ⟨trivial, r.calm (s.target.calm_perform calm)⟩

theorem decides_appendBlock (r : Course s₀ b₀ s b closed waiting told) (hint : String) :
    Decides (appendBlock m hint) s True fun c s' =>
      Course s₀ b₀ s' b closed (waiting ++ [c]) told :=
  ends_emit ⟨trivial, r.append m.function hint⟩

theorem decides_terminate (r : Course s₀ b₀ s b false waiting told) (t : Terminator) :
    Decides (emit (.terminate t)) s True fun _ s' => Course s₀ b₀ s' b true waiting told :=
  ends_emit ⟨trivial, r.terminate t⟩

theorem decides_positionAtEnd (r : Course s₀ b₀ s b closed (c :: waiting) told) :
    Decides (emit (.positionAtEnd c)) s True fun _ s' => Course s₀ b₀ s' c false waiting told :=
  ends_emit ⟨trivial, r.next⟩

theorem decides_insertionBlock (r : Course s₀ b₀ s b closed waiting told) :
    Decides (insertionBlock m) s True fun c s' => c = b ∧ Course s₀ b₀ s' b closed waiting told := by
  refine ends_get ?_
  rw [show Target.insertion? s.target = some b from r.here]
  exact ends_pure ⟨trivial, rfl, r⟩

/-- The branch is taken if the block is open; afterwards it is closed. -/
theorem decides_branchIfOpen (r : Course s₀ b₀ s b closed waiting told) (next : BlockId) :
    Decides (branchIfOpen next) s True fun fell s' =>
      fell = !closed ∧ Course s₀ b₀ s' b true waiting told := by
  apply ends_isTerminated
  rw [show Target.isTerminated s.target = closed from r.isTerminated]
  cases closed with
  | true => exact ends_pure ⟨trivial, rfl, r⟩
  | false => exact (decides_terminate r (.br next)).then fun _ _ r => decides_pure ⟨rfl, r⟩

end Courses

/-- From any place where code is ready to be put, inside or outside of a loop as the flag says
and with these names in scope, the computation comes to its end exactly if `p` holds, in a block
that is open or closed as `closed` says, and then has given the warnings `told`. -/
def Judges {α : Type} (loop : Bool) (Γ : Context) (x : Gen Builder α) (p : Prop)
    (closed : Bool) (told : List Warning := []) : Prop :=
  ∀ s b, Ready s b → s.scopes.context = Γ → (s.loops.loops = [] ↔ loop = false) →
    Decides x s p fun _ s' => ∃ b', Course s b s' b' closed [] told

/-- As before, for a computation that may leave no value. -/
def Offers (loop : Bool) (Γ : Context) (x : Gen Builder (Option ValueId)) (p : Prop)
    (present : Bool) : Prop :=
  ∀ s b, Ready s b → s.scopes.context = Γ → (s.loops.loops = [] ↔ loop = false) →
    Decides x s p fun v s' => v.isSome = present ∧ ∃ b', Course s b s' b' false []

section Judges

variable {loop closed : Bool} {Γ : Context} {p q : Prop} {m : MethodContext} {α β : Type}
  {told : List Warning}

theorem Judges.congr {x : Gen Builder α} (h : Judges loop Γ x p closed told) (same : p ↔ q) :
    Judges loop Γ x q closed told :=
  fun s b ready names loops => (h s b ready names loops).congr same

/-- Within a course, and without loss of the blocks that wait. -/
theorem Judges.within {x : Gen Builder α} (h : Judges loop Γ x p closed told)
    {s₀ s : GenState Builder} {b₀ b : BlockId} {waiting : List BlockId}
    {before : List Warning} (r : Course s₀ b₀ s b false waiting before) (ready : Ready s₀ b₀)
    (names : s₀.scopes.context = Γ) (loops : s₀.loops.loops = [] ↔ loop = false) :
    Decides x s p fun _ s' => ∃ b', Course s₀ b₀ s' b' closed waiting (before ++ told) :=
  (h s b (r.ready ready) (by rw [r.scopes, names]) (by rw [r.loops]; exact loops)).imp
    fun _ _ ⟨b', h⟩ => ⟨b', r.trans h⟩

theorem Judges.bind {x : Gen Builder α} {f : α → Gen Builder β} (first : Judges loop Γ x p false)
    (rest : ∀ a, Judges loop Γ (f a) q closed told) : Judges loop Γ (x >>= f) (p ∧ q) closed told :=
  fun s b ready names loops => (first s b ready names loops).bind fun a _ ⟨_, r⟩ =>
    (rest a).within r ready names loops

theorem Judges.then {x : Gen Builder α} {f : α → Gen Builder β}
    (first : Judges loop Γ x True false) (rest : ∀ a, Judges loop Γ (f a) q closed told) :
    Judges loop Γ (x >>= f) q closed told :=
  (first.bind rest).congr (by rw [true_and])

theorem Judges.before {x : Gen Builder α} {f : α → Gen Builder β}
    (first : Judges loop Γ x p false) (rest : ∀ a, Judges loop Γ (f a) True closed told) :
    Judges loop Γ (x >>= f) p closed told :=
  (first.bind rest).congr (by rw [and_true])

theorem judges_pure (a : α) : Judges loop Γ (pure a) True false :=
  fun _ b ready _ _ => decides_pure ⟨b, .start ready⟩

theorem judges_throw (e : CompileError) (h : ¬ p) :
    Judges loop Γ (throw e : Gen Builder α) p closed told :=
  fun _ _ _ _ _ => decides_throw h

theorem judges_emit {reply : Reply} (c : Command reply) (calm : c.isCalm = true) :
    Judges loop Γ (emit c) True false :=
  fun _ b ready _ _ => (decides_emit (.start ready) calm).imp fun _ _ r => ⟨b, r⟩

theorem judges_terminate (t : Terminator) : Judges loop Γ (emit (.terminate t)) True true :=
  fun _ b ready _ _ => (decides_terminate (.start ready) t).imp fun _ _ r => ⟨b, r⟩

theorem judges_typeOf (v : ValueId) : Judges loop Γ (typeOf v) True false :=
  fun _ b ready _ _ => ends_get (ends_pure ⟨trivial, b, .start ready⟩)

theorem judges_coerce (v : ValueId) (wanted : Decaf.Ty) :
    Judges loop Γ (coerce v wanted) True false := by
  refine (judges_typeOf v).then fun found => ?_
  split
  · exact judges_emit _ rfl
  · exact judges_pure v

theorem Offers.asValue {x : Gen Builder (Option ValueId)} {present : Bool}
    (h : Offers loop Γ x p present) (line : Nat) :
    Judges loop Γ (asValue line x) (p ∧ present = true) false := by
  intro s b ready names loops
  refine (h s b ready names loops).bind fun v s' ⟨isSome, b', r⟩ => ?_
  cases v with
  | none => exact decides_throw (by simp [← isSome])
  | some v => exact (decides_pure ⟨b', r⟩).congr (by simp [← isSome])

theorem Offers.congr {x : Gen Builder (Option ValueId)} {present : Bool}
    (h : Offers loop Γ x p present) (same : p ↔ q) : Offers loop Γ x q present :=
  fun s b ready names loops => (h s b ready names loops).congr same

theorem Judges.offer {x : Gen Builder α} {f : α → Gen Builder (Option ValueId)} {present : Bool}
    (first : Judges loop Γ x p false) (rest : ∀ a, Offers loop Γ (f a) q present) :
    Offers loop Γ (x >>= f) (p ∧ q) present :=
  fun s b ready names loops => (first s b ready names loops).bind fun a _ ⟨_, r⟩ =>
    (rest a _ _ (r.ready ready) (by rw [r.scopes, names]) (by rw [r.loops]; exact loops)).imp
      fun _ _ ⟨isSome, b', h⟩ => ⟨isSome, b', r.trans h⟩

theorem Judges.some {x : Gen Builder ValueId} (h : Judges loop Γ x p false) :
    Offers loop Γ (some <$> x) p true :=
  fun s b ready names loops => ((h s b ready names loops).imp fun _ _ r => ⟨rfl, r⟩).map

end Judges

end Gen

end Decaf
