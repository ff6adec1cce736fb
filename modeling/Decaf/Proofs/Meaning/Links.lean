import Decaf.Proofs.Language.Relators
import Decaf.Proofs.Generation.ProgramShapes
import Decaf.Proofs.Generation.Soundness
import Decaf.Proofs.Meaning.Evaluation

/-!
# Programs and their modules

Where the members of a program are in the module that is generated for it: under each name
that is bound in the scope of the package the member of that name is found, fields are the
first globals and bear their names, and every method has its code.
-/

namespace Decaf.Meaning

open IR Gen

/-- The descriptor tells where the member is in the module. -/
def Denotes (S : Source) (m : Module) (d : Descriptor) : Member → Prop
  | .foreign e => ∃ i : Nat, S.externs[i]? = some e ∧ d = .function e.ret ⟨i⟩ e.params e.line
  | .field f => ∃ (i : Nat) (a : ValueId) (name : Option String),
    S.package.fields[i]? = some f ∧ m.value? a = some ⟨.ptr, .global ⟨i⟩, name⟩ ∧
    d = match f.size with
      | .scalar => .scalar .globalVariable f.ty a f.line
      | .array length => .array f.ty a length f.line
  | .method e => ∃ i : Nat, S.package.methods[i]? = some e ∧
    d = .function e.ret ⟨S.externs.length + i⟩ e.params e.line

theorem Denotes.mono {S : Source} {m m' : Module} {d : Descriptor} {x : Member}
    (h : Denotes S m d x) (ext : m.Extends m') : Denotes S m' d x := by
  cases x with
  | foreign e => exact h
  | method e => exact h
  | field f =>
    obtain ⟨i, a, name, hf, value, same⟩ := h
    exact ⟨i, a, name, hf, ext.value? value, same⟩

/-- How the module of a program is laid out, and which scopes its methods see. -/
structure Linked (S : Source) (m : Module) (scopes : ScopeStack) : Prop where
  generated : Generated False Module.empty S.externs S.package m
  inner : scopes.inner = []
  denotes : ∀ name d, scopes.package.lookup name = some d →
    ∃ x, S.member? name = some x ∧ x.name = name ∧ Denotes S m d x
  distinct : (S.members.map Member.name).Nodup
  coded : ∀ (i : Nat) d, S.package.methods[i]? = some d →
    m.Coded ⟨S.externs.length + i⟩ scopes d
  fields : ∀ (i : Nat) f, S.package.fields[i]? = some f →
    ∃ G, m.globals[i]? = some G ∧ G.id = ⟨i⟩ ∧ G.name = f.name ∧ G.kind = f.kind
  valid : ∀ f ∈ S.package.fields, f.size = .scalar → f.initial? ≠ none
  params : ∀ g F, m.function? g = some F → (F.params.map (·.value)).Nodup

/-- What is known after some of the members were declared. -/
structure Registered (S : Source) (done : List Member) (s : GenState Builder) : Prop where
  names : s.scopes.package.map Prod.fst = (done.map Member.name).reverse
  distinct : (done.map Member.name).Nodup
  denotes : ∀ x ∈ s.scopes.package, ∃ y ∈ done, y.name = x.1 ∧
    Denotes S s.target.module x.2 y
  symbols : ∀ name ∈ s.target.symbols.used, name ∈ done.map Member.name
  globals : ∀ (i : Nat) G, s.target.module.globals[i]? = some G → G.id = ⟨i⟩ ∧
    ∃ f, S.package.fields[i]? = some f ∧ G.name = f.name
  valid : ∀ f, .field f ∈ done → f.size = .scalar → f.initial? ≠ none
  params : ∀ g F, s.target.module.function? g = some F → (F.params.map (·.value)).Nodup

section

variable {S : Source} {done : List Member} {s : GenState Builder}

/-- A name that is bound belongs to a member that was declared. -/
theorem Registered.lookup (h : Registered S done s) {name : String} :
    s.scopes.package.lookup name = none ↔ name ∉ done.map Member.name := by
  rw [← List.mem_reverse, ← h.names]
  simp only [List.lookup_eq_none_iff, List.mem_map, bne_iff_ne, ne_eq, not_exists, not_and]
  exact ⟨fun free x hx same => free x hx same.symm, fun free x hx same => free x hx same.symm⟩

/-- A name is bound to a member that was not there yet. -/
theorem Registered.bindName (h : Registered S done s) (inner : s.scopes.inner = [])
    {t : Builder} (ext : s.target.module.Extends t.module) {x : Member} {d : Descriptor}
    (denotes : Denotes S t.module d x)
    (symbols : x.name ∉ done.map Member.name → ∀ name ∈ t.symbols.used,
      name ∈ done.map Member.name ∨ name = x.name)
    (globals : x.name ∉ done.map Member.name → ∀ (i : Nat) G, t.module.globals[i]? = some G →
      G.id = ⟨i⟩ ∧ ∃ f, S.package.fields[i]? = some f ∧ G.name = f.name)
    (valid : ∀ f, x = .field f → f.size = .scalar → f.initial? ≠ none)
    (params : ∀ g F, t.module.function? g = some F → (F.params.map (·.value)).Nodup) :
    Ends (Gen.bindName x.name d) { s with target := t }
      (fun _ s' => Registered S (done ++ [x]) s') fun _ => True := by
  refine ends_bindName (fun free => ?_) fun _ _ => trivial
  obtain ⟨target, ⟨package, _ | ⟨bindings, outer⟩⟩, loops, warnings⟩ := s
  · have new : x.name ∉ done.map Member.name := h.lookup.1 free
    exact {
      names := by
        have := h.names
        simpa [ScopeStack.add] using this
      distinct := by
        rw [List.map_append, List.nodup_append]
        refine ⟨h.distinct, by simp, fun a ha b hb same => new ?_⟩
        obtain rfl : b = x.name := by simpa using hb
        exact same ▸ ha
      denotes := fun y hy => by
        rcases List.mem_cons.1 hy with rfl | old
        · exact ⟨x, by simp, rfl, denotes⟩
        · obtain ⟨z, hz, same, there⟩ := h.denotes y old
          exact ⟨z, by simp [hz], same, there.mono ext⟩
      symbols := fun name used => by
        rcases symbols new name used with old | rfl
        · simp only [List.map_append, List.mem_append, old, true_or]
        · simp
      globals := globals new
      valid := fun f hf => by
        rcases List.mem_append.1 hf with old | last
        · exact h.valid f old
        · exact valid f (List.mem_singleton.1 last).symm
      params := params }
  · cases inner

/-- A name that was not taken before is its own symbol. -/
theorem Registered.unique (h : Registered S done s) {name : String} (named : name ≠ "")
    (new : name ∉ done.map Member.name) : (s.target.symbols.unique name).1 = name := by
  have base : NameTable.base name = name := by
    rw [NameTable.base, if_neg]
    simpa using named
  rw [NameTable.unique_of_not_mem (by rw [base]; exact fun used => new (h.symbols name used)), base]

theorem Registered.symbols_unique (h : Registered S done s) {name : String} (named : name ≠ "")
    (new : name ∉ done.map Member.name) :
    ∀ other ∈ (s.target.symbols.unique name).2.used,
      other ∈ done.map Member.name ∨ other = name := by
  intro other used
  rw [NameTable.used_unique, h.unique named new] at used
  exact (List.mem_cons.1 used).elim .inr fun old => .inl (h.symbols other old)

/-- The parameters of a new function have values of their own. -/
theorem nodup_declareFunction (b : Builder) (name : String) (ret : IR.Ty)
    (params : List (Option String × IR.Ty))
    (before : ∀ g F, b.module.function? g = some F → (F.params.map (·.value)).Nodup) :
    ∀ g F, (b.declareFunction name ret params).2.module.function? g = some F →
      (F.params.map (·.value)).Nodup := by
  intro g F hF
  simp only [Builder.declareFunction, Module.function?, Array.getElem?_push] at hF
  split at hF
  · cases hF
    rw [List.Nodup, List.pairwise_iff_getElem]
    intro i j hi hj less
    simp only [List.getElem_map, List.getElem_mapIdx, ne_eq, ValueId.mk.injEq]
    omega
  · exact before g F hF

/-- A function of the program is declared. -/
theorem Registered.declareFunction {typed : Prop} {sigs : List Signature}
    {kinds : List GlobalKind} {Γ : Context} (h : Registered S done s)
    (preamble : Preamble typed Module.empty sigs kinds Γ s) {x : Member} (named : x.name ≠ "")
    (ret : IR.Ty) (params : List (Option String × IR.Ty)) {d : FunctionId → Descriptor}
    (denotes : ∀ m, Denotes S m (d ⟨sigs.length⟩) x) (notField : ∀ f, x ≠ .field f) :
    Ends (emit (.declareFunction x.name ret params)) s (fun id s' =>
      Ends (Gen.bindName x.name (d id)) s' (fun _ s'' => Registered S (done ++ [x]) s'')
        fun _ => True) fun _ => True := by
  have grounded : Module.empty.Grounded := Builder.Reachable.empty.grounded.blocks
  obtain ⟨id, outside, -⟩ := s.target.declareFunction_outside x.name ret params
    (preamble.grounded grounded)
  have next : (s.target.declareFunction x.name ret params).1 = ⟨sigs.length⟩ := by
    rw [id, preamble.size]
    exact congrArg FunctionId.mk (Nat.zero_add _)
  apply ends_emit
  show Ends (Gen.bindName x.name (d (s.target.declareFunction x.name ret params).1)) _ _ _
  rw [next]
  exact h.bindName preamble.inner outside.ext (denotes _) (h.symbols_unique named)
    (fun _ i G hG => h.globals i G hG) (fun f same => absurd same (notField f))
    (nodup_declareFunction _ _ _ _ h.params)

theorem Registered.pushGlobal {typed : Prop} {sigs : List Signature} {kinds : List GlobalKind}
    {Γ : Context} (h : Registered S done s)
    (preamble : Preamble typed Module.empty sigs kinds Γ s) {f : FieldDecl}
    (hf : S.package.fields[kinds.length]? = some f) (named : f.name ≠ "")
    (valid : f.size = .scalar → f.initial? ≠ none) {c : Command .value} {kind : GlobalKind}
    (perform : s.target.perform c = s.target.pushGlobal f.name kind)
    {d : ValueId → Descriptor} (descriptor : ∀ a, d a = match f.size with
      | .scalar => .scalar .globalVariable f.ty a f.line
      | .array length => .array f.ty a length f.line) :
    Ends (do
      let a ← emit c
      Gen.bindName f.name (d a)) s (fun _ s' => Registered S (done ++ [.field f]) s')
      fun _ => True := by
  obtain ⟨ext, functions, -⟩ := s.target.pushGlobal_module f.name kind
  have size : s.target.module.globals.size = kinds.length := by
    have := congrArg List.length preamble.globals
    simpa [Module.empty] using this
  refine ends_bind (P := fun a s' => a = ⟨s.target.module.values.size⟩ ∧
    s' = { s with target := (s.target.pushGlobal f.name kind).2 }) (ends_emit ?_) ?_
  · show (s.target.perform c).1 = _ ∧
      ({ s with target := (s.target.perform c).2 } : GenState Builder) = _
    rw [perform]
    exact ⟨rfl, rfl⟩
  rintro _ _ ⟨rfl, rfl⟩
  refine h.bindName (x := .field f) preamble.inner ext
    ⟨kinds.length, _, some (s.target.symbols.unique f.name).1, hf, ?_, descriptor _⟩
    (h.symbols_unique named) (fun new i G hG => ?_) (fun f' same => ?_) fun g F hF => ?_
  · rw [← size]
    exact Array.getElem?_push_size
  · replace hG : (s.target.module.globals.push ⟨⟨s.target.module.globals.size⟩,
        (s.target.symbols.unique f.name).1, kind, ⟨s.target.module.values.size⟩⟩)[i]? =
          some G := hG
    rw [Array.getElem?_push] at hG
    split at hG
    · rename_i last
      cases hG
      exact ⟨by rw [last], f, by rw [last, size, hf], h.unique named new⟩
    · exact h.globals i G hG
  · cases same
    exact valid
  · rw [Module.function?, functions] at hF
    exact h.params g F hF

theorem Registered.declareField {typed : Prop} {sigs : List Signature}
    {kinds : List GlobalKind} {Γ : Context} (h : Registered S done s)
    (preamble : Preamble typed Module.empty sigs kinds Γ s) {f : FieldDecl}
    (hf : S.package.fields[kinds.length]? = some f) (named : f.name ≠ "") :
    Ends (Gen.declareField f) s (fun _ s' => Registered S (done ++ [.field f]) s')
      fun _ => True := by
  rw [Gen.declareField]
  cases size : f.size with
  | array length =>
    dsimp only
    split
    · exact ends_throw trivial
    · split
      · exact ends_throw trivial
      · exact h.pushGlobal preamble hf named (by simp [size]) rfl fun a => by rw [size]
  | scalar =>
    dsimp only
    cases init : f.initial? with
    | none => exact ends_throw trivial
    | some c => exact h.pushGlobal preamble hf named (by simp [init]) rfl fun a => by rw [size]

/-- The members declared so far, and what generating them has led to. -/
structure Midway (S : Source) (es : List ExternDecl) (fs : List FieldDecl) (ds : List Method)
    (s : GenState Builder) : Prop where
  preamble : Preamble False Module.empty (es.map (·.signature) ++ ds.map (·.signature))
    (fs.map (·.kind)) [[]] s
  registered : Registered S (es.map .foreign ++ fs.map .field ++ ds.map .method) s

theorem Midway.declareExtern {es : List ExternDecl} {e : ExternDecl} (h : Midway S es [] [] s)
    (there : S.externs[es.length]? = some e) (named : e.name ≠ "") :
    Ends (Gen.declareExtern e) s (fun _ s' => Midway S (es ++ [e]) [] [] s') fun _ => True := by
  have preamble : Ends (Gen.declareExtern e) s (fun _ s' =>
      Preamble False Module.empty (es.map (·.signature) ++ [] ++ [e.signature]) [] [[]] s')
      (Refusal False) :=
    Gen.ends_declareExtern h.preamble Builder.Reachable.empty.grounded.blocks False.elim
  have bound := h.registered.declareFunction h.preamble (x := .foreign e) named e.ret.repr
    (e.params.map fun p => (none, p.ty.repr)) (d := fun id => .function e.ret id e.params e.line)
    (fun m => ⟨_, there, by simp⟩) fun _ other => by cases other
  simp only [List.map_nil, List.append_nil] at bound
  have registered : Ends (Gen.declareExtern e) s
      (fun _ s' => Registered S (es.map .foreign ++ [.foreign e]) s') fun _ => True :=
    ends_bind bound fun _ _ h => h
  refine (preamble.lax.and registered).imp fun _ s' ⟨preamble, registered⟩ => ⟨?_, ?_⟩
  · simpa using preamble
  · simpa using registered

theorem Midway.declareField {fs : List FieldDecl} {f : FieldDecl}
    (h : Midway S S.externs fs [] s) (there : S.package.fields[fs.length]? = some f)
    (named : f.name ≠ "") :
    Ends (Gen.declareField f) s (fun _ s' => Midway S S.externs (fs ++ [f]) [] s')
      fun _ => True := by
  have preamble : Ends (Gen.declareField f) s (fun _ s' => Preamble False Module.empty
      (S.externs.map (·.signature) ++ []) (fs.map (·.kind) ++ [f.kind]) [[]] s')
      (Refusal False) :=
    Gen.ends_declareField h.preamble False.elim False.elim
  have registered := h.registered.declareField h.preamble (f := f) (by simpa using there) named
  refine (preamble.lax.and registered).imp fun _ s' ⟨preamble, registered⟩ => ⟨?_, ?_⟩
  · simpa using preamble
  · simpa using registered

theorem Midway.declareMethod {ds : List Method} {d : Method}
    (h : Midway S S.externs S.package.fields ds s)
    (there : S.package.methods[ds.length]? = some d) (named : d.name ≠ "") :
    Ends (Gen.declareMethod d) s
      (fun _ s' => Midway S S.externs S.package.fields (ds ++ [d]) s') fun _ => True := by
  have preamble : Ends (Gen.declareMethod d) s (fun id s' =>
      id = ⟨Module.empty.functions.size +
        (S.externs.map (·.signature) ++ ds.map (·.signature)).length⟩ ∧
      Preamble False Module.empty (S.externs.map (·.signature) ++ ds.map (·.signature) ++
        [d.signature]) (S.package.fields.map (·.kind)) [[]] s') (Refusal False) :=
    Gen.ends_declareMethod h.preamble Builder.Reachable.empty.grounded.blocks False.elim
  have bound := h.registered.declareFunction h.preamble (x := .method d) named d.ret.repr
    (d.params.map fun p => (p.name, p.ty.repr))
    (d := fun id => .function d.ret id d.params d.line)
    (fun m => ⟨_, there, by simp⟩) fun _ other => by cases other
  have registered : Ends (Gen.declareMethod d) s (fun _ s' => Registered S
      (S.externs.map .foreign ++ S.package.fields.map .field ++ ds.map .method ++ [.method d]) s')
      fun _ => True :=
    ends_bind bound fun _ _ h => ends_bind h fun _ _ h => ends_pure h
  refine (preamble.lax.and registered).imp fun _ s' ⟨⟨_, preamble⟩, registered⟩ => ⟨?_, ?_⟩
  · simpa using preamble
  · simpa using registered

section Lists

variable (named : ∀ x ∈ S.members, x.name ≠ "")

include named

theorem ends_declareExterns : ∀ (es pre : List ExternDecl) {s : GenState Builder},
    S.externs = pre ++ es → Midway S pre [] [] s →
    Ends (es.forM Gen.declareExtern) s (fun _ s' => Midway S S.externs [] [] s') fun _ => True
  | [], pre, s, all, h => by
    rw [all, List.append_nil]
    exact ends_pure h
  | e :: es, pre, s, all, h => by
    have there : S.externs[pre.length]? = some e := by simp [all]
    refine ends_bind (h.declareExtern there (named (.foreign e) ?_)) fun _ s' next =>
      ends_declareExterns es (pre ++ [e]) (by simp [all]) next
    simp [Source.members, List.mem_of_getElem? there]

theorem ends_declareFields : ∀ (fs pre : List FieldDecl) {s : GenState Builder},
    S.package.fields = pre ++ fs → Midway S S.externs pre [] s →
    Ends (fs.forM Gen.declareField) s (fun _ s' => Midway S S.externs S.package.fields [] s')
      fun _ => True
  | [], pre, s, all, h => by
    rw [all, List.append_nil]
    exact ends_pure h
  | f :: fs, pre, s, all, h => by
    have there : S.package.fields[pre.length]? = some f := by simp [all]
    refine ends_bind (h.declareField there (named (.field f) ?_)) fun _ s' next =>
      ends_declareFields fs (pre ++ [f]) (by simp [all]) next
    simp [Source.members, List.mem_of_getElem? there]

theorem ends_declareMethods : ∀ (ds pre : List Method) {s : GenState Builder},
    S.package.methods = pre ++ ds → Midway S S.externs S.package.fields pre s →
    Ends (ds.mapM Gen.declareMethod) s
      (fun _ s' => Midway S S.externs S.package.fields S.package.methods s') fun _ => True
  | [], pre, s, all, h => by
    rw [all, List.append_nil]
    exact ends_pure h
  | d :: ds, pre, s, all, h => by
    have there : S.package.methods[pre.length]? = some d := by simp [all]
    rw [List.mapM_cons]
    refine ends_bind (h.declareMethod there (named (.method d) ?_)) fun _ s' next =>
      ends_bind (ends_declareMethods ds (pre ++ [d]) (by simp [all]) next) fun _ s'' last =>
        ends_pure last
    simp [Source.members, List.mem_of_getElem? there]

/-- The declarations register all members. -/
theorem ends_declarations : Ends (declarations S.externs S.package) (.start Builder.empty)
    (fun _ s => Midway S S.externs S.package.fields S.package.methods s) fun _ => True := by
  rw [declarations]
  refine ends_bind (P := fun _ s => Midway S [] [] [] s)
    (ends_emit ⟨Preamble.start Builder.empty S.package.name, ?_⟩) fun _ s₁ h₁ =>
    ends_bind (ends_declareExterns named S.externs [] rfl h₁) fun _ s₂ h₂ =>
      ends_bind (ends_declareFields named S.package.fields [] rfl h₂) fun _ s₃ h₃ =>
        ends_declareMethods named S.package.methods [] rfl h₃
  exact {
    names := rfl
    distinct := List.nodup_nil
    denotes := fun x hx => by cases hx
    symbols := fun name used => by cases used
    globals := fun i G hG => by
      have none : (#[] : Array Global)[i]? = some G := hG
      simp at none
    valid := fun f hf => by cases hf
    params := fun g F hF => by
      have none : (#[] : Array Function)[g.index]? = some F := hF
      simp at none }

end Lists

/-- Under each name that is bound the member of that name is found. -/
theorem Registered.denotes_member? {s : GenState Builder}
    (h : Registered S S.members s) (name : String) :
    Option.Rel (Denotes S s.target.module) (s.scopes.package.lookup name) (S.member? name) := by
  cases found : s.scopes.package.lookup name with
  | none =>
    have free := h.lookup.1 found
    have absent : S.member? name = none := by
      refine List.find?_eq_none.2 fun x hx same => free ?_
      rw [← eq_of_beq same]
      exact List.mem_map_of_mem hx
    rw [absent]
    exact .none
  | some d =>
    obtain ⟨before, after, bindings, -⟩ := List.lookup_eq_some_iff.1 found
    obtain ⟨x, hx, same, there⟩ := h.denotes (name, d) (by simp [bindings])
    obtain rfl : x.name = name := same
    have member : S.member? x.name = some x := find?_of_mem h.distinct hx
    rw [member]
    exact .some there

/-- What is known in the end. -/
theorem Midway.linked {s s' : GenState Builder}
    (h : Midway S S.externs S.package.fields S.package.methods s)
    (built : Built False S.externs.length S.package.methods s.target.module s'.target.module)
    (ext : s.target.module.Extends s'.target.module)
    (coded : ∀ (i : Nat) d, S.package.methods[i]? = some d →
      s'.target.module.Coded ⟨S.externs.length + i⟩ s.scopes d) :
    Linked S s'.target.module s.scopes := by
  have generated : Generated False Module.empty S.externs S.package s'.target.module :=
    Preamble.generated (b := Builder.empty) h.preamble <| by
      rw [show Builder.empty.module.functions.size = 0 from rfl, Nat.zero_add]
      exact built
  have registered := h.registered
  constructor
  case generated => exact generated
  case inner => exact h.preamble.inner
  case distinct => exact registered.distinct
  case coded => exact coded
  case valid =>
    exact fun f hf => registered.valid f (by simp [hf])
  case denotes =>
    intro name d found
    rcases optionRel_cases (registered.denotes_member? name) with ⟨none, -⟩ | ⟨e, x, some, there, den⟩
    · rw [found] at none
      cases none
    · rw [found] at some
      cases some
      exact ⟨x, there, by simpa using List.find?_some there, den.mono ext⟩
  case fields =>
    intro i f hf
    obtain ⟨G, hG, kind⟩ := generated.field hf
    have held : i < s.target.module.globals.size := by
      have size := congrArg List.length h.preamble.globals
      have inside := (List.getElem?_eq_some_iff.1 hf).1
      simp [Module.empty] at size
      omega
    have before := Module.getElem?_of_prefix ext.globals (Array.getElem?_eq_getElem held)
    rw [hG] at before
    obtain ⟨id, f', hf', name⟩ := registered.globals i _ (Array.getElem?_eq_getElem held)
    rw [← Option.some.inj before] at id name
    rw [hf] at hf'
    cases hf'
    exact ⟨G, hG, id, name, kind⟩
  case params =>
    intro g F hF
    have old : g.index < s.target.module.functions.size := by
      refine Nat.lt_of_not_le fun large => ?_
      have size := h.preamble.size
      simp only [List.length_append, List.length_map] at size
      have none := generated.functions g (by omega)
      rw [hF] at none
      cases none
    obtain ⟨F', hF', -, -, params⟩ :=
      ext.functions g _ (Array.getElem?_eq_getElem old)
    rw [hF] at hF'
    cases hF'
    rw [params]
    exact registered.params g _ (Array.getElem?_eq_getElem old)

/-- A compiled program is linked. -/
theorem exists_linked {options : Options} {program : Program} {m : Module}
    {warnings : List Warning} (compiled : compile options program = .ok (m, warnings)) :
    ∃ package, program.package = some package ∧ ((∀ x ∈ (Source.mk program.externs package).members,
      x.name ≠ "") → ∃ scopes, Linked ⟨program.externs, package⟩ m scopes) := by
  cases there : program.package with
  | none =>
    rw [compile_eq_missing there] at compiled
    cases compiled
  | some package =>
    refine ⟨package, rfl, fun named => ?_⟩
    have first := (@Gen.ends_declarations False [[]] [[]] [[]] Builder.empty program.externs package
      Builder.Reachable.empty.grounded.blocks False.elim False.elim False.elim).lax.and
        (ends_declarations named)
    have ends : Ends (Gen.program options program.externs package) (.start Builder.empty)
        (fun _ s' => ∃ scopes, Linked ⟨program.externs, package⟩ s'.target.module scopes)
        fun _ => True := by
      rw [program_eq]
      refine ends_bind first ?_
      rintro ids s ⟨⟨rfl, preamble⟩, midway⟩
      have pending := preamble.pending (b := Builder.empty)
        Builder.Reachable.empty.grounded.issues False.elim
      refine ((ends_defineMethods False.elim package.methods pending).lax.and
        (ends_defineMethods_shape package.methods pending)).imp ?_
      rintro _ s' ⟨built, ext, coded, -⟩
      rw [show Builder.empty.module.functions.size = 0 from rfl, Nat.zero_add] at built coded
      exact ⟨s.scopes, midway.linked built ext coded⟩
    rw [compile_eq_map there] at compiled
    rw [Ends] at ends
    generalize (Gen.program options program.externs package).run.run (.start Builder.empty) =
      out at compiled ends
    obtain ⟨e | u, s⟩ := out
    · cases compiled
    · cases compiled
      exact ends

end

end Decaf.Meaning
