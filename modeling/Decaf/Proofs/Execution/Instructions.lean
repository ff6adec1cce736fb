import Decaf.Proofs.Execution.Frames
import Decaf.Proofs.Generation.Outcome

/-!
# Carrying out instructions

One instruction of a finished function either goes through, and everything known about the
call holds after it, or stops the run for a reason that the function cannot help: division
by zero, a limit, a host without an answer, an access outside of an array or, where types
are not known, a value of the wrong type.
-/

namespace Decaf

open IR

/-- The address through which an instruction reads or writes memory. -/
def IR.Inst.access? : Inst → Option ValueId
  | .load _ _ address => some address
  | .store _ address => some address
  | _ => none

namespace Execution

/-- The reasons for which a run of a finished function may stop. -/
def Excused (typed : Prop) (overruns : Int → Nat → Prop) : Fault → Prop
  | .type _ => ¬ typed
  | .outOfBounds offset length => overruns offset length
  | .divisionByZero | .unboundExtern _ => True
  | .stepLimitExceeded _ | .callDepthExceeded _ | .stackSlotsExceeded _ => True
  | .unknownFunction _ | .arityMismatch _ _ _ => False
  | .unterminated _ | .unreachable | .undefinedValue | .missingPhiIncoming => False
  | .nullDereference => False

section Arithmetic

variable {typed : Prop} {overruns : Int → Nat → Prop}

theorem judged_intBinary (op : BinOp) (a b : Int32) :
    Judged (intBinary op a b) (fun x => x.ty = op.resultTy .i32) (Excused typed overruns) := by
  cases op
  case sdiv =>
    rw [intBinary]
    split
    · rfl
    · trivial
  case srem =>
    rw [intBinary]
    split
    · rfl
    · trivial
  all_goals rfl

theorem judged_boolBinary (op : BinOp) (a b : Bool) (type : typed → op = .eq ∨ op = .ne) :
    Judged (boolBinary op a b) (fun x => x.ty = op.resultTy .i1) (Excused typed overruns) := by
  cases op
  case eq => rfl
  case ne => rfl
  all_goals exact fun t => by rcases type t with h | h <;> cases h

theorem judged_binary (op : BinOp) {l r : Value} (type : typed → l.ty = r.ty ∧
      (l.ty = .i32 ∨ l.ty = .i1 ∧ (op = .eq ∨ op = .ne))) :
    Judged (binary op l r) (fun x => x.ty = op.resultTy l.ty) (Excused typed overruns) := by
  cases l with
  | int a =>
    cases r with
    | int b => exact judged_intBinary op a b
    | bool b => exact fun t => by cases (type t).1
    | pointer q => exact fun t => by cases (type t).1
  | bool a =>
    cases r with
    | int b => exact fun t => by cases (type t).1
    | bool b =>
      refine judged_boolBinary op a b fun t => ?_
      rcases (type t).2 with other | ⟨-, equality⟩
      · cases other
      · exact equality
    | pointer q => exact fun t => by cases (type t).1
  | pointer q =>
    have stuck (t : typed) : False := by
      rcases (type t).2 with other | ⟨other, -⟩ <;> cases other
    cases r <;> exact stuck

theorem judged_unary (op : UnOp) {y : Value}
    (type : typed → y.ty = .i32 ∨ y.ty = .i1 ∧ op = .not) :
    Judged (unary op y) (fun x => x.ty = y.ty) (Excused typed overruns) := by
  cases op with
  | not =>
    cases y with
    | int n => rfl
    | bool b => rfl
    | pointer q => exact fun t => by rcases type t with other | ⟨other, -⟩ <;> cases other
  | neg =>
    cases y with
    | int n => rfl
    | bool b => exact fun t => by rcases type t with other | ⟨-, other⟩ <;> cases other
    | pointer q => exact fun t => by rcases type t with other | ⟨other, -⟩ <;> cases other

end Arithmetic

namespace Active

variable {typed : Prop} {m : Module} {p : Plan} {memory : Memory} {mark : Nat} {b : BlockId}
  {vs : Values} {pre post : List Inst} {overruns : Int → Nat → Prop}

section

variable {slots : List (ValueId × IR.Ty)} (h : Active typed m p memory mark b vs slots pre)
  {v : ValueId}

include h

theorem judged_operand (usable : m.Usable p (p.avail b ++ defined pre) v) :
    Judged (Execution.operand m vs v) (fun x => typed → x.ty = m.typeOf v)
      (Excused typed overruns) := by
  obtain ⟨x, hx, type⟩ := h.operand usable
  rw [hx]
  exact type

theorem judged_boolOperand (usable : m.Usable p (p.avail b ++ defined pre) v)
    (bool : typed → m.typeOf v = .i1) :
    Judged (boolOperand m vs v) (fun _ => True) (Excused typed overruns) := by
  refine judged_bind (h.judged_operand usable) fun x type => ?_
  cases x with
  | bool b => trivial
  | int n => exact fun t => by have := (type t).trans (bool t); cases this
  | pointer q => exact fun t => by have := (type t).trans (bool t); cases this

theorem judged_intOperand (usable : m.Usable p (p.avail b ++ defined pre) v)
    (int : typed → m.typeOf v = .i32) :
    Judged (intOperand m vs v) (fun n => intOperand m vs v = .ok n)
      (Excused typed overruns) := by
  have only : Judged (intOperand m vs v) (fun _ => True) (Excused typed overruns) := by
    refine judged_bind (h.judged_operand usable) fun x type => ?_
    cases x with
    | int n => trivial
    | bool b => exact fun t => by have := (type t).trans (int t); cases this
    | pointer q => exact fun t => by have := (type t).trans (int t); cases this
  revert only
  cases intOperand m vs v with
  | ok n => exact fun _ => rfl
  | error e => exact id

end

variable (h : Active typed m p memory mark b vs (m.slotsOf p.entry) pre)

include h

/-- The address of an element is in the array, at the value of the index. -/
theorem judged_elementPtr {dst base index : ValueId} {ty : IR.Ty}
    (ok : m.InstOk typed p b pre (.elementPtr dst ty base index)) :
    Judged (evaluate m vs memory (.elementPtr dst ty base index))
      (fun vs' => Active typed m p memory mark b vs' (m.slotsOf p.entry)
        (pre ++ [.elementPtr dst ty base index])) (Excused typed overruns) := by
  obtain ⟨defines, apart, ⟨length, g, name, G, value, hG, kind⟩, usable, type⟩ := ok
  have start : pointerOperand m vs base = .ok (.start g.index) :=
    pointerOperand_of_operand (operand_global value)
  rw [evaluate, start]
  refine judged_bind (P := fun n => intOperand m vs index = .ok n)
    (h.judged_intOperand usable type) fun n hn => ?_
  refine h.define (fun _ mem => mem) defines (fun _ => rfl) rfl fun a ty' base' index' same => ?_
  cases same
  refine ⟨n, g, name, value, ?_, ?_⟩
  · rw [intOperand_set_of_ne apart, hn]
  · rw [Values.get?_set, if_pos rfl]

variable (body : m.Body typed p) (covers : memory.Covers typed m)

include body covers

/-- What is at an address: its region, whether it can be read there, and why not. -/
theorem judged_read {a : ValueId} {ty : IR.Ty} (code : m.codeOf b = pre ++ post)
    (isAddress : m.IsAddress p pre a ty) :
    Judged (do let q ← pointerOperand m vs a; memory.read q) (fun x => typed → x.ty = ty)
      (Excused typed (Overruns m vs pre a)) := by
  obtain ⟨region, offset, length, hq, held, overruns⟩ := h.address body covers code isAddress
  have whole : (do let q ← pointerOperand m vs a; memory.read q) =
      memory.read ⟨some region, offset⟩ := by
    rw [hq]
    rfl
  rw [whole]
  rcases held.read offset with ⟨x, hx, type⟩ | outside
  · rw [hx]
    exact type
  · rw [outside]
    refine overruns fun inside => ?_
    have found := outside
    obtain ⟨x, hx, -⟩ := held.get? offset.toNat (by omega)
    simp [Memory.read, held.locate, inside, hx, bind, Except.bind] at found

theorem judged_load {dst a : ValueId} {ty : IR.Ty}
    (code : m.codeOf b = pre ++ .load dst ty a :: post)
    (ok : m.InstOk typed p b pre (.load dst ty a)) :
    Judged (evaluate m vs memory (.load dst ty a))
      (fun vs' => Active typed m p memory mark b vs' (m.slotsOf p.entry)
        (pre ++ [.load dst ty a]))
      (Excused typed (Overruns m vs pre a)) := by
  obtain ⟨defines, isAddress⟩ := ok
  have split : evaluate m vs memory (.load dst ty a) =
      ((do let q ← pointerOperand m vs a; memory.read q) >>= fun x =>
        if x.ty = ty then .ok (vs.set dst x) else .error (.type (.load ty x))) := by
    rw [evaluate]
    cases pointerOperand m vs a <;> rfl
  rw [split]
  refine judged_bind (h.judged_read body covers code isAddress) fun x type => ?_
  split
  · rename_i fits
    exact h.define (fun _ mem => mem) defines (fun _ => fits) rfl fun _ _ _ _ same => by cases same
  · rename_i other
    exact fun t => other (type t)

/-- Instructions that leave memory as it is. -/
theorem judged_evaluate {i : Inst} (code : m.codeOf b = pre ++ i :: post)
    (ok : m.InstOk typed p b pre i) (notStore : ∀ v a, i ≠ .store v a)
    (notCall : ∀ d g args, i ≠ .call d g args) :
    Judged (evaluate m vs memory i)
      (fun vs' => Active typed m p memory mark b vs' (m.slotsOf p.entry) (pre ++ [i]))
      (Excused typed fun offset length =>
        ∃ a, i.access? = some a ∧ Overruns m vs pre a offset length) := by
  cases i with
  | alloca => cases ok
  | phi => cases ok
  | store v a => exact absurd rfl (notStore v a)
  | call d g args => exact absurd rfl (notCall d g args)
  | load dst ty a =>
    exact (h.judged_load body covers code ok).mono (fun _ h => h) fun e excused => by
      cases e with
      | outOfBounds offset length => exact ⟨a, rfl, excused⟩
      | _ => exact excused
  | elementPtr dst ty base index =>
    exact h.judged_elementPtr ok
  | binary dst op l r =>
    obtain ⟨defines, left, right, type⟩ := ok
    rw [evaluate]
    refine judged_bind (h.judged_operand left) fun x xty => ?_
    refine judged_bind (h.judged_operand right) fun y yty => ?_
    refine judged_bind (judged_binary op fun t => ?_) fun z zty => ?_
    · rw [xty t, yty t]
      exact type t
    · refine h.define (fun _ mem => mem) defines (fun t => ?_) rfl fun _ _ _ _ same => by cases same
      rw [zty, xty t]
  | unary dst op v =>
    obtain ⟨defines, usable, type⟩ := ok
    rw [evaluate]
    refine judged_bind (h.judged_operand usable) fun y yty => ?_
    refine judged_bind (judged_unary op fun t => ?_) fun x xty => ?_
    · rw [yty t]
      exact type t
    · refine h.define (fun _ mem => mem) defines (fun t => ?_) rfl fun _ _ _ _ same => by cases same
      rw [xty, yty t]
  | zext dst v ty =>
    obtain ⟨defines, usable, bool, rfl⟩ := ok
    rw [evaluate]
    refine judged_bind (h.judged_boolOperand usable fun _ => bool) fun x _ => ?_
    exact h.define (fun _ mem => mem) defines (fun _ => rfl) rfl fun _ _ _ _ same => by cases same

/-- A store goes into the region of its address, or nowhere. -/
theorem judged_store {v a : ValueId} (code : m.codeOf b = pre ++ .store v a :: post)
    (ok : m.InstOk typed p b pre (.store v a)) :
    Judged (storeTarget m vs memory v a)
      (fun x => (∀ k, memory.Keeps typed (memory.set x.2 x.1) k) ∧
        Active typed m p (memory.set x.2 x.1) mark b vs (m.slotsOf p.entry) (pre ++ [.store v a]))
      (Excused typed (Overruns m vs pre a)) := by
  obtain ⟨usable, ty, isAddress, type⟩ := ok
  obtain ⟨region, offset, length, hq, held, overruns⟩ := h.address body covers code isAddress
  rw [storeTarget, hq]
  refine judged_bind (h.judged_operand usable) fun x xty => ?_
  show Judged (memory.locate ⟨some region, offset⟩ >>= fun c => .ok (x, c)) _ _
  rw [held.locate]
  split
  · rename_i inside
    have keeps := Memory.keeps_set held offset.toNat (by omega)
      (fun t => (xty t).trans (type t) : typed → x.ty = ty)
    exact ⟨keeps, (h.keeps (keeps _)).skip rfl⟩
  · rename_i outside
    exact overruns outside

end Active

end Execution

end Decaf
