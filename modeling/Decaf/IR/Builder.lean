import Decaf.IR.NameTable
import Decaf.IR.Command

/-!
# The module builder

A builder holds the module built so far, the block at whose end instructions are
inserted, and one name table for the symbols of the module and one for the names inside
each function. Nothing stops the user of a builder: an instruction for which there is no
place, because no block was chosen or the chosen one already has its terminator, is left
out of the module, and an issue is recorded there.
-/

namespace Decaf.IR

structure Builder where
  module : Module
  /-- The block at whose end instructions are inserted. -/
  insertion : Option BlockId
  symbols : NameTable
  /-- For each function the names of its parameters, blocks and instructions. -/
  locals : Array NameTable
  deriving DecidableEq, Repr

/-- Puts an instruction after the allocas with which the block begins. -/
def Block.hoist (inst : Inst) (block : Block) : Block :=
  let insts := block.insts.toList
  { block with
    insts := (insts.takeWhile Inst.isAlloca ++ inst :: insts.dropWhile Inst.isAlloca).toArray }

def Block.push (inst : Inst) (block : Block) : Block :=
  { block with insts := block.insts.push inst }

def Block.close (terminator : Terminator) (block : Block) : Block :=
  { block with terminator := some terminator }

namespace Builder

def empty : Builder := ⟨Module.empty, none, NameTable.empty, #[]⟩

/-- The function to which the insertion point belongs. -/
def insertionFunction? (b : Builder) : Option FunctionId :=
  b.insertion.bind b.module.functionOf?

/-- A block has its terminator. A position that holds no block counts as closed. -/
def isClosed (b : Builder) (block : BlockId) : Bool :=
  match b.module.block? block with
  | some data => data.terminator.isSome
  | none => true

/-- No instruction can be inserted where the builder stands. -/
def isTerminated (b : Builder) : Bool :=
  match b.insertion with
  | some block => b.isClosed block
  | none => true

/-- The value of a parameter. -/
def parameter? (b : Builder) (f : FunctionId) (index : Nat) : Option ValueId := do
  let function ← b.module.function? f
  let param ← function.params[index]?
  return param.value

def record (b : Builder) (issue : EmitIssue) : Builder :=
  { b with module.issues := b.module.issues.push (b.insertionFunction?, issue) }

def modifyBlock (b : Builder) (block : BlockId) (change : Block → Block) : Builder :=
  { b with module.blocks := b.module.blocks.modify block.index change }

/-- Changes the block at the insertion point, or records why it must not be changed. -/
def extend (b : Builder) (change : Block → Block) : Builder :=
  match b.insertion with
  | none => b.record .noInsertionPoint
  | some block =>
    if b.isClosed block then b.record (.afterTerminator block) else b.modifyBlock block change

def pushValue (b : Builder) (info : ValueInfo) : ValueId × Builder :=
  (⟨b.module.values.size⟩, { b with module.values := b.module.values.push info })

/-- A name inside a function. Outside of every function there are no names. -/
def localName (b : Builder) (f : Option FunctionId) (hint : String) :
    Option String × Builder :=
  match f.bind fun f => b.locals[f.index]?.map (f, ·) with
  | some (f, names) =>
    let (name, names) := names.unique hint
    (some name, { b with locals := b.locals.setIfInBounds f.index names })
  | none => (none, b)

/-- Inserts an instruction that defines a new value. The value exists and has its name
even if the instruction finds no place. -/
def emit (b : Builder) (ty : Ty) (hint : String) (inst : ValueId → Inst) :
    ValueId × Builder :=
  let (name, b) := b.localName b.insertionFunction? hint
  let (dst, b) := b.pushValue ⟨ty, .inst b.insertion, name⟩
  (dst, b.extend (Block.push (inst dst)))

def pushGlobal (b : Builder) (hint : String) (kind : GlobalKind) : ValueId × Builder :=
  let id : GlobalId := ⟨b.module.globals.size⟩
  let (name, symbols) := b.symbols.unique hint
  let (value, b) := pushValue { b with symbols } ⟨.ptr, .global id, some name⟩
  (value, { b with module.globals := b.module.globals.push ⟨id, name, kind, value⟩ })

/-- Declares a function under exactly the given name: two functions may share one. The
name is taken in the table all the same, so that no later global gets it. -/
def declareFunction (b : Builder) (name : String) (ret : Ty)
    (params : List (Option String × Ty)) : FunctionId × Builder :=
  let id : FunctionId := ⟨b.module.functions.size⟩
  let first := b.module.values.size
  let (names, table) := NameTable.empty.uniqueAll (params.map fun p => p.1.getD "")
  let infos := (params.zip names).mapIdx fun i (p, printed) =>
    (⟨p.2, .param id i, some printed⟩ : ValueInfo)
  let declared := params.mapIdx fun i p => (⟨p.1, p.2, ⟨first + i⟩⟩ : Param)
  (id, { b with
    module.values := b.module.values ++ infos
    module.functions := b.module.functions.push ⟨id, name, ret, declared, #[]⟩
    symbols := (b.symbols.unique name).2
    locals := b.locals.push table })

def appendBlock (b : Builder) (f : FunctionId) (hint : String) : BlockId × Builder :=
  let id : BlockId := ⟨b.module.blocks.size⟩
  let (label, b) := b.localName (some f) hint
  (id, { b with
    module.blocks := b.module.blocks.push ⟨id, f, label.getD hint, #[], none⟩
    module.functions := b.module.functions.modify f.index fun function =>
      { function with blocks := function.blocks.push id } })

/-- Reserves a stack slot in the entry block of the current function, wherever the
insertion point is and even if that block has its terminator. -/
def alloca (b : Builder) (ty : Ty) (hint : String) : ValueId × Builder :=
  let f := b.insertionFunction?
  let entry := (f.bind b.module.function?).bind Function.entry?
  let (name, b) := b.localName f hint
  let (dst, b) := b.pushValue ⟨.ptr, .inst entry, name⟩
  match entry with
  | some entry => (dst, b.modifyBlock entry (Block.hoist (.alloca dst ty)))
  | none => (dst, b.record .noInsertionPoint)

/-- Only a call of a function that returns a value defines one. -/
def call (b : Builder) (callee : FunctionId) (args : List ValueId) :
    Option ValueId × Builder :=
  let ret := ((b.module.function? callee).map (·.ret)).getD .void
  if ret = .void then
    (none, b.extend (Block.push (.call none callee args)))
  else
    let (dst, b) := b.emit ret "call" fun dst => .call (some dst) callee args
    (some dst, b)

/-- Carries out a command. -/
def perform (b : Builder) : Command r → r.Carrier × Builder
  | .setModuleName name => ((), { b with module.name := name })
  | .declareFunction name ret params => b.declareFunction name ret params
  | .appendBlock f hint => b.appendBlock f hint
  | .positionAtEnd block => ((), { b with insertion := some block })
  | .terminate terminator => ((), b.extend (Block.close terminator))
  | .alloca ty hint => b.alloca ty hint
  | .load ty address hint => b.emit ty hint fun dst => .load dst ty address
  | .store value address => ((), b.extend (Block.push (.store value address)))
  | .elementPtr ty base index => b.emit .ptr "elem" fun dst => .elementPtr dst ty base index
  | .binary op lhs rhs hint =>
    b.emit (op.resultTy (b.module.typeOf lhs)) hint fun dst => .binary dst op lhs rhs
  | .unary op operand hint =>
    b.emit (b.module.typeOf operand) hint fun dst => .unary dst op operand
  | .zext value ty => b.emit ty "zext" fun dst => .zext dst value ty
  | .phi ty incoming hint => b.emit ty hint fun dst => .phi dst ty incoming
  | .call callee args => b.call callee args
  | .globalScalar hint ty init => b.pushGlobal hint (.scalar ty init)
  | .globalArray hint ty length => b.pushGlobal hint (.array ty length)
  | .globalString contents => b.pushGlobal ".str" (.string contents.toUTF8.toList)
  | .const c => b.pushValue ⟨c.ty, .const c, none⟩

theorem insertion_extend (b : Builder) (change : Block → Block) :
    (b.extend change).insertion = b.insertion := by
  unfold extend
  split
  · rfl
  · split <;> rfl

/-- Where the insertion point is in an open block, that block is changed. -/
theorem extend_of_open {b : Builder} {block : BlockId} {change : Block → Block}
    (h : b.insertion = some block) (isOpen : b.isClosed block = false) :
    b.extend change = b.modifyBlock block change := by
  simp [extend, h, isOpen]

end Builder

end Decaf.IR
