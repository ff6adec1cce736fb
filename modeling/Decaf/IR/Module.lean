import Decaf.IR.Type

/-!
# Modules

A module holds its functions, basic blocks, values and globals in four arrays, and
everything inside refers to them by position. Each kind of position has a type of its
own. A value is whatever an operand can name: a constant, a parameter, the address of
a global or the result of an instruction.

Positions are natural numbers. In words of 32 bits they are the same as long as no array has
more than 2³² entries. A position that was never handed out is looked up like any other, and
nothing is found there.
-/

namespace Decaf.IR

structure ValueId where
  index : Nat
  deriving DecidableEq, Repr

structure BlockId where
  index : Nat
  deriving DecidableEq, Repr

structure FunctionId where
  index : Nat
  deriving DecidableEq, Repr

structure GlobalId where
  index : Nat
  deriving DecidableEq, Repr

/-- Where a value comes from. An instruction that was given no place in the module
leaves its value without a block, or with the block it was meant for. -/
inductive Origin where
  | const (c : Const)
  | param (function : FunctionId) (index : Nat)
  | inst (block : Option BlockId)
  | global (g : GlobalId)
  deriving DecidableEq, Repr

structure ValueInfo where
  ty : Ty
  origin : Origin
  name : Option String
  deriving DecidableEq, Repr

inductive Inst where
  | alloca (dst : ValueId) (ty : Ty)
  | load (dst : ValueId) (ty : Ty) (address : ValueId)
  | store (value address : ValueId)
  | elementPtr (dst : ValueId) (ty : Ty) (base index : ValueId)
  | binary (dst : ValueId) (op : BinOp) (lhs rhs : ValueId)
  | unary (dst : ValueId) (op : UnOp) (operand : ValueId)
  | zext (dst value : ValueId) (ty : Ty)
  | phi (dst : ValueId) (ty : Ty) (incoming : List (ValueId × BlockId))
  | call (dst : Option ValueId) (callee : FunctionId) (args : List ValueId)
  deriving DecidableEq, Repr

/-- How control leaves a block. -/
inductive Terminator where
  | br (target : BlockId)
  | condBr (cond : ValueId) (thenBlock elseBlock : BlockId)
  | ret (value : Option ValueId)
  | unreachable
  deriving DecidableEq, Repr

/-- A block is open as long as it has no terminator. -/
structure Block where
  id : BlockId
  function : FunctionId
  label : String
  insts : Array Inst
  terminator : Option Terminator
  deriving DecidableEq, Repr

structure Param where
  name : Option String
  ty : Ty
  value : ValueId
  deriving DecidableEq, Repr

/-- A function without blocks is a declaration. Otherwise its first block is where
control enters it. -/
structure Function where
  id : FunctionId
  name : String
  ret : Ty
  params : List Param
  blocks : Array BlockId
  deriving DecidableEq, Repr

inductive GlobalKind where
  | scalar (ty : Ty) (init : Const)
  | array (ty : Ty) (length : Nat)
  | string (bytes : List UInt8)
  deriving DecidableEq, Repr

/-- The value of a global is its address. -/
structure Global where
  id : GlobalId
  name : String
  kind : GlobalKind
  value : ValueId
  deriving DecidableEq, Repr

/-- Why an instruction was given no place in the module. -/
inductive EmitIssue where
  | afterTerminator (block : BlockId)
  | noInsertionPoint
  deriving DecidableEq, Repr

structure Module where
  name : String
  globals : Array Global
  functions : Array Function
  blocks : Array Block
  values : Array ValueInfo
  issues : Array (Option FunctionId × EmitIssue)
  deriving DecidableEq, Repr

namespace Inst

/-- The value that the instruction defines. -/
def defined? : Inst → Option ValueId
  | alloca dst _ => some dst
  | load dst _ _ => some dst
  | store _ _ => none
  | elementPtr dst _ _ _ => some dst
  | binary dst _ _ _ => some dst
  | unary dst _ _ => some dst
  | zext dst _ _ => some dst
  | phi dst _ _ => some dst
  | call dst _ _ => dst

def isAlloca : Inst → Bool
  | alloca _ _ => true
  | _ => false

def isPhi : Inst → Bool
  | phi _ _ _ => true
  | _ => false

end Inst

/-- The blocks to which control can go, in the order in which the terminator names them. -/
def Terminator.successors : Terminator → List BlockId
  | br target => [target]
  | condBr _ thenBlock elseBlock => [thenBlock, elseBlock]
  | ret _ => []
  | unreachable => []

def Function.isDeclaration (f : Function) : Bool :=
  f.blocks.isEmpty

def Function.entry? (f : Function) : Option BlockId :=
  f.blocks[0]?

namespace Module

def empty : Module := ⟨"", #[], #[], #[], #[], #[]⟩

def value? (m : Module) (v : ValueId) : Option ValueInfo :=
  m.values[v.index]?

def block? (m : Module) (b : BlockId) : Option Block :=
  m.blocks[b.index]?

def function? (m : Module) (f : FunctionId) : Option Function :=
  m.functions[f.index]?

/-- The type of a value. A position that holds no value has type `void`. -/
def typeOf (m : Module) (v : ValueId) : Ty :=
  match m.value? v with
  | some info => info.ty
  | none => .void

/-- The label of a block, empty for a position that holds no block. -/
def labelOf (m : Module) (b : BlockId) : String :=
  match m.block? b with
  | some block => block.label
  | none => ""

/-- The function to which a block belongs. -/
def functionOf? (m : Module) (b : BlockId) : Option FunctionId :=
  (m.block? b).map (·.function)

/-- The function with the given name that was declared first. -/
def functionByName? (m : Module) (name : String) : Option Function :=
  m.functions.find? (·.name == name)

/-- The global with the given name that was created first. -/
def globalByName? (m : Module) (name : String) : Option Global :=
  m.globals.find? (·.name == name)

def blocksOf (m : Module) (f : FunctionId) : List BlockId :=
  match m.function? f with
  | some function => function.blocks.toList
  | none => []

/-- The blocks to which control can go from a block; none if it is open. -/
def successorsOf (m : Module) (b : BlockId) : List BlockId :=
  match (m.block? b).bind (·.terminator) with
  | some terminator => terminator.successors
  | none => []

/-- The blocks of `f` from which control can go to `b`, in layout order. -/
def predecessors (m : Module) (f : FunctionId) (b : BlockId) : List BlockId :=
  (m.blocksOf f).filter fun p => b ∈ m.successorsOf p

theorem mem_predecessors {m : Module} {f : FunctionId} {b p : BlockId} :
    p ∈ m.predecessors f b ↔ p ∈ m.blocksOf f ∧ b ∈ m.successorsOf p := by
  simp [predecessors]

end Module

end Decaf.IR
