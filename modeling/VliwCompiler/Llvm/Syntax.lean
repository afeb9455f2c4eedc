import VliwCompiler.Asm.Program

/-!
# LLVM modules

The part of an LLVM module that the backend looks at.  Values and blocks are
referred to by address; the address of a block is its index in the function.
Constants other than integers and addresses, such as `undef`, are kept apart
because the backend treats them differently from one place to another.
-/

namespace VliwCompiler.Llvm

open Asm (I64)

/-- The address of a parameter or of an instruction. -/
abbrev ValueRef := Nat

/-- The address of a basic block. -/
abbrev BlockRef := Nat

/-- Types of values. -/
inductive Ty where
  | int (bits : Nat)
  | ptr
  | void
  | other
  deriving DecidableEq, Repr

/-- A value operand.  `constInt` carries its sign-extended value; `constAddress`
is the `inttoptr` expression of an integer constant, also with its width and its
sign-extended value, and `constCast` that of a constant that is not an integer. -/
inductive Operand where
  | constInt (bits : Nat) (value : I64)
  | constAddress (bits : Nat) (value : I64)
  | constCast
  | const (type : Ty)
  | ref (value : ValueRef) (type : Ty)
  deriving DecidableEq, Repr

/-- The address of a parameter or instruction used as an operand; the addresses
of constants are not those of any of them. -/
def Operand.ref? : Operand → Option ValueRef
  | .ref value _ => some value
  | _ => none

/-- The type of an operand. -/
def Operand.type : Operand → Ty
  | .constInt bits _ => .int bits
  | .constAddress _ _ | .constCast => .ptr
  | .const type | .ref _ type => type

inductive BinaryOp where
  | add | sub | mul | and | or | xor | shl | lshr | ashr
  deriving DecidableEq, Repr

inductive IntPredicate where
  | eq | ne | ugt | uge | ult | ule | sgt | sge | slt | sle
  deriving DecidableEq, Repr

/-- The callee of a call. -/
inductive Callee where
  | function (name : String)
  | indirect
  deriving DecidableEq, Repr

/-- What an instruction does. -/
inductive Operation where
  | phi (incoming : List (Operand × BlockRef))
  | ret (value : Option Operand)
  | condBr (cond : Operand) (ifTrue ifFalse : BlockRef)
  | br (target : BlockRef)
  | call (callee : Callee) (arguments : List Operand)
  | icmp (predicate : IntPredicate) (lhs rhs : Operand)
  | binary (op : BinaryOp) (lhs rhs : Operand)
  | store (value pointer : Operand)
  | load (pointer : Operand)
  | getElementPtr (element : Ty) (base : Operand) (indices : List Operand)
  | invoke
  | atomic
  | other (operands : List Operand)
  deriving DecidableEq, Repr

/-- The value operands of an instruction. -/
def Operation.operands : Operation → List Operand
  | .phi incoming => incoming.map (·.1)
  | .ret value => value.toList
  | .condBr cond _ _ => [cond]
  | .br _ | .invoke | .atomic => []
  | .call _ arguments => arguments
  | .icmp _ lhs rhs | .binary _ lhs rhs => [lhs, rhs]
  | .store value pointer => [value, pointer]
  | .load pointer => [pointer]
  | .getElementPtr _ base indices => base :: indices
  | .other operands => operands

/-- The operation ends a block. -/
def Operation.isTerminator : Operation → Bool
  | .ret _ | .condBr _ _ _ | .br _ | .invoke => true
  | _ => false

/-- An instruction with its address and the type of its result. -/
structure Instruction where
  ref : ValueRef
  type : Ty
  operation : Operation
  deriving DecidableEq, Repr

/-- A basic block; the name may be empty. -/
structure Block where
  name : String
  instructions : List Instruction
  deriving DecidableEq, Repr

/-- A function parameter. -/
structure Param where
  ref : ValueRef
  type : Ty
  deriving DecidableEq, Repr

/-- A function; declarations have no blocks. -/
structure Function where
  name : String
  params : List Param
  returnType : Ty
  blocks : List Block
  deriving DecidableEq, Repr

/-- A module as a list of functions. -/
abbrev Module := List Function

/-- The number of blocks of the named function. -/
def countBasicBlocks (module : Module) (name : String) : Nat :=
  ((module.find? (·.name = name)).map (·.blocks.length)).getD 0

end VliwCompiler.Llvm
