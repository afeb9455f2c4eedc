import VliwCompiler.Llvm.Syntax
import VliwCompiler.Data.Truncation

/-!
# Integer computations

The meaning of the integer instructions of LLVM.  Values of every width are kept
in the low bits of words.  A shift by at least the width of its operands is
poison, and so is everything computed from poison.
-/

namespace VliwCompiler.Llvm

open Asm (I64)
open Truncation (Reading)

/-- The width of an integer type. -/
def Ty.width : Ty → Nat
  | .int bits => bits
  | _ => 0

@[simp]
theorem Ty.width_int (bits : Nat) : (Ty.int bits).width = bits := rfl

/-- A shift, unless the amount is out of range. -/
def shiftBy {bits : Nat} (amount : BitVec bits) (shifted : Nat → BitVec bits) :
    Option (BitVec bits) :=
  if amount.toNat < bits then some (shifted amount.toNat) else none

/-- The result of an operation on integers of the same width. -/
def BinaryOp.eval {bits : Nat} (left right : BitVec bits) : BinaryOp → Option (BitVec bits)
  | .add => some (left + right)
  | .sub => some (left - right)
  | .mul => some (left * right)
  | .and => some (left &&& right)
  | .or => some (left ||| right)
  | .xor => some (left ^^^ right)
  | .shl => shiftBy right fun amount => left <<< amount
  | .lshr => shiftBy right fun amount => left >>> amount
  | .ashr => shiftBy right fun amount => left.sshiftRight amount

/-- The result of a comparison of integers of the same width. -/
def IntPredicate.eval {bits : Nat} (left right : BitVec bits) : IntPredicate → Bool
  | .eq => left == right
  | .ne => left != right
  | .ugt => right.ult left
  | .uge => right.ule left
  | .ult => left.ult right
  | .ule => left.ule right
  | .sgt => right.slt left
  | .sge => right.sle left
  | .slt => left.slt right
  | .sle => left.sle right

/-- An integer as an address: a narrower one is zero-extended, a wider one
truncated. -/
def intToPtr (bits : Nat) (value : I64) : I64 := (value.setWidth bits).setWidth 64

/-- The values computed so far; poison has none. -/
abbrev Env := ValueRef → Option I64

/-- An operand as an integer of the given width. -/
def Operand.eval (env : Env) (bits : Nat) : Operand → Option (BitVec bits)
  | .constInt _ value => some (value.setWidth bits)
  | .ref key _ => (env key).map (·.setWidth bits)
  | _ => none

/-- The value of an integer instruction. -/
def Instruction.eval (env : Env) (instruction : Instruction) : Option I64 :=
  match instruction.operation with
  | .binary op lhs rhs => do
      let left ← lhs.eval env lhs.type.width
      let right ← rhs.eval env lhs.type.width
      let result ← op.eval left right
      return result.setWidth 64
  | .icmp predicate lhs rhs => do
      let left ← lhs.eval env lhs.type.width
      let right ← rhs.eval env lhs.type.width
      return if predicate.eval left right then 1 else 0
  | _ => none

/-- Record the value of an instruction. -/
def Env.step (env : Env) (instruction : Instruction) : Env :=
  Function.update env instruction.ref (instruction.eval env)

/-- Evaluate instructions in order. -/
def Env.run (env : Env) (instructions : List Instruction) : Env := instructions.foldl Env.step env

@[simp]
theorem Env.run_snoc (env : Env) (instructions : List Instruction) (instruction : Instruction) :
    env.run (instructions ++ [instruction]) = (env.run instructions).step instruction := by
  simp [Env.run]

/-! ### Straight-line code -/

/-- A value with its width. -/
abbrev Entry := ValueRef × Nat

/-- The result of an instruction. -/
def Instruction.entry (instruction : Instruction) : Entry :=
  (instruction.ref, instruction.type.width)

/-- A constant or a value in scope, of the given width. -/
def Operand.InScope (scope : List Entry) (bits : Nat) : Operand → Prop
  | .constInt width _ => width = bits
  | .ref key type => type = .int bits ∧ (key, bits) ∈ scope
  | _ => False

/-- The predicates that have a comparison opcode. -/
def IntPredicate.isSupported : IntPredicate → Bool
  | .eq | .ne | .ugt | .ult | .sgt | .slt => true
  | _ => false

/-- A supported operation on `i32` or `i64` operands in scope. -/
inductive Instruction.InScope (scope : List Entry) : Instruction → Prop
  | binary (ref : ValueRef) (op : BinaryOp) (bits : Nat) (lhs rhs : Operand) :
      bits ∈ [32, 64] → lhs.InScope scope bits → rhs.InScope scope bits →
        Instruction.InScope scope ⟨ref, .int bits, .binary op lhs rhs⟩
  | icmp (ref : ValueRef) (predicate : IntPredicate) (bits : Nat) (lhs rhs : Operand) :
      predicate.isSupported = true → bits ∈ [32, 64] → lhs.InScope scope bits →
        rhs.InScope scope bits → Instruction.InScope scope ⟨ref, .int 1, .icmp predicate lhs rhs⟩

/-- Straight-line code over the parameters: each operand is in scope, and no
value is defined twice. -/
structure StraightLine (params : List Entry) (instructions : List Instruction) : Prop where
  uses : ∀ front instruction back, instructions = front ++ instruction :: back →
    instruction.InScope (params ++ front.map Instruction.entry)
  distinct : (params.map (·.1) ++ instructions.map (·.ref)).Nodup

theorem StraightLine.front {params : List Entry} {front back : List Instruction}
    (straight : StraightLine params (front ++ back)) : StraightLine params front := by
  refine ⟨?_, ?_⟩
  · rintro first instruction last rfl
    exact straight.uses first instruction (last ++ back) (by simp)
  · have distinct := straight.distinct
    rw [List.map_append, ← List.append_assoc] at distinct
    exact (List.nodup_append.mp distinct).1

/-- A value keeps its width. -/
theorem Operand.InScope.width_eq {scope : List Entry} {bits : Nat} {operand : Operand}
    (inScope : operand.InScope scope bits) : operand.type.width = bits := by
  cases operand with
  | constInt width value => exact inScope
  | ref key type => rw [Operand.type, inScope.1, Ty.width]
  | _ => cases inScope

end VliwCompiler.Llvm
