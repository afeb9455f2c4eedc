import VliwCompiler.Asm.Program

/-!
# Machine intermediate representation

MIR is close to the target: a function is an ordered list of basic blocks, a
block is a list of target opcodes followed by one terminator.  Registers are
virtual before allocation and physical afterwards; both classes of values,
integers and predicates, share one numbering.
-/

namespace VliwCompiler.Mir

open Asm (Opcode I64)

/-- A register operand: virtual before allocation, physical afterwards. -/
inductive Reg where
  | vreg (index : Nat)
  | preg (index : UInt8)
  deriving DecidableEq, Repr

/-- The hardware zero register. -/
instance : Zero Reg := ⟨.preg 0⟩

theorem Reg.vreg_ne_zero (v : Nat) : (Reg.vreg v) ≠ 0 := by
  rintro ⟨⟩

/-- A source operand.  `stack` is a byte address set apart for the alias
analysis of the scheduler. -/
inductive Value where
  | reg (reg : Reg)
  | imm (value : I64)
  | stack (address : I64)
  deriving DecidableEq, Repr

/-- One operation before slot assignment. -/
structure Syllable where
  opcode : Opcode
  dst : Option Reg
  srcs : List Value
  deriving DecidableEq, Repr

/-- Block-ending control transfer.  A branch falls through to the next block
of the layout when its condition is false. -/
inductive Terminator where
  | branch (cond : Reg) (label : String)
  | jump (label : String)
  | ret
  | directCall (target cont : String)
  deriving DecidableEq, Repr

/-- A linear sequence of syllables followed by a terminator. -/
structure Block where
  label : String
  syllables : List Syllable
  terminator : Terminator
  deriving DecidableEq, Repr

/-- An ordered list of basic blocks. -/
structure Function where
  name : String
  blocks : List Block
  deriving DecidableEq, Repr

/-- The virtual register read by a value. -/
def Value.vreg? : Value → Option Nat
  | .reg (.vreg index) => some index
  | _ => none

/-- The virtual registers read by a syllable. -/
def Syllable.sourceVregs (syllable : Syllable) : List Nat := syllable.srcs.filterMap Value.vreg?

/-- The virtual register written by a syllable. -/
def Syllable.dstVreg (syllable : Syllable) : Option Nat :=
  match syllable.dst with
  | some (.vreg index) => some index
  | _ => none

/-- The virtual register read by a terminator. -/
def Terminator.condVreg : Terminator → Option Nat
  | .branch (.vreg index) _ => some index
  | _ => none

theorem Value.vreg?_eq_some {value : Value} {index : Nat} :
    value.vreg? = some index ↔ value = .reg (.vreg index) := by
  unfold Value.vreg?
  split <;> simp_all

theorem Syllable.mem_sourceVregs {syllable : Syllable} {index : Nat} :
    index ∈ syllable.sourceVregs ↔ .reg (.vreg index) ∈ syllable.srcs := by
  simp [Syllable.sourceVregs, Value.vreg?_eq_some]

theorem Syllable.dstVreg_eq_some {syllable : Syllable} {index : Nat} :
    syllable.dstVreg = some index ↔ syllable.dst = some (.vreg index) := by
  unfold Syllable.dstVreg
  split <;> simp_all

theorem Terminator.condVreg_eq_some {terminator : Terminator} {index : Nat} :
    terminator.condVreg = some index ↔ ∃ label, terminator = .branch (.vreg index) label := by
  unfold Terminator.condVreg
  split <;> simp_all

/-- Predicate-logic opcodes read predicate registers. -/
def predicateSources : Opcode → Bool
  | .pNot | .pAnd | .pOr | .pXor => true
  | _ => false

end VliwCompiler.Mir
