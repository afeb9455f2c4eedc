import Mathlib.Logic.Function.Basic

/-!
# Opcodes and scheduling metadata

The typed opcode enumeration of `vliw-asm` together with the tables the
backend reads from it: canonical mnemonics, the unit kinds whose slots can
execute an opcode, result latencies and write classes.  Mnemonics are plain
text in the assembly model, so `Opcode.fromMnemonic` and `Opcode.mnemonic` are
the only bridge between the two representations.
-/

namespace VliwCompiler.Asm

/-- Functional unit classifications. -/
inductive UnitKind where
  | integerAlu
  | memory
  | control
  | multiplier
  | floatingPoint
  | aes
  deriving DecidableEq, Repr

/-- Parse a unit-kind string from a processor declaration. -/
def UnitKind.fromKindStr : String → Option UnitKind
  | "integer_alu" => some .integerAlu
  | "memory" => some .memory
  | "control" => some .control
  | "multiplier" => some .multiplier
  | "floating_point" => some .floatingPoint
  | "aes" => some .aes
  | _ => none

/-- Every ISA opcode the contract supports. -/
inductive Opcode where
  | add | sub | and | or | xor | shl | srl | sra | mov | movImm
  | cmpEq | cmpLt | cmpUlt
  | loadB | loadH | loadW | loadD
  | storeB | storeH | storeW | storeD
  | lea | prefetch | acqLoad | relStore
  | mul | mulH
  | branch | jump | call | ret
  | pAnd | pOr | pXor | pNot
  | fpAdd32 | fpMul32 | fpAdd64 | fpMul64
  | aesEnc | aesDec
  | nop
  deriving DecidableEq, Repr

namespace Opcode

/-- Look up an opcode by its canonical mnemonic string. -/
def fromMnemonic : String → Option Opcode
  | "add" => some .add
  | "sub" => some .sub
  | "and" => some .and
  | "or" => some .or
  | "xor" => some .xor
  | "shl" => some .shl
  | "srl" => some .srl
  | "sra" => some .sra
  | "mov" => some .mov
  | "movi" => some .movImm
  | "cmpeq" => some .cmpEq
  | "cmplt" => some .cmpLt
  | "cmpult" => some .cmpUlt
  | "ldb" => some .loadB
  | "ldh" => some .loadH
  | "ldw" => some .loadW
  | "ldd" => some .loadD
  | "stb" => some .storeB
  | "sth" => some .storeH
  | "stw" => some .storeW
  | "std" => some .storeD
  | "lea" => some .lea
  | "prefetch" => some .prefetch
  | "acqload" => some .acqLoad
  | "relstore" => some .relStore
  | "mul" => some .mul
  | "mulh" => some .mulH
  | "br" => some .branch
  | "jmp" => some .jump
  | "call" => some .call
  | "ret" => some .ret
  | "pand" => some .pAnd
  | "por" => some .pOr
  | "pxor" => some .pXor
  | "pnot" => some .pNot
  | "fpadd32" => some .fpAdd32
  | "fpmul32" => some .fpMul32
  | "fpadd64" => some .fpAdd64
  | "fpmul64" => some .fpMul64
  | "aesenc" => some .aesEnc
  | "aesdec" => some .aesDec
  | "nop" => some .nop
  | _ => none

/-- The canonical text mnemonic accepted by the assembler. -/
def mnemonic : Opcode → String
  | add => "add"
  | sub => "sub"
  | and => "and"
  | or => "or"
  | xor => "xor"
  | shl => "shl"
  | srl => "srl"
  | sra => "sra"
  | mov => "mov"
  | movImm => "movi"
  | cmpEq => "cmpeq"
  | cmpLt => "cmplt"
  | cmpUlt => "cmpult"
  | loadB => "ldb"
  | loadH => "ldh"
  | loadW => "ldw"
  | loadD => "ldd"
  | storeB => "stb"
  | storeH => "sth"
  | storeW => "stw"
  | storeD => "std"
  | lea => "lea"
  | prefetch => "prefetch"
  | acqLoad => "acqload"
  | relStore => "relstore"
  | mul => "mul"
  | mulH => "mulh"
  | branch => "br"
  | jump => "jmp"
  | call => "call"
  | ret => "ret"
  | pAnd => "pand"
  | pOr => "por"
  | pXor => "pxor"
  | pNot => "pnot"
  | fpAdd32 => "fpadd32"
  | fpMul32 => "fpmul32"
  | fpAdd64 => "fpadd64"
  | fpMul64 => "fpmul64"
  | aesEnc => "aesenc"
  | aesDec => "aesdec"
  | nop => "nop"

/-- Unit kinds whose slots can execute this opcode; `nop` is legal anywhere. -/
def units : Opcode → List UnitKind
  | add | sub | and | or | xor | shl | srl | sra | mov | movImm
  | cmpEq | cmpLt | cmpUlt => [.integerAlu]
  | loadB | loadH | loadW | loadD | storeB | storeH | storeW | storeD
  | lea | prefetch | acqLoad | relStore => [.memory]
  | branch | jump | call | ret | pAnd | pOr | pXor | pNot => [.control]
  | mul | mulH => [.multiplier]
  | fpAdd32 | fpMul32 | fpAdd64 | fpMul64 => [.floatingPoint]
  | aesEnc | aesDec => [.aes]
  | nop => []

/-- Cycles from issue to when the result is ready for dependent reads. -/
def latency : Opcode → Nat
  | add | sub | and | or | xor | shl | srl | sra | mov | movImm
  | cmpEq | cmpLt | cmpUlt => 1
  | loadB | loadH | loadW | loadD | acqLoad => 3
  | storeB | storeH | storeW | storeD | relStore | lea | prefetch => 1
  | mul | mulH => 3
  | branch | jump | call | ret | pAnd | pOr | pXor | pNot => 1
  | fpAdd32 | fpMul32 => 4
  | fpAdd64 | fpMul64 => 6
  | aesEnc | aesDec => 4
  | nop => 0

/-- Opcodes with a GPR destination, including the implicit link-register
write of `call`. -/
def writesGpr : Opcode → Bool
  | add | sub | and | or | xor | shl | srl | sra | mov | movImm | mul | mulH | lea
  | loadB | loadH | loadW | loadD | acqLoad
  | fpAdd32 | fpMul32 | fpAdd64 | fpMul64 | aesEnc | aesDec | call => true
  | _ => false

/-- Opcodes with a predicate-register destination. -/
def writesPred : Opcode → Bool
  | cmpEq | cmpLt | cmpUlt | pAnd | pOr | pXor | pNot => true
  | _ => false

@[simp]
theorem fromMnemonic_mnemonic (opcode : Opcode) :
    fromMnemonic opcode.mnemonic = some opcode := by
  cases opcode <;> rfl

theorem mnemonic_injective : Function.Injective mnemonic := by
  intro left right same
  have lookup := congrArg fromMnemonic same
  simpa using lookup

end Opcode

end VliwCompiler.Asm
