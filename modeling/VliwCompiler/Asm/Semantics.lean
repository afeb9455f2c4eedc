import VliwCompiler.Asm.Program
import VliwCompiler.Machine.Action

/-!
# Meaning of assembly syllables

Each opcode belongs to one behavior class, which fixes how the machine uses
its operands.  A syllable with an operand list that fits its class denotes a
machine action over physical registers; every other syllable has no meaning.
-/

namespace VliwCompiler.Asm

open Machine

/-- How the machine executes an opcode. -/
inductive Behavior where
  | compute
  | test
  | load (width : Nat)
  | store (width : Nat)
  | acquire
  | release
  | inert
  | control
  deriving DecidableEq, Repr

/-- The behavior class of each opcode. -/
def Opcode.behavior : Opcode → Behavior
  | add | sub | and | or | xor | shl | srl | sra | mov | movImm | mul | mulH | lea
  | fpAdd32 | fpMul32 | fpAdd64 | fpMul64 | aesEnc | aesDec => .compute
  | cmpEq | cmpLt | cmpUlt | pAnd | pOr | pXor | pNot => .test
  | loadB => .load 1
  | loadH => .load 2
  | loadW => .load 4
  | loadD => .load 8
  | storeB => .store 1
  | storeH => .store 2
  | storeW => .store 4
  | storeD => .store 8
  | acqLoad => .acquire
  | relStore => .release
  | prefetch | nop => .inert
  | branch | jump | call | ret => .control

/-- The registers that the opcodes of each behavior class write. -/
theorem Opcode.writes_of_behavior (opcode : Opcode) :
    match opcode.behavior with
    | .compute | .load _ | .acquire => opcode.writesGpr = true ∧ opcode.writesPred = false
    | .test => opcode.writesGpr = false ∧ opcode.writesPred = true
    | .store _ | .release | .inert => opcode.writesGpr = false ∧ opcode.writesPred = false
    | .control => opcode.writesPred = false := by
  cases opcode <;> simp [Opcode.behavior, Opcode.writesGpr, Opcode.writesPred]

theorem Opcode.ne_nop_of_behavior {opcode : Opcode} (active : opcode.behavior ≠ .inert) :
    opcode ≠ .nop := by
  rintro rfl
  exact active rfl

namespace Operand

/-- An operand read as a value. -/
def source : Operand → Option (Source UInt8)
  | .reg n => some (.gpr n)
  | .pred n => some (.pred n)
  | .imm n => some (.imm n)
  | .memAddr _ _ => none
  | .label _ => none

end Operand

/-- The machine action of an opcode with an operand list. -/
def operandsAction (opcode : Opcode) (operands : List Operand) :
    Option (Action Opcode UInt8) :=
  match opcode.behavior, operands with
  | .compute, .reg dst :: srcs => (srcs.mapM Operand.source).map (.compute opcode (some dst))
  | .test, .pred dst :: srcs => (srcs.mapM Operand.source).map (.test opcode (some dst))
  | .load width, [.reg dst, .memAddr base offset] =>
      some (.load opcode width (some dst) base offset)
  | .store width, [.memAddr base offset, data] =>
      data.source.map (.store width base offset)
  | .acquire, .reg dst :: srcs => (srcs.mapM Operand.source).map (.acquire opcode (some dst))
  | .release, srcs => (srcs.mapM Operand.source).map (.release opcode)
  | .inert, srcs => (srcs.mapM Operand.source).map fun _ => .skip
  | _, _ => none

theorem behavior_ne_control {opcode : Opcode} {operands : List Operand}
    {action : Action Opcode UInt8} (denotes : operandsAction opcode operands = some action) :
    opcode.behavior ≠ .control := by
  intro isControl
  simp [operandsAction, isControl] at denotes

/-- The machine action of a syllable. -/
def Syllable.action (syllable : Syllable) : Option (Action Opcode UInt8) :=
  (Opcode.fromMnemonic syllable.opcode).bind fun opcode =>
    operandsAction opcode syllable.operands

/-- Moves copy their operand. -/
structure Copies (isa : Isa Opcode) : Prop where
  mov : ∀ word, isa.result .mov [.word word] = word
  movImm : ∀ word, isa.result .movImm [.word word] = word

/-- Moves and comparisons for equality. -/
def moveIsa : Isa Opcode where
  result
    | .mov, [value] | .movImm, [value] => value.toWord
    | _, _ => 0
  flag
    | .cmpEq, [.word left, .word right] => left = right
    | _, _ => false
  extend _ value := value
  acquire _ _ _ := 0
  release _ _ := []

theorem copies_moveIsa : Copies moveIsa := ⟨fun _ => rfl, fun _ => rfl⟩

end VliwCompiler.Asm
