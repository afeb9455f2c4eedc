import VliwCompiler.Llvm.Syntax
import VliwCompiler.Error

/-!
# Subset check

Features that the backend does not support are rejected before instruction
selection: integers other than `i1`, `i32` and `i64`, atomics and exceptions.
-/

namespace VliwCompiler.Llvm

def checkIntWidth (bits : Nat) : Outcome Unit :=
  if bits = 1 ∨ bits = 32 ∨ bits = 64 then .ok ()
  else .error (.error (.unsupportedFeature ("integer width i" ++ toString bits)))

/-- Check a type if it is an integer type. -/
def checkType : Ty → Outcome Unit
  | .int bits => checkIntWidth bits
  | _ => .ok ()

def checkInstruction (instruction : Instruction) : Outcome Unit := do
  match instruction.operation with
  | .invoke => .error (.error (.unsupportedFeature "callbr/invoke not supported"))
  | .atomic => .error (.error (.unsupportedFeature "atomic instruction"))
  | _ => .ok ()
  checkType instruction.type
  instruction.operation.operands.forM fun operand => checkType operand.type

/-- Check the signature and every instruction of a function with a body. -/
def checkFunction (function : Function) : Outcome Unit := do
  if function.blocks = [] then .ok ()
  else
    function.params.forM fun param => checkType param.type
    checkType function.returnType
    function.blocks.forM fun block => block.instructions.forM checkInstruction

def checkModule (module : Module) : Outcome Unit := module.forM checkFunction

end VliwCompiler.Llvm
