import VliwCompiler.Llvm.Evaluation
import VliwCompiler.Llvm.Ssa
import VliwCompiler.Machine.Action

/-!
# Runs of functions

The meaning of functions without calls.  A function is run block by block;
entering a block gives all its phis their values at once.  Poison may be computed
and passed on, but an access to memory at a poison address, a store of poison and
a branch on poison have no meaning.
-/

namespace VliwCompiler.Llvm

open Asm (I64)
open Machine (Memory storeWrites)

/-! ### Values -/

/-- The number of bits of a value; pointers are words. -/
def Ty.bits : Ty → Nat
  | .int bits => bits
  | _ => 64

/-- The number of bytes of a value in memory. -/
def Ty.bytes (type : Ty) : Nat := (type.bits + 7) / 8

/-- The word whose low bits are the value of an operand. -/
def Operand.word (env : Env) : Operand → Option I64
  | .constInt _ value => some value
  | .constAddress bits value => some (intToPtr bits value)
  | .ref key _ => env key
  | .const _ | .constCast => none

/-- An operand as a signed index. -/
def Operand.index (env : Env) : Operand → Option I64
  | .constInt _ value => some value
  | .ref key type => (env key).map fun word => (word.setWidth type.bits).signExtend 64
  | _ => none

/-- Advance a pointer by one index. -/
def advancePointer (env : Env) (element : Ty) (address : I64) (index : Operand) : Option I64 :=
  (index.index env).map fun value => address + value * BitVec.ofNat 64 element.bytes

/-- The address that a pointer with indices refers to. -/
def elementAddress (env : Env) (element : Ty) (base : Operand) (indices : List Operand) :
    Option I64 :=
  (base.word env).bind fun address => indices.foldlM (advancePointer env element) address

/-! ### Blocks -/

/-- The values computed so far and the memory. -/
structure Frame where
  env : Env
  mem : Memory

/-- Give a value to an instruction. -/
def Frame.define (frame : Frame) (key : ValueRef) (value : Option I64) : Frame :=
  { frame with env := Function.update frame.env key value }

/-- Execute an instruction.  Phis have got their values before, and terminators
are left to the end of the block. -/
def Instruction.exec (frame : Frame) (instruction : Instruction) : Option Frame :=
  match instruction.operation with
  | .binary _ _ _ | .icmp _ _ _ =>
      some (frame.define instruction.ref (instruction.eval frame.env))
  | .getElementPtr element base indices =>
      some (frame.define instruction.ref (elementAddress frame.env element base indices))
  | .load pointer =>
      (pointer.word frame.env).map fun address =>
        frame.define instruction.ref (some (frame.mem.read address instruction.type.bytes))
  | .store value pointer =>
      (pointer.word frame.env).bind fun address =>
        (value.word frame.env).map fun word =>
          { frame with mem := frame.mem.write (storeWrites address value.type.bytes word) }
  | .phi _ | .ret _ | .condBr _ _ _ | .br _ => some frame
  | .call _ _ | .invoke | .atomic | .other _ => none

/-- The value that a phi has for a predecessor; other instructions have none. -/
def Instruction.phiValue (env : Env) (pred : BlockRef) (instruction : Instruction) :
    Option (Option I64) :=
  match instruction.operation with
  | .phi incoming => some ((incoming.find? (·.2 = pred)).bind fun value => value.1.word env)
  | _ => none

/-- A function about to execute a block whose phis have their values, or one that
has returned, with the width and the value of what it returned. -/
structure Config where
  block : Option BlockRef
  frame : Frame
  result : Option (Nat × I64) := none

section

variable (function : Function)

/-- The values after the phis of a block. -/
def Function.enterEnv (pred target : BlockRef) (env : Env) : Env := fun key =>
  let instructions := (function.blocks[target]?.map (·.instructions)).getD []
  match (instructions.find? (·.ref = key)).bind (·.phiValue env pred) with
  | some value => value
  | none => env key

/-- Enter a block. -/
def Function.enter (pred target : BlockRef) (frame : Frame) : Config :=
  ⟨some target, { frame with env := function.enterEnv pred target frame.env }, none⟩

/-- The returned value. -/
def returned (env : Env) (value : Option Operand) : Option (Nat × I64) :=
  value.bind fun operand => (operand.word env).map fun word => (operand.type.bits, word)

/-- Leave a block by its terminator. -/
def Function.leave (node : BlockRef) (frame : Frame) : Operation → Option Config
  | .ret value => some ⟨none, frame, returned frame.env value⟩
  | .br target => some (function.enter node target frame)
  | .condBr cond ifTrue ifFalse =>
      (cond.eval frame.env 1).map fun flag =>
        function.enter node (if flag = 1 then ifTrue else ifFalse) frame
  | _ => none

/-- Execute one block. -/
def Function.step (config : Config) : Option Config :=
  config.block.bind fun node =>
    function.blocks[node]?.bind fun block =>
      (block.instructions.foldlM Instruction.exec config.frame).bind fun frame =>
        block.instructions.getLast?.bind fun last => function.leave node frame last.operation

end

/-! ### Lemmas -/

section

variable {frame : Frame} {key other : ValueRef} {value : Option I64}

@[simp]
theorem Frame.define_self : (frame.define key value).env key = value := Function.update_self _ _ _

theorem Frame.define_other (different : other ≠ key) :
    (frame.define key value).env other = frame.env other := Function.update_of_ne different _ _

/-- An instruction changes its own value only. -/
theorem Instruction.exec_other {instruction : Instruction} {after : Frame}
    (executed : instruction.exec frame = some after) (different : other ≠ instruction.ref) :
    after.env other = frame.env other := by
  unfold Instruction.exec at executed
  split at executed
  · cases executed
    exact Frame.define_other different
  · cases executed
    exact Frame.define_other different
  · cases executed
    exact Frame.define_other different
  · obtain ⟨address, -, rfl⟩ := Option.map_eq_some_iff.mp executed
    exact Frame.define_other different
  · obtain ⟨address, -, executed⟩ := Option.bind_eq_some_iff.mp executed
    obtain ⟨word, -, rfl⟩ := Option.map_eq_some_iff.mp executed
    rfl
  · cases executed
    rfl
  · cases executed
    rfl
  · cases executed
    rfl
  · cases executed
    rfl
  all_goals cases executed

end

end VliwCompiler.Llvm
