import VliwCompiler.Llvm.Syntax
import VliwCompiler.Isel.Phi
import VliwCompiler.Isel.Calls
import VliwCompiler.Asm.Verify
import VliwCompiler.Arithmetic

/-!
# Instruction selection

One LLVM instruction becomes a few syllables of the MIR block under
construction.  A call ends that block and begins a continuation; a
`getelementptr` with constant indices becomes a displacement.
-/

namespace VliwCompiler.Isel

open Asm (Opcode I64)
open Mir (Reg Value Syllable Terminator Block)
open Llvm (ValueRef BlockRef Ty Operand Instruction)

/-- The value of a phi for one predecessor, before every value has a register.
Constants other than integers are referred to by an address of their own. -/
inductive RawPhiVal where
  | const (value : I64)
  | llvmRef (key : Option ValueRef)
  deriving DecidableEq, Repr

/-- A phi to be lowered when all blocks are built. -/
structure PendingPhi where
  phiBlockLabel : String
  dst : Nat
  incoming : List (String × RawPhiVal)
  deriving DecidableEq, Repr

/-- Variables of the lowering of a function that its instructions change: the
registers of values, folded pointers, collected phis, finished MIR blocks, and
the MIR block under construction with the successors of its LLVM block. -/
structure Selection where
  vregMap : HashMap ValueRef Nat := ∅
  nextVreg : Nat := 0
  gepMap : HashMap ValueRef (Value × I64) := ∅
  pendingPhis : List PendingPhi := []
  callCount : Nat := 0
  mirBlocks : List Block := []
  currentMirLabel : String := ""
  syllables : List Syllable := []
  terminator : Terminator := .ret
  falseSucc : Option String := none
  trueSucc : Option String := none

namespace Selection

/-- Append a syllable to the block under construction. -/
def push (selection : Selection) (syllable : Syllable) : Selection :=
  { selection with syllables := selection.syllables ++ [syllable] }

/-- Take the next virtual register for the value of an instruction. -/
def bindVreg (selection : Selection) (ref : ValueRef) : Selection :=
  { selection with
    vregMap := selection.vregMap.insert ref selection.nextVreg
    nextVreg := selection.nextVreg + 1 }

/-- Take the next virtual register for a value without address. -/
def freshVreg (selection : Selection) : Selection :=
  { selection with nextVreg := selection.nextVreg + 1 }

end Selection

/-! ### Operands -/

/-- The constant of an integer operand; `undef` and other constants count as
zero. -/
def intConstant : Operand → Option I64
  | .constInt _ value => some value
  | .const (.int _) => some 0
  | _ => none

/-- Resolve an integer operand; a constant is moved to a fresh register. -/
def lowerOperand (operand : Operand) (selection : Selection) : Outcome (Value × Selection) :=
  match intConstant operand, operand with
  | some value, _ =>
      let dst := selection.nextVreg
      .ok (.reg (.vreg dst),
        (selection.push ⟨.movImm, some (.vreg dst), [.imm value]⟩).freshVreg)
  | none, .ref key (.int _) => do
      let vreg ← expect "VReg not found; value used before definition"
        (selection.vregMap.lookup key)
      return (.reg (.vreg vreg), selection)
  | none, _ => .error (.panic "non-integer operand in integer instruction")

/-- Resolve a pointer operand to a base and a displacement.  The address of an
`inttoptr` expression is taken as that of an integer constant without a check. -/
def lowerPtrOperand (operand : Operand) (selection : Selection) : Outcome (Value × I64) :=
  match operand with
  | .constAddress _ value => .ok (.imm value, 0)
  | .constCast => .error (.panic "cast<Ty>() argument of incompatible type!")
  | .const .ptr => .error (.error (.notImplemented "unsupported constant pointer expression"))
  | .ref key .ptr =>
      match selection.gepMap.lookup key, selection.vregMap.lookup key with
      | some folded, _ => .ok folded
      | none, some vreg => .ok (.reg (.vreg vreg), 0)
      | none, none =>
          .error (.error (.notImplemented "pointer not found in vreg_map or gep_map"))
  | _ => .error (.error (.notImplemented "non-pointer operand where pointer expected"))

/-- The sources of a memory access: the base and a displacement other than
zero. -/
def addressSrcs (base : Value) (offset : I64) : List Value :=
  if offset = 0 then [base] else [base, .imm offset]

/-- Size of an integer type in bytes. -/
def intTypeByteSize : Ty → Outcome I64
  | .int bits => .ok (BitVec.ofNat 64 (bits / 8))
  | _ => .error (.error (.notImplemented "GEP with non-integer element type"))

/-- Add the displacement of one index. -/
def foldIndex (elemBytes totalOffset : I64) (index : Operand) : Outcome I64 :=
  match intConstant index with
  | some value => do checkedAdd totalOffset (← checkedMul value elemBytes)
  | none => .error (.error (.notImplemented "non-constant GEP index"))

/-! ### Opcodes -/

def binaryOpcode : Llvm.BinaryOp → Opcode
  | .add => .add
  | .sub => .sub
  | .mul => .mul
  | .and => .and
  | .or => .or
  | .xor => .xor
  | .shl => .shl
  | .lshr => .srl
  | .ashr => .sra

/-- The comparison of a predicate and whether its operands are exchanged. -/
def comparison : Llvm.IntPredicate → Outcome (Opcode × Bool)
  | .eq | .ne => .ok (.cmpEq, false)
  | .slt => .ok (.cmpLt, false)
  | .sgt => .ok (.cmpLt, true)
  | .ult => .ok (.cmpUlt, false)
  | .ugt => .ok (.cmpUlt, true)
  | _ => .error (.error (.notImplemented "unsupported icmp predicate"))

def storeOpcode (value : Operand) : Outcome Opcode :=
  match value.type with
  | .int 8 => .ok .storeB
  | .int 32 => .ok .storeW
  | .int 64 => .ok .storeD
  | .int _ => .error (.error (.notImplemented "unsupported store width"))
  | _ => .error (.error (.notImplemented "non-integer store"))

def loadOpcode : Ty → Outcome Opcode
  | .int 8 => .ok .loadB
  | .int 32 => .ok .loadW
  | .int 64 => .ok .loadD
  | .int _ => .error (.error (.notImplemented "unsupported load width"))
  | _ => .error (.error (.notImplemented "non-integer load"))

/-! ### Instructions -/

/-- The value of a phi for one predecessor. -/
def rawPhiVal : Operand → RawPhiVal
  | .constInt _ value => .const value
  | operand => .llvmRef operand.ref?

/-- The register or constant of a call argument. -/
def callArgument (vregMap : HashMap ValueRef Nat) : Operand → Outcome Argument
  | .constInt _ value => .ok (.const value)
  | operand => do
      let vreg ← expect "call argument not in vreg_map" (operand.ref?.bind vregMap.lookup)
      return .vreg vreg

section

variable (module : Llvm.Module) (memorySize : Nat) (labelOf : BlockRef → Outcome String)

/-- The values of a phi with the labels of the predecessors. -/
def rawIncoming (incoming : List (Operand × BlockRef)) : Outcome (List (String × RawPhiVal)) :=
  incoming.mapM fun (operand, pred) => do return (← labelOf pred, rawPhiVal operand)

/-- Collect a phi of the block `label`. -/
def lowerPhi (label : String) (ref : ValueRef) (incoming : List (Operand × BlockRef))
    (selection : Selection) : Outcome Selection := do
  let raw ← rawIncoming labelOf incoming
  let pending : PendingPhi := ⟨label, selection.nextVreg, raw⟩
  let selection := selection.bindVreg ref
  return { selection with pendingPhis := selection.pendingPhis ++ [pending] }

/-- Move an integer result to the return-value register. -/
def lowerReturn (value : Option Operand) (selection : Selection) : Outcome Selection :=
  match value.bind intConstant, value with
  | some constant, _ =>
      .ok { selection.push ⟨.movImm, some (.preg retvalReg), [.imm constant]⟩ with
        terminator := .ret }
  | none, some (.ref key (.int _)) => do
      let vreg ← expect "return value not in vreg_map" (selection.vregMap.lookup key)
      return { selection.push ⟨.mov, some (.preg retvalReg), [.reg (.vreg vreg)]⟩ with
        terminator := .ret }
  | none, _ => .ok { selection with terminator := .ret }

def lowerCondBr (cond : Operand) (ifTrue ifFalse : BlockRef) (selection : Selection) :
    Outcome Selection := do
  let trueLabel ← labelOf ifTrue
  let falseLabel ← labelOf ifFalse
  let vreg ← expect "branch condition not in vreg_map" (cond.ref?.bind selection.vregMap.lookup)
  return { selection with
    terminator := .branch (.vreg vreg) trueLabel
    falseSucc := some falseLabel
    trueSucc := some trueLabel }

def lowerBr (target : BlockRef) (selection : Selection) : Outcome Selection := do
  let label ← labelOf target
  return { selection with terminator := .jump label, trueSucc := some label }

/-- The label of the continuation of the next call. -/
def contLabel (selection : Selection) : String :=
  selection.currentMirLabel ++ "__cont__" ++ toString selection.callCount

/-- End the block under construction with a call and begin its continuation. -/
def splitAtCall (address : I64) (target : String) (selection : Selection) : Selection :=
  { selection with
    callCount := selection.callCount + 1
    mirBlocks := selection.mirBlocks ++
      [⟨selection.currentMirLabel, selection.syllables, .directCall target (contLabel selection)⟩]
    currentMirLabel := contLabel selection
    terminator := .ret
    syllables := [restoreLink address] }

/-- Move the return value of a call to a new register. -/
def captureResult (ref : ValueRef) (selection : Selection) : Selection :=
  (selection.push ⟨.mov, some (.vreg selection.nextVreg), [.reg (.preg retvalReg)]⟩).bindVreg ref

def lowerCall (instruction : Instruction) (callee : Llvm.Callee) (arguments : List Operand)
    (selection : Selection) : Outcome Selection :=
  match callee with
  | .indirect => .error (.error (.unsupportedFeature "indirect call not supported"))
  | .function target =>
      if Llvm.countBasicBlocks module target = 0 then
        .error (.error (.unsupportedFeature "call to external function"))
      else if 8 < arguments.length then
        .error (.error (.unsupportedFeature "call with more than 8 arguments"))
      else do
        let values ← arguments.mapM (callArgument selection.vregMap)
        let address ← linkRegSaveAddr memorySize
        let selection := { selection with
          syllables := selection.syllables ++ argMoves 0 values ++ [saveLink address] }
        let selection := splitAtCall address target selection
        return if instruction.type = .void then selection
          else captureResult instruction.ref selection

/-- A comparison, negated for `ne`. -/
def lowerIcmp (ref : ValueRef) (predicate : Llvm.IntPredicate) (lhs rhs : Operand)
    (selection : Selection) : Outcome Selection := do
  let (left, selection) ← lowerOperand lhs selection
  let (right, selection) ← lowerOperand rhs selection
  let (opcode, swapped) ← comparison predicate
  let cmpDst := selection.nextVreg
  let srcs := if swapped then [right, left] else [left, right]
  let selection := selection.push ⟨opcode, some (.vreg cmpDst), srcs⟩
  if predicate = .ne then
    let selection := selection.freshVreg
    return (selection.push
      ⟨.pNot, some (.vreg selection.nextVreg), [.reg (.vreg cmpDst)]⟩).bindVreg ref
  else return selection.bindVreg ref

def lowerBinary (ref : ValueRef) (op : Llvm.BinaryOp) (lhs rhs : Operand)
    (selection : Selection) : Outcome Selection := do
  let (left, selection) ← lowerOperand lhs selection
  let (right, selection) ← lowerOperand rhs selection
  return (selection.push
    ⟨binaryOpcode op, some (.vreg selection.nextVreg), [left, right]⟩).bindVreg ref

def lowerStore (value pointer : Operand) (selection : Selection) : Outcome Selection := do
  let opcode ← storeOpcode value
  let (data, selection) ← lowerOperand value selection
  let (base, offset) ← lowerPtrOperand pointer selection
  return selection.push ⟨opcode, none, addressSrcs base offset ++ [data]⟩

def lowerLoad (instruction : Instruction) (pointer : Operand) (selection : Selection) :
    Outcome Selection := do
  let opcode ← loadOpcode instruction.type
  let (base, offset) ← lowerPtrOperand pointer selection
  return (selection.push
    ⟨opcode, some (.vreg selection.nextVreg), addressSrcs base offset⟩).bindVreg instruction.ref

/-- Fold constant indices into a displacement. -/
def lowerGetElementPtr (ref : ValueRef) (element : Ty) (base : Operand) (indices : List Operand)
    (selection : Selection) : Outcome Selection := do
  let (baseVal, baseOffset) ← lowerPtrOperand base selection
  let elemBytes ← intTypeByteSize element
  let totalOffset ← indices.foldlM (foldIndex elemBytes) baseOffset
  return { selection with gepMap := selection.gepMap.insert ref (baseVal, totalOffset) }

/-- Lower one instruction of the LLVM block `label`. -/
def lowerInstruction (label : String) (selection : Selection) (instruction : Instruction) :
    Outcome Selection :=
  match instruction.operation with
  | .phi incoming => lowerPhi labelOf label instruction.ref incoming selection
  | .ret value => lowerReturn value selection
  | .condBr cond ifTrue ifFalse => lowerCondBr labelOf cond ifTrue ifFalse selection
  | .br target => lowerBr labelOf target selection
  | .call callee arguments => lowerCall module memorySize instruction callee arguments selection
  | .icmp predicate lhs rhs => lowerIcmp instruction.ref predicate lhs rhs selection
  | .binary op lhs rhs => lowerBinary instruction.ref op lhs rhs selection
  | .store value pointer => lowerStore value pointer selection
  | .load pointer => lowerLoad instruction pointer selection
  | .getElementPtr element base indices =>
      lowerGetElementPtr instruction.ref element base indices selection
  | .invoke | .atomic | .other _ =>
      .error (.error (.notImplemented "unsupported instruction in ISel"))

end

end VliwCompiler.Isel
