import VliwCompiler.Codegen.Slots
import VliwCompiler.Asm.Emit
import VliwCompiler.Mir.Syntax
import VliwCompiler.Regs
import VliwCompiler.Arithmetic

/-!
# Scalar code generation

MIR syllables and terminators are lowered to assembly syllables and emitted one
per bundle.  The context tracks the cycle at which each pending result becomes
available; empty bundles are emitted until the sources of the next syllable are
ready.  Address arithmetic on 64-bit integers aborts on overflow.
-/

namespace VliwCompiler.Codegen

open Asm (Opcode Processor Operand Item Program I64)
open Mir (Reg Value Terminator)

/-- The physical number of a general-purpose register. -/
def gprForReg : Reg → Outcome UInt8
  | .preg n => .ok n
  | .vreg _ => .error (.panic "codegen received unallocated virtual GPR")

/-- The physical number of a predicate register. -/
def predForReg : Reg → Outcome UInt8
  | .preg n => .ok n
  | .vreg _ => .error (.panic "codegen received unallocated virtual predicate")

def gprOrImmOperand : Value → Outcome Operand
  | .imm imm => .ok (.imm imm)
  | .reg reg => (gprForReg reg).map .reg
  | .stack _ => notImplemented "stack address used where scalar operand expected"

def predOrGprOperand (value : Value) (predSrc : Bool) : Outcome Operand :=
  match value with
  | .imm imm => .ok (.imm imm)
  | .reg reg => if predSrc then (predForReg reg).map .pred else (gprForReg reg).map .reg
  | .stack _ => notImplemented "stack address used where scalar operand expected"

/-- Fold a base and a displacement into an address operand. -/
def addressOperand (base : Value) (offset : I64) : Outcome Operand :=
  match base with
  | .imm addr => (checkedAdd addr offset).map (.memAddr zeroReg)
  | .stack addr => (checkedAdd addr offset).map (.memAddr zeroReg)
  | .reg reg => (gprForReg reg).map (.memAddr · offset)

def loadAddress : List Value → Outcome Operand
  | [base] => addressOperand base 0
  | [base, .imm offset] => addressOperand base offset
  | _ => notImplemented "unsupported load operand shape"

/-- Address and data operands of a store. -/
def storeOperands (srcs : List Value) : Outcome (Operand × Operand) := do
  let (base, offset, data) ←
    match srcs with
    | [base, data] => .ok (base, 0, data)
    | [base, .imm offset, data] => .ok (base, offset, data)
    | _ => notImplemented "unsupported store operand shape"
  let addr ← addressOperand base offset
  let data ← gprOrImmOperand data
  return (addr, data)

/-- Lower a MIR syllable to an assembly syllable. -/
def lowerSyllable (syllable : Mir.Syllable) : Outcome Asm.Syllable :=
  let opcode := syllable.opcode
  let mnemonic := opcode.mnemonic
  match opcode with
  | .storeB | .storeH | .storeW | .storeD => do
      let (addr, data) ← storeOperands syllable.srcs
      return ⟨mnemonic, [addr, data]⟩
  | .loadB | .loadH | .loadW | .loadD => do
      let dst ← gprForReg (← expect "load dst" syllable.dst)
      let addr ← loadAddress syllable.srcs
      return ⟨mnemonic, [.reg dst, addr]⟩
  | _ =>
      if opcode.writesPred then do
        let dst ← predForReg (← expect "predicate dst" syllable.dst)
        let srcs ← syllable.srcs.mapM (predOrGprOperand · (Mir.predicateSources opcode))
        return ⟨mnemonic, .pred dst :: srcs⟩
      else do
        let dst ← (syllable.dst.toList).mapM fun reg => (gprForReg reg).map Operand.reg
        let srcs ← syllable.srcs.mapM gprOrImmOperand
        return ⟨mnemonic, dst ++ srcs⟩

/-- Ready cycles of pending results and the current cycle. -/
structure CodegenCtx where
  readyGpr : HashMap UInt8 Nat := ∅
  readyPred : HashMap UInt8 Nat := ∅
  cycle : Nat := 0

namespace CodegenCtx

/-- Ready cycles of the operands read; the first register operand and the
first predicate operand are skipped when they are destinations. -/
def readyCycles (ctx : CodegenCtx) (skipGprDest skipPredDest : Bool) : List Operand → List Nat
  | [] => []
  | .reg r :: rest =>
      if skipGprDest then 0 :: readyCycles ctx false skipPredDest rest
      else (ctx.readyGpr.lookup r).getD 0 :: readyCycles ctx skipGprDest skipPredDest rest
  | .pred p :: rest =>
      if skipPredDest then 0 :: readyCycles ctx skipGprDest false rest
      else (ctx.readyPred.lookup p).getD 0 :: readyCycles ctx skipGprDest skipPredDest rest
  | .memAddr base _ :: rest =>
      (ctx.readyGpr.lookup base).getD 0 :: readyCycles ctx skipGprDest skipPredDest rest
  | .imm _ :: rest => 0 :: readyCycles ctx skipGprDest skipPredDest rest
  | .label _ :: rest => 0 :: readyCycles ctx skipGprDest skipPredDest rest

/-- First cycle at which all sources of a syllable are ready. -/
def requiredCycleForSources (ctx : CodegenCtx) (opcode : Opcode) (syllable : Asm.Syllable) : Nat :=
  (ctx.readyCycles opcode.writesGpr opcode.writesPred syllable.operands).foldl max 0

/-- Emit empty bundles until the given cycle. -/
def waitUntil (ctx : CodegenCtx) (cycle : Nat) (program : Program) : CodegenCtx × Program :=
  ({ ctx with cycle := max ctx.cycle cycle },
    { program with
      items := program.items ++ List.replicate (cycle - ctx.cycle) (.bundle {}) })

/-- Record the result of a syllable issued in the current cycle. -/
def recordResult (ctx : CodegenCtx) (opcode : Opcode) (dst : Option Operand) : CodegenCtx :=
  let ready := ctx.cycle + opcode.latency
  let ctx :=
    match opcode.writesGpr, dst with
    | true, some (.reg reg) =>
        if reg ≠ zeroReg then { ctx with readyGpr := ctx.readyGpr.insert reg ready } else ctx
    | _, _ => ctx
  match opcode.writesPred, dst with
  | true, some (.pred pred) => { ctx with readyPred := ctx.readyPred.insert pred ready }
  | _, _ => ctx

end CodegenCtx

/-- A bundle with one syllable; the slot must exist. -/
def bundleWith (width slot : Nat) (syllable : Asm.Syllable) : Outcome Asm.Bundle :=
  if slot < width then .ok ⟨(List.replicate width none).set slot (some syllable)⟩
  else .error (.panic "index out of bounds")

namespace CodegenCtx

def emitAsmSyllableInSlot (ctx : CodegenCtx) (program : Program) (opcode : Opcode)
    (syllable : Asm.Syllable) (slot : Nat) : Outcome (CodegenCtx × Program) :=
  if slotSupportsOpcode slot opcode program.processor then do
    let (ctx, program) := ctx.waitUntil (ctx.requiredCycleForSources opcode syllable) program
    let bundle ← bundleWith program.processor.width slot syllable
    let program := { program with items := program.items ++ [.bundle bundle] }
    let ctx := ctx.recordResult opcode syllable.operands.head?
    return ({ ctx with cycle := ctx.cycle + 1 }, program)
  else notImplemented "requested slot is not compatible with opcode"

def emitAsmSyllable (ctx : CodegenCtx) (program : Program) (opcode : Opcode)
    (syllable : Asm.Syllable) : Outcome (CodegenCtx × Program) := do
  let slot ← scalarSlot opcode program.processor
  ctx.emitAsmSyllableInSlot program opcode syllable slot

def emitControlSyllable (ctx : CodegenCtx) (program : Program) (opcode : Opcode)
    (syllable : Asm.Syllable) : Outcome (CodegenCtx × Program) := do
  let slot ← xSlot program.processor
  ctx.emitAsmSyllableInSlot program opcode syllable slot

/-- Emit a MIR syllable. -/
def emitSyllable (ctx : CodegenCtx) (program : Program) (syllable : Mir.Syllable) :
    Outcome (CodegenCtx × Program) := do
  let asm ← lowerSyllable syllable
  ctx.emitAsmSyllable program syllable.opcode asm

/-- Emit a terminator.  The continuation of a call is the next block of the
layout. -/
def emitTerminator (ctx : CodegenCtx) (program : Program) :
    Terminator → Outcome (CodegenCtx × Program)
  | .ret => ctx.emitControlSyllable program .ret ⟨"ret", []⟩
  | .jump label => ctx.emitControlSyllable program .jump ⟨"jmp", [.label label]⟩
  | .branch cond label => do
      let pred ← predForReg cond
      ctx.emitControlSyllable program .branch ⟨"br", [.pred pred, .label label]⟩
  | .directCall target _ => ctx.emitControlSyllable program .call ⟨"call", [.label target]⟩

end CodegenCtx

/-- Emit the labels, syllables and terminator of a block. -/
def emitBlock (name : String) (current : CodegenCtx × Program) (entry : Mir.Block × Nat) :
    Outcome (CodegenCtx × Program) := do
  let (ctx, program) := current
  let (block, idx) := entry
  let labels := (if idx = 0 then [Item.label name] else []) ++ [.label block.label]
  let program := { program with items := program.items ++ labels }
  let (ctx, program) ← block.syllables.foldlM
    (fun (ctx, program) syllable => ctx.emitSyllable program syllable) (ctx, program)
  ctx.emitTerminator program block.terminator

/-- Emit a function with a fresh context. -/
def emitFunction (program : Program) (function : Mir.Function) : Outcome Program := do
  let (_, program) ← function.blocks.zipIdx.foldlM (emitBlock function.name) ({}, program)
  return program

/-- The bundle stream of a list of functions. -/
def scalarProgram (functions : List Mir.Function) (processor : Processor) : Outcome Program :=
  functions.foldlM emitFunction ⟨processor, []⟩

/-- Emit a scalar program as text. -/
def emitScalarVliwModule (functions : List Mir.Function) (processor : Processor) :
    Outcome String := do
  let program ← scalarProgram functions processor
  match Asm.verifyProgram program with
  | .error _ => notImplemented "generated VLIW failed verifier"
  | .ok () => return Asm.emit program

end VliwCompiler.Codegen
