import VliwCompiler.Mir.Syntax
import VliwCompiler.Regs
import VliwCompiler.Asm.Verify

/-!
# Register dependences and ready cycles

The register keys a MIR syllable reads and writes, and the table of cycles at
which pending results become available.  Hash maps of the source are
association lists without duplicate keys.
-/

namespace VliwCompiler

open Asm (Opcode)
open Mir (Reg Value Syllable predicateSources)

namespace Schedule

/-- Register classes of MIR operands. -/
inductive RegClass where
  | gpr
  | pred
  deriving DecidableEq, Repr

/-- A register together with the class it is used in. -/
structure RegKey where
  cls : RegClass
  reg : Reg
  deriving DecidableEq, Repr

/-- The register a syllable writes. -/
def destRegKey (syllable : Syllable) : Option RegKey :=
  if syllable.opcode.writesGpr then syllable.dst.map (⟨.gpr, ·⟩)
  else if syllable.opcode.writesPred then syllable.dst.map (⟨.pred, ·⟩)
  else none

/-- The registers a syllable reads. -/
def sourceRegKeys (syllable : Syllable) : List RegKey :=
  let cls : RegClass := if predicateSources syllable.opcode then .pred else .gpr
  syllable.srcs.filterMap fun
    | .reg reg => some ⟨cls, reg⟩
    | .imm _ => none
    | .stack _ => none

/-- Cycles at which pending results become available. -/
structure ReadyState where
  gpr : HashMap UInt8 Nat := ∅
  pred : HashMap UInt8 Nat := ∅

/-- The physical register behind a MIR register. -/
def physicalReg : Reg → Option UInt8
  | .preg reg => some reg
  | .vreg _ => none

/-- First cycle at which all sources of a syllable are ready. -/
def syllableRequiredCycle (syllable : Syllable) (ready : ReadyState) : Nat :=
  ((sourceRegKeys syllable).map fun key =>
    match key.cls with
    | .gpr => ((physicalReg key.reg).bind (ready.gpr.lookup ·)).getD 0
    | .pred => ((physicalReg key.reg).bind (ready.pred.lookup ·)).getD 0).foldl max 0

/-- Record the result of a syllable issued at `cycle`. -/
def updateReadyAfterMirSyllable (syllable : Syllable) (cycle : Nat) (ready : ReadyState) :
    ReadyState :=
  match destRegKey syllable with
  | none => ready
  | some dst =>
      match physicalReg dst.reg with
      | none => ready
      | some reg =>
          let resultReady := cycle + syllable.opcode.latency
          match dst.cls with
          | .gpr =>
              if reg ≠ zeroReg then { ready with gpr := ready.gpr.insert reg resultReady }
              else ready
          | .pred => { ready with pred := ready.pred.insert reg resultReady }

end Schedule

end VliwCompiler
