import VliwCompiler.Asm.Program
import Mathlib.Data.List.AList

/-!
# In-bundle hazard verifier

A bundle is accepted when every syllable can execute on a unit of its slot, no
two syllables write the same general-purpose register, and no syllable reads a
general-purpose register written by another slot.
-/

namespace VliwCompiler

/-- A hash map from `K` to `V`. -/
abbrev HashMap (K V : Type) := AList fun _ : K => V

namespace Asm

/-- Why a bundle is rejected. -/
inductive HazardError where
  | unknownOpcode (slot : Nat) (mnemonic : String)
  | illegalSlot (slot : Nat) (mnemonic : String)
  | waw (reg : UInt8) (first second : Nat)
  | raw (reg : UInt8) (writer reader : Nat)
  deriving DecidableEq, Repr

/-- Unit kinds by unit name; units of an unknown kind are left out. -/
def unitKindMap (processor : Processor) : HashMap String UnitKind :=
  processor.units.foldl (fun kinds unit =>
    match UnitKind.fromKindStr unit.kind with
    | some kind => kinds.insert unit.name kind
    | none => kinds) ∅

/-- Kinds of the units of a slot. -/
def slotUnitKinds (processor : Processor) (slot : Nat) : List UnitKind :=
  (processor.slotUnits[slot]?.getD []).filterMap (unitKindMap processor).lookup

/-- The register destination, by convention the first operand. -/
def gprWrite (opcode : Opcode) (operands : List Operand) : Option UInt8 :=
  match opcode.writesGpr, operands with
  | true, .reg n :: _ => some n
  | _, _ => none

/-- Registers read by an operand list; the first register operand is skipped
when it is the destination. -/
def gprReads (skipDest : Bool) : List Operand → List UInt8
  | [] => []
  | .reg n :: rest => if skipDest then gprReads false rest else n :: gprReads false rest
  | .memAddr base _ :: rest => base :: gprReads skipDest rest
  | .pred _ :: rest => gprReads skipDest rest
  | .imm _ :: rest => gprReads skipDest rest
  | .label _ :: rest => gprReads skipDest rest

/-- Register accesses of the slots visited so far. -/
structure Accesses where
  writes : List (UInt8 × Nat) := []
  reads : List (UInt8 × Nat) := []

/-- Check one slot and collect its register accesses. -/
def visitSlot (bundle : Bundle) (processor : Processor) (accesses : Accesses) (slot : Nat) :
    Except HazardError Accesses :=
  match bundle.slots[slot]?.join with
  | none => .ok accesses
  | some syllable =>
      match Opcode.fromMnemonic syllable.opcode with
      | none => .error (.unknownOpcode slot syllable.opcode)
      | some opcode =>
          if opcode = .nop then .ok accesses
          else if opcode.units.any (· ∈ slotUnitKinds processor slot) then
            .ok
              { writes := accesses.writes ++
                  (gprWrite opcode syllable.operands).toList.map (·, slot)
                reads := accesses.reads ++
                  (gprReads opcode.writesGpr syllable.operands).map (·, slot) }
          else .error (.illegalSlot slot syllable.opcode)

/-- The first register written twice. -/
def findWaw : List (UInt8 × Nat) → Option HazardError
  | [] => none
  | (reg, first) :: rest =>
      match rest.find? (·.1 = reg) with
      | some (_, second) => some (.waw reg first second)
      | none => findWaw rest

/-- The first read of a register written by another slot. -/
def findRaw (accesses : Accesses) : Option HazardError :=
  accesses.reads.findSome? fun (reg, reader) =>
    (accesses.writes.find? fun write => reg = write.1 ∧ reader ≠ write.2).map fun write =>
      .raw reg write.2 reader

/-- Verify one bundle against a processor configuration. -/
def verifyBundle (bundle : Bundle) (processor : Processor) : Except HazardError Unit :=
  ((List.range processor.width).foldlM (visitSlot bundle processor) {}).bind fun accesses =>
    match (findWaw accesses.writes).or (findRaw accesses) with
    | some hazard => .error hazard
    | none => .ok ()

/-- Verify every bundle of a program. -/
def verifyProgram (program : Program) : Except HazardError Unit :=
  program.items.forM fun
    | .label _ => .ok ()
    | .bundle bundle => verifyBundle bundle program.processor

end Asm

end VliwCompiler
