import VliwCompiler.Asm.Verify
import VliwCompiler.Error

/-!
# Slot selection

Scalar emission prefers the canonical slot of an opcode's unit and falls back
to the first slot that can execute it.
-/

namespace VliwCompiler

open Asm (Opcode Processor unitKindMap)

/-- `opcode.units() == [Memory]`. -/
def isMemoryOpcode (opcode : Opcode) : Bool := opcode.units = [.memory]

namespace Codegen

/-- Report an unsupported case. -/
def notImplemented {α : Type} (message : String) : Outcome α :=
  .error (.error (.notImplemented message))

/-- `opcode.units() == [IntegerAlu]`. -/
def isIntegerAluOpcode (opcode : Opcode) : Bool := opcode.units = [.integerAlu]

/-- `opcode.units()` is `[Control]` or `[Multiplier]`. -/
def isControlOrMultiplierOpcode (opcode : Opcode) : Bool :=
  opcode.units = [.control] || opcode.units = [.multiplier]

/-- Whether a slot has a unit for an opcode. -/
def slotSupportsOpcodeWithUnits (slot : Nat) (opcode : Opcode) (processor : Processor)
    (unitKindByName : HashMap String Asm.UnitKind) : Bool :=
  match processor.slotUnits[slot]? with
  | none => false
  | some slotUnits => (slotUnits.filterMap unitKindByName.lookup).any (· ∈ opcode.units)

/-- Whether a slot can execute an opcode. -/
def slotSupportsOpcode (slot : Nat) (opcode : Opcode) (processor : Processor) : Bool :=
  if opcode = .nop then slot < processor.width
  else slotSupportsOpcodeWithUnits slot opcode processor (unitKindMap processor)

/-- The first slot that can execute an opcode. -/
def firstCompatibleSlot (opcode : Opcode) (processor : Processor) : Outcome Nat :=
  if opcode = .nop then .ok 0
  else
    match (List.range processor.width).find? fun slot =>
        slotSupportsOpcodeWithUnits slot opcode processor (unitKindMap processor) with
    | some slot => .ok slot
    | none => notImplemented "no compatible slot for opcode in processor layout"

/-- The slot with the given alias. -/
def slotByAlias (processor : Processor) (name : String) : Option Nat :=
  (processor.slotAliases.find? (·.name = name)).map (·.slot)

/-- The alias of the canonical slot of an opcode. -/
def canonicalAlias (opcode : Opcode) : Option String :=
  if isMemoryOpcode opcode then some "M"
  else if isControlOrMultiplierOpcode opcode then some "X"
  else if isIntegerAluOpcode opcode then some "I0"
  else none

/-- The slot used by scalar emission. -/
def scalarSlot (opcode : Opcode) (processor : Processor) : Outcome Nat :=
  match (canonicalAlias opcode).bind (slotByAlias processor) with
  | some slot =>
      if slotSupportsOpcode slot opcode processor then .ok slot
      else firstCompatibleSlot opcode processor
  | none => firstCompatibleSlot opcode processor

/-- The slot used by control transfers. -/
def xSlot (processor : Processor) : Outcome Nat :=
  match slotByAlias processor "X" with
  | some slot => .ok slot
  | none => notImplemented "processor layout has no X slot"

variable {opcode : Opcode} {processor : Processor} {slot : Nat}

theorem supported_of_firstCompatibleSlot (proper : opcode ≠ .nop)
    (isFirst : firstCompatibleSlot opcode processor = .ok slot) :
    slot < processor.width ∧ slotSupportsOpcode slot opcode processor = true := by
  unfold firstCompatibleSlot at isFirst
  rw [if_neg proper] at isFirst
  split at isFirst
  · rename_i found
    cases isFirst
    have accepted := List.find?_some found
    unfold slotSupportsOpcode
    rw [if_neg proper]
    exact ⟨List.mem_range.mp (List.mem_of_find?_eq_some found), accepted⟩
  · cases isFirst

/-- A slot is either that of the canonical alias or the first that fits. -/
theorem scalarSlot_cases (isSlot : scalarSlot opcode processor = .ok slot) :
    (∃ name, canonicalAlias opcode = some name ∧ slotByAlias processor name = some slot ∧
      slotSupportsOpcode slot opcode processor = true) ∨
    firstCompatibleSlot opcode processor = .ok slot := by
  unfold scalarSlot at isSlot
  split at isSlot
  · rename_i found
    split at isSlot
    · rename_i supported
      cases isSlot
      obtain ⟨name, isName, isAlias⟩ := Option.bind_eq_some_iff.mp found
      exact .inl ⟨name, isName, isAlias, supported⟩
    · exact .inr isSlot
  · exact .inr isSlot

theorem supported_of_scalarSlot (proper : opcode ≠ .nop)
    (isSlot : scalarSlot opcode processor = .ok slot) :
    slotSupportsOpcode slot opcode processor = true := by
  rcases scalarSlot_cases isSlot with ⟨name, -, -, supported⟩ | isFirst
  · exact supported
  · exact (supported_of_firstCompatibleSlot proper isFirst).2

end Codegen

end VliwCompiler
