import VliwCompiler.Asm.Opcode
import Mathlib.Data.BitVec
import Mathlib.Data.UInt

/-!
# Assembly programs

The data model of the `.vliw` text format: typed operands, processor
declarations, bundles of optional syllables and programs of labels and
bundles.  Register numbers are `u8` values and immediates and displacements
are 64-bit two's-complement integers, as in the source.
-/

namespace VliwCompiler.Asm

/-- Signed 64-bit integers, read with `BitVec.toInt`. -/
abbrev I64 := BitVec 64

/-- Default simulator memory size (64 KiB). -/
def defaultMemorySize : Nat := 0x10000

/-- A typed instruction operand. -/
inductive Operand where
  | reg (n : UInt8)
  | pred (n : UInt8)
  | imm (n : I64)
  | memAddr (base : UInt8) (offset : I64)
  | label (name : String)
  deriving DecidableEq, Repr

/-- A named functional unit declared in the hardware block. -/
structure UnitDecl where
  name : String
  kind : String
  deriving DecidableEq, Repr

/-- A human-readable alias for a slot index. -/
structure SlotAlias where
  name : String
  slot : Nat
  deriving DecidableEq, Repr

/-- Topology stanza. -/
structure TopologySpec where
  cpus : Nat := 1
  deriving DecidableEq, Repr

/-- Processor configuration: unit declarations, aliases, per-slot unit sets,
topology and memory size.  The cache stanza has no parameters. -/
structure Processor where
  width : Nat
  units : List UnitDecl
  slotAliases : List SlotAlias
  slotUnits : List (List String)
  topology : TopologySpec := {}
  memorySize : Nat := defaultMemorySize
  deriving DecidableEq, Repr

/-- The canonical four-slot layout `I0, I1, M, X`. -/
def Processor.default : Processor where
  width := 4
  units :=
    [⟨"alu", "integer_alu"⟩, ⟨"mem", "memory"⟩, ⟨"ctrl", "control"⟩, ⟨"mul", "multiplier"⟩]
  slotAliases := [⟨"I0", 0⟩, ⟨"I1", 1⟩, ⟨"M", 2⟩, ⟨"X", 3⟩]
  slotUnits := [["alu"], ["alu"], ["mem"], ["ctrl", "mul"]]

/-- One operation of a bundle, with its mnemonic as text. -/
structure Syllable where
  opcode : String
  operands : List Operand
  deriving DecidableEq, Repr

/-- Block-form bundle; the index is the slot and `none` is a `nop`. -/
structure Bundle where
  slots : List (Option Syllable) := []
  deriving DecidableEq, Repr

/-- The syllables of a bundle in slot order. -/
def Bundle.syllables (bundle : Bundle) : List Syllable :=
  bundle.slots.filterMap id

/-- A program item. -/
inductive Item where
  | label (name : String)
  | bundle (bundle : Bundle)
  deriving DecidableEq, Repr

/-- A processor header followed by labels and bundles. -/
structure Program where
  processor : Processor
  items : List Item
  deriving DecidableEq, Repr

end VliwCompiler.Asm
