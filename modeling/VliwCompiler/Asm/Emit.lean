import VliwCompiler.Asm.Program

/-!
# Text emission

The textual form of a program: a processor header followed by labels and
block-form bundles.  Writing to a string cannot fail.
-/

namespace VliwCompiler.Asm

/-- A line of output. -/
def line (text : String) : String := text ++ "\n"

/-- Hexadecimal notation with its marker. -/
def hex (value : Nat) : String := "0x" ++ String.ofList (Nat.toDigits 16 value)

/-- The text of an operand. -/
def Operand.display : Operand → String
  | .reg n => "r" ++ toString n
  | .pred n => "p" ++ toString n
  | .imm n => toString n.toInt
  | .memAddr base offset =>
      if offset.toInt = 0 then "[r" ++ toString base ++ "]"
      else if 0 < offset.toInt then
        "[r" ++ toString base ++ " + " ++ hex offset.toInt.natAbs ++ "]"
      else "[r" ++ toString base ++ " - " ++ hex offset.toInt.natAbs ++ "]"
  | .label name => name

/-- The processor stanza. -/
def emitHeader (processor : Processor) : String :=
  line ".processor \x7b" ++
  line ("  width " ++ toString processor.width) ++
  line "" ++
  line "  hardware \x7b" ++
  String.join (processor.units.map fun unit =>
    line ("    unit " ++ unit.name ++ " = " ++ unit.kind)) ++
  line "  \x7d" ++
  line "" ++
  line "  layout slots \x7b" ++
  String.join (processor.slotAliases.map fun entry =>
    line ("    alias " ++ entry.name ++ " = " ++ toString entry.slot)) ++
  line "" ++
  String.join (processor.slotUnits.zipIdx.map fun (units, slot) =>
    line ("    " ++ toString slot ++ " = \x7b " ++ String.intercalate ", " units ++ " \x7d")) ++
  line "  \x7d" ++
  line "" ++
  (if processor.memorySize ≠ defaultMemorySize then
    line "" ++ line ("  memory \x7b size " ++ hex processor.memorySize ++ " \x7d")
  else "") ++
  line "  cache \x7b \x7d" ++
  line ("  topology \x7b cpus " ++ toString processor.topology.cpus ++ " \x7d") ++
  line "\x7d"

/-- Display names of the slots, padded to the longest alias. -/
def slotDisplayNames (processor : Processor) : List String :=
  let maxWidth := ((processor.slotAliases.map (·.name.utf8ByteSize)).max?).getD 1
  (List.range processor.width).map fun slot =>
    let name := ((processor.slotAliases.find? (·.slot = slot)).map (·.name)).getD "??"
    name ++ String.ofList (List.replicate (maxWidth - name.length) ' ')

/-- The text of a bundle. -/
def emitBundle (bundle : Bundle) (processor : Processor) : String :=
  let names := slotDisplayNames processor
  line "\x7b" ++
  String.join ((List.range processor.width).map fun slot =>
    let name := (names[slot]?).getD "??"
    match bundle.slots[slot]?.join with
    | none => line ("  " ++ name ++ ": nop")
    | some syllable =>
        if syllable.operands.isEmpty then line ("  " ++ name ++ ": " ++ syllable.opcode)
        else line ("  " ++ name ++ ": " ++ syllable.opcode ++ " " ++
          String.intercalate ", " (syllable.operands.map (·.display)))) ++
  line "\x7d"

/-- The text of a program. -/
def emit (program : Program) : String :=
  emitHeader program.processor ++ "\n" ++
  String.join (program.items.map fun
    | .label name => line (name ++ ":")
    | .bundle bundle => emitBundle bundle program.processor)

end VliwCompiler.Asm
