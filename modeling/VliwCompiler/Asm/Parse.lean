import VliwCompiler.Asm.Program
import VliwCompiler.Data.Text

/-!
# Parsing the text format

The parser reads line by line.  Numbers are read with the checks of their
machine types; an overflow in the parser's own arithmetic is a panic.
-/

namespace VliwCompiler.Asm

open Text (trim parseUnsigned parseSigned)

/-- An error of the parser, with the number of lines read. -/
inductive ParseError where
  | unexpectedEof
  | syntaxError (line : Nat) (msg : String)
  deriving DecidableEq, Repr

/-- How parsing can fail. -/
inductive ParseFailure where
  | error (error : ParseError)
  | panic (message : String)
  | diverges
  deriving DecidableEq, Repr

abbrev ParseOutcome (α : Type) := Except ParseFailure α

/-- Why a piece of a line is not read: it is `None` or the parser panics. -/
inductive Refusal where
  | none
  | panic (message : String)
  deriving DecidableEq, Repr

abbrev Attempt (α : Type) := Except Refusal α

def attempt {α : Type} : Option α → Attempt α
  | some value => .ok value
  | none => .error .none

/-- `Option::ok_or_else`. -/
def okOrElse {α : Type} (error : ParseError) : Attempt α → ParseOutcome α
  | .ok value => .ok value
  | .error .none => .error (.error error)
  | .error (.panic message) => .error (.panic message)

/-! ### Operands -/

def tryParseReg (text : List Char) : Option UInt8 := do
  let n ← parseUnsigned 10 (2 ^ 8) (← text.dropPrefix? ['r'])
  return UInt8.ofNat n

def tryParsePred (text : List Char) : Option UInt8 := do
  let n ← parseUnsigned 10 (2 ^ 8) (← text.dropPrefix? ['p'])
  return UInt8.ofNat n

def parseHexOrDec (text : List Char) : Option I64 :=
  match text.dropPrefix? "0x".toList with
  | some digits => parseSigned 16 digits
  | none => parseSigned 10 text

/-- Negation of a signed 64-bit integer. -/
def checkedNeg (n : I64) : Attempt I64 :=
  if n = BitVec.intMin 64 then .error (.panic "attempt to negate with overflow") else .ok (-n)

def parseMemAddr (inner : List Char) : Attempt Operand :=
  match inner.dropInfix? " + ".toList with
  | some (baseText, offsetText) => do
      let base ← attempt (tryParseReg (trim baseText))
      let offset ← attempt (parseHexOrDec (trim offsetText))
      return .memAddr base offset
  | none =>
    match inner.dropInfix? " - ".toList with
    | some (baseText, offsetText) => do
        let base ← attempt (tryParseReg (trim baseText))
        let absOffset ← attempt (parseHexOrDec (trim offsetText))
        let offset ← checkedNeg absOffset
        return .memAddr base offset
    | none => do
        let base ← attempt (tryParseReg (trim inner))
        return .memAddr base 0

def parseOperand (text : List Char) : Attempt Operand :=
  if text.head? = some '[' then do
    let inner ← attempt ((text.dropPrefix? ['[']).bind (·.dropSuffix? [']']))
    parseMemAddr inner
  else
    match tryParseReg text with
    | some n => .ok (.reg n)
    | none =>
      match tryParsePred text with
      | some n => .ok (.pred n)
      | none =>
        if text.head? = some '-' ∨ text.head?.any Char.isDigit then do
          let n ← attempt (parseSigned 10 text)
          return .imm n
        else .ok (.label (String.ofList text))

/-- The parts of a text between the commas outside brackets.  The depth is a
signed 32-bit integer; the part in which it overflows is the last one. -/
def splitOperands : Int → List Char → List (Attempt (List Char))
  | _, [] => [.ok []]
  | depth, c :: rest =>
      if c = '[' then
        if depth + 1 = 2 ^ 31 then [.error (.panic "attempt to add with overflow")]
        else (splitOperands (depth + 1) rest).modifyHead (·.map (c :: ·))
      else if c = ']' then
        if depth = -2 ^ 31 then [.error (.panic "attempt to subtract with overflow")]
        else (splitOperands (depth - 1) rest).modifyHead (·.map (c :: ·))
      else if c = ',' ∧ depth = 0 then .ok [] :: splitOperands depth rest
      else (splitOperands depth rest).modifyHead (·.map (c :: ·))

def parseOperands (text : List Char) : Attempt (List Operand) :=
  (splitOperands 0 text).mapM fun part => do parseOperand (trim (← part))

def parseSyllable (text : List Char) : Attempt Syllable := do
  let (opcode, rest) :=
    match text.dropInfix? [' '] with
    | some (opcode, rest) => (opcode, trim rest)
    | none => (text, [])
  let operands ← if rest = [] then .ok [] else parseOperands rest
  return ⟨String.ofList opcode, operands⟩

/-! ### Lines -/

/-- The lines that are left and the number of lines read. -/
structure Parser where
  rest : List (List Char)
  pos : Nat
  deriving DecidableEq, Repr

namespace Parser

def err {α : Type} (pos : Nat) (msg : String) (text : List Char) : ParseOutcome α :=
  .error (.error (.syntaxError pos (msg ++ String.ofList text)))

/-- `Result::map_err` and `Option::ok_or_else` with a syntax error. -/
def orErr {α : Type} (pos : Nat) (msg : String) (text : List Char) : Option α → ParseOutcome α
  | some value => .ok value
  | none => err pos msg text

def skipBlankFrom : List (List Char) → Nat → Parser
  | [], pos => ⟨[], pos⟩
  | line :: rest, pos => if trim line = [] then skipBlankFrom rest (pos + 1) else ⟨line :: rest, pos⟩

def skipBlank (parser : Parser) : Parser := skipBlankFrom parser.rest parser.pos

def expectLine (parser : Parser) : ParseOutcome (List Char × Parser) :=
  match parser.rest with
  | [] => .error (.error .unexpectedEof)
  | line :: rest => .ok (line, ⟨rest, parser.pos + 1⟩)

/-! ### The hardware stanza -/

/-- One declaration of a unit. -/
def parseUnit (pos : Nat) (trimmed : List Char) : ParseOutcome UnitDecl := do
  let rest ← orErr pos "expected 'unit ...': " trimmed (trimmed.dropPrefix? "unit ".toList)
  let (name, kind) ← orErr pos "bad unit decl: " trimmed (rest.dropInfix? " = ".toList)
  return ⟨String.ofList (trim name), String.ofList (trim kind)⟩

def parseHardware (units : List UnitDecl) :
    List (List Char) → Nat → ParseOutcome (List UnitDecl × Parser)
  | [], _ => .error (.error .unexpectedEof)
  | line :: rest, pos =>
      if trim line = [] then parseHardware units rest (pos + 1)
      else if trim line = "\x7d".toList then .ok (units, ⟨rest, pos + 1⟩)
      else do
        let unit ← parseUnit (pos + 1) (trim line)
        parseHardware (units ++ [unit]) rest (pos + 1)

/-! ### The layout stanza -/

/-- An alias or the units of one slot. -/
def parseLayoutLine (pos : Nat) (trimmed : List Char) :
    ParseOutcome (SlotAlias ⊕ Nat × List String) :=
  match trimmed.dropPrefix? "alias ".toList with
  | some rest => do
      let (name, index) ← orErr pos "bad alias: " trimmed (rest.dropInfix? " = ".toList)
      let slot ← orErr pos "bad alias index: " index (parseUnsigned 10 (2 ^ 64) (trim index))
      return .inl ⟨String.ofList (trim name), slot⟩
  | none => do
      let (index, rest) ← orErr pos "bad slot decl: " trimmed (trimmed.dropInfix? " = ".toList)
      let slot ← orErr pos "bad slot index: " index (parseUnsigned 10 (2 ^ 64) (trim index))
      let inner := trim (((trim rest).dropWhile (· = '\x7b')).rdropWhile (· = '\x7d'))
      let units := if inner = [] then [] else (inner.splitOn ',').map (String.ofList ∘ trim)
      return .inr (slot, units)

/-- The units of every slot up to the largest index; the vector may not exceed
`isize::MAX` bytes. -/
def slotUnitsOf (indexed : List (Nat × List String)) : ParseOutcome (List (List String)) :=
  match (indexed.map (·.1)).max? with
  | none => .ok []
  | some maxIdx =>
      if 2 ^ 64 ≤ maxIdx + 1 then .error (.panic "attempt to add with overflow")
      else if 2 ^ 63 ≤ (maxIdx + 1) * 24 then .error (.panic "capacity overflow")
      else
        let sorted := indexed.mergeSort fun first second => first.1 ≤ second.1
        .ok (sorted.foldl (fun result entry => result.set entry.1 entry.2)
          (List.replicate (maxIdx + 1) []))

def parseLayout (aliases : List SlotAlias) (indexed : List (Nat × List String)) :
    List (List Char) → Nat → ParseOutcome ((List SlotAlias × List (List String)) × Parser)
  | [], _ => .error (.error .unexpectedEof)
  | line :: rest, pos =>
      if trim line = [] then parseLayout aliases indexed rest (pos + 1)
      else if trim line = "\x7d".toList then do
        let slotUnits ← slotUnitsOf indexed
        return ((aliases, slotUnits), ⟨rest, pos + 1⟩)
      else do
        match ← parseLayoutLine (pos + 1) (trim line) with
        | .inl entry => parseLayout (aliases ++ [entry]) indexed rest (pos + 1)
        | .inr entry => parseLayout aliases (indexed ++ [entry]) rest (pos + 1)

/-! ### The processor stanza -/

/-- The text between the braces of a stanza on one line. -/
def inlineStanza (name trimmed : List Char) : Option (List Char) := do
  let rest ← trimmed.dropPrefix? name
  let inner ← (trim rest).dropPrefix? "\x7b".toList
  return trim (inner.rdropWhile (· = '\x7d'))

def parseTopologyInline (trimmed : List Char) : Option TopologySpec := do
  let inner ← inlineStanza "topology".toList trimmed
  let rest ← inner.dropPrefix? "cpus ".toList
  let cpus ← parseUnsigned 10 (2 ^ 32) (trim rest)
  return ⟨cpus⟩

def parseMemoryInline (trimmed : List Char) : Option Nat := do
  let inner ← inlineStanza "memory".toList trimmed
  let rest ← inner.dropPrefix? "size ".toList
  let size ← parseHexOrDec (trim rest)
  return size.toNat

/-- The processor before its stanza is read. -/
def initialProcessor : Processor where
  width := 4
  units := []
  slotAliases := []
  slotUnits := []

/-- One line of the processor stanza, with the lines of the stanza it opens. -/
def parseStanza (processor : Processor) (trimmed : List Char) (parser : Parser) :
    ParseOutcome (Processor × Parser) :=
  if let some rest := trimmed.dropPrefix? "width ".toList then do
    let width ← orErr parser.pos "bad width: " rest (parseUnsigned 10 (2 ^ 32) (trim rest))
    return ({ processor with width }, parser)
  else if trimmed = "hardware \x7b".toList then do
    let (units, parser) ← parseHardware [] parser.rest parser.pos
    return ({ processor with units }, parser)
  else if trimmed = "layout slots \x7b".toList then do
    let ((slotAliases, slotUnits), parser) ← parseLayout [] [] parser.rest parser.pos
    return ({ processor with slotAliases, slotUnits }, parser)
  else if (trimmed.dropPrefix? "cache \x7b".toList).isSome then
    return (processor, parser)
  else if (trimmed.dropPrefix? "topology \x7b".toList).isSome then do
    let topology ← orErr parser.pos "bad topology: " trimmed (parseTopologyInline trimmed)
    return ({ processor with topology }, parser)
  else if (trimmed.dropPrefix? "memory \x7b".toList).isSome then do
    let memorySize ← orErr parser.pos "bad memory: " trimmed (parseMemoryInline trimmed)
    return ({ processor with memorySize }, parser)
  else err parser.pos "unexpected in .processor: " trimmed

/-- The lines of the processor stanza; every pass of the loop reads a line. -/
def parseStanzas : Nat → Processor → Parser → ParseOutcome (Processor × Parser)
  | 0, _, _ => .error .diverges
  | fuel + 1, processor, parser => do
      let (line, parser) ← parser.skipBlank.expectLine
      if trim line = "\x7d".toList then return (processor, parser)
      else
        let (processor, parser) ← parseStanza processor (trim line) parser
        parseStanzas fuel processor parser

def parseProcessor (parser : Parser) : ParseOutcome (Processor × Parser) := do
  let (line, parser) ← parser.expectLine
  if trim line ≠ ".processor \x7b".toList then
    err parser.pos "expected '.processor \x7b', got: " (trim line)
  else parseStanzas (parser.rest.length + 1) initialProcessor parser

/-! ### Items -/

/-- What a slot holds. -/
def parseContent (pos : Nat) (text : List Char) : ParseOutcome (Option Syllable) :=
  if text = "nop".toList then .ok none
  else
    okOrElse (.syntaxError pos ("bad syllable: " ++ String.ofList text))
      ((parseSyllable text).map some)

/-- The name of a slot and what it holds. -/
def parseSlot (pos : Nat) (trimmed : List Char) : ParseOutcome (List Char × Option Syllable) := do
  let (name, text) ← orErr pos "expected ':' in: " trimmed (trimmed.dropInfix? [':'])
  let syllable ← parseContent pos (trim text)
  return (trim name, syllable)

/-- The slots of a bundle after its opening brace. -/
def parseSlots (processor : Processor) (slots : List (Option Syllable)) (posIdx : Nat) :
    List (List Char) → Nat → ParseOutcome (List (Option Syllable) × Parser)
  | [], _ => .error (.error .unexpectedEof)
  | line :: rest, pos =>
      if trim line = "\x7d".toList then .ok (slots, ⟨rest, pos + 1⟩)
      else do
        let (name, syllable) ← parseSlot (pos + 1) (trim line)
        let slotIdx := ((processor.slotAliases.find? (·.name.toList = name)).map
          (·.slot)).getD posIdx
        parseSlots processor (slots.set slotIdx syllable) (posIdx + 1) rest (pos + 1)

def parseBundle (processor : Processor) (parser : Parser) : ParseOutcome (Bundle × Parser) := do
  let (_, parser) ← parser.expectLine
  let (slots, parser) ← parseSlots processor (List.replicate processor.width none) 0 parser.rest
    parser.pos
  return (⟨slots⟩, parser)

/-- The items after the processor stanza; every pass of the loop reads a line. -/
def parseItems (processor : Processor) : Nat → List Item → Parser → ParseOutcome (List Item)
  | 0, _, _ => .error .diverges
  | fuel + 1, items, parser => do
      let parser := parser.skipBlank
      match parser.rest with
      | [] => .ok items
      | line :: rest =>
          if trim line = "\x7b".toList then do
            let (bundle, parser) ← parseBundle processor parser
            parseItems processor fuel (items ++ [.bundle bundle]) parser
          else
            match (trim line).dropSuffix? [':'] with
            | some label =>
                parseItems processor fuel (items ++ [.label (String.ofList label)])
                  ⟨rest, parser.pos + 1⟩
            | none => err parser.pos "unexpected: " (trim line)

def parseProgram (parser : Parser) : ParseOutcome Program := do
  let (processor, parser) ← parser.skipBlank.parseProcessor
  let items ← parseItems processor (parser.rest.length + 1) [] parser
  return ⟨processor, items⟩

end Parser

def parse (input : String) : ParseOutcome Program :=
  Parser.parseProgram ⟨Text.lines input.toList, 0⟩

end VliwCompiler.Asm
