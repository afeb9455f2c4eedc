import VliwCompiler.Asm.HeaderText

/-!
# Reading back emitted programs

Every line of the emitted text is read back as what it was written for, so
parsing recovers the program, with bundles filled up to the width of the
processor.
-/

namespace VliwCompiler.Asm

open Text (trim parseUnsigned parseSigned isWhitespace Solid IsLine)

/-! ### Emitted lines -/

/-- Lines with their line ends. -/
def unlines (lines : List (List Char)) : List Char := lines.flatMap (· ++ ['\n'])

@[simp]
theorem unlines_nil : unlines [] = [] := rfl

@[simp]
theorem unlines_cons (line : List Char) (lines : List (List Char)) :
    unlines (line :: lines) = line ++ '\n' :: unlines lines := by
  simp [unlines]

@[simp]
theorem unlines_append (first second : List (List Char)) :
    unlines (first ++ second) = unlines first ++ unlines second :=
  List.flatMap_append

theorem toList_line (text : String) : (line text).toList = text.toList ++ ['\n'] := by
  simp [line]

/-- Lines written one after the other. -/
theorem toList_join_lines {α : Type} {items : List α} {text : α → String} {form : α → List Char}
    (same : ∀ item ∈ items, (text item).toList = form item) :
    (String.join (items.map fun item => line (text item))).toList = unlines (items.map form) := by
  rw [String.toList_join, List.flatMap_map, unlines, List.flatMap_map]
  refine List.flatMap_congr fun item itemMem => ?_
  rw [toList_line, same item itemMem]

theorem toList_emitHeader (processor : Processor) :
    (emitHeader processor).toList =
      unlines (".processor \x7b".toList :: stanzaLines processor) := by
  have units : (String.join (processor.units.map fun unit =>
      line ("    unit " ++ unit.name ++ " = " ++ unit.kind))).toList =
        unlines (processor.units.map unitLine) :=
    toList_join_lines fun unit _ => by simp [unitLine]
  have aliases : (String.join (processor.slotAliases.map fun entry =>
      line ("    alias " ++ entry.name ++ " = " ++ toString entry.slot))).toList =
        unlines (processor.slotAliases.map aliasLine) :=
    toList_join_lines fun entry _ => by simp [aliasLine]
  have slotUnits : (String.join (processor.slotUnits.zipIdx.map fun entry =>
      line ("    " ++ toString entry.2 ++ " = \x7b " ++ String.intercalate ", " entry.1 ++
        " \x7d"))).toList = unlines (processor.slotUnits.zipIdx.map slotUnitsLine) :=
    toList_join_lines fun entry _ => by simp [slotUnitsLine]
  have memory : (if processor.memorySize ≠ defaultMemorySize then
      line "" ++ line ("  memory \x7b size " ++ hex processor.memorySize ++ " \x7d")
      else "").toList = unlines (memoryLines processor) := by
    rw [memoryLines]
    split
    · simp [line, memoryText, inlineText]
    · rfl
  rw [emitHeader]
  simp only [String.toList_append, units, aliases, slotUnits, memory, stanzaLines, layoutLines,
    closingLines, unlines_cons, unlines_append, unlines_nil]
  simp [line, widthLine, topologyText, inlineText]

theorem toList_emitBundle (processor : Processor) (bundle : Bundle) :
    (emitBundle bundle processor).toList = unlines (bundleLines processor bundle) := by
  have isText : (emitBundle bundle processor).toList =
      (line "\x7b").toList ++ unlines ((List.range processor.width).map fun slot =>
        slotLine processor slot bundle.slots[slot]?.join) ++ (line "\x7d").toList := by
    rw [emitBundle, String.toList_append, String.toList_append, String.toList_join,
      List.flatMap_map, unlines, List.flatMap_map]
    congr 2
    refine List.flatMap_congr fun slot slotMem => ?_
    have isName : ((slotDisplayNames processor)[slot]?).getD "??" = slotWord processor slot ++
        String.ofList (List.replicate (slotPadding processor slot) ' ') := by
      rw [slotDisplayNames, List.getElem?_map, List.getElem?_range (List.mem_range.mp slotMem)]
      rfl
    dsimp only
    rw [isName, slotLine]
    cases bundle.slots[slot]?.join with
    | none => simp [line, slotText]
    | some syllable =>
        by_cases isEmpty : syllable.operands = []
        · simp [line, slotText, isEmpty]
        · simp [line, slotText, isEmpty, operandsText, Function.comp_def]
  rw [isText]
  simp [line, bundleLines]

/-- The lines of a program. -/
def programLines (program : Program) : List (List Char) :=
  ".processor \x7b".toList :: (stanzaLines program.processor ++
    [] :: program.items.flatMap (itemLines program.processor))

theorem toList_emit (program : Program) :
    (emit program).toList = unlines (programLines program) := by
  have isText : (emit program).toList = (emitHeader program.processor).toList ++ "\n".toList ++
      unlines (program.items.flatMap (itemLines program.processor)) := by
    rw [emit, String.toList_append, String.toList_append, String.toList_join, List.flatMap_map,
      unlines, List.flatMap_assoc]
    congr 1
    refine List.flatMap_congr fun item _ => ?_
    cases item with
    | label name => simp [line, itemLines]
    | bundle bundle => exact toList_emitBundle program.processor bundle
  rw [isText, toList_emitHeader]
  simp [programLines]

/-! ### Every line is one line -/

section

variable {processor : Processor}

theorem isLine_digits (n : Nat) : IsLine (Nat.toDigits 10 n) := (isPart_digits n).isLine

theorem isLine_inlineText {name inner : List Char} (isName : IsLine name) (isInner : IsLine inner) :
    IsLine (inlineText name inner) :=
  isName.append (.append ⟨by decide, by decide⟩ (isInner.append ⟨by decide, by decide⟩))

theorem isLine_closingLines : ∀ text ∈ closingLines processor, IsLine text := by
  intro text textMem
  rcases List.mem_append.mp textMem with inMemory | inRest
  · rw [memoryLines] at inMemory
    split at inMemory
    · simp only [List.mem_cons, List.not_mem_nil, or_false] at inMemory
      rcases inMemory with rfl | rfl
      · exact ⟨by decide, by decide⟩
      · exact .append ⟨by decide, by decide⟩ (isLine_inlineText ⟨by decide, by decide⟩
          (.append ⟨by decide, by decide⟩ (isPart_hex processor.memorySize).isLine))
    · cases inMemory
  · simp only [List.mem_cons, List.not_mem_nil, or_false] at inRest
    rcases inRest with rfl | rfl | rfl
    · exact ⟨by decide, by decide⟩
    · exact .append ⟨by decide, by decide⟩ (isLine_inlineText ⟨by decide, by decide⟩
        (.append ⟨by decide, by decide⟩ (isLine_digits processor.topology.cpus)))
    · exact ⟨by decide, by decide⟩

theorem isLine_layoutLines (encodable : processor.Encodable) :
    ∀ text ∈ layoutLines processor, IsLine text := by
  intro text textMem
  rcases List.mem_append.mp textMem with inAliases | inRest
  · obtain ⟨entry, entryMem, rfl⟩ := List.mem_map.mp inAliases
    have isName := (encodable.aliases entry entryMem).1.isPart.isLine
    exact .append ⟨by decide, by decide⟩ (.append ⟨by decide, by decide⟩
      (isName.append (.append ⟨by decide, by decide⟩ (isLine_digits entry.slot))))
  · rcases List.mem_cons.mp inRest with rfl | inRest
    · exact ⟨by decide, by decide⟩
    · rcases List.mem_append.mp inRest with inUnits | isLast
      · obtain ⟨⟨units, slot⟩, entryMem, rfl⟩ := List.mem_map.mp inUnits
        have unitsMem : units ∈ processor.slotUnits := List.fst_mem_of_mem_zipIdx entryMem
        have areLines : ∀ part ∈ units.map String.toList, IsLine part := by
          intro part partMem
          obtain ⟨unit, unitMem, rfl⟩ := List.mem_map.mp partMem
          exact (encodable.slotUnits units unitsMem unit unitMem).isPart.isLine
        exact .append ⟨by decide, by decide⟩ ((isLine_digits slot).append
          (.append ⟨by decide, by decide⟩ (.append ⟨by decide, by decide⟩
            ((isLine_intercalate ⟨by decide, by decide⟩ areLines).append
              ⟨by decide, by decide⟩))))
      · rw [List.mem_singleton.mp isLast]
        exact ⟨by decide, by decide⟩

theorem isLine_stanzaLines (encodable : processor.Encodable) :
    ∀ text ∈ stanzaLines processor, IsLine text := by
  intro text textMem
  simp only [stanzaLines, List.mem_cons, List.mem_append] at textMem
  rcases textMem with rfl | rfl | rfl | inUnits | rfl | rfl | rfl | inLayout | rfl | inClosing
  · exact .append ⟨by decide, by decide⟩ (.append ⟨by decide, by decide⟩
      (isLine_digits processor.width))
  · exact ⟨by decide, by decide⟩
  · exact ⟨by decide, by decide⟩
  · obtain ⟨unit, unitMem, rfl⟩ := List.mem_map.mp inUnits
    obtain ⟨isName, isKind⟩ := encodable.units unit unitMem
    exact .append ⟨by decide, by decide⟩ (.append ⟨by decide, by decide⟩
      (isName.isPart.isLine.append (.append ⟨by decide, by decide⟩ isKind.isPart.isLine)))
  · exact ⟨by decide, by decide⟩
  · exact ⟨by decide, by decide⟩
  · exact ⟨by decide, by decide⟩
  · exact isLine_layoutLines encodable text inLayout
  · exact ⟨by decide, by decide⟩
  · exact isLine_closingLines text inClosing

theorem isLine_itemLines (encodable : processor.Encodable) {item : Item}
    (isItem : item.Encodable processor.width) : ∀ text ∈ itemLines processor item, IsLine text := by
  intro text textMem
  cases item with
  | label name =>
      rw [List.mem_singleton.mp textMem]
      exact isItem.isPart.isLine.append ⟨by decide, by decide⟩
  | bundle bundle =>
      simp only [itemLines, bundleLines, List.cons_append, List.mem_cons, List.mem_append,
        List.not_mem_nil, or_false] at textMem
      rcases textMem with rfl | inSlots | rfl
      · exact ⟨by decide, by decide⟩
      · obtain ⟨slot, -, rfl⟩ := List.mem_map.mp inSlots
        have isContent : ∀ syllable ∈ bundle.slots[slot]?.join, syllable.Encodable :=
          encodable_of_slot isItem.2 slot
        obtain ⟨-, -, -, isWord⟩ := solid_slotWord encodable slot
        obtain ⟨-, -, isText⟩ := solid_slotText isContent
        have isPadding : IsLine (List.replicate (slotPadding processor slot) ' ') :=
          ⟨by simp, by simp⟩
        exact .append ⟨by decide, by decide⟩
          (isWord.append (isPadding.append (.append ⟨by decide, by decide⟩ isText)))
      · exact ⟨by decide, by decide⟩

end

/-! ### Round trip -/

/-- The program is read back from its text. -/
structure Program.Encodable (program : Program) : Prop where
  processor : program.processor.Encodable
  items : ∀ item ∈ program.items, item.Encodable program.processor.width

/-- The program with every bundle filled up to the width of the processor. -/
def Program.pad (program : Program) : Program where
  processor := program.processor
  items := program.items.map (·.pad program.processor.width)

theorem length_le_length_flatMap {α β : Type} {items : List α} {f : α → List β}
    (full : ∀ item ∈ items, f item ≠ []) : items.length ≤ (items.flatMap f).length := by
  induction items with
  | nil => simp
  | cons item items ih =>
      have isFull := List.length_pos_iff.mpr (full item List.mem_cons_self)
      have rest := ih fun other otherMem => full other (List.mem_cons_of_mem _ otherMem)
      rw [List.flatMap_cons, List.length_append, List.length_cons]
      omega

theorem isLine_programLines {program : Program} (encodable : program.Encodable) :
    ∀ text ∈ programLines program, IsLine text := by
  intro text textMem
  simp only [programLines, List.mem_cons, List.mem_append, List.mem_flatMap] at textMem
  rcases textMem with rfl | inStanza | rfl | ⟨item, itemMem, inItem⟩
  · exact ⟨by decide, by decide⟩
  · exact isLine_stanzaLines encodable.processor text inStanza
  · exact ⟨by decide, by decide⟩
  · exact isLine_itemLines encodable.processor (encodable.items item itemMem) text inItem

/-- The stanza of the processor is read from the start of the program. -/
theorem parseProcessor_programLines {processor : Processor} (encodable : processor.Encodable)
    (rest : List (List Char)) :
    ∃ pos, Parser.parseProcessor
        ⟨".processor \x7b".toList :: (stanzaLines processor ++ rest), 0⟩ =
      .ok (processor, ⟨rest, pos⟩) := by
  have isOpen : trim ".processor \x7b".toList = ".processor \x7b".toList := by decide
  obtain ⟨more, isFuel⟩ : ∃ more, (stanzaLines processor ++ rest).length + 1 = more + 7 := by
    refine ⟨(stanzaLines processor ++ rest).length - 6, ?_⟩
    simp only [stanzaLines, List.length_append, List.length_cons, layoutLines, closingLines]
    omega
  obtain ⟨pos, read⟩ := parseStanzas_stanzaLines encodable more rest 1
  refine ⟨pos, ?_⟩
  rw [Parser.parseProcessor]
  change (if trim ".processor \x7b".toList ≠ ".processor \x7b".toList then
      Parser.err 1 "expected '.processor \x7b', got: " (trim ".processor \x7b".toList)
    else Parser.parseStanzas ((stanzaLines processor ++ rest).length + 1) Parser.initialProcessor
      ⟨stanzaLines processor ++ rest, 1⟩) = _
  rw [if_neg (not_not.mpr isOpen), isFuel, read]

/-- Parsing undoes emission: the program is read back with its bundles filled up
to the width of the processor. -/
theorem parse_emit {program : Program} (encodable : program.Encodable) :
    parse (emit program) = .ok program.pad := by
  have isLines : Text.lines (emit program).toList = programLines program := by
    rw [toList_emit]
    exact Text.lines_flatMap (isLine_programLines encodable)
  obtain ⟨pos, readProcessor⟩ := parseProcessor_programLines encodable.processor
    ([] :: program.items.flatMap (itemLines program.processor))
  have enough : program.items.length <
      ([] :: program.items.flatMap (itemLines program.processor)).length + 1 := by
    have isLess : program.items.length ≤
        (program.items.flatMap (itemLines program.processor)).length := by
      refine length_le_length_flatMap fun item _ => ?_
      cases item <;> simp [itemLines, bundleLines]
    rw [List.length_cons]
    omega
  have readItems := parseItems_itemLines encodable.processor encodable.items enough [] (pos + 1)
  have isStart : Parser.skipBlank ⟨programLines program, 0⟩ = ⟨programLines program, 0⟩ :=
    skipBlank_of_full (by decide) _ _
  rw [parse, isLines, Parser.parseProgram, isStart, programLines, readProcessor]
  change (Parser.parseItems program.processor _ [] ⟨[] :: _, pos⟩).bind
    (fun items : List Item => (.ok ⟨program.processor, items⟩ : ParseOutcome Program)) = _
  rw [parseItems_blank, readItems]
  rfl

/-- A processor with a slot that has two names and one that has none. -/
def twoNames : Processor where
  width := 3
  units := [⟨"alu", "integer_alu"⟩]
  slotAliases := [⟨"I0", 0⟩, ⟨"first", 0⟩, ⟨"X", 2⟩]
  slotUnits := [["alu"], ["alu", "mem"]]
  memorySize := 0x20000

/-- A program with every kind of operand. -/
def everyOperand : Program where
  processor := twoNames
  items :=
    [.label "loop_1.x",
      .bundle ⟨[some ⟨"std", [.memAddr 3 (-8), .reg 2]⟩, some ⟨"cmp_lt", [.pred 1, .imm (-5)]⟩]⟩,
      .bundle ⟨[none, none, some ⟨"br", [.pred 1, .label "loop_1.x"]⟩]⟩,
      .bundle ⟨[some ⟨"ldd", [.reg 255, .memAddr 0 64]⟩, some ⟨"ret", []⟩]⟩]

theorem encodable_everyOperand : everyOperand.Encodable where
  processor :=
    { units := by decide +kernel
      slotUnits := by decide +kernel
      aliases := by decide +kernel
      distinct := by decide +kernel
      width := by decide
      slots := by decide
      cpus := by decide
      memorySize := by decide }
  items := by decide +kernel

theorem parse_emit_everyOperand :
    parse (emit everyOperand) = .ok everyOperand.pad :=
  parse_emit encodable_everyOperand

end VliwCompiler.Asm
