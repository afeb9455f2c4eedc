import VliwCompiler.Asm.OperandText

/-!
# Reading back bundles

The line of a slot is read back as what the slot holds.  Its name leads to the
slot, as an alias or by its position, so the lines of a bundle are read back as
the bundle filled up to the width of the processor.
-/

namespace VliwCompiler.Asm

open Text (trim parseUnsigned parseSigned isWhitespace Solid IsLine)

/-! ### Syllables -/

/-- The syllable is read back from its text. -/
structure Syllable.Encodable (syllable : Syllable) : Prop where
  opcode : IsName syllable.opcode
  operands : ∀ operand ∈ syllable.operands, operand.Readable
  notNop : syllable.operands = [] → syllable.opcode ≠ "nop"

instance (syllable : Syllable) : Decidable syllable.Encodable :=
  decidable_of_iff (IsName syllable.opcode ∧ (∀ operand ∈ syllable.operands, operand.Readable) ∧
      (syllable.operands = [] → syllable.opcode ≠ "nop"))
    ⟨fun all => ⟨all.1, all.2.1, all.2.2⟩,
      fun encodable => ⟨encodable.opcode, encodable.operands, encodable.notNop⟩⟩

/-- The text of the operands of a syllable. -/
def operandsText (operands : List Operand) : List Char :=
  List.intercalate ", ".toList (operands.map (·.display.toList))

/-- The text of a slot. -/
def slotText : Option Syllable → List Char
  | none => "nop".toList
  | some syllable =>
      if syllable.operands = [] then syllable.opcode.toList
      else syllable.opcode.toList ++ (" ".toList ++ operandsText syllable.operands)

theorem isLine_intercalate {sep : List Char} {parts : List (List Char)} (isSep : IsLine sep)
    (areLines : ∀ part ∈ parts, IsLine part) : IsLine (List.intercalate sep parts) := by
  induction parts with
  | nil => exact .of_forall (by simp)
  | cons part parts ih =>
      have isPart := areLines part List.mem_cons_self
      cases parts with
      | nil =>
          rw [List.intercalate_singleton]
          exact isPart
      | cons next parts =>
          rw [List.intercalate_cons_cons]
          exact (isPart.append isSep).append
            (ih fun other otherMem => areLines other (List.mem_cons_of_mem _ otherMem))

/-- A list of parts starts with its first part and ends with its last. -/
theorem solid_intercalate {sep : List Char} {parts : List (List Char)} (full : parts ≠ [])
    (arePartsFull : ∀ part ∈ parts, part ≠ []) (areSolid : ∀ part ∈ parts, Solid part) :
    Solid (List.intercalate sep parts) ∧ List.intercalate sep parts ≠ [] := by
  induction parts with
  | nil => exact absurd rfl full
  | cons part parts ih =>
      have isSolid := areSolid part List.mem_cons_self
      have isFull := arePartsFull part List.mem_cons_self
      cases parts with
      | nil =>
          rw [List.intercalate_singleton]
          exact ⟨isSolid, isFull⟩
      | cons next parts =>
          obtain ⟨restSolid, restFull⟩ := ih (by simp)
            (fun other otherMem => arePartsFull other (List.mem_cons_of_mem _ otherMem))
            (fun other otherMem => areSolid other (List.mem_cons_of_mem _ otherMem))
          rw [List.intercalate_cons_cons, List.append_assoc]
          exact ⟨isSolid.append sep restSolid isFull restFull, by simp [isFull]⟩

theorem solid_operandsText {operands : List Operand} (full : operands ≠ [])
    (readable : ∀ operand ∈ operands, operand.Readable) :
    Solid (operandsText operands) ∧ operandsText operands ≠ [] :=
  solid_intercalate (by simpa using full)
    (fun part partMem => (areParts_display readable part partMem).full)
    (fun part partMem => (areParts_display readable part partMem).solid)

section

variable {syllable : Syllable} (encodable : syllable.Encodable)

theorem solid_slotText : ∀ {slot : Option Syllable}, (∀ syllable ∈ slot, syllable.Encodable) →
    Solid (slotText slot) ∧ slotText slot ≠ [] ∧ IsLine (slotText slot) := by
  intro slot encodable
  cases slot with
  | none => exact ⟨.of_forall (by decide), by decide, .of_forall (by decide)⟩
  | some syllable =>
      obtain ⟨opcode, operands, -⟩ := encodable syllable rfl
      rw [slotText]
      split
      · exact ⟨opcode.solid, opcode.full, opcode.isPart.isLine⟩
      · rename_i full
        obtain ⟨isSolid, isFull⟩ := solid_operandsText full operands
        refine ⟨opcode.solid.append _ isSolid opcode.full isFull, by simp [opcode.full], ?_⟩
        refine opcode.isPart.isLine.append (.append ⟨by decide, by decide⟩ ?_)
        exact isLine_intercalate ⟨by decide, by decide⟩
          fun part partMem => (areParts_display operands part partMem).isLine

include encodable

/-- A syllable is read back from its text. -/
theorem parseSyllable_slotText : parseSyllable (slotText (some syllable)) = .ok syllable := by
  obtain ⟨opcode, operands, -⟩ := encodable
  rw [slotText]
  split
  · rename_i isEmpty
    have noCut : syllable.opcode.toList.dropInfix? [' '] = none :=
      Text.dropInfix?_eq_none (c := ' ') (by decide) (opcode.not_mem (by decide))
    rw [parseSyllable, noCut]
    dsimp only
    rw [if_pos rfl, String.ofList_toList, ← isEmpty]
    rfl
  · rename_i full
    have isCut : (syllable.opcode.toList ++ (" ".toList ++ operandsText syllable.operands)).dropInfix?
        [' '] = some (syllable.opcode.toList, operandsText syllable.operands) :=
      Text.dropInfix?_append ' ' [] _ (opcode.not_mem (by decide))
    obtain ⟨isSolid, isFull⟩ := solid_operandsText full operands
    rw [parseSyllable, isCut]
    dsimp only
    rw [Text.trim_of_solid isSolid, if_neg isFull, String.ofList_toList, operandsText,
      parseOperands_display full operands]
    rfl

theorem slotText_ne_nop : slotText (some syllable) ≠ "nop".toList := by
  rw [slotText]
  split
  · rename_i isEmpty
    exact fun isNop => encodable.notNop isEmpty (String.toList_inj.mp isNop)
  · intro isNop
    have blankMem : ' ' ∈ "nop".toList := isNop ▸ by simp
    exact absurd blankMem (by decide)

end

/-! ### Bundles -/

/-- The processor is read back from its text; sizes are those of the machine
types. -/
structure Processor.Encodable (processor : Processor) : Prop where
  units : ∀ unit ∈ processor.units, IsName unit.name ∧ IsName unit.kind
  slotUnits : ∀ units ∈ processor.slotUnits, ∀ unit ∈ units, IsName unit
  aliases : ∀ entry ∈ processor.slotAliases, IsName entry.name ∧ entry.slot < 2 ^ 64
  distinct : (processor.slotAliases.map (·.name)).Nodup
  width : processor.width < 2 ^ 32
  slots : processor.slotUnits.length * 24 < 2 ^ 63
  cpus : processor.topology.cpus < 2 ^ 32
  memorySize : processor.memorySize < 2 ^ 63

section

variable (processor : Processor)

/-- The name shown for a slot. -/
def slotWord (slot : Nat) : String :=
  ((processor.slotAliases.find? (·.slot = slot)).map (·.name)).getD "??"

/-- The padding after the name of a slot. -/
def slotPadding (slot : Nat) : Nat :=
  ((processor.slotAliases.map (·.name.utf8ByteSize)).max?).getD 1 - (slotWord processor slot).length

/-- The line of a slot. -/
def slotLine (slot : Nat) (content : Option Syllable) : List Char :=
  "  ".toList ++ ((slotWord processor slot).toList ++
    (List.replicate (slotPadding processor slot) ' ' ++ (": ".toList ++ slotText content)))

/-- The word of a slot is an alias or marks a slot without one. -/
theorem slotWord_eq (slot : Nat) :
    (∃ entry ∈ processor.slotAliases, entry.slot = slot ∧ entry.name = slotWord processor slot) ∨
      slotWord processor slot = "??" := by
  unfold slotWord
  cases found : processor.slotAliases.find? (·.slot = slot) with
  | none => exact .inr rfl
  | some entry =>
      have isSlot : entry.slot = slot := by simpa using List.find?_some found
      exact .inl ⟨entry, List.mem_of_find?_eq_some found, isSlot, rfl⟩

variable {processor}

theorem solid_slotWord (encodable : processor.Encodable) (slot : Nat) :
    Solid (slotWord processor slot).toList ∧ (slotWord processor slot).toList ≠ [] ∧
      ':' ∉ (slotWord processor slot).toList ∧ IsLine (slotWord processor slot).toList := by
  rcases slotWord_eq processor slot with ⟨entry, entryMem, -, isWord⟩ | isMark
  · have isName := (encodable.aliases entry entryMem).1
    rw [← isWord]
    exact ⟨isName.solid, isName.full, isName.not_mem (by decide), isName.isPart.isLine⟩
  · rw [isMark]
    exact ⟨.of_forall (by decide), by decide, by decide, .of_forall (by decide)⟩

/-- The word of a slot leads back to the slot. -/
theorem find?_slotWord (encodable : processor.Encodable) (slot : Nat) :
    ((processor.slotAliases.find? (·.name.toList = (slotWord processor slot).toList)).map
      (·.slot)).getD slot = slot := by
  rcases slotWord_eq processor slot with ⟨entry, entryMem, isSlot, isWord⟩ | isMark
  · cases found : processor.slotAliases.find?
        (·.name.toList = (slotWord processor slot).toList) with
    | none => rfl
    | some other =>
        have otherMem := List.mem_of_find?_eq_some found
        have sameName : other.name = entry.name := by
          rw [isWord]
          exact String.toList_inj.mp (by simpa using List.find?_some found)
        have same : other = entry :=
          List.inj_on_of_nodup_map encodable.distinct otherMem entryMem sameName
        rw [same]
        exact isSlot
  · have noEntry : processor.slotAliases.find?
        (·.name.toList = (slotWord processor slot).toList) = none := by
      rw [List.find?_eq_none]
      intro entry entryMem isName
      rw [decide_eq_true_eq, isMark] at isName
      have markMem : '?' ∈ entry.name.toList := isName ▸ by decide
      exact (encodable.aliases entry entryMem).1.not_mem (by decide) markMem
    rw [noEntry]
    rfl

theorem trim_slotLine (encodable : processor.Encodable) {content : Option Syllable}
    (isContent : ∀ syllable ∈ content, syllable.Encodable) (slot : Nat) :
    trim (slotLine processor slot content) = (slotWord processor slot).toList ++
      (List.replicate (slotPadding processor slot) ' ' ++ (": ".toList ++ slotText content)) := by
  obtain ⟨wordSolid, wordFull, -, -⟩ := solid_slotWord encodable slot
  obtain ⟨textSolid, textFull, -⟩ := solid_slotText isContent
  refine Text.trim_indent ?_ (by decide)
  rw [← List.append_assoc (List.replicate _ _)]
  exact wordSolid.append _ textSolid wordFull textFull

theorem parseContent_slotText {content : Option Syllable}
    (isContent : ∀ syllable ∈ content, syllable.Encodable) (pos : Nat) :
    Parser.parseContent pos (slotText content) = .ok content := by
  cases content with
  | none => rfl
  | some syllable =>
      have isSyllable := isContent syllable rfl
      rw [Parser.parseContent, if_neg (slotText_ne_nop isSyllable),
        parseSyllable_slotText isSyllable]
      rfl

/-- A slot is read back from its line. -/
theorem parseSlot_slotLine (encodable : processor.Encodable) {content : Option Syllable}
    (isContent : ∀ syllable ∈ content, syllable.Encodable) (slot pos : Nat) :
    Parser.parseSlot pos (trim (slotLine processor slot content)) =
      .ok ((slotWord processor slot).toList, content) := by
  obtain ⟨wordSolid, -, noColon, -⟩ := solid_slotWord encodable slot
  obtain ⟨textSolid, -, -⟩ := solid_slotText isContent
  have isCut : (trim (slotLine processor slot content)).dropInfix? [':'] =
      some ((slotWord processor slot).toList ++ List.replicate (slotPadding processor slot) ' ',
        " ".toList ++ slotText content) := by
    rw [trim_slotLine encodable isContent, ← List.append_assoc]
    refine Text.dropInfix?_append ':' [] (" ".toList ++ slotText content) ?_
    rw [List.mem_append, not_or]
    exact ⟨noColon, by simp⟩
  have isWord : trim ((slotWord processor slot).toList ++
      List.replicate (slotPadding processor slot) ' ') = (slotWord processor slot).toList := by
    refine Text.trim_padded wordSolid fun c cMem => ?_
    rw [List.eq_of_mem_replicate cMem]
    decide
  have isText : trim (" ".toList ++ slotText content) = slotText content :=
    Text.trim_indent textSolid (by decide)
  rw [Parser.parseSlot, isCut]
  change (Parser.parseContent pos (trim (" ".toList ++ slotText content))).bind
    (fun syllable => .ok (trim _, syllable)) = _
  rw [isText, parseContent_slotText isContent, isWord]
  rfl

theorem parseSlots_slotLine (encodable : processor.Encodable) {content : Option Syllable}
    (isContent : ∀ syllable ∈ content, syllable.Encodable) (slots : List (Option Syllable))
    (slot : Nat) (rest : List (List Char)) (pos : Nat) :
    Parser.parseSlots processor slots slot (slotLine processor slot content :: rest) pos =
      Parser.parseSlots processor (slots.set slot content) (slot + 1) rest (pos + 1) := by
  have notEnd : trim (slotLine processor slot content) ≠ "\x7d".toList := by
    rw [trim_slotLine encodable isContent]
    intro isEnd
    have colonMem : ':' ∈ "\x7d".toList := isEnd ▸ by simp
    exact absurd colonMem (by decide)
  have isSlot := find?_slotWord encodable slot
  rw [Parser.parseSlots, if_neg notEnd, parseSlot_slotLine encodable isContent]
  change Parser.parseSlots processor (slots.set _ content) (slot + 1) rest (pos + 1) = _
  rw [isSlot]

/-- What the slots of a bundle hold, up to the width of the processor. -/
def contents (width : Nat) (bundle : Bundle) : List (Option Syllable) :=
  (List.range width).map fun slot => bundle.slots[slot]?.join

theorem encodable_of_slot {bundle : Bundle}
    (isBundle : ∀ syllable ∈ bundle.syllables, syllable.Encodable) (slot : Nat) :
    ∀ syllable ∈ bundle.slots[slot]?.join, syllable.Encodable := by
  intro syllable isSyllable
  refine isBundle syllable (List.mem_filterMap.mpr ⟨some syllable, ?_, rfl⟩)
  exact List.mem_of_getElem? (Option.join_eq_some_iff.mp isSyllable)

/-- The lines of the slots from `slot` on are read back. -/
theorem parseSlots_slotLines (encodable : processor.Encodable) {bundle : Bundle}
    (isBundle : ∀ syllable ∈ bundle.syllables, syllable.Encodable) (rest : List (List Char))
    {count slot : Nat} (isWidth : slot + count = processor.width) (pos : Nat) :
    Parser.parseSlots processor (contents slot bundle ++ List.replicate count none) slot
        (((List.range' slot count).map fun slot =>
          slotLine processor slot bundle.slots[slot]?.join) ++ "\x7d".toList :: rest) pos =
      .ok (contents processor.width bundle, ⟨rest, pos + count + 1⟩) := by
  induction count generalizing slot pos with
  | zero =>
      have isEnd : trim "\x7d".toList = "\x7d".toList := by decide
      rw [← isWidth, List.range'_zero, List.map_nil, List.nil_append, Parser.parseSlots,
        if_pos isEnd]
      simp
  | succ count ih =>
      have isContent := encodable_of_slot isBundle slot
      have isSet : (contents slot bundle ++ List.replicate (count + 1) none).set slot
          bundle.slots[slot]?.join = contents (slot + 1) bundle ++ List.replicate count none := by
        have isLength : (contents slot bundle).length = slot := by simp [contents]
        rw [List.set_append_right _ _ isLength.le, isLength, Nat.sub_self, List.replicate_succ]
        simp [contents, List.range_succ]
      rw [List.range'_succ, List.map_cons, List.cons_append,
        parseSlots_slotLine encodable isContent, isSet, ih (by omega)]
      congr 3
      omega

/-- The lines of a bundle. -/
def bundleLines (processor : Processor) (bundle : Bundle) : List (List Char) :=
  "\x7b".toList :: ((List.range processor.width).map fun slot =>
    slotLine processor slot bundle.slots[slot]?.join) ++ ["\x7d".toList]

theorem parseBundle_bundleLines (encodable : processor.Encodable) {bundle : Bundle}
    (isBundle : ∀ syllable ∈ bundle.syllables, syllable.Encodable) (rest : List (List Char))
    (pos : Nat) :
    Parser.parseBundle processor ⟨bundleLines processor bundle ++ rest, pos⟩ =
      .ok (⟨contents processor.width bundle⟩, ⟨rest, pos + processor.width + 2⟩) := by
  have slots := parseSlots_slotLines encodable isBundle rest (Nat.zero_add processor.width) (pos + 1)
  rw [← List.range_eq_range', contents, List.range_zero, List.map_nil, List.nil_append] at slots
  have isRest : bundleLines processor bundle ++ rest = "\x7b".toList ::
      (((List.range processor.width).map fun slot =>
        slotLine processor slot bundle.slots[slot]?.join) ++ "\x7d".toList :: rest) := by
    simp [bundleLines]
  rw [isRest, Parser.parseBundle]
  change (Parser.parseSlots processor (List.replicate processor.width none) 0 _ (pos + 1)).bind
    (fun result : List (Option Syllable) × Parser =>
      (.ok (⟨result.1⟩, result.2) : ParseOutcome (Bundle × Parser))) = _
  rw [slots]
  have isPos : pos + 1 + processor.width + 1 = pos + processor.width + 2 := by omega
  rw [← isPos]
  rfl

/-! ### Items -/

/-- The item is read back from its lines. -/
def Item.Encodable (width : Nat) : Item → Prop
  | .label name => IsName name
  | .bundle body => body.slots.length ≤ width ∧ ∀ syllable ∈ body.syllables, syllable.Encodable

instance (width : Nat) (item : Item) : Decidable (item.Encodable width) :=
  match item with
  | .label name => inferInstanceAs (Decidable (IsName name))
  | .bundle body => inferInstanceAs (Decidable (body.slots.length ≤ width ∧
      ∀ syllable ∈ body.syllables, syllable.Encodable))

/-- The slots of a bundle filled up with empty ones. -/
def Bundle.pad (width : Nat) (bundle : Bundle) : Bundle where
  slots := bundle.slots ++ List.replicate (width - bundle.slots.length) none

/-- The item with the slots of bundles filled up. -/
def Item.pad (width : Nat) : Item → Item
  | .label name => .label name
  | .bundle body => .bundle (body.pad width)

theorem contents_eq_pad {width : Nat} {bundle : Bundle} (fits : bundle.slots.length ≤ width) :
    ⟨contents width bundle⟩ = bundle.pad width := by
  rw [Bundle.pad, Bundle.mk.injEq, contents]
  refine List.ext_getElem? fun slot => ?_
  rw [List.getElem?_map, List.getElem?_append, List.getElem?_replicate]
  by_cases inside : slot < width
  · rw [List.getElem?_range inside, Option.map_some]
    by_cases isSlot : slot < bundle.slots.length
    · rw [if_pos isSlot, List.getElem?_eq_getElem isSlot]
      rfl
    · rw [if_neg isSlot, if_pos (by omega), List.getElem?_eq_none (Nat.le_of_not_lt isSlot)]
      rfl
  · rw [List.getElem?_eq_none (by simpa using inside), if_neg (by omega), if_neg (by omega)]
    rfl

/-- The lines of an item. -/
def itemLines (processor : Processor) : Item → List (List Char)
  | .label name => [name.toList ++ [':']]
  | .bundle bundle => bundleLines processor bundle

theorem skipBlank_of_full {line : List Char} (full : trim line ≠ []) (rest : List (List Char))
    (pos : Nat) : Parser.skipBlank ⟨line :: rest, pos⟩ = ⟨line :: rest, pos⟩ := by
  rw [Parser.skipBlank, Parser.skipBlankFrom, if_neg full]

theorem parseItems_blank (fuel : Nat) (items : List Item) (rest : List (List Char)) (pos : Nat) :
    Parser.parseItems processor fuel items ⟨[] :: rest, pos⟩ =
      Parser.parseItems processor fuel items ⟨rest, pos + 1⟩ := by
  cases fuel with
  | zero => rfl
  | succ fuel =>
      have isBlank : Parser.skipBlank ⟨[] :: rest, pos⟩ = Parser.skipBlank ⟨rest, pos + 1⟩ := rfl
      rw [Parser.parseItems, Parser.parseItems, isBlank]

theorem parseItems_label {name : String} (isName : IsName name) (fuel : Nat) (items : List Item)
    (rest : List (List Char)) (pos : Nat) :
    Parser.parseItems processor (fuel + 1) items ⟨(name.toList ++ [':']) :: rest, pos⟩ =
      Parser.parseItems processor fuel (items ++ [.label name]) ⟨rest, pos + 1⟩ := by
  have isColon : Solid [':'] := .of_forall (by decide)
  have isTrimmed : trim (name.toList ++ [':']) = name.toList ++ [':'] :=
    Text.trim_of_solid (isName.solid.append [] isColon isName.full (by decide))
  have notOpen : name.toList ++ [':'] ≠ "\x7b".toList := by
    intro isOpen
    have colonMem : ':' ∈ "\x7b".toList := isOpen ▸ by simp
    exact absurd colonMem (by decide)
  rw [Parser.parseItems, skipBlank_of_full (by rw [isTrimmed]; simp)]
  dsimp only
  rw [isTrimmed, if_neg notOpen, Text.dropSuffix?_append name.toList [':']]
  dsimp only
  rw [String.ofList_toList]

theorem parseItems_bundle (encodable : processor.Encodable) {bundle : Bundle}
    (isBundle : (Item.bundle bundle).Encodable processor.width) (fuel : Nat) (items : List Item)
    (rest : List (List Char)) (pos : Nat) :
    Parser.parseItems processor (fuel + 1) items ⟨bundleLines processor bundle ++ rest, pos⟩ =
      Parser.parseItems processor fuel (items ++ [.bundle (bundle.pad processor.width)])
        ⟨rest, pos + processor.width + 2⟩ := by
  have isOpen : trim "\x7b".toList = "\x7b".toList := by decide
  have read := parseBundle_bundleLines encodable isBundle.2 rest pos
  rw [contents_eq_pad isBundle.1] at read
  obtain ⟨lines, isLines⟩ : ∃ lines, bundleLines processor bundle ++ rest = "\x7b".toList :: lines :=
    ⟨_, rfl⟩
  rw [isLines] at read ⊢
  rw [Parser.parseItems, skipBlank_of_full (by decide)]
  dsimp only
  rw [if_pos isOpen, read]
  rfl

/-- The items of a program are read back. -/
theorem parseItems_itemLines (encodable : processor.Encodable) {items : List Item}
    (areItems : ∀ item ∈ items, item.Encodable processor.width) {fuel : Nat}
    (enough : items.length < fuel) (done : List Item) (pos : Nat) :
    Parser.parseItems processor fuel done ⟨items.flatMap (itemLines processor), pos⟩ =
      .ok (done ++ items.map (·.pad processor.width)) := by
  induction items generalizing fuel done pos with
  | nil =>
      obtain ⟨fuel, rfl⟩ := Nat.exists_eq_add_of_lt enough
      simp [Parser.parseItems, Parser.skipBlank, Parser.skipBlankFrom]
  | cons item items ih =>
      obtain ⟨fuel, rfl⟩ : ∃ more, fuel = more + 1 := ⟨fuel - 1, by simp at enough; omega⟩
      have isItem := areItems item List.mem_cons_self
      have enough : items.length < fuel := by simpa using enough
      have read := ih (fun other otherMem => areItems other (List.mem_cons_of_mem _ otherMem)) enough
      rw [List.flatMap_cons]
      cases item with
      | label name =>
          rw [itemLines, List.singleton_append, parseItems_label isItem, read]
          simp [Item.pad]
      | bundle bundle =>
          rw [itemLines, parseItems_bundle encodable isItem, read]
          simp [Item.pad]

end

end VliwCompiler.Asm
