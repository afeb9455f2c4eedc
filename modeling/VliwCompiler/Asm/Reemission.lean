import VliwCompiler.Asm.Placement
import VliwCompiler.Asm.Restored

/-!
# Emitting accepted programs again

The text of a program that was read is read again, line by line.  The line of a
slot leads to the slot that its name denotes, which need not be the slot it was
written for.
-/

namespace VliwCompiler.Asm

open Text (trim isWhitespace Solid)

/-! ### What is read again -/

/-- The displacement whose magnitude is not a signed number. -/
def Operand.isLeast : Operand → Bool
  | .memAddr _ offset => offset = BitVec.intMin 64
  | .reg _ | .pred _ | .imm _ | .label _ => false

/-- What the line of a slot is read as.  A name with a colon is cut there, and the
rest of the name belongs to the content. -/
def reread (processor : Processor) (slot : Nat) (content : Option Syllable) : Option SlotLine :=
  match (slotWord processor slot).toList.dropInfix? [':'] with
  | none =>
      if content.any (·.operands.any (·.isLeast)) then none
      else some (namedSlot processor (slotWord processor slot).toList slot, content)
  | some (name, rest) =>
      match Parser.parseContent 0 (trim (rest ++ (List.replicate (slotPadding processor slot) ' ' ++
        (": ".toList ++ slotText content)))) with
      | .ok other => some (namedSlot processor (trim name) slot, other)
      | .error _ => none

/-- What the lines of the slots from `slot` on are read as. -/
def rereadSlots (processor : Processor) (slot : Nat) :
    List (Option Syllable) → Option (List SlotLine)
  | [] => some []
  | content :: rest => do
      return (← reread processor slot content) :: (← rereadSlots processor (slot + 1) rest)

/-- What the lines of an item are read as. -/
def rereadItem (processor : Processor) : Item → Option Item
  | .label name => some (.label name)
  | .bundle ⟨slots⟩ => (rereadSlots processor 0 slots).map fun lines =>
      .bundle ⟨fill (List.replicate processor.width none) lines⟩

/-! ### Operands -/

theorem parseOperand_accepted_iff {operand : Operand} (accepted : operand.Accepted)
    (other : Operand) :
    parseOperand operand.display.toList = .ok other ↔ operand.isLeast = false ∧ other = operand := by
  cases operand with
  | reg n => rw [parseOperand_reg, Except.ok.injEq, eq_comm, Operand.isLeast, and_iff_right rfl]
  | pred n => rw [parseOperand_pred, Except.ok.injEq, eq_comm, Operand.isLeast, and_iff_right rfl]
  | imm n => rw [parseOperand_imm, Except.ok.injEq, eq_comm, Operand.isLeast, and_iff_right rfl]
  | memAddr base offset =>
      rw [Operand.isLeast, decide_eq_false_iff_not]
      by_cases isMin : offset = BitVec.intMin 64
      · refine iff_of_false (fun parsed => ?_) (fun both => both.1 isMin)
        subst isMin
        rw [parseOperand_intMin] at parsed
        cases parsed
      · rw [parseOperand_memAddr isMin, Except.ok.injEq, eq_comm, and_iff_right isMin]
  | label name =>
      have read := (parseOperand_eq_label_iff name.toList).mpr accepted.2
      rw [String.ofList_toList] at read
      rw [Operand.display, read, Except.ok.injEq, eq_comm, Operand.isLeast, and_iff_right rfl]

theorem solid_display {operand : Operand} (accepted : operand.Accepted) :
    Solid operand.display.toList := by
  cases operand with
  | label name => exact accepted.1.solid
  | _ => exact (isPart_display_of_notLabel (by simp)).solid

section

variable {operands : List Operand} (accepted : ∀ operand ∈ operands, operand.Accepted)

include accepted

theorem trim_operandsText_ne_nil (full : operands ≠ []) (listed : operands ≠ [.label ""]) :
    trim (operandsText operands) ≠ [] := by
  refine trim_intercalate_ne_nil (by simpa using full) ?_ (fun isEmpty => listed ?_)
  · intro part partMem
    obtain ⟨operand, operandMem, rfl⟩ := List.mem_map.mp partMem
    exact solid_display (accepted operand operandMem)
  · obtain ⟨operand, rfl, isName⟩ := List.map_eq_singleton_iff.mp isEmpty
    cases operand with
    | label name =>
        have isEmpty : name.toList = "".toList := isName
        rw [String.toList_inj.mp isEmpty]
    | _ => exact absurd isName (isPart_display_of_notLabel (by simp)).full

theorem parseOperands_accepted_iff (full : operands ≠ [])
    (separable : Separable (operands.map (·.display.toList))) (others : List Operand) :
    parseOperands (trim (operandsText operands)) = .ok others ↔
      operands.any (·.isLeast) = false ∧ others = operands := by
  have areSolid : ∀ part ∈ operands.map (·.display.toList), Solid part := by
    intro part partMem
    obtain ⟨operand, operandMem, rfl⟩ := List.mem_map.mp partMem
    exact solid_display (accepted operand operandMem)
  rw [parseOperands_eq_ok_iff, trimmedParts_trim, operandsText,
    separable.trimmedParts (by simpa using full) areSolid, List.map_map,
    List.forall₂_map_left_iff]
  clear areSolid separable full
  induction operands generalizing others with
  | nil =>
      rw [List.forall₂_nil_left_iff]
      simp
  | cons operand operands ih =>
      have isRest := ih fun other otherMem => accepted other (List.mem_cons_of_mem _ otherMem)
      have isFirst := parseOperand_accepted_iff (accepted operand List.mem_cons_self)
      rw [List.forall₂_cons_left_iff]
      constructor
      · rintro ⟨first, rest, readFirst, readRest, rfl⟩
        obtain ⟨kept, rfl⟩ := (isFirst first).mp readFirst
        obtain ⟨keptRest, rfl⟩ := (isRest rest).mp readRest
        exact ⟨by rw [List.any_cons, kept, keptRest]; rfl, rfl⟩
      · rintro ⟨kept, rfl⟩
        rw [List.any_cons, Bool.or_eq_false_iff] at kept
        exact ⟨operand, operands, (isFirst operand).mpr ⟨kept.1, rfl⟩,
          (isRest operands).mpr ⟨kept.2, rfl⟩, rfl⟩

end

/-! ### Contents -/

/-- Trimming a word and what follows it. -/
theorem trim_word {c : Char} (black : isWhitespace c = false) (word : List Char)
    {text : List Char} (full : trim text ≠ []) :
    trim (c :: word ++ ' ' :: text) = c :: word ++ ' ' :: text.rdropWhile isWhitespace := by
  obtain ⟨front, back, isText, -, -⟩ := Text.exists_trim text
  obtain ⟨d, rest, isTrim⟩ := List.exists_cons_of_ne_nil full
  have blackInner : isWhitespace d = false :=
    (Text.solid_trim text).head d (by rw [isTrim]; rfl)
  rw [isTrim] at isText
  have isWhole : c :: word ++ ' ' :: text = (c :: word ++ ' ' :: front) ++ d :: (rest ++ back) := by
    rw [isText]
    simp
  have isHead : (c :: word ++ ' ' :: front).dropWhile isWhitespace = c :: word ++ ' ' :: front :=
    List.dropWhile_cons_of_neg (by simp [black])
  have isTail : text.rdropWhile isWhitespace =
      front ++ d :: (rest ++ back).rdropWhile isWhitespace := by
    rw [isText, List.cons_append, Text.rdropWhile_append_cons blackInner]
  rw [isWhole, Text.trim_append_cons blackInner, isHead, isTail]
  simp

/-- A syllable with operands is cut at its first blank. -/
theorem parseSyllable_word {opcode : String} (noBlank : ' ' ∉ opcode.toList)
    {c : Char} {word : List Char} (isOpcode : opcode.toList = c :: word)
    (black : isWhitespace c = false) {text : List Char} (full : trim text ≠ []) :
    ' ' ∈ trim (opcode.toList ++ (" ".toList ++ text)) ∧
      parseSyllable (trim (opcode.toList ++ (" ".toList ++ text))) =
        (parseOperands (trim text)).map fun operands => ⟨opcode, operands⟩ := by
  have isTrim : trim (opcode.toList ++ (" ".toList ++ text)) =
      opcode.toList ++ ' ' :: text.rdropWhile isWhitespace := by
    rw [isOpcode]
    exact trim_word black word full
  have isCut : (opcode.toList ++ ' ' :: text.rdropWhile isWhitespace).dropInfix? [' '] =
      some (opcode.toList, text.rdropWhile isWhitespace) :=
    Text.dropInfix?_append ' ' [] _ noBlank
  rw [isTrim]
  refine ⟨by simp, ?_⟩
  rw [parseSyllable, isCut]
  dsimp only
  rw [Text.trim_rdropWhile, if_neg full, String.ofList_toList]
  cases parseOperands (trim text) <;> rfl

/-- The content of a slot is read again unless it has the least displacement. -/
theorem parseContent_accepted_iff {content : Option Syllable}
    (accepted : ∀ syllable ∈ content, syllable.Accepted) (pos : Nat) (other : Option Syllable) :
    Parser.parseContent pos (trim (slotText content)) = .ok other ↔
      content.any (·.operands.any (·.isLeast)) = false ∧ other = content := by
  cases content with
  | none =>
      have read : Parser.parseContent pos (trim (slotText none)) = .ok none := rfl
      rw [read, Except.ok.injEq, eq_comm, Option.any_none, and_iff_right rfl]
  | some syllable =>
      have isAccepted := accepted syllable rfl
      rw [Option.any_some, slotText]
      by_cases isEmpty : syllable.operands = []
      · obtain ⟨isSolid, notNop⟩ := isAccepted.alone isEmpty
        have isOther : syllable.opcode.toList ≠ "nop".toList :=
          fun isNop => notNop (String.toList_inj.mp isNop)
        have noCut : syllable.opcode.toList.dropInfix? [' '] = none :=
          Text.dropInfix?_eq_none (c := ' ') (by decide) isAccepted.noBlank
        have read : parseSyllable syllable.opcode.toList = .ok syllable := by
          rw [parseSyllable, noCut]
          dsimp only
          rw [if_pos rfl, String.ofList_toList, ← isEmpty]
          rfl
        rw [if_pos isEmpty, Text.trim_of_solid isSolid, Parser.parseContent, if_neg isOther, read,
          isEmpty]
        change Except.ok (some syllable) = Except.ok other ↔ _
        rw [Except.ok.injEq, eq_comm, List.any_nil, and_iff_right rfl]
      · obtain ⟨c, word, isOpcode, black⟩ := isAccepted.first isEmpty
        have full := trim_operandsText_ne_nil isAccepted.operands isEmpty isAccepted.listed
        obtain ⟨blankMem, read⟩ := parseSyllable_word isAccepted.noBlank isOpcode black full
        have notNop : trim (syllable.opcode.toList ++
            (" ".toList ++ operandsText syllable.operands)) ≠ "nop".toList := by
          intro isNop
          rw [isNop] at blankMem
          exact absurd blankMem (by decide)
        have isOperands := parseOperands_accepted_iff isAccepted.operands isEmpty
          isAccepted.separable
        rw [if_neg isEmpty, Parser.parseContent, if_neg notNop, read]
        cases parsed : parseOperands (trim (operandsText syllable.operands)) with
        | ok operands =>
            obtain ⟨kept, rfl⟩ := (isOperands operands).mp parsed
            change Except.ok (some syllable) = Except.ok other ↔ _
            rw [Except.ok.injEq, eq_comm, kept, and_iff_right rfl]
        | error refusal =>
            refine iff_of_false (fun isOk => ?_) (fun both => ?_)
            · cases refusal <;> cases isOk
            · rw [(isOperands syllable.operands).mpr ⟨both.1, rfl⟩] at parsed
              cases parsed

/-! ### The lines of a bundle -/

namespace Parser

theorem parseSlot_append {name : List Char} (noColon : ':' ∉ name) (text : List Char) (pos : Nat) :
    parseSlot pos (trim (name ++ ':' :: text)) =
      (parseContent pos (trim text)).map fun content => (trim name, content) := by
  have absent : ':' ∉ name.dropWhile isWhitespace := fun colonMem =>
    noColon ((List.dropWhile_suffix isWhitespace).subset colonMem)
  have isCut : (name.dropWhile isWhitespace ++ ':' :: text.rdropWhile isWhitespace).dropInfix?
      [':'] = some (name.dropWhile isWhitespace, text.rdropWhile isWhitespace) :=
    Text.dropInfix?_append ':' [] _ absent
  rw [Text.trim_append_cons (by decide), parseSlot, isCut]
  change (parseContent pos (trim (text.rdropWhile isWhitespace))).bind _ = _
  rw [Text.trim_rdropWhile, Text.trim_dropWhile]
  cases parseContent pos (trim text) <;> rfl

section

variable {processor : Processor} (accepted : ∀ entry ∈ processor.slotAliases, entry.Accepted)

include accepted

theorem isPiece_slotWord (slot : Nat) : IsPiece (slotWord processor slot).toList := by
  rcases slotWord_eq processor slot with ⟨entry, entryMem, -, isWord⟩ | isMark
  · rw [← isWord]
    exact (accepted entry entryMem).name.toIsPiece
  · rw [isMark]
    exact ⟨.of_forall (by decide), by decide⟩

/-- What the line of a slot is read as. -/
theorem parseSlot_slotLine_iff {content : Option Syllable}
    (isContent : ∀ syllable ∈ content, syllable.Accepted) (slot pos : Nat) (line : SlotLine) :
    (∃ name, parseSlot pos (trim (slotLine processor slot content)) = .ok (name, line.2) ∧
      line.1 = namedSlot processor name slot) ↔ reread processor slot content = some line := by
  have isWord := (isPiece_slotWord accepted slot).solid
  have arePadding : ∀ c ∈ List.replicate (slotPadding processor slot) ' ',
      isWhitespace c = true := by
    intro c cMem
    rw [List.eq_of_mem_replicate cMem]
    decide
  have named : ∀ (word : List Char) (read : ParseOutcome (Option Syllable)),
      (∃ name, (read.map fun content => (word, content)) = .ok (name, line.2) ∧
        line.1 = namedSlot processor name slot) ↔
          read = .ok line.2 ∧ line.1 = namedSlot processor word slot := by
    intro word read
    cases read <;> simp [Except.map]
  rw [reread]
  cases cut : (slotWord processor slot).toList.dropInfix? [':'] with
  | none =>
      have noColon : ':' ∉ "  ".toList ++ ((slotWord processor slot).toList ++
          List.replicate (slotPadding processor slot) ' ') := by
        rw [List.mem_append, List.mem_append, not_or, not_or]
        exact ⟨by decide, Text.not_mem_of_dropInfix? cut, by simp⟩
      have isLine : slotLine processor slot content = ("  ".toList ++
          ((slotWord processor slot).toList ++ List.replicate (slotPadding processor slot) ' ')) ++
            ':' :: (" ".toList ++ slotText content) := by
        simp [slotLine]
      have isName : trim ("  ".toList ++ ((slotWord processor slot).toList ++
          List.replicate (slotPadding processor slot) ' ')) = (slotWord processor slot).toList :=
        Text.trim_append isWord (by decide) arePadding
      rw [isLine, parseSlot_append noColon, isName, Text.trim_indented _ (by decide), named,
        parseContent_accepted_iff isContent]
      dsimp only
      by_cases kept : content.any (·.operands.any (·.isLeast)) = false
      · rw [kept, if_neg Bool.false_ne_true, and_iff_right rfl, Option.some.injEq, Prod.ext_iff,
          and_comm, eq_comm, eq_comm (a := line.2)]
      · rw [if_pos (by simpa using kept)]
        exact iff_of_false (fun both => kept both.1.1) (by simp)
  | some pair =>
      obtain ⟨name, rest⟩ := pair
      obtain ⟨isCut, first⟩ := Text.dropInfix?_eq_some cut
      have noColon : ':' ∉ "  ".toList ++ name := by
        rw [List.mem_append, not_or]
        refine ⟨by decide, fun colonMem => ?_⟩
        obtain ⟨before, after, rfl, -⟩ := List.eq_append_cons_of_mem colonMem
        have earlier := first before (after ++ ':' :: rest) (by rw [isCut]; simp)
        rw [List.length_append, List.length_cons] at earlier
        omega
      have isLine : slotLine processor slot content = ("  ".toList ++ name) ++
          ':' :: (rest ++ (List.replicate (slotPadding processor slot) ' ' ++
            (": ".toList ++ slotText content))) := by
        rw [slotLine, isCut]
        simp
      rw [isLine, parseSlot_append noColon, Text.trim_indented name (by decide), named]
      dsimp only
      constructor
      · rintro ⟨parsed, isSlot⟩
        rw [parseContent_eq_ok 0 parsed]
        exact congrArg some (Prod.ext isSlot.symm rfl)
      · intro found
        cases parsed : parseContent 0 (trim (rest ++
            (List.replicate (slotPadding processor slot) ' ' ++
              (": ".toList ++ slotText content)))) with
        | error failure =>
            rw [parsed] at found
            cases found
        | ok other =>
            rw [parsed] at found
            obtain rfl := Option.some.inj found
            exact ⟨parseContent_eq_ok pos parsed, rfl⟩

/-- The line of a slot puts what is read where it leads. -/
theorem readLine_slotLine_iff {content : Option Syllable}
    (isContent : ∀ syllable ∈ content, syllable.Accepted) (items : List Item)
    (slots : List (Option Syllable)) (slot pos : Nat) (place : Place) :
    readLine pos (slotLine processor slot content) (.slots processor items slots slot) =
        .ok place ↔ ∃ line, reread processor slot content = some line ∧
      place = .slots processor items (slots.set line.1 line.2) (slot + 1) := by
  have notEnd : trim (slotLine processor slot content) ≠ "\x7d".toList := by
    have isLine : slotLine processor slot content = ("  ".toList ++
        ((slotWord processor slot).toList ++ List.replicate (slotPadding processor slot) ' ')) ++
          ':' :: (" ".toList ++ slotText content) := by
      simp [slotLine]
    rw [isLine, Text.trim_append_cons (by decide)]
    intro isEnd
    have colonMem : ':' ∈ "\x7d".toList := isEnd ▸ by simp
    exact absurd colonMem (by decide)
  rw [readLine, if_neg notEnd]
  constructor
  · intro read
    obtain ⟨entry, isEntry, isPlace⟩ := bind_eq_ok.mp read
    refine ⟨(namedSlot processor entry.1 slot, entry.2), ?_, (Except.ok.inj isPlace).symm⟩
    exact (parseSlot_slotLine_iff accepted isContent slot (pos + 1) _).mp ⟨entry.1, isEntry, rfl⟩
  · rintro ⟨line, found, rfl⟩
    obtain ⟨name, isEntry, isSlot⟩ :=
      (parseSlot_slotLine_iff accepted isContent slot (pos + 1) line).mpr found
    rw [isEntry, isSlot]
    rfl

theorem readLines_slotLines_iff {contents : List (Option Syllable)}
    (areContents : ∀ content ∈ contents, ∀ syllable ∈ content, syllable.Accepted)
    (items : List Item) (slots : List (Option Syllable)) (slot pos : Nat) (place : Place) :
    readLines pos (.slots processor items slots slot) ((contents.zipIdx slot).map fun entry =>
        slotLine processor entry.2 entry.1) = .ok place ↔
      ∃ lines, rereadSlots processor slot contents = some lines ∧
        place = .slots processor items (fill slots lines) (slot + contents.length) := by
  induction contents generalizing slots slot pos with
  | nil =>
      rw [List.zipIdx_nil, List.map_nil, readLines, Except.ok.injEq, rereadSlots]
      simp [fill, eq_comm]
  | cons content contents ih =>
      have isFirst := readLine_slotLine_iff accepted (areContents content List.mem_cons_self) items
        slots slot pos
      have isRest := ih fun other otherMem => areContents other (List.mem_cons_of_mem _ otherMem)
      have isLength : slot + (contents.length + 1) = slot + 1 + contents.length := by omega
      rw [List.zipIdx_cons, List.map_cons, readLines, bind_eq_ok, rereadSlots, List.length_cons]
      constructor
      · rintro ⟨next, readFirst, readRest⟩
        obtain ⟨line, found, rfl⟩ := (isFirst next).mp readFirst
        obtain ⟨lines, foundRest, rfl⟩ := (isRest _ _ _).mp readRest
        refine ⟨line :: lines, by rw [found, foundRest]; rfl, ?_⟩
        rw [isLength]
        rfl
      · rintro ⟨all, found, rfl⟩
        obtain ⟨line, isLine, found⟩ := Option.bind_eq_some_iff.mp found
        obtain ⟨lines, areLines, found⟩ := Option.bind_eq_some_iff.mp found
        cases found
        refine ⟨_, (isFirst _).mpr ⟨line, isLine, rfl⟩, (isRest _ _ _).mpr ⟨lines, areLines, ?_⟩⟩
        rw [isLength]
        rfl

/-- The lines of an item. -/
theorem readLines_itemLines_iff {item : Item} (isItem : item.Accepted processor.width)
    (done : List Item) (pos : Nat) (place : Place) :
    readLines pos (.items processor done) (itemLines processor item) = .ok place ↔
      ∃ other, rereadItem processor item = some other ∧
        place = .items processor (done ++ [other]) := by
  cases item with
  | label name =>
      have isTrimmed : trim (name.toList ++ [':']) = name.toList ++ [':'] :=
        Text.trim_of_solid isItem.solid
      have notOpen : name.toList ++ [':'] ≠ "\x7b".toList := by
        intro isOpen
        have colonMem : ':' ∈ "\x7b".toList := isOpen ▸ by simp
        exact absurd colonMem (by decide)
      have isLine : readLine pos (name.toList ++ [':']) (.items processor done) =
          .ok (.items processor (done ++ [.label name])) := by
        rw [readLine, isTrimmed, if_neg (by simp), if_neg notOpen,
          Text.dropSuffix?_append name.toList [':']]
        dsimp only
        rw [String.ofList_toList]
      rw [itemLines, readLines_cons_of_ok isLine, readLines, Except.ok.injEq, rereadItem]
      simp [eq_comm]
  | bundle bundle =>
      obtain ⟨slots⟩ := bundle
      obtain ⟨isLength, areContents⟩ := isItem
      have opens : readLine pos "\x7b".toList (.items processor done) =
          .ok (.slots processor done (List.replicate processor.width none) 0) := rfl
      have areLines : ((List.range processor.width).map fun slot =>
          slotLine processor slot (Bundle.mk slots).slots[slot]?.join) =
            slots.zipIdx.map fun entry => slotLine processor entry.2 entry.1 := by
        refine List.ext_getElem? fun slot => ?_
        rw [List.getElem?_map, List.getElem?_map, List.getElem?_zipIdx, ← isLength]
        by_cases inside : slot < slots.length
        · rw [List.getElem?_range inside, List.getElem?_eq_getElem inside]
          simp [inside]
        · rw [List.getElem?_eq_none (by simpa using inside),
            List.getElem?_eq_none (Nat.le_of_not_lt inside)]
          rfl
      rw [itemLines, bundleLines, List.cons_append, readLines_cons_of_ok opens, areLines,
        readLines_append, bind_eq_ok, rereadItem]
      simp only [readLines_slotLines_iff accepted areContents]
      constructor
      · rintro ⟨next, ⟨lines, found, rfl⟩, isEnd⟩
        refine ⟨_, by rw [found]; rfl, ?_⟩
        exact (Except.ok.inj isEnd).symm
      · rintro ⟨other, found, rfl⟩
        obtain ⟨lines, isLines, rfl⟩ := Option.map_eq_some_iff.mp found
        exact ⟨_, ⟨lines, isLines, rfl⟩, rfl⟩

theorem readLines_items_iff {items : List Item}
    (areItems : ∀ item ∈ items, item.Accepted processor.width) (done : List Item) (pos : Nat)
    (place : Place) :
    readLines pos (.items processor done) (items.flatMap (itemLines processor)) = .ok place ↔
      ∃ others, List.Forall₂ (fun item other => rereadItem processor item = some other)
          items others ∧ place = .items processor (done ++ others) := by
  induction items generalizing done pos with
  | nil =>
      rw [List.flatMap_nil, readLines, Except.ok.injEq]
      simp [eq_comm]
  | cons item items ih =>
      have isFirst := readLines_itemLines_iff accepted (areItems item List.mem_cons_self) done pos
      have isRest := ih fun other otherMem => areItems other (List.mem_cons_of_mem _ otherMem)
      rw [List.flatMap_cons, readLines_append, bind_eq_ok]
      constructor
      · rintro ⟨next, readFirst, readRest⟩
        obtain ⟨other, found, rfl⟩ := (isFirst next).mp readFirst
        obtain ⟨others, foundRest, rfl⟩ := (isRest _ _).mp readRest
        exact ⟨other :: others, .cons found foundRest, by simp⟩
      · rintro ⟨all, found, rfl⟩
        obtain ⟨other, others, isOther, areOthers, rfl⟩ := List.forall₂_cons_left_iff.mp found
        exact ⟨_, (isFirst _).mpr ⟨other, isOther, rfl⟩,
          (isRest _ _).mpr ⟨others, areOthers, by simp⟩⟩

end

end Parser

/-! ### Every line is one line -/

/-- The text of a line, as it is cut from the whole text. -/
structure IsCutLine (text : List Char) : Prop where
  noFeed : '\n' ∉ text
  noReturn : text.getLast? ≠ some '\r'

theorem IsCutLine.of_isLine {text : List Char} (isLine : Text.IsLine text) : IsCutLine text :=
  ⟨isLine.noFeed, fun isReturn => isLine.noReturn (List.mem_of_mem_getLast? isReturn)⟩

/-- A line that ends with a blank and a solid text. -/
theorem IsCutLine.of_solid {front last : List Char} (noFeed : '\n' ∉ front) (isPiece : IsPiece last) :
    IsCutLine (front ++ ' ' :: last) where
  noFeed := by
    rw [List.mem_append, List.mem_cons, not_or, not_or]
    exact ⟨noFeed, by decide, isPiece.noFeed⟩
  noReturn := by
    intro isReturn
    rw [List.getLast?_append_of_ne_nil _ (by simp)] at isReturn
    cases last with
    | nil => exact absurd (Option.some.inj isReturn) (by decide)
    | cons c rest =>
        rw [List.getLast?_cons_cons] at isReturn
        exact absurd (isPiece.solid.last _ isReturn) (by decide)

theorem isPiece_digits (n : Nat) : IsPiece (Nat.toDigits 10 n) :=
  ⟨solid_digits n, (isLine_digits n).noFeed⟩

/-- A list of pieces ends with a piece after a blank. -/
theorem exists_last_piece (parts : List (List Char)) (full : parts ≠ [])
    (arePieces : ∀ part ∈ parts, IsPiece part) :
    ∃ front last, ' ' :: List.intercalate ", ".toList parts = front ++ ' ' :: last ∧
      '\n' ∉ front ∧ IsPiece last := by
  induction parts with
  | nil => exact absurd rfl full
  | cons part parts ih =>
      have isPiece := arePieces part List.mem_cons_self
      cases parts with
      | nil => exact ⟨[], part, by simp, by simp, isPiece⟩
      | cons next parts =>
          obtain ⟨front, last, isRest, noFeed, isLast⟩ := ih (by simp)
            fun other otherMem => arePieces other (List.mem_cons_of_mem _ otherMem)
          refine ⟨' ' :: (part ++ ',' :: front), last, ?_, ?_, isLast⟩
          · have isText : List.intercalate ", ".toList (part :: next :: parts) =
                part ++ ',' :: (' ' :: List.intercalate ", ".toList (next :: parts)) := by
              rw [List.intercalate_cons_cons]
              simp
            rw [isText, isRest]
            simp
          · simp only [List.mem_cons, List.mem_append, not_or]
            exact ⟨by decide, isPiece.noFeed, by decide, noFeed⟩

theorem isPiece_display {operand : Operand} (accepted : operand.Accepted) :
    IsPiece operand.display.toList := by
  refine ⟨solid_display accepted, ?_⟩
  cases operand with
  | label name => exact accepted.1.noFeed
  | _ => exact (isPart_display_of_notLabel (by simp)).isLine.noFeed

theorem exists_slotText {content : Option Syllable}
    (accepted : ∀ syllable ∈ content, syllable.Accepted) :
    ∃ front last, ' ' :: slotText content = front ++ ' ' :: last ∧ '\n' ∉ front ∧ IsPiece last := by
  cases content with
  | none => exact ⟨[], "nop".toList, rfl, by simp, .of_forall (by decide), by decide⟩
  | some syllable =>
      have isAccepted := accepted syllable rfl
      rw [slotText]
      split
      · rename_i isEmpty
        exact ⟨[], syllable.opcode.toList, rfl, by simp, (isAccepted.alone isEmpty).1,
          isAccepted.noFeed⟩
      · rename_i full
        have arePieces : ∀ part ∈ syllable.operands.map (·.display.toList), IsPiece part := by
          intro part partMem
          obtain ⟨operand, operandMem, rfl⟩ := List.mem_map.mp partMem
          exact isPiece_display (isAccepted.operands operand operandMem)
        obtain ⟨front, last, isText, noFeed, isLast⟩ :=
          exists_last_piece _ (by simpa using full) arePieces
        refine ⟨' ' :: (syllable.opcode.toList ++ front), last, ?_, ?_, isLast⟩
        · have isBlank : " ".toList ++ operandsText syllable.operands =
              ' ' :: operandsText syllable.operands := rfl
          rw [isBlank, operandsText, isText]
          simp
        · simp only [List.mem_cons, List.mem_append, not_or]
          exact ⟨by decide, isAccepted.noFeed, noFeed⟩

section

variable {processor : Processor}

theorem isCutLine_aliasLine {entry : SlotAlias} (accepted : entry.Accepted) :
    IsCutLine (aliasLine entry) := by
  have isText : aliasLine entry = ("    alias ".toList ++ (entry.name.toList ++ " =".toList)) ++
      ' ' :: Nat.toDigits 10 entry.slot := by
    simp [aliasLine]
  rw [isText]
  refine .of_solid ?_ (isPiece_digits entry.slot)
  rw [List.mem_append, List.mem_append, not_or, not_or]
  exact ⟨by decide, accepted.name.noFeed, by decide⟩

theorem isCutLine_unitLine {unit : UnitDecl} (accepted : unit.Accepted) :
    IsCutLine (unitLine unit) := by
  have isText : unitLine unit = ("    unit ".toList ++ (unit.name.toList ++ " =".toList)) ++
      ' ' :: unit.kind.toList := by
    simp [unitLine]
  rw [isText]
  refine .of_solid ?_ accepted.kind
  rw [List.mem_append, List.mem_append, not_or, not_or]
  exact ⟨by decide, accepted.name.noFeed, by decide⟩

theorem isCutLine_slotUnitsLine {units : List String} (accepted : AcceptedUnits units)
    (slot : Nat) : IsCutLine (slotUnitsLine (units, slot)) := by
  have isText : slotUnitsLine (units, slot) = ("    ".toList ++ (Nat.toDigits 10 slot ++
      (" = \x7b ".toList ++ List.intercalate ", ".toList (units.map String.toList)))) ++
        ' ' :: "\x7d".toList := by
    simp [slotUnitsLine]
  have noFeed : '\n' ∉ List.intercalate ", ".toList (units.map String.toList) := by
    by_cases isEmpty : units = []
    · subst isEmpty
      simp
    · have arePieces : ∀ part ∈ units.map String.toList, IsPiece part := by
        intro part partMem
        obtain ⟨unit, unitMem, rfl⟩ := List.mem_map.mp partMem
        exact (accepted.pieces unit unitMem).1
      obtain ⟨front, last, isRest, frontFree, isLast⟩ :=
        exists_last_piece _ (by simpa using isEmpty) arePieces
      have whole : '\n' ∉ front ++ ' ' :: last := by
        rw [List.mem_append, List.mem_cons, not_or, not_or]
        exact ⟨frontFree, by decide, isLast.noFeed⟩
      rw [← isRest] at whole
      exact fun feedMem => whole (List.mem_cons_of_mem _ feedMem)
  rw [isText]
  refine .of_solid ?_ ⟨.of_forall (by decide), by decide⟩
  rw [List.mem_append, List.mem_append, List.mem_append, not_or, not_or, not_or]
  exact ⟨by decide, (isPiece_digits slot).noFeed, by decide, noFeed⟩

theorem isCutLine_stanzaLines (accepted : processor.Accepted) :
    ∀ text ∈ stanzaLines processor, IsCutLine text := by
  intro text textMem
  simp only [stanzaLines, layoutLines, List.mem_cons, List.mem_append] at textMem
  rcases textMem with rfl | rfl | rfl | inUnits | rfl | rfl | rfl |
    (inAliases | rfl | inSlots | isEnd) | rfl | inClosing
  · exact .of_isLine (.append ⟨by decide, by decide⟩ (.append ⟨by decide, by decide⟩
      (isLine_digits processor.width)))
  · exact ⟨by decide, by decide⟩
  · exact ⟨by decide, by decide⟩
  · obtain ⟨unit, unitMem, rfl⟩ := List.mem_map.mp inUnits
    exact isCutLine_unitLine (accepted.units unit unitMem)
  · exact ⟨by decide, by decide⟩
  · exact ⟨by decide, by decide⟩
  · exact ⟨by decide, by decide⟩
  · obtain ⟨entry, entryMem, rfl⟩ := List.mem_map.mp inAliases
    exact isCutLine_aliasLine (accepted.aliases entry entryMem)
  · exact ⟨by decide, by decide⟩
  · obtain ⟨⟨units, slot⟩, entryMem, rfl⟩ := List.mem_map.mp inSlots
    exact isCutLine_slotUnitsLine
      (accepted.slotUnits units (List.fst_mem_of_mem_zipIdx entryMem)) slot
  · rcases isEnd with rfl | isNone
    · exact ⟨by decide, by decide⟩
    · cases isNone
  · exact ⟨by decide, by decide⟩
  · exact .of_isLine (isLine_closingLines text inClosing)

theorem isCutLine_itemLines (accepted : ∀ entry ∈ processor.slotAliases, entry.Accepted)
    {item : Item} (isItem : item.Accepted processor.width) :
    ∀ text ∈ itemLines processor item, IsCutLine text := by
  intro text textMem
  cases item with
  | label name =>
      rw [List.mem_singleton.mp textMem]
      refine ⟨isItem.noFeed, fun isReturn => ?_⟩
      exact absurd (isItem.solid.last _ isReturn) (by decide)
  | bundle bundle =>
      simp only [itemLines, bundleLines, List.cons_append, List.mem_cons, List.mem_append,
        List.not_mem_nil, or_false] at textMem
      rcases textMem with rfl | inSlots | rfl
      · exact ⟨by decide, by decide⟩
      · obtain ⟨slot, -, rfl⟩ := List.mem_map.mp inSlots
        have isContent : ∀ syllable ∈ bundle.slots[slot]?.join, syllable.Accepted := by
          intro syllable isSyllable
          exact isItem.2 _ (List.mem_of_getElem? (Option.join_eq_some_iff.mp isSyllable)) _ rfl
        obtain ⟨front, last, isText, noFeed, isLast⟩ := exists_slotText isContent
        have isLine : slotLine processor slot bundle.slots[slot]?.join = ("  ".toList ++
            ((slotWord processor slot).toList ++
              (List.replicate (slotPadding processor slot) ' ' ++ (':' :: front)))) ++
                ' ' :: last := by
          have isColon : ": ".toList ++ slotText bundle.slots[slot]?.join =
              ':' :: (' ' :: slotText bundle.slots[slot]?.join) := rfl
          rw [slotLine, isColon, isText]
          simp
        rw [isLine]
        refine .of_solid ?_ isLast
        simp only [List.mem_append, List.mem_cons, not_or]
        exact ⟨by decide, (Parser.isPiece_slotWord accepted slot).noFeed, by simp, by decide, noFeed⟩
      · exact ⟨by decide, by decide⟩

end

theorem lines_emit {program : Program} (accepted : program.Accepted) :
    Text.lines (emit program).toList = programLines program := by
  have areLines : ∀ text ∈ programLines program, IsCutLine text := by
    intro text textMem
    simp only [programLines, List.mem_cons, List.mem_append, List.mem_flatMap] at textMem
    rcases textMem with rfl | inStanza | rfl | ⟨item, itemMem, inItem⟩
    · exact ⟨by decide, by decide⟩
    · exact isCutLine_stanzaLines accepted.processor text inStanza
    · exact ⟨by decide, by decide⟩
    · exact isCutLine_itemLines accepted.processor.aliases (accepted.items item itemMem) text inItem
  rw [toList_emit]
  exact Text.lines_flatMap_of_noFeed fun text textMem =>
    ⟨(areLines text textMem).noFeed, (areLines text textMem).noReturn⟩

/-! ### Reading an emitted program -/

/-- The program comes back from its own text. -/
structure Program.Restored (program : Program) : Prop where
  processor : program.processor.Restored
  bundles : ∀ slots, .bundle ⟨slots⟩ ∈ program.items →
    (rereadSlots program.processor 0 slots).map
      (fill (List.replicate program.processor.width none)) = some slots

theorem forall₂_reread_iff {processor : Processor} {items : List Item} :
    List.Forall₂ (fun item other => rereadItem processor item = some other) items items ↔
      ∀ slots, .bundle ⟨slots⟩ ∈ items → (rereadSlots processor 0 slots).map
        (fill (List.replicate processor.width none)) = some slots := by
  rw [List.forall₂_same]
  constructor
  · intro same slots slotsMem
    have isBundle := same _ slotsMem
    rw [rereadItem] at isBundle
    obtain ⟨lines, isLines, sameItem⟩ := Option.map_eq_some_iff.mp isBundle
    rw [isLines, Option.map_some]
    exact congrArg some (congrArg Bundle.slots (Item.bundle.inj sameItem))
  · intro same item itemMem
    cases item with
    | label name => rfl
    | bundle bundle =>
        obtain ⟨slots⟩ := bundle
        obtain ⟨lines, isLines, sameSlots⟩ := Option.map_eq_some_iff.mp (same slots itemMem)
        rw [rereadItem, isLines, Option.map_some, sameSlots]

/-- A program that was read comes back from its own text exactly when no name
moves the cut of its line, the memory size is a signed number and the lines of
every bundle fill the slots they were written for. -/
theorem parse_emit_iff_restored {input : String} {program : Program}
    (parsed : parse input = .ok program) :
    parse (emit program) = .ok program ↔ program.Restored := by
  have accepted := accepted_of_parse parsed
  obtain ⟨units, sameUnits, readStanza⟩ :=
    Parser.readLines_stanzaLines_eq_ok_iff accepted.processor
  have opens : Parser.readLine 0 ".processor \x7b".toList .start =
      .ok (.stanzas Parser.initialProcessor) := rfl
  have skips : ∀ pos processor, Parser.readLine pos [] (.items processor []) =
      .ok (.items processor []) := fun pos processor => rfl
  have readItems := @Parser.readLines_items_iff { program.processor with units }
    accepted.processor.aliases program.items accepted.items []
  rw [Parser.parse_eq_complete, lines_emit accepted, Parser.complete, programLines,
    Parser.readLines_cons_of_ok opens, Parser.readLines_append]
  constructor
  · intro read
    obtain ⟨last, readAll, isFinish⟩ := bind_eq_ok.mp read
    obtain ⟨next, readFirst, readRest⟩ := bind_eq_ok.mp readAll
    obtain ⟨aliases, memorySize, rfl⟩ := (readStanza _ next).mp readFirst
    rw [Parser.readLines_cons_of_ok (skips _ _)] at readRest
    obtain ⟨others, areOthers, rfl⟩ := (readItems _ last).mp readRest
    have same : Program.mk { program.processor with units } ([] ++ others) = program :=
      Except.ok.inj isFinish
    have sameProcessor := congrArg Program.processor same
    have sameItems : others = program.items := congrArg Program.items same
    refine ⟨⟨sameUnits.mp (congrArg Processor.units sameProcessor), aliases, memorySize⟩, ?_⟩
    rw [sameItems] at areOthers
    dsimp only at sameProcessor
    rw [sameProcessor] at areOthers
    exact forall₂_reread_iff.mp areOthers
  · rintro ⟨⟨areUnits, aliases, memorySize⟩, bundles⟩
    obtain rfl := sameUnits.mpr areUnits
    have first := (readStanza 1 _).mpr ⟨aliases, memorySize, rfl⟩
    have rest := (readItems (1 + (stanzaLines program.processor).length + 1) _).mpr
      ⟨program.items, forall₂_reread_iff.mpr bundles, rfl⟩
    refine bind_eq_ok.mpr ⟨.items program.processor program.items,
      bind_eq_ok.mpr ⟨_, first, ?_⟩, rfl⟩
    rw [Parser.readLines_cons_of_ok (skips _ _)]
    exact rest

/-- A memory size that is read as the largest unsigned number. -/
def negativeSize : String :=
  ".processor \x7b\n  width 1\n  memory \x7b size -1 \x7d\n\x7d\n\x7b\n  0: ret\n\x7d\n"

def negativeSizeProgram : Program where
  processor :=
    { width := 1
      units := []
      slotAliases := []
      slotUnits := []
      memorySize := 2 ^ 64 - 1 }
  items := [.bundle ⟨[some ⟨"ret", []⟩]⟩]

theorem parse_negativeSize : parse negativeSize = .ok negativeSizeProgram := by
  decide +kernel

/-- The largest memory size is written in a form that is not read. -/
theorem negativeSize_not_restored :
    parse negativeSize = .ok negativeSizeProgram ∧
      parse (emit negativeSizeProgram) = .error (.error (.syntaxError 12
        "bad memory: memory \x7b size 0xffffffffffffffff \x7d")) ∧
      ¬∀ (input : String) (program : Program), parse input = .ok program →
        parse (emit program) = .ok program := by
  have unread : parse (emit negativeSizeProgram) = .error (.error (.syntaxError 12
      "bad memory: memory \x7b size 0xffffffffffffffff \x7d")) := by
    decide +kernel
  refine ⟨parse_negativeSize, unread, fun stable => ?_⟩
  have read := stable negativeSize negativeSizeProgram parse_negativeSize
  rw [unread] at read
  cases read

/-- A text with odd spacing, two aliases of one slot and a gap between the slots. -/
def looseText : String :=
  ".processor \x7b\n width  2\n memory \x7b size 4096 \x7d\n layout slots \x7b\n" ++
    " alias A = 0\n  alias B = 0\n 1 = \x7b alu \x7d\n \x7d\n\x7d\nmain:\n\x7b\n" ++
    " B : mov r1 ,r2\n 1: ret\n\x7d\n"

theorem parse_emit_iff_restored_looseText :
    ∃ program, parse looseText = .ok program ∧ parse (emit program) = .ok program := by
  obtain ⟨program, isProgram⟩ : ∃ program : Program, program = {
      processor := { width := 2, units := [], slotAliases := [⟨"A", 0⟩, ⟨"B", 0⟩]
                     slotUnits := [[], ["alu"]], memorySize := 4096 }
      items := [.label "main", .bundle ⟨[some ⟨"mov", [.reg 1, .reg 2]⟩, some ⟨"ret", []⟩]⟩] } :=
    ⟨_, rfl⟩
  have parsed : parse looseText = .ok program := by
    rw [isProgram]
    decide +kernel
  refine ⟨program, parsed, (parse_emit_iff_restored parsed).mpr ?_⟩
  rw [isProgram]
  refine ⟨⟨fun unit unitMem => absurd unitMem List.not_mem_nil, ?_, by decide⟩,
    fun slots slotsMem => ?_⟩
  · intro entry entryMem
    unfold EndsOpen
    rcases List.mem_pair.mp entryMem with rfl | rfl
    · decide
    · decide
  cases (List.mem_pair.mp slotsMem).resolve_left (by simp)
  decide +kernel

end VliwCompiler.Asm
