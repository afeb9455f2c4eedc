import VliwCompiler.Asm.Capture
import VliwCompiler.Asm.Reading

/-!
# Accepted programs

What the parser guarantees about the programs it returns: names are trimmed and
were cut at the first separator, numbers are in the range of their machine
types, and every bundle has as many slots as the processor.
-/

namespace VliwCompiler.Asm

open Text (trim Solid)

/-! ### Pieces -/

/-- A trimmed piece of a line. -/
structure IsPiece (text : List Char) : Prop where
  solid : Solid text
  noFeed : '\n' ∉ text

theorem IsPiece.trim {text : List Char} (noFeed : '\n' ∉ text) : IsPiece (trim text) :=
  ⟨Text.solid_trim text, fun feedMem => noFeed (Text.mem_of_mem_trim feedMem)⟩

/-- A trimmed piece before the first separator ` = `. -/
structure IsKey (text : List Char) : Prop extends IsPiece text where
  uncut : ¬" = ".toList <:+: text

structure UnitDecl.Accepted (unit : UnitDecl) : Prop where
  name : IsKey unit.name.toList
  kind : IsPiece unit.kind.toList
  kindFull : unit.kind.toList ≠ []

structure SlotAlias.Accepted (entry : SlotAlias) : Prop where
  name : IsKey entry.name.toList
  slot : entry.slot < 2 ^ 64

/-- The units of a slot. -/
structure AcceptedUnits (units : List String) : Prop where
  pieces : ∀ unit ∈ units, IsPiece unit.toList ∧ ',' ∉ unit.toList
  listed : units ≠ [""]

def Operand.Accepted : Operand → Prop
  | .reg _ | .pred _ | .imm _ | .memAddr _ _ => True
  | .label name => IsPiece name.toList ∧ ¬IsCaptured name.toList

/-- The opcode ends at the first blank, and the operands were cut at commas. -/
structure Syllable.Accepted (syllable : Syllable) : Prop where
  noFeed : '\n' ∉ syllable.opcode.toList
  noBlank : ' ' ∉ syllable.opcode.toList
  alone : syllable.operands = [] → Solid syllable.opcode.toList ∧ syllable.opcode ≠ "nop"
  first : syllable.operands ≠ [] → ∃ c rest, syllable.opcode.toList = c :: rest ∧
    Text.isWhitespace c = false
  operands : ∀ operand ∈ syllable.operands, operand.Accepted
  separable : Separable (syllable.operands.map (·.display.toList))
  listed : syllable.operands ≠ [.label ""]

def Item.Accepted (width : Nat) : Item → Prop
  | .label name => IsPiece (name.toList ++ [':'])
  | .bundle ⟨slots⟩ => slots.length = width ∧
      ∀ content ∈ slots, ∀ syllable ∈ content, syllable.Accepted

structure Processor.Accepted (processor : Processor) : Prop where
  width : processor.width < 2 ^ 32
  units : ∀ unit ∈ processor.units, unit.Accepted
  aliases : ∀ entry ∈ processor.slotAliases, entry.Accepted
  slotUnits : ∀ units ∈ processor.slotUnits, AcceptedUnits units
  slots : processor.slotUnits.length * 24 < 2 ^ 63
  cpus : processor.topology.cpus < 2 ^ 32

structure Program.Accepted (program : Program) : Prop where
  processor : program.processor.Accepted
  items : ∀ item ∈ program.items, item.Accepted program.processor.width

namespace Parser

/-- What has been read at a place. -/
def Place.Accepted : Place → Prop
  | .start => True
  | .stanzas processor => processor.Accepted
  | .hardware processor units => processor.Accepted ∧ ∀ unit ∈ units, unit.Accepted
  | .layout processor aliases indexed => processor.Accepted ∧
      (∀ entry ∈ aliases, entry.Accepted) ∧ ∀ entry ∈ indexed, AcceptedUnits entry.2
  | .items processor read => processor.Accepted ∧ ∀ item ∈ read, item.Accepted processor.width
  | .slots processor read contents _ => processor.Accepted ∧
      (∀ item ∈ read, item.Accepted processor.width) ∧ contents.length = processor.width ∧
      ∀ content ∈ contents, ∀ syllable ∈ content, syllable.Accepted

/-! ### Lines -/

section

variable {pos : Nat} {trimmed : List Char}

theorem orErr_eq_ok {α : Type} {msg : String} {text : List Char} {result : Option α} {value : α} :
    orErr pos msg text result = .ok value ↔ result = some value := by
  cases result <;> simp [orErr, err]

/-- The text before the first separator is a key. -/
theorem isKey_of_cut {text name rest : List Char} (noFeed : '\n' ∉ text)
    (isCut : text.dropInfix? " = ".toList = some (name, rest)) : IsKey (trim name) := by
  obtain ⟨isText, first⟩ := Text.dropInfix?_eq_some isCut
  refine ⟨.trim fun feedMem => noFeed (by rw [isText]; simp [feedMem]), ?_⟩
  rintro ⟨front, back, isName⟩
  obtain ⟨before, after, isTrimmed, -, -⟩ := Text.exists_trim name
  have earlier := first (before ++ front) (back ++ (after ++ (" = ".toList ++ rest))) (by
    rw [isText]
    conv_lhs => rw [isTrimmed, ← isName]
    simp)
  have isLength := congrArg List.length isTrimmed
  rw [← isName] at isLength
  simp at isLength earlier
  omega

/-- White space before the end of a piece is followed by the end. -/
theorem trim_ne_nil_of_suffix {front back : List Char} (isPiece : IsPiece (front ++ ' ' :: back)) :
    trim back ≠ [] := by
  intro isBlank
  obtain ⟨before, after, isBack, areBefore, areAfter⟩ := Text.exists_trim back
  rw [isBlank, List.nil_append] at isBack
  have areBlank : ∀ c ∈ ' ' :: back, Text.isWhitespace c = true := by
    intro c cMem
    rcases List.mem_cons.mp cMem with rfl | inBack
    · decide
    · rw [isBack] at inBack
      exact (List.mem_append.mp inBack).elim (areBefore c) (areAfter c)
  have isLast : (front ++ ' ' :: back).getLast? = some ((' ' :: back).getLast (by simp)) := by
    rw [List.getLast?_append_of_ne_nil _ (by simp), List.getLast?_eq_some_getLast (by simp)]
  have black := isPiece.solid.last _ isLast
  rw [areBlank _ (List.getLast_mem _)] at black
  cases black

theorem accepted_of_parseUnit {unit : UnitDecl} (isPiece : IsPiece trimmed)
    (parsed : parseUnit pos trimmed = .ok unit) : unit.Accepted := by
  obtain ⟨rest, isRest, parsed⟩ := bind_eq_ok.mp parsed
  obtain ⟨⟨name, kind⟩, isCut, same⟩ := bind_eq_ok.mp parsed
  cases same
  obtain ⟨front, rfl, -⟩ := List.dropPrefix?_eq_some_iff.mp (orErr_eq_ok.mp isRest)
  have isCut := orErr_eq_ok.mp isCut
  have noFeed : '\n' ∉ rest := fun feedMem => isPiece.noFeed (List.mem_append_right _ feedMem)
  obtain ⟨rfl, -⟩ := Text.dropInfix?_eq_some isCut
  have isEnd : front ++ (name ++ (" = ".toList ++ kind)) =
      (front ++ (name ++ " =".toList)) ++ ' ' :: kind := by simp
  refine ⟨?_, ?_, ?_⟩
  · rw [String.toList_ofList]
    exact isKey_of_cut noFeed isCut
  · rw [String.toList_ofList]
    exact .trim fun feedMem => noFeed (by simp [feedMem])
  · rw [String.toList_ofList]
    rw [isEnd] at isPiece
    exact trim_ne_nil_of_suffix isPiece

theorem lt_of_parseUnsigned {radix bound n : Nat} {text : List Char}
    (parsed : Text.parseUnsigned radix bound text = some n) : n < bound := by
  obtain ⟨-, inside⟩ := Option.filter_eq_some_iff.mp parsed
  exact of_decide_eq_true inside

/-- The units between commas. -/
theorem acceptedUnits_of_splitOn {inner : List Char} (noFeed : '\n' ∉ inner)
    (isSolid : Solid inner) (full : inner ≠ []) :
    AcceptedUnits ((inner.splitOn ',').map (String.ofList ∘ trim)) := by
  refine ⟨?_, ?_⟩
  · intro unit unitMem
    obtain ⟨part, partMem, rfl⟩ := List.mem_map.mp unitMem
    obtain ⟨inside, noComma⟩ := Text.inside_of_mem_splitOn partMem
    rw [Function.comp_apply, String.toList_ofList]
    exact ⟨.trim fun feedMem => noFeed (inside _ feedMem),
      fun commaMem => noComma (Text.mem_of_mem_trim commaMem)⟩
  · intro isEmpty
    obtain ⟨part, isParts, isPart⟩ := List.map_eq_singleton_iff.mp isEmpty
    have isInner : [','].intercalate (inner.splitOn ',') = inner := List.intercalate_splitOn ','
    rw [isParts, List.intercalate_singleton] at isInner
    subst isInner
    rw [Function.comp_apply, Text.trim_of_solid isSolid] at isPart
    exact full (String.ofList_eq_empty_iff.mp isPart)

theorem accepted_of_parseLayoutLine {entry : SlotAlias ⊕ Nat × List String}
    (isPiece : IsPiece trimmed) (parsed : parseLayoutLine pos trimmed = .ok entry) :
    match entry with
    | .inl entry => entry.Accepted
    | .inr entry => AcceptedUnits entry.2 := by
  unfold parseLayoutLine at parsed
  split at parsed
  · rename_i rest isRest
    obtain ⟨front, rfl, -⟩ := List.dropPrefix?_eq_some_iff.mp isRest
    obtain ⟨⟨name, index⟩, isCut, parsed⟩ := bind_eq_ok.mp parsed
    obtain ⟨slot, isSlot, same⟩ := bind_eq_ok.mp parsed
    cases same
    have noFeed : '\n' ∉ rest := fun feedMem => isPiece.noFeed (List.mem_append_right _ feedMem)
    refine ⟨?_, lt_of_parseUnsigned (orErr_eq_ok.mp isSlot)⟩
    rw [String.toList_ofList]
    exact isKey_of_cut noFeed (orErr_eq_ok.mp isCut)
  · obtain ⟨⟨index, rest⟩, isCut, parsed⟩ := bind_eq_ok.mp parsed
    obtain ⟨slot, isSlot, same⟩ := bind_eq_ok.mp parsed
    cases same
    dsimp only
    obtain ⟨rfl, -⟩ := Text.dropInfix?_eq_some (orErr_eq_ok.mp isCut)
    split
    · exact ⟨by simp, by simp⟩
    · rename_i full
      refine acceptedUnits_of_splitOn (fun feedMem => isPiece.noFeed ?_) (Text.solid_trim _) full
      have inRest : '\n' ∈ rest := by
        have inWhole := (List.rdropWhile_prefix _ _).subset (Text.mem_of_mem_trim feedMem)
        exact Text.mem_of_mem_trim ((List.dropWhile_suffix _).subset inWhole)
      simp [inRest]

/-- Every character of a part is one of the list. -/
theorem mem_of_mem_splitOperands {depth : Int} {text part : List Char} {c : Char}
    (partMem : .ok part ∈ splitOperands depth text) (cMem : c ∈ part) : c ∈ text := by
  induction text generalizing depth part with
  | nil =>
      rw [splitOperands, List.mem_singleton] at partMem
      cases partMem
      exact cMem
  | cons first text ih =>
      have longer : ∀ {depth' : Int}, .ok part ∈
          (splitOperands depth' text).modifyHead (·.map (first :: ·)) → c ∈ first :: text := by
        intro depth' inside
        cases parts : splitOperands depth' text with
        | nil =>
            rw [parts] at inside
            cases inside
        | cons head others =>
            rw [parts, List.modifyHead_cons] at inside
            rcases List.mem_cons.mp inside with isHead | inOthers
            · cases head with
              | error refusal => cases isHead
              | ok tail =>
                  cases isHead
                  rcases List.mem_cons.mp cMem with rfl | inTail
                  · exact List.mem_cons_self
                  · exact List.mem_cons_of_mem _ (ih (by rw [parts]; exact List.mem_cons_self) inTail)
            · exact List.mem_cons_of_mem _
                (ih (by rw [parts]; exact List.mem_cons_of_mem _ inOthers) cMem)
      rw [splitOperands] at partMem
      split_ifs at partMem
      · cases List.mem_singleton.mp partMem
      · exact longer partMem
      · cases List.mem_singleton.mp partMem
      · exact longer partMem
      · rcases List.mem_cons.mp partMem with isEmpty | inRest
        · cases isEmpty
          cases cMem
        · exact List.mem_cons_of_mem _ (ih inRest cMem)
      · exact longer partMem

/-- Only the text of a name is read as a name. -/
theorem eq_of_parseOperand_label {text : List Char} {name : String}
    (parsed : parseOperand text = .ok (.label name)) :
    text = name.toList ∧ ¬IsCaptured text := by
  have isName : name = String.ofList text := by
    rw [parseOperand] at parsed
    split at parsed
    · obtain ⟨inner, -, isAddress⟩ := bind_eq_ok.mp parsed
      exact absurd isAddress (parseMemAddr_ne_label inner name)
    · split at parsed
      · cases parsed
      · split at parsed
        · cases parsed
        · split at parsed
          · obtain ⟨n, -, same⟩ := bind_eq_ok.mp parsed
            cases same
          · cases parsed
            rfl
  subst isName
  exact ⟨String.toList_ofList.symm, (parseOperand_eq_label_iff text).mp parsed⟩

/-- The operands of a list. -/
theorem accepted_of_parseOperands {text : List Char} {operands : List Operand}
    (noFeed : '\n' ∉ text) (isSolid : Solid text) (full : text ≠ [])
    (parsed : parseOperands text = .ok operands) :
    operands ≠ [] ∧ (∀ operand ∈ operands, operand.Accepted) ∧
      Separable (operands.map (·.display.toList)) ∧ operands ≠ [.label ""] := by
  have read : List.Forall₂ (fun part operand => ∃ text, part = .ok text ∧
      parseOperand (trim text) = .ok operand) (splitOperands 0 text) operands := by
    rw [parseOperands, mapM_eq_ok_iff] at parsed
    exact parsed.imp fun part operand isOperand => bind_eq_ok.mp isOperand
  obtain ⟨parts, isParts⟩ : ∃ parts : List (List Char), splitOperands 0 text = parts.map .ok := by
    clear parsed
    generalize splitOperands 0 text = split at read
    induction read with
    | nil => exact ⟨[], rfl⟩
    | cons isFirst _ ih =>
        obtain ⟨parts, rfl⟩ := ih
        obtain ⟨part, rfl, -⟩ := isFirst
        exact ⟨part :: parts, rfl⟩
  have areOperands : List.Forall₂ (fun part operand => parseOperand (trim part) = .ok operand)
      parts operands := by
    rw [isParts, List.forall₂_map_left_iff] at read
    refine read.imp fun part operand isOperand => ?_
    obtain ⟨text, isText, isOperand⟩ := isOperand
    cases isText
    exact isOperand
  refine ⟨?_, ?_, ?_, ?_⟩
  · rintro rfl
    cases areOperands
    exact splitOperands_ne_nil 0 text isParts
  · intro operand operandMem
    obtain ⟨part, partMem, isOperand⟩ := exists_mem_of_forall₂ areOperands operandMem
    cases operand with
    | label name =>
        obtain ⟨isName, notCaptured⟩ := eq_of_parseOperand_label isOperand
        have inside : .ok part ∈ splitOperands 0 text := by
          rw [isParts]
          exact List.mem_map_of_mem partMem
        refine ⟨?_, isName ▸ notCaptured⟩
        rw [← isName]
        exact .trim fun feedMem => noFeed (mem_of_mem_splitOperands inside feedMem)
    | _ => trivial
  · refine (separable_of_splitOperands isParts).replace ?_
    rw [List.forall₂_map_right_iff]
    refine areOperands.imp fun part operand isOperand => ?_
    cases operand with
    | label name => exact .inr (eq_of_parseOperand_label isOperand).1.symm
    | _ => exact .inl (isPart_display_of_notLabel (by simp)).scan
  · rintro rfl
    obtain ⟨part, others, isOperand, noOthers, rfl⟩ := List.forall₂_cons_right_iff.mp areOperands
    rw [List.forall₂_nil_right_iff] at noOthers
    subst noOthers
    obtain ⟨after, -, ⟨rfl, -⟩ | ⟨-, rest, -, isOthers⟩⟩ := splitOperands_eq_cons isParts
    · have isEmpty := (eq_of_parseOperand_label isOperand).1
      rw [Text.trim_of_solid isSolid] at isEmpty
      exact full isEmpty
    · exact splitOperands_ne_nil 0 rest isOthers.symm

theorem accepted_of_parseSyllable {text : List Char} {syllable : Syllable} (isPiece : IsPiece text)
    (notNop : text ≠ "nop".toList) (parsed : parseSyllable text = .ok syllable) :
    syllable.Accepted := by
  rw [parseSyllable] at parsed
  cases isCut : text.dropInfix? [' '] with
  | none =>
      rw [isCut] at parsed
      dsimp only at parsed
      rw [if_pos rfl] at parsed
      cases parsed
      have noBlank := Text.not_mem_of_dropInfix? isCut
      refine ⟨?_, ?_, fun _ => ⟨?_, ?_⟩, fun full => absurd rfl full, by simp, trivial, by simp⟩
      · rw [String.toList_ofList]
        exact isPiece.noFeed
      · rw [String.toList_ofList]
        exact noBlank
      · rw [String.toList_ofList]
        exact isPiece.solid
      · intro isNop
        exact notNop (by rw [← isNop, String.toList_ofList])
  | some cut =>
      obtain ⟨opcode, rest⟩ := cut
      rw [isCut] at parsed
      obtain ⟨rfl, first⟩ := Text.dropInfix?_eq_some isCut
      have noFeed : '\n' ∉ trim rest := fun feedMem =>
        isPiece.noFeed (by simp [Text.mem_of_mem_trim feedMem])
      have full : trim rest ≠ [] := trim_ne_nil_of_suffix isPiece
      dsimp only at parsed
      rw [if_neg full] at parsed
      obtain ⟨operands, isOperands, same⟩ := bind_eq_ok.mp parsed
      cases same
      obtain ⟨hasOperands, areAccepted, separable, listed⟩ :=
        accepted_of_parseOperands noFeed (Text.solid_trim rest) full isOperands
      refine ⟨?_, ?_, fun isEmpty => absurd isEmpty hasOperands, fun _ => ?_, areAccepted, separable,
        listed⟩
      · rw [String.toList_ofList]
        exact fun feedMem => isPiece.noFeed (List.mem_append_left _ feedMem)
      · rw [String.toList_ofList]
        intro blankMem
        obtain ⟨before, after, rfl, -⟩ := List.eq_append_cons_of_mem blankMem
        have earlier := first before (after ++ ([' '] ++ rest)) (by simp)
        rw [List.length_append, List.length_cons] at earlier
        omega
      · rw [String.toList_ofList]
        cases opcode with
        | nil =>
            have black := isPiece.solid.head ' ' rfl
            exact absurd black (by decide)
        | cons c opcode => exact ⟨c, opcode, rfl, isPiece.solid.head c rfl⟩

theorem accepted_of_parseContent {text : List Char} {content : Option Syllable}
    (isPiece : IsPiece text) (parsed : parseContent pos text = .ok content) :
    ∀ syllable ∈ content, syllable.Accepted := by
  rw [parseContent] at parsed
  split_ifs at parsed with isNop
  · cases parsed
    simp
  · cases isSyllable : parseSyllable text with
    | error refusal =>
        rw [isSyllable] at parsed
        cases refusal <;> cases parsed
    | ok syllable =>
        rw [isSyllable] at parsed
        cases parsed
        rintro other ⟨⟩
        exact accepted_of_parseSyllable isPiece isNop isSyllable

theorem accepted_of_parseSlot {name : List Char} {content : Option Syllable}
    (isPiece : IsPiece trimmed) (parsed : parseSlot pos trimmed = .ok (name, content)) :
    ∀ syllable ∈ content, syllable.Accepted := by
  obtain ⟨⟨front, text⟩, isCut, parsed⟩ := bind_eq_ok.mp parsed
  obtain ⟨read, isContent, same⟩ := bind_eq_ok.mp parsed
  cases same
  obtain ⟨rfl, -⟩ := Text.dropInfix?_eq_some (orErr_eq_ok.mp isCut)
  exact accepted_of_parseContent (.trim fun feedMem => isPiece.noFeed (by simp [feedMem])) isContent

/-! ### The machine -/

theorem accepted_of_slotUnitsOf {indexed : List (Nat × List String)}
    {slotUnits : List (List String)} (areAccepted : ∀ entry ∈ indexed, AcceptedUnits entry.2)
    (parsed : slotUnitsOf indexed = .ok slotUnits) :
    (∀ units ∈ slotUnits, AcceptedUnits units) ∧ slotUnits.length * 24 < 2 ^ 63 := by
  have none : AcceptedUnits [] := ⟨by simp, by simp⟩
  have kept : ∀ (entries : List (Nat × List String)) (start : List (List String)),
      (∀ entry ∈ entries, AcceptedUnits entry.2) → (∀ units ∈ start, AcceptedUnits units) →
      (∀ units ∈ entries.foldl (fun result entry => result.set entry.1 entry.2) start,
        AcceptedUnits units) ∧
      (entries.foldl (fun result entry => result.set entry.1 entry.2) start).length =
        start.length := by
    intro entries
    induction entries with
    | nil => exact fun start _ isStart => ⟨isStart, rfl⟩
    | cons entry entries ih =>
        intro start areEntries isStart
        obtain ⟨isEntry, others⟩ := List.forall_mem_cons.mp areEntries
        obtain ⟨inside, isLength⟩ := ih (start.set entry.1 entry.2) others fun units unitsMem =>
          (List.mem_or_eq_of_mem_set unitsMem).elim (isStart units) fun same => same ▸ isEntry
        exact ⟨inside, isLength.trans List.length_set⟩
  rw [slotUnitsOf] at parsed
  cases isMax : (indexed.map (·.1)).max? with
  | none =>
      rw [isMax] at parsed
      cases parsed
      simp
  | some maxIdx =>
      rw [isMax] at parsed
      dsimp only at parsed
      split_ifs at parsed with tooLong
      cases parsed
      obtain ⟨inside, isLength⟩ := kept
        (indexed.mergeSort fun first second => first.1 ≤ second.1) (List.replicate (maxIdx + 1) [])
        (fun entry entryMem => areAccepted entry (List.mem_mergeSort.mp entryMem))
        (fun units unitsMem => List.eq_of_mem_replicate unitsMem ▸ none)
      rw [List.length_replicate] at isLength
      exact ⟨inside, by rw [isLength]; omega⟩

theorem accepted_of_readStanza {processor : Processor} {place : Place}
    (accepted : processor.Accepted) (read : readStanza processor trimmed pos = .ok place) :
    place.Accepted := by
  rw [readStanza] at read
  split_ifs at read
  · cases read
    exact ⟨accepted, by simp⟩
  · cases read
    exact ⟨accepted, by simp, by simp⟩
  · obtain ⟨⟨after, parser⟩, isStanza, rfl⟩ := map_eq_ok.mp read
    rw [parseStanza] at isStanza
    split at isStanza
    · obtain ⟨width, isWidth, same⟩ := bind_eq_ok.mp isStanza
      cases same
      exact { accepted with width := lt_of_parseUnsigned (orErr_eq_ok.mp isWidth) }
    · split_ifs at isStanza
      · cases isStanza
        exact accepted
      · obtain ⟨topology, isTopology, same⟩ := bind_eq_ok.mp isStanza
        cases same
        obtain ⟨inner, -, rest⟩ := Option.bind_eq_some_iff.mp (orErr_eq_ok.mp isTopology)
        obtain ⟨text, -, rest⟩ := Option.bind_eq_some_iff.mp rest
        obtain ⟨cpus, isCpus, same⟩ := Option.bind_eq_some_iff.mp rest
        cases same
        exact { accepted with cpus := lt_of_parseUnsigned isCpus }
      · obtain ⟨size, -, same⟩ := bind_eq_ok.mp isStanza
        cases same
        exact { accepted with }
      · cases isStanza

/-- A line keeps what was accepted. -/
theorem accepted_of_readLine {line : List Char} (noFeed : '\n' ∉ line) {place next : Place}
    (accepted : place.Accepted) (read : readLine pos line place = .ok next) : next.Accepted := by
  have isPiece : IsPiece (trim line) := .trim noFeed
  cases place with
  | start =>
      rw [readLine] at read
      split_ifs at read
      · cases read
        exact accepted
      · cases read
      · cases read
        exact ⟨by decide, by simp [initialProcessor], by simp [initialProcessor],
          by simp [initialProcessor], by simp [initialProcessor], by decide⟩
  | stanzas processor =>
      rw [readLine] at read
      split_ifs at read
      · cases read
        exact accepted
      · cases read
        exact ⟨accepted, by simp⟩
      · exact accepted_of_readStanza accepted read
  | hardware processor units =>
      obtain ⟨isProcessor, areUnits⟩ := accepted
      rw [readLine] at read
      split_ifs at read
      · cases read
        exact ⟨isProcessor, areUnits⟩
      · cases read
        exact { isProcessor with units := areUnits }
      · obtain ⟨unit, isUnit, same⟩ := bind_eq_ok.mp read
        cases same
        refine ⟨isProcessor, fun other otherMem => ?_⟩
        rcases List.mem_append.mp otherMem with inUnits | isLast
        · exact areUnits other inUnits
        · rw [List.mem_singleton.mp isLast]
          exact accepted_of_parseUnit isPiece isUnit
  | layout processor aliases indexed =>
      obtain ⟨isProcessor, areAliases, areUnits⟩ := accepted
      rw [readLine] at read
      split_ifs at read
      · cases read
        exact ⟨isProcessor, areAliases, areUnits⟩
      · obtain ⟨slotUnits, isUnits, same⟩ := bind_eq_ok.mp read
        cases same
        obtain ⟨areSlots, fits⟩ := accepted_of_slotUnitsOf areUnits isUnits
        exact { isProcessor with aliases := areAliases, slotUnits := areSlots, slots := fits }
      · obtain ⟨entry, isEntry, same⟩ := bind_eq_ok.mp read
        have isAccepted := accepted_of_parseLayoutLine isPiece isEntry
        cases entry with
        | inl entry =>
            cases same
            refine ⟨isProcessor, fun other otherMem => ?_, areUnits⟩
            rcases List.mem_append.mp otherMem with inAliases | isLast
            · exact areAliases other inAliases
            · rw [List.mem_singleton.mp isLast]
              exact isAccepted
        | inr entry =>
            cases same
            refine ⟨isProcessor, areAliases, fun other otherMem => ?_⟩
            rcases List.mem_append.mp otherMem with inIndexed | isLast
            · exact areUnits other inIndexed
            · rw [List.mem_singleton.mp isLast]
              exact isAccepted
  | items processor done =>
      obtain ⟨isProcessor, areItems⟩ := accepted
      rw [readLine] at read
      split_ifs at read
      · cases read
        exact ⟨isProcessor, areItems⟩
      · cases read
        refine ⟨isProcessor, areItems, List.length_replicate, fun content contentMem => ?_⟩
        rw [List.eq_of_mem_replicate contentMem]
        simp
      · cases isLabel : (trim line).dropSuffix? [':'] with
        | none =>
            rw [isLabel] at read
            cases read
        | some label =>
            rw [isLabel] at read
            cases read
            refine ⟨isProcessor, fun item itemMem => ?_⟩
            rcases List.mem_append.mp itemMem with inItems | isLast
            · exact areItems item inItems
            · obtain ⟨back, isText, isBack⟩ := List.dropSuffix?_eq_some_iff.mp isLabel
              rw [List.mem_singleton.mp isLast, Item.Accepted, String.toList_ofList,
                ← eq_of_beq isBack, ← isText]
              exact isPiece
  | slots processor done contents posIdx =>
      obtain ⟨isProcessor, areItems, isLength, areContents⟩ := accepted
      rw [readLine] at read
      split_ifs at read
      · cases read
        refine ⟨isProcessor, fun item itemMem => ?_⟩
        rcases List.mem_append.mp itemMem with inItems | isLast
        · exact areItems item inItems
        · rw [List.mem_singleton.mp isLast]
          exact ⟨isLength, areContents⟩
      · obtain ⟨⟨name, content⟩, isSlot, same⟩ := bind_eq_ok.mp read
        cases same
        refine ⟨isProcessor, areItems, by rw [List.length_set, isLength], ?_⟩
        intro other otherMem
        rcases List.mem_or_eq_of_mem_set otherMem with inContents | rfl
        · exact areContents other inContents
        · exact accepted_of_parseSlot isPiece isSlot

theorem accepted_of_readLines {lines : List (List Char)} (noFeed : ∀ line ∈ lines, '\n' ∉ line)
    {place next : Place} (accepted : place.Accepted)
    (read : readLines pos place lines = .ok next) : next.Accepted := by
  induction lines generalizing pos place with
  | nil =>
      cases read
      exact accepted
  | cons line lines ih =>
      obtain ⟨middle, isMiddle, read⟩ := bind_eq_ok.mp read
      exact ih (fun other otherMem => noFeed other (List.mem_cons_of_mem _ otherMem))
        (accepted_of_readLine (noFeed line List.mem_cons_self) accepted isMiddle) read

end

end Parser

/-- What the parser returns is accepted. -/
theorem accepted_of_parse {input : String} {program : Program} (parsed : parse input = .ok program) :
    program.Accepted := by
  rw [Parser.parse_eq_complete] at parsed
  obtain ⟨place, read, finished⟩ := bind_eq_ok.mp parsed
  have atStart : Parser.Place.start.Accepted := trivial
  have accepted : place.Accepted :=
    Parser.accepted_of_readLines (fun line => Text.noFeed_of_mem_lines) atStart read
  cases place with
  | items processor items =>
      cases finished
      exact ⟨accepted.1, accepted.2⟩
  | _ => cases finished

end VliwCompiler.Asm
