import VliwCompiler.Asm.Reading
import VliwCompiler.Asm.Blocks

/-!
# Where the lines of a bundle go

A line of a bundle names a slot, by an alias or by its position, and the slot is
overwritten with the content of the line.  A slot beyond the width is ignored.
No syllable is lost exactly when every slot that gets one exists and is not named
again further down.
-/

namespace VliwCompiler.Asm

open Text (trim)

/-! ### Bundles in the text -/

/-- The slot a line names and what it puts there. -/
abbrev SlotLine := Nat × Option Syllable

/-- The slot named by a line at the given position: that of the first alias with
this name, otherwise the position itself. -/
def namedSlot (processor : Processor) (name : List Char) (posIdx : Nat) : Nat :=
  ((processor.slotAliases.find? (·.name.toList = name)).map (·.slot)).getD posIdx

/-- The lines of a bundle. -/
def slotLines (processor : Processor) (posIdx : Nat) : List (List Char) → Option (List SlotLine)
  | [] => some []
  | line :: rest =>
      match Parser.parseSlot 0 (trim line), slotLines processor (posIdx + 1) rest with
      | .ok (name, content), some others =>
          some ((namedSlot processor name posIdx, content) :: others)
      | _, _ => none

/-- The lines up to the next closing brace. -/
def bodyOf (lines : List (List Char)) : List (List Char) :=
  lines.takeWhile (trim · ≠ "\x7d".toList)

/-- The line opens a bundle. -/
def Parser.Place.opens (line : List Char) : Parser.Place → Bool
  | .items _ _ => trim line = "\x7b".toList
  | _ => false

/-- The bodies of the bundles in the lines that are left. -/
def bodiesFrom (pos : Nat) (place : Parser.Place) : List (List Char) → List (List (List Char))
  | [] => []
  | line :: rest =>
      (if place.opens line then [bodyOf rest] else []) ++
        match Parser.readLine pos line place with
        | .ok next => bodiesFrom (pos + 1) next rest
        | .error _ => []

/-- The bodies of all bundles of a text. -/
def bundleBodies (input : String) : List (List (List Char)) :=
  bodiesFrom 0 .start (Text.lines input.toList)

/-! ### Losing nothing -/

/-- The lines with a syllable and the non-empty slots correspond one to one:
every syllable is in the slot its line names, two lines name different slots and
every non-empty slot has a line. -/
structure Lossless (lines : List SlotLine) (slots : List (Option Syllable)) : Prop where
  placed : ∀ (i slot : Nat) (syllable : Syllable), lines[i]? = some (slot, some syllable) →
    slots[slot]? = some (some syllable)
  distinct : ∀ (i j slot : Nat) (first second : Syllable),
    lines[i]? = some (slot, some first) → lines[j]? = some (slot, some second) → i = j
  every : ∀ (slot : Nat) (syllable : Syllable), slots[slot]? = some (some syllable) →
    ∃ i : Nat, lines[i]? = some (slot, some syllable)

/-- Every slot that gets a syllable is below the width and not named by a later
line. -/
def NamedOnce (width : Nat) (lines : List SlotLine) : Prop :=
  ∀ (i slot : Nat) (syllable : Syllable), lines[i]? = some (slot, some syllable) →
    slot < width ∧ ∀ (j : Nat) (content : Option Syllable), i < j →
      lines[j]? ≠ some (slot, content)

/-- The slots after the lines of a bundle. -/
def fill (slots : List (Option Syllable)) (lines : List SlotLine) : List (Option Syllable) :=
  lines.foldl (fun slots line => slots.set line.1 line.2) slots

theorem length_fill (slots : List (Option Syllable)) (lines : List SlotLine) :
    (fill slots lines).length = slots.length := by
  induction lines generalizing slots with
  | nil => rfl
  | cons line lines ih => exact (ih _).trans List.length_set

/-- A slot that no line names keeps its content. -/
theorem getElem?_fill_of_unnamed {slots : List (Option Syllable)} {lines : List SlotLine}
    {slot : Nat} (unnamed : ∀ line ∈ lines, line.1 ≠ slot) :
    (fill slots lines)[slot]? = slots[slot]? := by
  induction lines generalizing slots with
  | nil => rfl
  | cons line lines ih =>
      obtain ⟨first, others⟩ := List.forall_mem_cons.mp unnamed
      exact (ih others).trans (List.getElem?_set_ne first)

/-- The last line that names a slot decides. -/
theorem getElem?_fill_of_last {slots : List (Option Syllable)} {lines : List SlotLine} {i : Nat}
    {slot : Nat} {content : Option Syllable} (found : lines[i]? = some (slot, content))
    (inside : slot < slots.length)
    (last : ∀ j content, i < j → lines[j]? ≠ some (slot, content)) :
    (fill slots lines)[slot]? = some content := by
  obtain ⟨iLt, isLine⟩ := List.getElem?_eq_some_iff.mp found
  have split : lines = lines.take i ++ (slot, content) :: lines.drop (i + 1) := by
    rw [← isLine, List.getElem_cons_drop, List.take_append_drop]
  rw [split, fill, List.foldl_append, List.foldl_cons]
  refine (getElem?_fill_of_unnamed ?_).trans ?_
  · intro line inRest same
    obtain ⟨k, isRest⟩ := List.mem_iff_getElem?.mp inRest
    rw [List.getElem?_drop] at isRest
    exact last (i + 1 + k) line.2 (by omega) (by rw [isRest, ← same])
  · rw [List.getElem?_set_self]
    exact inside.trans_eq (length_fill slots (lines.take i)).symm

/-- A slot named by some line has a last line. -/
theorem exists_last {lines : List SlotLine} {slot i : Nat} {content : Option Syllable}
    (found : lines[i]? = some (slot, content)) :
    ∃ (k : Nat) (final : Option Syllable), i ≤ k ∧ lines[k]? = some (slot, final) ∧
      ∀ (j : Nat) (content : Option Syllable), k < j → lines[j]? ≠ some (slot, content) := by
  classical
  have iLe : i ≤ lines.length := (List.getElem?_eq_some_iff.mp found).1.le
  have names : ∃ content, lines[i]? = some (slot, content) := ⟨content, found⟩
  obtain ⟨final, isFinal⟩ := Nat.findGreatest_spec
    (P := fun k => ∃ content, lines[k]? = some (slot, content)) iLe names
  refine ⟨_, final, Nat.le_findGreatest iLe names, isFinal, ?_⟩
  intro j other later isOther
  have jLe : j ≤ lines.length := (List.getElem?_eq_some_iff.mp isOther).1.le
  exact Nat.findGreatest_is_greatest later jLe ⟨other, isOther⟩

theorem getElem?_replicate_none {width slot : Nat} {syllable : Syllable} :
    (List.replicate width (none : Option Syllable))[slot]? ≠ some (some syllable) := by
  rw [List.getElem?_replicate]
  split <;> simp

/-- Filling empty slots loses nothing exactly when every slot that gets a
syllable exists and is not named again. -/
theorem lossless_fill_iff (width : Nat) (lines : List SlotLine) :
    Lossless lines (fill (List.replicate width none) lines) ↔ NamedOnce width lines := by
  have length : (fill (List.replicate width none) lines).length = width := by
    rw [length_fill, List.length_replicate]
  have last : ∀ {i slot : Nat} {content : Option Syllable}, slot < width →
      lines[i]? = some (slot, content) →
      (∀ (j : Nat) (content : Option Syllable), i < j → lines[j]? ≠ some (slot, content)) →
        (fill (List.replicate width none) lines)[slot]? = some content := by
    intro i slot content inside found isLast
    exact getElem?_fill_of_last found (by rwa [List.length_replicate]) isLast
  constructor
  · intro lossless i slot syllable found
    have isPlaced := lossless.placed i slot syllable found
    have inside : slot < width := by
      rw [← length]
      exact (List.getElem?_eq_some_iff.mp isPlaced).1
    refine ⟨inside, ?_⟩
    intro j content later isLater
    obtain ⟨k, final, jLe, isFinal, isLast⟩ := exists_last isLater
    have holds := last inside isFinal isLast
    rw [isPlaced, Option.some.injEq] at holds
    rw [← holds] at isFinal
    have same := lossless.distinct i k slot _ _ found isFinal
    omega
  · intro once
    refine ⟨?_, ?_, ?_⟩
    · intro i slot syllable found
      obtain ⟨inside, isLast⟩ := once i slot syllable found
      exact last inside found isLast
    · intro i j slot first second isFirst isSecond
      rcases Nat.lt_trichotomy i j with before | same | after
      · exact absurd isSecond ((once i slot first isFirst).2 j _ before)
      · exact same
      · exact absurd isFirst ((once j slot second isSecond).2 i _ after)
    · intro slot syllable holds
      by_cases named : ∃ line ∈ lines, line.1 = slot
      · obtain ⟨line, isLine, rfl⟩ := named
        obtain ⟨i, found⟩ := List.mem_iff_getElem?.mp isLine
        have isNamed : lines[i]? = some (line.1, line.2) := found
        obtain ⟨k, final, -, isFinal, isLast⟩ := exists_last isNamed
        have inside : line.1 < width := by
          rw [← length]
          exact (List.getElem?_eq_some_iff.mp holds).1
        rw [last inside isFinal isLast, Option.some.injEq] at holds
        exact ⟨k, holds ▸ isFinal⟩
      · push Not at named
        rw [getElem?_fill_of_unnamed named] at holds
        exact absurd holds getElem?_replicate_none

/-! ### Reading the bundles of a text -/

theorem parseContent_eq_ok {pos : Nat} (other : Nat) {text : List Char}
    {content : Option Syllable} (parsed : Parser.parseContent pos text = .ok content) :
    Parser.parseContent other text = .ok content := by
  unfold Parser.parseContent at parsed ⊢
  split at parsed
  · rename_i isNop
    rw [if_pos isNop]
    exact parsed
  · rename_i isFull
    rw [if_neg isFull]
    cases read : (parseSyllable text).map some with
    | ok syllable =>
        rw [read] at parsed
        exact parsed
    | error refusal =>
        rw [read] at parsed
        cases refusal with
        | none => cases parsed
        | panic message => cases parsed

/-- Whether a line can be read does not depend on its number. -/
theorem parseSlot_eq_ok {pos : Nat} (other : Nat) {trimmed : List Char}
    {entry : List Char × Option Syllable} (parsed : Parser.parseSlot pos trimmed = .ok entry) :
    Parser.parseSlot other trimmed = .ok entry := by
  unfold Parser.parseSlot at parsed ⊢
  obtain ⟨cut, isCut, rest⟩ := bind_eq_ok.mp parsed
  obtain ⟨content, isContent, same⟩ := bind_eq_ok.mp rest
  refine bind_eq_ok.mpr ⟨cut, ?_, bind_eq_ok.mpr ⟨content, parseContent_eq_ok other isContent, same⟩⟩
  cases found : trimmed.dropInfix? [':'] with
  | none =>
      rw [found] at isCut
      cases isCut
  | some pair =>
      rw [found] at isCut
      exact isCut

/-- The slots of a bundle are filled with the lines of its body. -/
def Filled (processor : Processor) (body : List (List Char)) (bundle : Bundle) : Prop :=
  ∃ lines, slotLines processor 0 body = some lines ∧
    bundle.slots = fill (List.replicate processor.width none) lines

namespace Parser

/-- A place before the items. -/
def Place.header : Place → Bool
  | .start | .stanzas _ | .hardware _ _ | .layout _ _ _ => true
  | .items _ _ | .slots _ _ _ _ => false

/-- A line before the items leads to another one or to the first item. -/
theorem header_or_items_of_readLine {pos : Nat} {line : List Char} {place next : Place}
    (isHeader : place.header = true) (read : readLine pos line place = .ok next) :
    next.header = true ∨ ∃ processor, next = .items processor [] := by
  cases place with
  | items processor items => cases isHeader
  | slots processor items slots posIdx => cases isHeader
  | start =>
      rw [readLine] at read
      split_ifs at read
      · cases read
        exact .inl rfl
      · cases read
      · cases read
        exact .inl rfl
  | stanzas processor =>
      rw [readLine] at read
      split_ifs at read
      · cases read
        exact .inl rfl
      · cases read
        exact .inr ⟨processor, rfl⟩
      · rw [readStanza] at read
        split_ifs at read
        · cases read
          exact .inl rfl
        · cases read
          exact .inl rfl
        · obtain ⟨read, -, rfl⟩ := map_eq_ok.mp read
          exact .inl rfl
  | hardware processor units =>
      rw [readLine] at read
      split_ifs at read
      · cases read
        exact .inl rfl
      · cases read
        exact .inl rfl
      · obtain ⟨unit, -, same⟩ := bind_eq_ok.mp read
        cases same
        exact .inl rfl
  | layout processor aliases indexed =>
      rw [readLine] at read
      split_ifs at read
      · cases read
        exact .inl rfl
      · obtain ⟨slotUnits, -, same⟩ := bind_eq_ok.mp read
        cases same
        exact .inl rfl
      · obtain ⟨entry, -, same⟩ := bind_eq_ok.mp read
        cases entry with
        | inl entry =>
            cases same
            exact .inl rfl
        | inr entry =>
            cases same
            exact .inl rfl

/-- What the lines that are left add to the program. -/
def Adds (program : Program) (pos : Nat) (lines : List (List Char)) : Place → Prop
  | .items processor items =>
      program.processor = processor ∧ ∃ tail, program.items = items ++ tail ∧
        List.Forall₂ (Filled processor) (bodiesFrom pos (.items processor items) lines)
          (programBundles tail)
  | .slots processor items slots posIdx =>
      program.processor = processor ∧ ∃ bundle tail,
        program.items = items ++ .bundle bundle :: tail ∧
        (∃ rest, slotLines processor posIdx (bodyOf lines) = some rest ∧
          bundle.slots = fill slots rest) ∧
        List.Forall₂ (Filled processor) (bodiesFrom pos (.slots processor items slots posIdx) lines)
          (programBundles tail)
  | place =>
      List.Forall₂ (Filled program.processor) (bodiesFrom pos place lines)
        (programBundles program.items)

theorem adds_of_header {program : Program} {pos : Nat} {lines : List (List Char)} {place : Place}
    (isHeader : place.header = true) :
    Adds program pos lines place ↔ List.Forall₂ (Filled program.processor)
      (bodiesFrom pos place lines) (programBundles program.items) := by
  cases place with
  | items processor items => cases isHeader
  | slots processor items slots posIdx => cases isHeader
  | _ => exact Iff.rfl

theorem bodiesFrom_cons {pos : Nat} {place next : Place} {line : List Char}
    (read : readLine pos line place = .ok next) (rest : List (List Char)) :
    bodiesFrom pos place (line :: rest) =
      (if place.opens line then [bodyOf rest] else []) ++ bodiesFrom (pos + 1) next rest := by
  rw [bodiesFrom, read]

section Step

variable {program : Program} {pos : Nat} {line : List Char} {rest : List (List Char)}
  {place next : Place} (read : readLine pos line place = .ok next)
  (later : Adds program (pos + 1) rest next)
include read later

theorem adds_header (isHeader : place.header = true) : Adds program pos (line :: rest) place := by
  rw [adds_of_header isHeader, bodiesFrom_cons read]
  have closed : place.opens line = false := by
    cases place with
    | items processor items => cases isHeader
    | _ => rfl
  rw [closed, if_neg Bool.false_ne_true, List.nil_append]
  rcases header_or_items_of_readLine isHeader read with stays | ⟨processor, rfl⟩
  · exact (adds_of_header stays).mp later
  · obtain ⟨rfl, tail, isTail, filled⟩ := later
    rw [isTail]
    exact filled

theorem adds_items {processor : Processor} {items : List Item}
    (here : place = .items processor items) : Adds program pos (line :: rest) place := by
  subst here
  have bodies := bodiesFrom_cons read rest
  rw [readLine] at read
  rw [Adds, bodies]
  by_cases isBlank : trim line = []
  · rw [if_pos isBlank] at read
    cases read
    have closed : (Place.items processor items).opens line = false := by
      rw [Place.opens, isBlank]
      rfl
    rw [closed]
    exact later
  · rw [if_neg isBlank] at read
    by_cases opens : trim line = "\x7b".toList
    · rw [if_pos opens] at read
      cases read
      obtain ⟨rfl, bundle, tail, isTail, filled, others⟩ := later
      refine ⟨rfl, .bundle bundle :: tail, isTail, ?_⟩
      have isOpen : (Place.items program.processor items).opens line = true := decide_eq_true opens
      rw [isOpen]
      exact .cons filled others
    · rw [if_neg opens] at read
      have closed : (Place.items processor items).opens line = false := decide_eq_false opens
      rw [closed]
      split at read
      · rename_i label isLabel
        cases read
        obtain ⟨rfl, tail, isTail, filled⟩ := later
        rw [List.append_assoc] at isTail
        exact ⟨rfl, _, isTail, filled⟩
      · cases read

theorem adds_slots {processor : Processor} {items : List Item} {slots : List (Option Syllable)}
    {posIdx : Nat} (here : place = .slots processor items slots posIdx) :
    Adds program pos (line :: rest) place := by
  subst here
  have bodies : bodiesFrom pos (.slots processor items slots posIdx) (line :: rest) =
      bodiesFrom (pos + 1) next rest := bodiesFrom_cons read rest
  rw [readLine] at read
  rw [Adds, bodies, bodyOf, List.takeWhile_cons]
  by_cases closes : trim line = "\x7d".toList
  · rw [if_pos closes] at read
    cases read
    rw [if_neg (by simp [closes])]
    obtain ⟨rfl, tail, isTail, filled⟩ := later
    rw [List.append_assoc] at isTail
    exact ⟨rfl, ⟨slots⟩, tail, isTail, ⟨[], rfl, rfl⟩, filled⟩
  · rw [if_neg closes] at read
    rw [if_pos (decide_eq_true closes)]
    obtain ⟨⟨name, content⟩, parsed, same⟩ := bind_eq_ok.mp read
    cases same
    obtain ⟨rfl, bundle, tail, isTail, ⟨lines, isLines, isFill⟩, filled⟩ := later
    refine ⟨rfl, bundle, tail, isTail, ?_, filled⟩
    refine ⟨(namedSlot program.processor name posIdx, content) :: lines, ?_, isFill⟩
    rw [slotLines, parseSlot_eq_ok 0 parsed]
    unfold bodyOf at isLines
    rw [isLines]

end Step

theorem adds_of_complete {lines : List (List Char)} {pos : Nat} {place : Place} {program : Program}
    (done : complete place ⟨lines, pos⟩ = .ok program) : Adds program pos lines place := by
  induction lines generalizing pos place with
  | nil =>
      rw [complete_nil] at done
      cases place with
      | items processor items =>
          cases done
          exact ⟨rfl, [], (List.append_nil _).symm, .nil⟩
      | _ => cases done
  | cons line rest ih =>
      rw [complete_cons] at done
      obtain ⟨next, read, completed⟩ := bind_eq_ok.mp done
      have later := ih completed
      cases place with
      | items processor items => exact adds_items read later rfl
      | slots processor items slots posIdx => exact adds_slots read later rfl
      | _ => exact adds_header read later rfl

end Parser

/-- The bundles of an accepted text are filled with the lines of their bodies. -/
theorem filled_of_parse {input : String} {program : Program} (parsed : parse input = .ok program) :
    List.Forall₂ (Filled program.processor) (bundleBodies input)
      (programBundles program.items) := by
  rw [Parser.parse_eq_complete] at parsed
  exact Parser.adds_of_complete parsed

/-- In an accepted text a bundle keeps all its syllables exactly when every slot
that gets one is below the width and not named again by a later line. -/
theorem parse_lossless_iff {input : String} {program : Program}
    (parsed : parse input = .ok program) :
    List.Forall₂ (fun body bundle => ∃ lines, slotLines program.processor 0 body = some lines ∧
        (Lossless lines bundle.slots ↔ NamedOnce program.processor.width lines))
      (bundleBodies input) (programBundles program.items) := by
  refine (filled_of_parse parsed).imp ?_
  rintro body bundle ⟨lines, isLines, isFill⟩
  refine ⟨lines, isLines, ?_⟩
  rw [isFill]
  exact lossless_fill_iff program.processor.width lines

/-- A bundle whose second line names the slot of the first one. -/
def repeatedSlot : String :=
  ".processor \x7b\nlayout slots \x7b\nalias A = 0\n\x7d\n\x7d\n\x7b\nA: mov r1, r2\nA: ret\n\x7d\n"

/-- The lines of the only bundle. -/
def repeatedLines : List SlotLine :=
  [(0, some ⟨"mov", [.reg 1, .reg 2]⟩), (0, some ⟨"ret", []⟩)]

/-- The program read from it. -/
def repeatedProgram : Program where
  processor :=
    { width := 4
      units := []
      slotAliases := [⟨"A", 0⟩]
      slotUnits := [] }
  items := [.bundle ⟨[some ⟨"ret", []⟩, none, none, none]⟩]

theorem parse_repeatedSlot : parse repeatedSlot = .ok repeatedProgram := by
  decide +kernel

theorem slotLines_repeatedSlot :
    (bundleBodies repeatedSlot).map (slotLines repeatedProgram.processor 0) =
      [some repeatedLines] := by
  decide +kernel

/-- The first syllable of the bundle is overwritten by the second. -/
theorem repeatedSlot_loses_syllable :
    parse repeatedSlot = .ok repeatedProgram ∧
      (bundleBodies repeatedSlot).map (slotLines repeatedProgram.processor 0) =
        [some repeatedLines] ∧
      ∀ bundle ∈ programBundles repeatedProgram.items, ¬Lossless repeatedLines bundle.slots := by
  refine ⟨parse_repeatedSlot, slotLines_repeatedSlot, ?_⟩
  intro bundle isBundle lossless
  obtain rfl := List.mem_singleton.mp isBundle
  have overwritten := lossless.placed 0 0 ⟨"mov", [.reg 1, .reg 2]⟩ rfl
  revert overwritten
  decide

/-- A bundle whose lines name its slots in another order. -/
def swappedSlots : String :=
  ".processor \x7b\nlayout slots \x7b\nalias A = 0\nalias X = 2\n\x7d\n\x7d\n\x7b\n" ++
    "0: nop\nX: ret\nA: mov r1, r2\n\x7d\n"

/-- The lines of the only bundle. -/
def swappedLines : List SlotLine :=
  [(0, none), (2, some ⟨"ret", []⟩), (0, some ⟨"mov", [.reg 1, .reg 2]⟩)]

/-- The program read from it. -/
def swappedProgram : Program where
  processor :=
    { width := 4
      units := []
      slotAliases := [⟨"A", 0⟩, ⟨"X", 2⟩]
      slotUnits := [] }
  items := [.bundle ⟨[some ⟨"mov", [.reg 1, .reg 2]⟩, none, some ⟨"ret", []⟩, none]⟩]

theorem parse_lossless_iff_swappedSlots :
    parse swappedSlots = .ok swappedProgram ∧
      ∀ bundle ∈ programBundles swappedProgram.items, Lossless swappedLines bundle.slots := by
  have parsed : parse swappedSlots = .ok swappedProgram := by decide +kernel
  have isLines : (bundleBodies swappedSlots).map (slotLines swappedProgram.processor 0) =
      [some swappedLines] := by
    decide +kernel
  have named : NamedOnce swappedProgram.processor.width swappedLines := by
    intro i slot syllable found
    have inside : i < 3 := (List.getElem?_eq_some_iff.mp found).1
    obtain rfl | rfl | rfl : i = 0 ∨ i = 1 ∨ i = 2 := by omega
    · cases found
    · cases found
      refine ⟨by decide, fun j content less isLine => ?_⟩
      have inside : j < 3 := (List.getElem?_eq_some_iff.mp isLine).1
      obtain rfl : j = 2 := by omega
      cases isLine
    · cases found
      refine ⟨by decide, fun j content less isLine => ?_⟩
      have inside : j < 3 := (List.getElem?_eq_some_iff.mp isLine).1
      omega
  refine ⟨parsed, fun bundle isBundle => ?_⟩
  obtain ⟨body, bodyMem, lines, areLines, lossless⟩ :=
    exists_mem_of_forall₂ (parse_lossless_iff parsed) isBundle
  have isOnly : some lines ∈ [some swappedLines] := by
    rw [← isLines, ← areLines]
    exact List.mem_map_of_mem bodyMem
  cases List.mem_singleton.mp isOnly
  exact lossless.mpr named

end VliwCompiler.Asm
