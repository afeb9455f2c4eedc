import VliwCompiler.Asm.Parse
import VliwCompiler.Error

/-!
# Reading line by line

The parser as a machine that reads one line after the other.  Its place says in
which stanza it is and what it has read so far.
-/

namespace VliwCompiler.Asm

open Text (trim)

namespace Parser

/-- Where the parser is between two lines. -/
inductive Place where
  | start
  | stanzas (processor : Processor)
  | hardware (processor : Processor) (units : List UnitDecl)
  | layout (processor : Processor) (aliases : List SlotAlias) (indexed : List (Nat × List String))
  | items (processor : Processor) (items : List Item)
  | slots (processor : Processor) (items : List Item) (slots : List (Option Syllable))
      (posIdx : Nat)

/-- One line of the processor stanza. -/
def readStanza (processor : Processor) (trimmed : List Char) (pos : Nat) : ParseOutcome Place :=
  if trimmed = "hardware \x7b".toList then .ok (.hardware processor [])
  else if trimmed = "layout slots \x7b".toList then .ok (.layout processor [] [])
  else (parseStanza processor trimmed ⟨[], pos⟩).map (.stanzas ·.1)

/-- One more line, read after `pos` others. -/
def readLine (pos : Nat) (line : List Char) : Place → ParseOutcome Place
  | .start =>
      if trim line = [] then .ok .start
      else if trim line ≠ ".processor \x7b".toList then
        err (pos + 1) "expected '.processor \x7b', got: " (trim line)
      else .ok (.stanzas initialProcessor)
  | .stanzas processor =>
      if trim line = [] then .ok (.stanzas processor)
      else if trim line = "\x7d".toList then .ok (.items processor [])
      else readStanza processor (trim line) (pos + 1)
  | .hardware processor units =>
      if trim line = [] then .ok (.hardware processor units)
      else if trim line = "\x7d".toList then .ok (.stanzas { processor with units })
      else do
        let unit ← parseUnit (pos + 1) (trim line)
        return .hardware processor (units ++ [unit])
  | .layout processor aliases indexed =>
      if trim line = [] then .ok (.layout processor aliases indexed)
      else if trim line = "\x7d".toList then do
        let slotUnits ← slotUnitsOf indexed
        return .stanzas { processor with slotAliases := aliases, slotUnits }
      else do
        match ← parseLayoutLine (pos + 1) (trim line) with
        | .inl entry => return .layout processor (aliases ++ [entry]) indexed
        | .inr entry => return .layout processor aliases (indexed ++ [entry])
  | .items processor items =>
      if trim line = [] then .ok (.items processor items)
      else if trim line = "\x7b".toList then
        .ok (.slots processor items (List.replicate processor.width none) 0)
      else
        match (trim line).dropSuffix? [':'] with
        | some label => .ok (.items processor (items ++ [.label (String.ofList label)]))
        | none => err pos "unexpected: " (trim line)
  | .slots processor items slots posIdx =>
      if trim line = "\x7d".toList then .ok (.items processor (items ++ [.bundle ⟨slots⟩]))
      else do
        let (name, syllable) ← parseSlot (pos + 1) (trim line)
        let slotIdx := ((processor.slotAliases.find? (·.name.toList = name)).map
          (·.slot)).getD posIdx
        return .slots processor items (slots.set slotIdx syllable) (posIdx + 1)

/-- The lines of a text, one after the other. -/
def readLines (pos : Nat) (place : Place) : List (List Char) → ParseOutcome Place
  | [] => .ok place
  | line :: rest => do readLines (pos + 1) (← readLine pos line place) rest

/-- The text may end only between items. -/
def finish : Place → ParseOutcome Program
  | .items processor items => .ok ⟨processor, items⟩
  | _ => .error (.error .unexpectedEof)

/-- Read the lines that are left and finish. -/
def complete (place : Place) (parser : Parser) : ParseOutcome Program := do
  finish (← readLines parser.pos place parser.rest)

theorem complete_nil (place : Place) (pos : Nat) : complete place ⟨[], pos⟩ = finish place := rfl

theorem complete_cons (place : Place) (line : List Char) (rest : List (List Char)) (pos : Nat) :
    complete place ⟨line :: rest, pos⟩ =
      readLine pos line place >>= fun next => complete next ⟨rest, pos + 1⟩ := by
  rw [complete, readLines, bind_assoc]
  rfl

/-! ### The loops of the parser -/

theorem complete_hardware (processor : Processor) (units : List UnitDecl)
    (lines : List (List Char)) (pos : Nat) :
    (do
      let (units, parser) ← parseHardware units lines pos
      complete (.stanzas { processor with units }) parser) =
      complete (.hardware processor units) ⟨lines, pos⟩ := by
  induction lines generalizing units pos with
  | nil => rfl
  | cons line rest ih =>
      rw [complete_cons, parseHardware, readLine]
      by_cases isBlank : trim line = []
      · rw [if_pos isBlank, if_pos isBlank, ih]
        rfl
      · rw [if_neg isBlank, if_neg isBlank]
        by_cases closes : trim line = "\x7d".toList
        · rw [if_pos closes, if_pos closes]
          rfl
        · rw [if_neg closes, if_neg closes, bind_assoc, bind_assoc]
          refine bind_congr fun unit => ?_
          rw [pure_bind, ih]

theorem complete_layout (processor : Processor) (aliases : List SlotAlias)
    (indexed : List (Nat × List String)) (lines : List (List Char)) (pos : Nat) :
    (do
      let ((slotAliases, slotUnits), parser) ← parseLayout aliases indexed lines pos
      complete (.stanzas { processor with slotAliases, slotUnits }) parser) =
      complete (.layout processor aliases indexed) ⟨lines, pos⟩ := by
  induction lines generalizing aliases indexed pos with
  | nil => rfl
  | cons line rest ih =>
      rw [complete_cons, parseLayout, readLine]
      by_cases isBlank : trim line = []
      · rw [if_pos isBlank, if_pos isBlank, ih]
        rfl
      · rw [if_neg isBlank, if_neg isBlank]
        by_cases closes : trim line = "\x7d".toList
        · rw [if_pos closes, if_pos closes, bind_assoc, bind_assoc]
          rfl
        · rw [if_neg closes, if_neg closes, bind_assoc, bind_assoc]
          refine bind_congr fun entry => ?_
          cases entry with
          | inl entry => exact ih (aliases ++ [entry]) indexed (pos + 1)
          | inr entry => exact ih aliases (indexed ++ [entry]) (pos + 1)

theorem complete_slots (processor : Processor) (items : List Item)
    (slots : List (Option Syllable)) (posIdx : Nat) (lines : List (List Char)) (pos : Nat) :
    (do
      let (slots, parser) ← parseSlots processor slots posIdx lines pos
      complete (.items processor (items ++ [.bundle ⟨slots⟩])) parser) =
      complete (.slots processor items slots posIdx) ⟨lines, pos⟩ := by
  induction lines generalizing slots posIdx pos with
  | nil => rfl
  | cons line rest ih =>
      rw [complete_cons, parseSlots, readLine]
      by_cases closes : trim line = "\x7d".toList
      · rw [if_pos closes, if_pos closes]
        rfl
      · rw [if_neg closes, if_neg closes, bind_assoc, bind_assoc]
        refine bind_congr fun entry => ?_
        exact ih _ _ _

/-- A place at which blank lines are skipped. -/
def Place.SkipsBlank (place : Place) : Prop :=
  ∀ pos line, trim line = [] → readLine pos line place = .ok place

theorem complete_skipBlank {place : Place} (skips : place.SkipsBlank) (parser : Parser) :
    complete place parser.skipBlank = complete place parser := by
  have skip : ∀ (rest : List (List Char)) (pos : Nat),
      complete place (skipBlankFrom rest pos) = complete place ⟨rest, pos⟩ := by
    intro rest
    induction rest with
    | nil => exact fun pos => rfl
    | cons line rest ih =>
        intro pos
        rw [skipBlankFrom]
        split
        · rename_i isBlank
          rw [ih, complete_cons, skips pos line isBlank]
          rfl
        · rfl
  exact skip parser.rest parser.pos

theorem length_skipBlank_le (parser : Parser) :
    parser.skipBlank.rest.length ≤ parser.rest.length := by
  have shorter : ∀ (rest : List (List Char)) (pos : Nat),
      (skipBlankFrom rest pos).rest.length ≤ rest.length := by
    intro rest
    induction rest with
    | nil => exact fun pos => Nat.le_refl 0
    | cons line rest ih =>
        intro pos
        rw [skipBlankFrom]
        split
        · exact Nat.le_succ_of_le (ih (pos + 1))
        · exact Nat.le_refl _
  exact shorter parser.rest parser.pos

/-- The first line after the blank ones. -/
theorem trim_skipBlank_ne_nil {parser : Parser} {line : List Char} {rest : List (List Char)}
    (isFirst : parser.skipBlank.rest = line :: rest) : trim line ≠ [] := by
  have notBlank : ∀ (lines : List (List Char)) (pos : Nat),
      (skipBlankFrom lines pos).rest = line :: rest → trim line ≠ [] := by
    intro lines
    induction lines with
    | nil =>
        intro pos isFirst
        cases isFirst
    | cons first lines ih =>
        intro pos isFirst
        rw [skipBlankFrom] at isFirst
        split at isFirst
        · exact ih (pos + 1) isFirst
        · rename_i isFull
          cases isFirst
          exact isFull
  exact notBlank parser.rest parser.pos isFirst

section

variable {processor : Processor} {lines : List (List Char)} {pos : Nat} {next : Parser}

theorem length_parseHardware {units read : List UnitDecl}
    (parsed : parseHardware units lines pos = .ok (read, next)) :
    next.rest.length ≤ lines.length := by
  induction lines generalizing units pos with
  | nil => cases parsed
  | cons line rest ih =>
      rw [parseHardware] at parsed
      split at parsed
      · exact Nat.le_succ_of_le (ih parsed)
      · split at parsed
        · cases parsed
          exact Nat.le_succ _
        · obtain ⟨unit, _, parsed⟩ := bind_eq_ok.mp parsed
          exact Nat.le_succ_of_le (ih parsed)

theorem length_parseLayout {aliases : List SlotAlias} {indexed : List (Nat × List String)}
    {read : List SlotAlias × List (List String)}
    (parsed : parseLayout aliases indexed lines pos = .ok (read, next)) :
    next.rest.length ≤ lines.length := by
  induction lines generalizing aliases indexed pos with
  | nil => cases parsed
  | cons line rest ih =>
      rw [parseLayout] at parsed
      split at parsed
      · exact Nat.le_succ_of_le (ih parsed)
      · split at parsed
        · obtain ⟨slotUnits, _, same⟩ := bind_eq_ok.mp parsed
          cases same
          exact Nat.le_succ _
        · obtain ⟨entry, _, parsed⟩ := bind_eq_ok.mp parsed
          cases entry with
          | inl entry => exact Nat.le_succ_of_le (ih parsed)
          | inr entry => exact Nat.le_succ_of_le (ih parsed)

theorem length_parseSlots {slots read : List (Option Syllable)} {posIdx : Nat}
    (parsed : parseSlots processor slots posIdx lines pos = .ok (read, next)) :
    next.rest.length ≤ lines.length := by
  induction lines generalizing slots posIdx pos with
  | nil => cases parsed
  | cons line rest ih =>
      rw [parseSlots] at parsed
      split at parsed
      · cases parsed
        exact Nat.le_succ _
      · obtain ⟨entry, _, parsed⟩ := bind_eq_ok.mp parsed
        exact Nat.le_succ_of_le (ih parsed)

end

theorem skipsBlank_items (processor : Processor) (items : List Item) :
    (Place.items processor items).SkipsBlank := fun _ _ isBlank => if_pos isBlank

theorem skipsBlank_stanzas (processor : Processor) : (Place.stanzas processor).SkipsBlank :=
  fun _ _ isBlank => if_pos isBlank

theorem skipsBlank_start : Place.start.SkipsBlank := fun _ _ isBlank => if_pos isBlank

/-- The items are read line by line. -/
theorem parseItems_eq_complete {processor : Processor} {fuel : Nat} (items : List Item)
    {parser : Parser} (enough : parser.rest.length < fuel) :
    (do return ⟨processor, ← parseItems processor fuel items parser⟩) =
      complete (.items processor items) parser := by
  induction fuel generalizing items parser with
  | zero => exact absurd enough (Nat.not_lt_zero _)
  | succ fuel ih =>
      have shorter := length_skipBlank_le parser
      rw [← complete_skipBlank (skipsBlank_items processor items), parseItems]
      cases isRest : parser.skipBlank.rest with
      | nil =>
          have isDone : parser.skipBlank = ⟨[], parser.skipBlank.pos⟩ := by rw [← isRest]
          rw [isDone]
          rfl
      | cons line rest =>
          have isFull := trim_skipBlank_ne_nil isRest
          have isHere : parser.skipBlank = ⟨line :: rest, parser.skipBlank.pos⟩ := by rw [← isRest]
          rw [isRest, List.length_cons] at shorter
          rw [isHere, complete_cons, readLine, if_neg isFull]
          dsimp only
          by_cases opens : trim line = "\x7b".toList
          · rw [if_pos opens, if_pos opens]
            change (do
              let bundle ← (do
                let slots ← parseSlots processor
                  (List.replicate processor.width none) 0 rest (parser.skipBlank.pos + 1)
                return (⟨slots.1⟩, slots.2) : ParseOutcome (Bundle × Parser))
              parseItems processor fuel (items ++ [.bundle bundle.1]) bundle.2) >>= _ =
                complete (.slots processor items (List.replicate processor.width none) 0)
                  ⟨rest, parser.skipBlank.pos + 1⟩
            rw [← complete_slots, bind_assoc, bind_assoc]
            cases parsed : parseSlots processor (List.replicate processor.width none) 0 rest
                (parser.skipBlank.pos + 1) with
            | error failure => rfl
            | ok read =>
                have enough : read.2.rest.length < fuel := by
                  have shorter := length_parseSlots parsed
                  omega
                exact ih _ enough
          · rw [if_neg opens, if_neg opens]
            cases isLabel : (trim line).dropSuffix? [':'] with
            | none => rfl
            | some label =>
                have enough : rest.length < fuel := by omega
                exact ih _ enough

theorem parseStanza_opensHardware (processor : Processor) (parser : Parser) :
    parseStanza processor "hardware \x7b".toList parser = (do
      let (units, parser) ← parseHardware [] parser.rest parser.pos
      return ({ processor with units }, parser)) := rfl

theorem parseStanza_opensLayout (processor : Processor) (parser : Parser) :
    parseStanza processor "layout slots \x7b".toList parser = (do
      let ((slotAliases, slotUnits), parser) ← parseLayout [] [] parser.rest parser.pos
      return ({ processor with slotAliases, slotUnits }, parser)) := rfl

/-- The other lines of the processor stanza read no further line. -/
theorem parseStanza_eq_map {trimmed : List Char} (noHardware : trimmed ≠ "hardware \x7b".toList)
    (noLayout : trimmed ≠ "layout slots \x7b".toList) (processor : Processor) (parser : Parser) :
    parseStanza processor trimmed parser =
      (parseStanza processor trimmed ⟨[], parser.pos⟩).map fun read => (read.1, parser) := by
  have map_bind : ∀ {α : Type} (first : ParseOutcome α) (f : α → Processor) (other : Parser),
      (first >>= fun value => pure (f value, parser) : ParseOutcome (Processor × Parser)) =
        (first >>= fun value => pure (f value, other)).map fun read => (read.1, parser) := by
    intro α first f other
    cases first <;> rfl
  unfold parseStanza
  split
  · exact map_bind _ (fun width => { processor with width }) _
  · rw [if_neg noHardware, if_neg noHardware, if_neg noLayout, if_neg noLayout]
    split
    · rfl
    · split
      · exact map_bind _ (fun topology => { processor with topology }) _
      · split
        · exact map_bind _ (fun memorySize => { processor with memorySize }) _
        · rfl

/-- The processor stanza and the items are read line by line. -/
theorem parseStanzas_eq_complete {fuel : Nat} (processor : Processor) {parser : Parser}
    (enough : parser.rest.length < fuel) :
    (do
      let (processor, parser) ← parseStanzas fuel processor parser
      let items ← parseItems processor (parser.rest.length + 1) [] parser
      return ⟨processor, items⟩) = complete (.stanzas processor) parser := by
  induction fuel generalizing processor parser with
  | zero => exact absurd enough (Nat.not_lt_zero _)
  | succ fuel ih =>
      have shorter := length_skipBlank_le parser
      rw [← complete_skipBlank (skipsBlank_stanzas processor), parseStanzas, expectLine]
      cases isRest : parser.skipBlank.rest with
      | nil =>
          have isDone : parser.skipBlank = ⟨[], parser.skipBlank.pos⟩ := by rw [← isRest]
          rw [isDone]
          rfl
      | cons line rest =>
          have isFull := trim_skipBlank_ne_nil isRest
          have isHere : parser.skipBlank = ⟨line :: rest, parser.skipBlank.pos⟩ := by rw [← isRest]
          rw [isRest, List.length_cons] at shorter
          rw [isHere, complete_cons, readLine, if_neg isFull]
          generalize parser.skipBlank.pos = pos
          change (if trim line = "\x7d".toList then return (processor, ⟨rest, pos + 1⟩)
            else do
              let (processor, parser) ← parseStanza processor (trim line) ⟨rest, pos + 1⟩
              parseStanzas fuel processor parser : ParseOutcome (Processor × Parser)) >>= _ = _
          by_cases closes : trim line = "\x7d".toList
          · rw [if_pos closes, if_pos closes]
            exact parseItems_eq_complete [] (Nat.lt_succ_self _)
          · rw [if_neg closes, if_neg closes, bind_assoc, readStanza]
            by_cases opensHardware : trim line = "hardware \x7b".toList
            · rw [opensHardware, parseStanza_opensHardware, if_pos rfl, bind_assoc]
              change _ = complete (.hardware processor []) ⟨rest, pos + 1⟩
              rw [← complete_hardware]
              cases parsed : parseHardware [] rest (pos + 1) with
              | error failure => rfl
              | ok read =>
                  have enough : read.2.rest.length < fuel := by
                    have shorter := length_parseHardware parsed
                    omega
                  exact ih { processor with units := read.1 } enough
            · rw [if_neg opensHardware]
              by_cases opensLayout : trim line = "layout slots \x7b".toList
              · rw [opensLayout, parseStanza_opensLayout, if_pos rfl, bind_assoc]
                change _ = complete (.layout processor [] []) ⟨rest, pos + 1⟩
                rw [← complete_layout]
                cases parsed : parseLayout [] [] rest (pos + 1) with
                | error failure => rfl
                | ok read =>
                    have enough : read.2.rest.length < fuel := by
                      have shorter := length_parseLayout parsed
                      omega
                    exact ih { processor with slotAliases := read.1.1, slotUnits := read.1.2 } enough
              · rw [if_neg opensLayout, parseStanza_eq_map opensHardware opensLayout]
                dsimp only
                cases parseStanza processor (trim line) ⟨[], pos + 1⟩ with
                | error failure => rfl
                | ok read =>
                    have enough : rest.length < fuel := by omega
                    exact ih read.1 enough

/-- Parsing is reading the lines one after the other. -/
theorem parse_eq_complete (input : String) :
    parse input = complete .start ⟨Text.lines input.toList, 0⟩ := by
  rw [parse, parseProgram, ← complete_skipBlank skipsBlank_start]
  generalize isParser : (⟨Text.lines input.toList, 0⟩ : Parser) = parser
  rw [parseProcessor, expectLine]
  cases isRest : parser.skipBlank.rest with
  | nil =>
      have isDone : parser.skipBlank = ⟨[], parser.skipBlank.pos⟩ := by rw [← isRest]
      rw [isDone]
      rfl
  | cons line rest =>
      have isFull := trim_skipBlank_ne_nil isRest
      have isHere : parser.skipBlank = ⟨line :: rest, parser.skipBlank.pos⟩ := by rw [← isRest]
      rw [isHere, complete_cons, readLine, if_neg isFull]
      generalize parser.skipBlank.pos = pos
      change (if trim line ≠ ".processor \x7b".toList then
          err (pos + 1) "expected '.processor \x7b', got: " (trim line)
        else parseStanzas (rest.length + 1) initialProcessor ⟨rest, pos + 1⟩ :
          ParseOutcome (Processor × Parser)) >>= _ = _
      by_cases opens : trim line = ".processor \x7b".toList
      · rw [if_neg (not_not_intro opens), if_neg (not_not_intro opens)]
        exact parseStanzas_eq_complete initialProcessor (Nat.lt_succ_self _)
      · rw [if_pos opens, if_pos opens]
        rfl

end Parser

end VliwCompiler.Asm
