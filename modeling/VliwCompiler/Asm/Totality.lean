import VliwCompiler.Asm.Reading
import VliwCompiler.Data.MapM

/-!
# When the parser returns

The parser computes with the numbers of its text in three places: it negates a
displacement, it adds one to the largest slot index and allocates that many
slots, and it counts open brackets.  It returns a program or an error unless it
comes to a line at which one of the three overflows.
-/

namespace VliwCompiler.Asm

open Text (trim)

/-- The outcome is a value or an error of the parser. -/
def ParseReturns {α : Type} (outcome : ParseOutcome α) : Prop :=
  (∃ value, outcome = .ok value) ∨ ∃ error, outcome = .error (.error error)

/-- A piece of a line is read or it is refused. -/
def Settles {α : Type} (attempt : Attempt α) : Prop :=
  ∀ message, attempt ≠ .error (.panic message)

section

variable {α β : Type}

theorem parseReturns_ok (value : α) : ParseReturns (.ok value : ParseOutcome α) := .inl ⟨value, rfl⟩

theorem parseReturns_bind {first : ParseOutcome α} {next : α → ParseOutcome β} :
    ParseReturns (first >>= next) ↔
      ParseReturns first ∧ ∀ value, first = .ok value → ParseReturns (next value) := by
  cases first with
  | ok value =>
      refine ⟨fun returns => ⟨parseReturns_ok value, fun other same => ?_⟩,
        fun both => both.2 value rfl⟩
      cases same
      exact returns
  | error failure =>
      refine ⟨fun returns => ⟨?_, fun other same => nomatch same⟩, fun both => ?_⟩
      · rcases returns with ⟨value, isValue⟩ | ⟨error, isError⟩
        · cases isValue
        · cases isError
          exact .inr ⟨error, rfl⟩
      · rcases both.1 with ⟨value, isValue⟩ | ⟨error, isError⟩
        · cases isValue
        · cases isError
          exact .inr ⟨error, rfl⟩

theorem parseReturns_map {first : ParseOutcome α} {f : α → β} :
    ParseReturns (first.map f) ↔ ParseReturns first := by
  have isBind : first.map f = first >>= fun value => .ok (f value) := by cases first <;> rfl
  rw [isBind, parseReturns_bind]
  exact and_iff_left fun value _ => parseReturns_ok (f value)

theorem parseReturns_err (pos : Nat) (msg : String) (text : List Char) :
    ParseReturns (Parser.err pos msg text : ParseOutcome α) := .inr ⟨_, rfl⟩

theorem parseReturns_orErr (pos : Nat) (msg : String) (text : List Char) (value? : Option α) :
    ParseReturns (Parser.orErr pos msg text value?) := by
  cases value? with
  | none => exact parseReturns_err pos msg text
  | some value => exact parseReturns_ok value

theorem parseReturns_orErr_bind {pos : Nat} {msg : String} {text : List Char} {value? : Option α}
    {next : α → ParseOutcome β} (returns : ∀ value, ParseReturns (next value)) :
    ParseReturns (Parser.orErr pos msg text value? >>= next) :=
  parseReturns_bind.mpr ⟨parseReturns_orErr pos msg text value?, fun value _ => returns value⟩

theorem parseReturns_okOrElse {error : ParseError} {attempt : Attempt α} :
    ParseReturns (okOrElse error attempt) ↔ Settles attempt := by
  cases attempt with
  | ok value => exact iff_of_true (parseReturns_ok value) (fun message same => nomatch same)
  | error refusal =>
      cases refusal with
      | none => exact iff_of_true (.inr ⟨error, rfl⟩) (fun message same => nomatch same)
      | panic message =>
          refine iff_of_false ?_ (fun settles => settles message rfl)
          rintro (⟨value, isValue⟩ | ⟨other, isError⟩)
          · cases isValue
          · cases isError

theorem settles_map {attempt : Attempt α} {f : α → β} :
    Settles (attempt.map f) ↔ Settles attempt := by
  cases attempt with
  | ok value => exact iff_of_true (fun message same => nomatch same) (fun message same => nomatch same)
  | error refusal =>
      cases refusal with
      | none =>
          exact iff_of_true (fun message same => nomatch same) (fun message same => nomatch same)
      | panic message =>
          exact iff_of_false (fun settles => settles message rfl) (fun settles => settles message rfl)

end

/-! ### Operands -/

/-- An address from which the least 64-bit integer is subtracted. -/
def IsLeastNegated (text : List Char) : Prop :=
  ∃ inner baseText offsetText base, text = '[' :: (inner ++ [']']) ∧
    inner.dropInfix? " + ".toList = none ∧
    inner.dropInfix? " - ".toList = some (baseText, offsetText) ∧
    tryParseReg (trim baseText) = some base ∧
    parseHexOrDec (trim offsetText) = some (BitVec.intMin 64)

/-- The depth of the brackets overflows in the part, or its displacement does
when it is negated. -/
def PartOverflows : Attempt (List Char) → Prop
  | .error .none => False
  | .error (.panic _) => True
  | .ok text => IsLeastNegated (trim text)

/-- A part overflows before another one is refused. -/
def OperandsOverflow (text : List Char) : Prop :=
  ∃ front part back, splitOperands 0 text = front ++ part :: back ∧
    (∀ other ∈ front, ∃ piece operand, other = .ok piece ∧
      parseOperand (trim piece) = .ok operand) ∧ PartOverflows part

/-- The operands after the first space overflow. -/
def SyllableOverflows (text : List Char) : Prop :=
  ∃ opcode rest, text.dropInfix? [' '] = some (opcode, rest) ∧ trim rest ≠ [] ∧
    OperandsOverflow (trim rest)

theorem settles_attempt_bind {α β : Type} {value? : Option α} {next : α → Attempt β} :
    Settles (attempt value? >>= next) ↔ ∀ value, value? = some value → Settles (next value) := by
  cases value? with
  | none =>
      exact iff_of_true (fun message same => nomatch same) (fun value same => nomatch same)
  | some value =>
      refine ⟨fun settles other same => ?_, fun settles => settles value rfl⟩
      cases same
      exact settles

theorem settles_checkedNeg_bind {n : I64} {next : I64 → Attempt Operand}
    (settles : ∀ value, Settles (next value)) :
    Settles (checkedNeg n >>= next) ↔ n ≠ BitVec.intMin 64 := by
  rw [checkedNeg]
  split
  · rename_i isMin
    exact iff_of_false (fun quiet => quiet _ rfl) (fun notMin => notMin isMin)
  · rename_i notMin
    exact iff_of_true (settles (-n)) notMin

theorem settles_ok {α : Type} (value : α) : Settles (.ok value : Attempt α) :=
  fun _ same => nomatch same

theorem settles_parseMemAddr_iff (inner : List Char) :
    Settles (parseMemAddr inner) ↔
      ∀ baseText offsetText base, inner.dropInfix? " + ".toList = none →
        inner.dropInfix? " - ".toList = some (baseText, offsetText) →
        tryParseReg (trim baseText) = some base →
        parseHexOrDec (trim offsetText) ≠ some (BitVec.intMin 64) := by
  rw [parseMemAddr]
  cases isPlus : inner.dropInfix? " + ".toList with
  | some cut =>
      refine iff_of_true ?_ fun _ _ _ isNone => nomatch isNone
      exact settles_attempt_bind.mpr fun base _ => settles_attempt_bind.mpr fun offset _ =>
        settles_ok _
  | none =>
      dsimp only
      cases isMinus : inner.dropInfix? " - ".toList with
      | none =>
          refine iff_of_true ?_ fun _ _ _ _ isSome => nomatch isSome
          exact settles_attempt_bind.mpr fun base _ => settles_ok _
      | some cut =>
          obtain ⟨baseText, offsetText⟩ := cut
          dsimp only
          rw [settles_attempt_bind]
          refine ⟨?_, ?_⟩
          · rintro settles _ _ base - isCut isBase isMin
            cases isCut
            exact (settles_checkedNeg_bind fun _ => settles_ok _).mp
              (settles_attempt_bind.mp (settles base isBase) _ isMin) rfl
          · intro notMin base isBase
            refine settles_attempt_bind.mpr fun offset isOffset => ?_
            refine (settles_checkedNeg_bind fun _ => settles_ok _).mpr fun isMin => ?_
            exact notMin baseText offsetText base rfl rfl isBase (by rw [isOffset, isMin])

theorem dropSuffix?_singleton_eq_some {text body : List Char} {c : Char} :
    text.dropSuffix? [c] = some body ↔ text = body ++ [c] := by
  rw [List.dropSuffix?_eq_some_iff]
  refine ⟨?_, fun same => ⟨[c], same, beq_self_eq_true _⟩⟩
  rintro ⟨back, rfl, isBack⟩
  rw [eq_of_beq isBack]

theorem settles_parseOperand_iff (text : List Char) :
    Settles (parseOperand text) ↔ ¬IsLeastNegated text := by
  rw [parseOperand]
  split
  · rename_i isOpen
    obtain ⟨rest, rfl⟩ : ∃ rest, text = '[' :: rest := by
      cases text with
      | nil => cases isOpen
      | cons c rest => exact ⟨rest, by rw [Option.some.inj isOpen]⟩
    have isRest : (List.dropPrefix? ('[' :: rest) ['[']).bind (·.dropSuffix? [']']) =
        rest.dropSuffix? [']'] := by
      rw [← List.singleton_append, Text.dropPrefix?_append]
      rfl
    rw [isRest, settles_attempt_bind]
    simp only [settles_parseMemAddr_iff, dropSuffix?_singleton_eq_some]
    refine ⟨?_, ?_⟩
    · rintro settles ⟨inner, baseText, offsetText, base, isText, noPlus, isMinus, isBase, isMin⟩
      exact settles inner (List.cons.inj isText).2 baseText offsetText base noPlus isMinus isBase
        isMin
    · rintro harmless inner rfl baseText offsetText base noPlus isMinus isBase isMin
      exact harmless ⟨inner, baseText, offsetText, base, rfl, noPlus, isMinus, isBase, isMin⟩
  · rename_i notOpen
    have harmless : ¬IsLeastNegated text := by
      rintro ⟨inner, _, _, _, rfl, _⟩
      exact notOpen rfl
    refine iff_of_true ?_ harmless
    split
    · exact settles_ok _
    · split
      · exact settles_ok _
      · split
        · exact settles_attempt_bind.mpr fun n _ => settles_ok _
        · exact settles_ok _

theorem settles_part_iff (part : Attempt (List Char)) :
    Settles (do parseOperand (trim (← part)) : Attempt Operand) ↔ ¬PartOverflows part := by
  cases part with
  | ok text => exact settles_parseOperand_iff (trim text)
  | error refusal =>
      cases refusal with
      | none => exact iff_of_true (fun message same => nomatch same) id
      | panic message => exact iff_of_false (fun settles => settles message rfl) (fun no => no trivial)

theorem settles_parseOperands_iff (text : List Char) :
    Settles (parseOperands text) ↔ ¬OperandsOverflow text := by
  refine ⟨?_, fun harmless message failed => ?_⟩
  · rintro settles ⟨front, part, back, isSplit, readable, overflows⟩
    have panics : ¬Settles (do parseOperand (trim (← part)) : Attempt Operand) :=
      fun quiet => (settles_part_iff part).mp quiet overflows
    simp only [Settles, ne_eq, not_forall, not_not] at panics
    obtain ⟨message, fails⟩ := panics
    refine settles message ?_
    rw [parseOperands, isSplit]
    refine mapM_eq_error (f := fun part => do parseOperand (trim (← part)))
      (fun other otherMem => ?_) fails back
    obtain ⟨piece, operand, rfl, isRead⟩ := readable other otherMem
    exact ⟨operand, isRead⟩
  · rw [parseOperands] at failed
    obtain ⟨front, part, back, isSplit, succeed, fails⟩ := exists_item_of_mapM_error failed
    refine harmless ⟨front, part, back, isSplit, fun other otherMem => ?_, ?_⟩
    · obtain ⟨operand, isRead⟩ := succeed other otherMem
      obtain ⟨piece, rfl, isRead⟩ := bind_eq_ok.mp isRead
      exact ⟨piece, operand, rfl, isRead⟩
    · by_contra noOverflow
      exact (settles_part_iff part).mpr noOverflow message fails

theorem settles_parseSyllable_iff (text : List Char) :
    Settles (parseSyllable text) ↔ ¬SyllableOverflows text := by
  have settles_operands : ∀ (opcode rest : List Char), Settles (do
      let operands ← if rest = [] then .ok [] else parseOperands rest
      return ⟨String.ofList opcode, operands⟩ : Attempt Syllable) ↔
        ¬(rest ≠ [] ∧ OperandsOverflow rest) := by
    intro opcode rest
    by_cases isEmpty : rest = []
    · rw [if_pos isEmpty]
      exact iff_of_true (settles_ok _) (fun both => both.1 isEmpty)
    · have isMap : (do
          let operands ← parseOperands rest
          return ⟨String.ofList opcode, operands⟩ : Attempt Syllable) =
            (parseOperands rest).map (Syllable.mk (String.ofList opcode)) := by
        cases parseOperands rest <;> rfl
      rw [if_neg isEmpty, isMap, settles_map, settles_parseOperands_iff]
      exact not_congr (and_iff_right isEmpty).symm
  rw [parseSyllable]
  cases isCut : text.dropInfix? [' '] with
  | none =>
      refine iff_of_true ((settles_operands text []).mpr fun both => both.1 rfl) ?_
      rintro ⟨opcode, rest, isSome, _⟩
      rw [isCut] at isSome
      cases isSome
  | some cut =>
      obtain ⟨opcode, rest⟩ := cut
      refine (settles_operands opcode (trim rest)).trans (not_congr ⟨fun both => ?_, ?_⟩)
      · exact ⟨opcode, rest, isCut, both⟩
      · rintro ⟨opcode', rest', isCut', both⟩
        rw [isCut] at isCut'
        cases isCut'
        exact both

/-! ### Lines -/

namespace Parser

/-- The line makes the parser overflow at its place: it closes a layout with a
slot index beyond the largest vector, or it holds operands that overflow. -/
def LineOverflows (line : List Char) : Place → Prop
  | .layout _ _ indexed => trim line = "\x7d".toList ∧
      ∃ entry ∈ indexed, 2 ^ 63 ≤ (entry.1 + 1) * 24
  | .slots _ _ _ _ => trim line ≠ "\x7d".toList ∧
      ∃ name text, (trim line).dropInfix? [':'] = some (name, text) ∧
        SyllableOverflows (trim text)
  | _ => False

/-- The parser comes to the line at the place. -/
def ComesTo (lines : List (List Char)) (line : List Char) (place : Place) : Prop :=
  ∃ front back, lines = front ++ line :: back ∧ readLines 0 .start front = .ok place

theorem parseReturns_slotUnitsOf_iff (indexed : List (Nat × List String)) :
    ParseReturns (slotUnitsOf indexed) ↔ ¬∃ entry ∈ indexed, 2 ^ 63 ≤ (entry.1 + 1) * 24 := by
  rw [slotUnitsOf]
  cases isMax : (indexed.map (·.1)).max? with
  | none =>
      rw [List.max?_eq_none_iff, List.map_eq_nil_iff] at isMax
      subst isMax
      exact iff_of_true (parseReturns_ok []) (by simp)
  | some maxIdx =>
      obtain ⟨isMem, isUpper⟩ := List.max?_eq_some_iff.mp isMax
      obtain ⟨largest, largestMem, rfl⟩ := List.mem_map.mp isMem
      dsimp only
      have panics : ∀ message, ¬ParseReturns
          (.error (.panic message) : ParseOutcome (List (List String))) := by
        rintro message (⟨value, isValue⟩ | ⟨error, isError⟩)
        · cases isValue
        · cases isError
      split_ifs with overflows tooLarge
      · exact iff_of_false (panics _) (not_not_intro ⟨largest, largestMem, by omega⟩)
      · exact iff_of_false (panics _) (not_not_intro ⟨largest, largestMem, tooLarge⟩)
      · refine iff_of_true (parseReturns_ok _) ?_
        rintro ⟨entry, entryMem, isLarge⟩
        have smaller := isUpper entry.1 (List.mem_map_of_mem entryMem)
        omega

theorem parseReturns_parseUnit (pos : Nat) (trimmed : List Char) :
    ParseReturns (parseUnit pos trimmed) :=
  parseReturns_orErr_bind fun _ => parseReturns_orErr_bind fun _ => parseReturns_ok _

theorem parseReturns_parseLayoutLine (pos : Nat) (trimmed : List Char) :
    ParseReturns (parseLayoutLine pos trimmed) := by
  rw [parseLayoutLine]
  split
  · exact parseReturns_orErr_bind fun _ => parseReturns_orErr_bind fun _ => parseReturns_ok _
  · exact parseReturns_orErr_bind fun _ => parseReturns_orErr_bind fun _ => parseReturns_ok _

theorem parseReturns_readStanza (processor : Processor) (trimmed : List Char) (pos : Nat) :
    ParseReturns (readStanza processor trimmed pos) := by
  rw [readStanza]
  by_cases opensHardware : trimmed = "hardware \x7b".toList
  · rw [if_pos opensHardware]
    exact parseReturns_ok _
  · rw [if_neg opensHardware]
    by_cases opensLayout : trimmed = "layout slots \x7b".toList
    · rw [if_pos opensLayout]
      exact parseReturns_ok _
    · rw [if_neg opensLayout, parseReturns_map]
      unfold parseStanza
      split
      · exact parseReturns_orErr_bind fun _ => parseReturns_ok _
      · rw [if_neg opensHardware, if_neg opensLayout]
        split
        · exact parseReturns_ok _
        · split
          · exact parseReturns_orErr_bind fun _ => parseReturns_ok _
          · split
            · exact parseReturns_orErr_bind fun _ => parseReturns_ok _
            · exact parseReturns_err _ _ _

theorem not_syllableOverflows_nop : ¬SyllableOverflows "nop".toList := by
  rintro ⟨opcode, rest, isCut, _⟩
  have noSpace : "nop".toList.dropInfix? [' '] = none := by decide
  rw [noSpace] at isCut
  cases isCut

theorem parseReturns_parseSlot_iff (pos : Nat) (trimmed : List Char) :
    ParseReturns (parseSlot pos trimmed) ↔
      ¬∃ name text, trimmed.dropInfix? [':'] = some (name, text) ∧ SyllableOverflows (trim text) := by
  rw [parseSlot]
  cases isCut : trimmed.dropInfix? [':'] with
  | none =>
      refine iff_of_true (parseReturns_err _ _ _) ?_
      rintro ⟨name, text, isSome, _⟩
      cases isSome
  | some cut =>
      obtain ⟨name, text⟩ := cut
      have isContent :
          ParseReturns (parseContent pos (trim text)) ↔ ¬SyllableOverflows (trim text) := by
        rw [parseContent]
        split
        · rename_i isNop
          rw [isNop]
          exact iff_of_true (parseReturns_ok _) not_syllableOverflows_nop
        · rw [parseReturns_okOrElse, settles_map, settles_parseSyllable_iff]
      have isRead : ParseReturns (do
          let syllable ← parseContent pos (trim text)
          return (trim name, syllable) : ParseOutcome (List Char × Option Syllable)) ↔
            ParseReturns (parseContent pos (trim text)) := by
        rw [parseReturns_bind]
        exact and_iff_left fun _ _ => parseReturns_ok _
      refine isRead.trans (isContent.trans (not_congr ⟨fun overflows => ?_, ?_⟩))
      · exact ⟨name, text, rfl, overflows⟩
      · rintro ⟨name', text', same, overflows⟩
        cases same
        exact overflows

/-- A line is read or refused unless it overflows. -/
theorem parseReturns_readLine_iff (pos : Nat) (line : List Char) (place : Place) :
    ParseReturns (readLine pos line place) ↔ ¬LineOverflows line place := by
  cases place with
  | start =>
      refine iff_of_true ?_ id
      rw [readLine]
      split
      · exact parseReturns_ok _
      · split
        · exact parseReturns_err _ _ _
        · exact parseReturns_ok _
  | stanzas processor =>
      refine iff_of_true ?_ id
      rw [readLine]
      split
      · exact parseReturns_ok _
      · split
        · exact parseReturns_ok _
        · exact parseReturns_readStanza _ _ _
  | hardware processor units =>
      refine iff_of_true ?_ id
      rw [readLine]
      split
      · exact parseReturns_ok _
      · split
        · exact parseReturns_ok _
        · exact parseReturns_bind.mpr ⟨parseReturns_parseUnit _ _, fun _ _ => parseReturns_ok _⟩
  | layout processor aliases indexed =>
      rw [readLine, LineOverflows]
      split
      · rename_i isBlank
        refine iff_of_true (parseReturns_ok _) fun both => ?_
        rw [isBlank] at both
        cases both.1
      · split
        · rename_i closes
          rw [parseReturns_bind, parseReturns_slotUnitsOf_iff, and_iff_right closes]
          exact and_iff_left fun _ _ => parseReturns_ok _
        · rename_i isEntry
          refine iff_of_true ?_ fun both => isEntry both.1
          refine parseReturns_bind.mpr ⟨parseReturns_parseLayoutLine _ _, fun entry _ => ?_⟩
          cases entry with
          | inl entry => exact parseReturns_ok _
          | inr entry => exact parseReturns_ok _
  | items processor items =>
      refine iff_of_true ?_ id
      rw [readLine]
      split
      · exact parseReturns_ok _
      · split
        · exact parseReturns_ok _
        · split
          · exact parseReturns_ok _
          · exact parseReturns_err _ _ _
  | slots processor items slots posIdx =>
      rw [readLine, LineOverflows]
      split
      · rename_i closes
        exact iff_of_true (parseReturns_ok _) fun both => both.1 closes
      · rename_i isSlot
        rw [parseReturns_bind, parseReturns_parseSlot_iff, and_iff_right isSlot]
        exact and_iff_left fun _ _ => parseReturns_ok _

/-- The lines are read or refused unless one of them overflows. -/
theorem parseReturns_readLines_iff (pos : Nat) (place : Place) (lines : List (List Char)) :
    ParseReturns (readLines pos place lines) ↔
      ∀ front line back next, lines = front ++ line :: back →
        readLines pos place front = .ok next → ¬LineOverflows line next := by
  induction lines generalizing pos place with
  | nil =>
      refine iff_of_true (parseReturns_ok place) fun front line back next isSplit => ?_
      simp at isSplit
  | cons first rest ih =>
      rw [readLines, parseReturns_bind, parseReturns_readLine_iff]
      simp only [ih]
      refine ⟨?_, fun harmless => ⟨?_, ?_⟩⟩
      · rintro ⟨isFirst, isRest⟩ front line back next isSplit isRead
        cases front with
        | nil =>
            cases isSplit
            cases isRead
            exact isFirst
        | cons other front =>
            cases isSplit
            obtain ⟨middle, isMiddle, isRead⟩ := bind_eq_ok.mp isRead
            exact isRest middle isMiddle front line back next rfl isRead
      · exact harmless [] first rest place rfl rfl
      · rintro middle isMiddle front line back next rfl isRead
        refine harmless (first :: front) line back next rfl ?_
        rw [readLines, isMiddle]
        exact isRead

end Parser

/-- The parser returns a program or an error exactly when it comes to no line
that overflows. -/
theorem parse_returns_iff (input : String) :
    ParseReturns (parse input) ↔
      ∀ line place, Parser.ComesTo (Text.lines input.toList) line place →
        ¬Parser.LineOverflows line place := by
  have finishes : ∀ place, ParseReturns (Parser.finish place) := by
    intro place
    cases place with
    | items processor items => exact parseReturns_ok _
    | start => exact .inr ⟨_, rfl⟩
    | stanzas processor => exact .inr ⟨_, rfl⟩
    | hardware processor units => exact .inr ⟨_, rfl⟩
    | layout processor aliases indexed => exact .inr ⟨_, rfl⟩
    | slots processor items slots posIdx => exact .inr ⟨_, rfl⟩
  rw [Parser.parse_eq_complete, Parser.complete, parseReturns_bind,
    and_iff_left fun place _ => finishes place, Parser.parseReturns_readLines_iff]
  refine ⟨?_, fun harmless front line back next isSplit isRead =>
    harmless line next ⟨front, back, isSplit, isRead⟩⟩
  rintro harmless line place ⟨front, back, isSplit, isRead⟩
  exact harmless front line back place isSplit isRead

/-- The displacement of this load is negated with overflow. -/
theorem leastDisplacement_panics :
    parse ".processor \x7b\n\x7d\n\x7b\n0: ldd r1, [r0 - -9223372036854775808]\n\x7d\n" =
      .error (.panic "attempt to negate with overflow") := by
  decide +kernel

end VliwCompiler.Asm
