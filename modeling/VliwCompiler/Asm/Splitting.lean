import VliwCompiler.Asm.Parse
import VliwCompiler.Data.MapM

/-!
# Splitting operands

A list of operands is cut at the commas outside brackets.  The parts of any list
that was cut once, written with a comma and a blank between them, are cut at the
same places again.
-/

namespace VliwCompiler.Asm

open Text (trim isWhitespace Solid)

/-- The bracket depth after a text without a cut, from the depth before it. -/
def scan : Int → List Char → Option Int
  | depth, [] => some depth
  | depth, c :: rest =>
      if c = '[' then if depth + 1 = 2 ^ 31 then none else scan (depth + 1) rest
      else if c = ']' then if depth = -2 ^ 31 then none else scan (depth - 1) rest
      else if c = ',' ∧ depth = 0 then none
      else scan depth rest

theorem scan_append {depth middle : Int} {first : List Char} (second : List Char)
    (scanned : scan depth first = some middle) :
    scan depth (first ++ second) = scan middle second := by
  induction first generalizing depth with
  | nil =>
      cases scanned
      rfl
  | cons c first ih =>
      rw [scan] at scanned
      rw [List.cons_append, scan]
      split_ifs at scanned ⊢
      · exact ih scanned
      · exact ih scanned
      · exact ih scanned

/-- White space opens, closes and cuts nothing. -/
theorem scan_blank {text : List Char} (depth : Int)
    (isBlank : ∀ c ∈ text, isWhitespace c = true) : scan depth text = some depth := by
  induction text with
  | nil => rfl
  | cons c text ih =>
      have black : ∀ mark ∈ [',', '[', ']'], isWhitespace mark = false := by decide
      have plain : c ∉ [',', '[', ']'] := by
        intro isMark
        have isWhite := isBlank c List.mem_cons_self
        rw [black c isMark] at isWhite
        cases isWhite
      simp only [List.mem_cons, List.not_mem_nil, or_false, not_or] at plain
      rw [scan, if_neg plain.2.1, if_neg plain.2.2, if_neg fun both => plain.1 both.1]
      exact ih fun other otherMem => isBlank other (List.mem_cons_of_mem _ otherMem)

/-- A text whose brackets are scanned is scanned without the white space around
it. -/
theorem scan_trim {text : List Char} {depth after : Int} (scanned : scan depth text = some after) :
    scan depth (trim text) = some after := by
  obtain ⟨front, back, isText, isFront, isBack⟩ := Text.exists_trim text
  rw [isText, scan_append _ (scan_blank depth isFront)] at scanned
  cases inner : scan depth (trim text) with
  | some middle =>
      rw [scan_append _ inner, scan_blank middle isBack] at scanned
      exact scanned
  | none =>
      have stops : ∀ (first second : List Char) (depth : Int), scan depth first = none →
          scan depth (first ++ second) = none := by
        intro first second
        induction first with
        | nil => exact fun depth isNone => by cases isNone
        | cons c first ih =>
            intro depth isNone
            rw [scan] at isNone
            rw [List.cons_append, scan]
            split_ifs at isNone ⊢
            · rfl
            · exact ih _ isNone
            · rfl
            · exact ih _ isNone
            · rfl
            · exact ih _ isNone
      rw [stops _ _ _ inner] at scanned
      cases scanned

/-! ### Cutting -/

theorem splitOperands_of_scan {depth after : Int} {text : List Char}
    (scanned : scan depth text = some after) (rest : List Char) :
    splitOperands depth (text ++ rest) =
      (splitOperands after rest).modifyHead (·.map (text ++ ·)) := by
  induction text generalizing depth with
  | nil =>
      obtain rfl : depth = after := Option.some.inj scanned
      rw [List.nil_append]
      cases parts : splitOperands depth rest with
      | nil => rfl
      | cons part parts => cases part <;> rfl
  | cons c text ih =>
      have both : ∀ parts : List (Attempt (List Char)),
          (parts.modifyHead (·.map (text ++ ·))).modifyHead (·.map (c :: ·)) =
            parts.modifyHead (·.map (c :: text ++ ·)) := by
        intro parts
        cases parts with
        | nil => rfl
        | cons part parts => cases part <;> rfl
      rw [scan] at scanned
      rw [List.cons_append, splitOperands]
      split_ifs at scanned ⊢
      · rw [ih scanned, both]
      · rw [ih scanned, both]
      · rw [ih scanned, both]

theorem splitOperands_ne_nil (depth : Int) (text : List Char) : splitOperands depth text ≠ [] := by
  induction text generalizing depth with
  | nil => simp [splitOperands]
  | cons c text ih =>
      rw [splitOperands]
      split_ifs
      · simp
      · simpa using ih (depth + 1)
      · simp
      · simpa using ih (depth - 1)
      · simp
      · simpa using ih depth

/-- The first part of a list of operands ends at a comma outside brackets or
with the list. -/
theorem splitOperands_eq_cons {depth : Int} {text part : List Char}
    {others : List (Attempt (List Char))}
    (cut : splitOperands depth text = .ok part :: others) :
    ∃ after, scan depth part = some after ∧ ((text = part ∧ others = []) ∨
      after = 0 ∧ ∃ rest, text = part ++ ',' :: rest ∧ others = splitOperands 0 rest) := by
  induction text generalizing depth part with
  | nil =>
      cases cut
      exact ⟨depth, rfl, .inl ⟨rfl, rfl⟩⟩
  | cons c text ih =>
      have longer : ∀ {depth' : Int},
          (splitOperands depth' text).modifyHead (·.map (c :: ·)) = .ok part :: others →
          ∃ tail after, part = c :: tail ∧ scan depth' tail = some after ∧
            ((text = tail ∧ others = []) ∨ after = 0 ∧ ∃ rest, text = tail ++ ',' :: rest ∧
              others = splitOperands 0 rest) := by
        intro depth' isHead
        cases inner : splitOperands depth' text with
        | nil =>
            rw [inner] at isHead
            cases isHead
        | cons first parts =>
            rw [inner] at isHead
            cases first with
            | error refusal => cases isHead
            | ok tail =>
                cases isHead
                obtain ⟨after, scanned, ends⟩ := ih inner
                exact ⟨tail, after, rfl, scanned, ends⟩
      have grown : ∀ {tail : List Char} {after : Int},
          ((text = tail ∧ others = []) ∨ after = 0 ∧ ∃ rest, text = tail ++ ',' :: rest ∧
              others = splitOperands 0 rest) →
          (c :: text = c :: tail ∧ others = []) ∨ after = 0 ∧ ∃ rest,
            c :: text = c :: tail ++ ',' :: rest ∧ others = splitOperands 0 rest := by
        rintro tail after (⟨rfl, isLast⟩ | ⟨isZero, rest, rfl, isOthers⟩)
        · exact .inl ⟨rfl, isLast⟩
        · exact .inr ⟨isZero, rest, rfl, isOthers⟩
      rw [splitOperands] at cut
      split_ifs at cut with opens overflows closes underflows isCut
      · cases cut
      · obtain ⟨tail, after, rfl, scanned, ends⟩ := longer cut
        refine ⟨after, ?_, grown ends⟩
        rw [scan, if_pos opens, if_neg overflows, scanned]
      · cases cut
      · obtain ⟨tail, after, rfl, scanned, ends⟩ := longer cut
        refine ⟨after, ?_, grown ends⟩
        rw [scan, if_neg opens, if_pos closes, if_neg underflows, scanned]
      · cases cut
        exact ⟨0, by rw [isCut.2]; rfl, .inr ⟨rfl, text, by rw [isCut.1]; rfl, by rw [isCut.2]⟩⟩
      · obtain ⟨tail, after, rfl, scanned, ends⟩ := longer cut
        refine ⟨after, ?_, grown ends⟩
        rw [scan, if_neg opens, if_neg closes, if_neg isCut, scanned]

/-- Parts that a list of operands can have. -/
def Separable : List (List Char) → Prop
  | [] => True
  | [last] => (scan 0 last).isSome
  | part :: next :: rest => scan 0 part = some 0 ∧ Separable (next :: rest)

theorem separable_of_splitOperands {text : List Char} {parts : List (List Char)}
    (cut : splitOperands 0 text = parts.map .ok) : Separable parts := by
  induction parts generalizing text with
  | nil => trivial
  | cons part parts ih =>
      obtain ⟨after, scanned, ends⟩ := splitOperands_eq_cons cut
      cases parts with
      | nil => exact Option.isSome_iff_exists.mpr ⟨after, scanned⟩
      | cons next parts =>
          rcases ends with ⟨-, isLast⟩ | ⟨rfl, rest, -, isOthers⟩
          · cases isLast
          · exact ⟨scanned, ih isOthers.symm⟩

/-- Texts that replace separable parts. -/
theorem Separable.replace {parts texts : List (List Char)} (separable : Separable parts)
    (replaced : List.Forall₂ (fun part text => scan 0 text = some 0 ∨ text = trim part)
      parts texts) : Separable texts := by
  induction replaced with
  | nil => trivial
  | @cons part text parts texts isText others ih =>
      cases others with
      | nil =>
          rcases isText with closed | rfl
          · exact Option.isSome_iff_exists.mpr ⟨0, closed⟩
          · obtain ⟨after, scanned⟩ := Option.isSome_iff_exists.mp separable
            exact Option.isSome_iff_exists.mpr ⟨after, scan_trim scanned⟩
      | cons isNext others =>
          refine ⟨?_, ih separable.2⟩
          rcases isText with closed | rfl
          · exact closed
          · exact scan_trim separable.1

/-- Separable parts are cut where they were written together. -/
theorem Separable.splitOperands {part : List Char} {parts : List (List Char)}
    (separable : Separable (part :: parts)) :
    Asm.splitOperands 0 (List.intercalate ", ".toList (part :: parts)) =
      .ok part :: parts.map (.ok <| ' ' :: ·) := by
  induction parts generalizing part with
  | nil =>
      obtain ⟨after, scanned⟩ := Option.isSome_iff_exists.mp separable
      rw [List.intercalate_singleton, ← List.append_nil part, splitOperands_of_scan scanned]
      simp [Asm.splitOperands, Except.map]
  | cons next parts ih =>
      have isSplit : Asm.splitOperands 0
          (", ".toList ++ List.intercalate ", ".toList (next :: parts)) =
            .ok [] :: (Asm.splitOperands 0
              (List.intercalate ", ".toList (next :: parts))).modifyHead (·.map (' ' :: ·)) := by
        simp [Asm.splitOperands]
      rw [List.intercalate_cons_cons, List.append_assoc, splitOperands_of_scan separable.1, isSplit,
        ih separable.2]
      simp [Except.map]

/-! ### Trimmed parts -/

/-- The parts of a list of operands without the white space around them. -/
def trimmedParts (text : List Char) : List (Attempt (List Char)) :=
  (splitOperands 0 text).map (·.map trim)

theorem parseOperands_eq_ok_iff {text : List Char} {operands : List Operand} :
    parseOperands text = .ok operands ↔ List.Forall₂
      (fun part operand => part >>= parseOperand = .ok operand) (trimmedParts text) operands := by
  rw [parseOperands, mapM_eq_ok_iff, trimmedParts, List.forall₂_map_left_iff]
  have same : ∀ part : Attempt (List Char),
      part.map trim >>= parseOperand = (do parseOperand (trim (← part))) := by
    intro part
    cases part <;> rfl
  simp only [same]

theorem Separable.trimmedParts {parts : List (List Char)} (separable : Separable parts)
    (full : parts ≠ []) (areSolid : ∀ part ∈ parts, Solid part) :
    Asm.trimmedParts (List.intercalate ", ".toList parts) = parts.map .ok := by
  cases parts with
  | nil => exact absurd rfl full
  | cons part parts =>
      rw [Asm.trimmedParts, separable.splitOperands, List.map_cons, List.map_map, List.map_cons,
        Except.map, Text.trim_of_solid (areSolid part List.mem_cons_self)]
      refine congrArg _ (List.map_congr_left fun other otherMem => ?_)
      have trimmed : trim ([' '] ++ other) = other :=
        Text.trim_indent (areSolid other (List.mem_cons_of_mem _ otherMem)) (by decide)
      exact congrArg Except.ok trimmed

/-- White space after the list belongs to its last part. -/
theorem map_rdropWhile_splitOperands {back : List Char}
    (isBack : ∀ c ∈ back, isWhitespace c = true) (depth : Int) (text : List Char) :
    (splitOperands depth (text ++ back)).map (·.map (·.rdropWhile isWhitespace)) =
      (splitOperands depth text).map (·.map (·.rdropWhile isWhitespace)) := by
  have longer : ∀ (c : Char) {parts others : List (Attempt (List Char))},
      parts.map (·.map (·.rdropWhile isWhitespace)) =
        others.map (·.map (·.rdropWhile isWhitespace)) →
      (parts.modifyHead (·.map (c :: ·))).map (·.map (·.rdropWhile isWhitespace)) =
        (others.modifyHead (·.map (c :: ·))).map (·.map (·.rdropWhile isWhitespace)) := by
    intro c parts others same
    cases parts with
    | nil =>
        cases others with
        | nil => rfl
        | cons other others => cases same
    | cons part parts =>
        cases others with
        | nil => cases same
        | cons other others =>
            obtain ⟨isHead, isTail⟩ := List.cons.inj same
            rw [List.modifyHead_cons, List.modifyHead_cons, List.map_cons, List.map_cons, isTail]
            congr 1
            cases part with
            | error refusal =>
                cases other with
                | error otherRefusal => exact isHead
                | ok text => cases isHead
            | ok text =>
                cases other with
                | error refusal => cases isHead
                | ok otherText =>
                    exact congrArg Except.ok (Text.rdropWhile_cons c (Except.ok.inj isHead))
  induction text generalizing depth with
  | nil =>
      have isRest := splitOperands_of_scan (scan_blank depth isBack) []
      rw [List.append_nil] at isRest
      rw [List.nil_append, isRest]
      simp [splitOperands, Except.map, List.rdropWhile_eq_nil_iff.mpr isBack]
  | cons c text ih =>
      rw [List.cons_append, splitOperands, splitOperands]
      split_ifs
      · rfl
      · exact longer c (ih _)
      · rfl
      · exact longer c (ih _)
      · rw [List.map_cons, List.map_cons, ih]
      · exact longer c (ih _)

/-- Trimming the list does not change its parts. -/
theorem trimmedParts_trim (text : List Char) : trimmedParts (trim text) = trimmedParts text := by
  obtain ⟨front, back, isText, isFront, isBack⟩ := Text.exists_trim text
  have isLast : ∀ list : List (Attempt (List Char)), list.map (·.map trim) =
      (list.map (·.map (·.rdropWhile isWhitespace))).map (·.map trim) := by
    intro list
    rw [List.map_map]
    refine List.map_congr_left fun part _ => ?_
    cases part with
    | error refusal => rfl
    | ok text => exact congrArg Except.ok (Text.trim_rdropWhile text).symm
  conv_rhs => rw [trimmedParts, isText, splitOperands_of_scan (scan_blank 0 isFront)]
  have isFirst : ∀ list : List (Attempt (List Char)),
      (list.modifyHead (·.map (front ++ ·))).map (·.map trim) = list.map (·.map trim) := by
    intro list
    cases list with
    | nil => rfl
    | cons part list =>
        cases part with
        | error refusal => rfl
        | ok text =>
            simp [Except.map, Text.trim_indented text isFront]
  rw [isFirst, isLast, map_rdropWhile_splitOperands isBack, ← isLast, trimmedParts]

end VliwCompiler.Asm
