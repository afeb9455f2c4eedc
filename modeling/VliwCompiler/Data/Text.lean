import Mathlib.Data.BitVec
import Mathlib.Data.List.DropRight

/-!
# Texts as lists of characters

Trimming, cutting and reading numbers, with the conventions of Rust's string
functions.  `strip_prefix`, `strip_suffix` and `split_once` are
`List.dropPrefix?`, `List.dropSuffix?` and `List.dropInfix?`.
-/

namespace VliwCompiler.Text

/-- A property of the characters of a text is decided character by character. -/
instance decidableForallMem (text : List Char) (p : Char → Prop) [DecidablePred p] :
    Decidable (∀ c ∈ text, p c) :=
  List.decidableBAll p text

instance decidableForallOption (c? : Option Char) (p : Char → Prop) [DecidablePred p] :
    Decidable (∀ c ∈ c?, p c) :=
  c?.decidableForallMem

/-! ### White space -/

/-- Unicode white space. -/
def isWhitespace (c : Char) : Bool :=
  let n := c.toNat
  (9 ≤ n && n ≤ 13) || n = 0x20 || n = 0x85 || n = 0xA0 || n = 0x1680 ||
    (0x2000 ≤ n && n ≤ 0x200A) || n = 0x2028 || n = 0x2029 || n = 0x202F || n = 0x205F || n = 0x3000

/-- The text without the white space around it. -/
def trim (text : List Char) : List Char :=
  (text.dropWhile isWhitespace).rdropWhile isWhitespace

/-- The text neither starts nor ends with white space. -/
structure Solid (text : List Char) : Prop where
  head : ∀ c ∈ text.head?, isWhitespace c = false
  last : ∀ c ∈ text.getLast?, isWhitespace c = false

theorem Solid.of_forall {text : List Char} (black : ∀ c ∈ text, isWhitespace c = false) :
    Solid text where
  head c isHead := black c (List.mem_of_mem_head? isHead)
  last c isLast := black c (List.mem_of_mem_getLast? isLast)

/-- A text is solid when its first and last part are. -/
theorem Solid.append {first last : List Char} (isFirst : Solid first) (middle : List Char)
    (isLast : Solid last) (firstFull : first ≠ []) (lastFull : last ≠ []) :
    Solid (first ++ (middle ++ last)) where
  head := by
    rw [List.head?_append_of_ne_nil _ firstFull]
    exact isFirst.head
  last := by
    rw [← List.append_assoc, List.getLast?_append_of_ne_nil _ lastFull]
    exact isLast.last

theorem dropWhile_of_solid {text : List Char} (solid : Solid text) :
    text.dropWhile isWhitespace = text := by
  cases text with
  | nil => rfl
  | cons c rest =>
      refine List.dropWhile_cons_of_neg ?_
      simp [solid.head c rfl]

theorem rdropWhile_of_solid {text : List Char} (solid : Solid text) :
    text.rdropWhile isWhitespace = text := by
  rw [List.rdropWhile_eq_self_iff]
  intro full
  simp [solid.last _ (List.getLast_mem_getLast? full)]

theorem trim_of_solid {text : List Char} (solid : Solid text) : trim text = text := by
  rw [trim, dropWhile_of_solid solid, rdropWhile_of_solid solid]

/-- Trimming removes white space around a solid text. -/
theorem trim_append {front text back : List Char} (solid : Solid text)
    (isFront : ∀ c ∈ front, isWhitespace c = true) (isBack : ∀ c ∈ back, isWhitespace c = true) :
    trim (front ++ (text ++ back)) = text := by
  rw [trim, List.dropWhile_append_of_pos isFront]
  by_cases full : text = []
  · rw [full, List.nil_append, List.dropWhile_eq_nil_iff.mpr isBack]
    rfl
  · have isDropped : (text ++ back).dropWhile isWhitespace = text ++ back := by
      cases text with
      | nil => exact absurd rfl full
      | cons c rest =>
          refine List.dropWhile_cons_of_neg ?_
          simp [solid.head c rfl]
    have isBackward : ∀ c ∈ back.reverse, isWhitespace c = true := by simpa using isBack
    rw [isDropped, List.rdropWhile, List.reverse_append, List.dropWhile_append_of_pos isBackward]
    exact rdropWhile_of_solid solid

theorem trim_indent {front text : List Char} (solid : Solid text)
    (isFront : ∀ c ∈ front, isWhitespace c = true) : trim (front ++ text) = text := by
  have trimmed : trim (front ++ (text ++ [])) = text := trim_append solid isFront (by simp)
  rwa [List.append_nil] at trimmed

theorem trim_padded {text back : List Char} (solid : Solid text)
    (isBack : ∀ c ∈ back, isWhitespace c = true) : trim (text ++ back) = text := by
  have trimmed : trim ([] ++ (text ++ back)) = text := trim_append solid (by simp) isBack
  rwa [List.nil_append] at trimmed

/-- The text without the white space around it, and that white space. -/
theorem exists_trim (text : List Char) :
    ∃ front back, text = front ++ (trim text ++ back) ∧
      (∀ c ∈ front, isWhitespace c = true) ∧ ∀ c ∈ back, isWhitespace c = true := by
  refine ⟨text.takeWhile isWhitespace, (text.dropWhile isWhitespace).rtakeWhile isWhitespace,
    ?_, fun c cMem => List.mem_takeWhile_imp cMem, fun c cMem => List.mem_rtakeWhile_imp cMem⟩
  rw [trim, List.rdropWhile_append_rtakeWhile, List.takeWhile_append_dropWhile]

theorem solid_trim (text : List Char) : Solid (trim text) where
  head c isHead := by
    obtain ⟨back, isFront⟩ := List.rdropWhile_prefix isWhitespace (text.dropWhile isWhitespace)
    have sameHead : (text.dropWhile isWhitespace).head? = some c := by
      rw [← isFront, List.head?_append]
      exact Option.or_of_isSome (Option.isSome_of_mem isHead) |>.trans isHead
    have stops := List.head?_dropWhile_not isWhitespace text
    rw [sameHead] at stops
    simpa using stops
  last c isLast := by
    have full : trim text ≠ [] := by
      intro isEmpty
      rw [isEmpty] at isLast
      cases isLast
    have stops := List.rdropWhile_last_not isWhitespace (text.dropWhile isWhitespace) full
    have isLast' := List.getLast?_eq_some_getLast full
    rw [Option.mem_def.mp isLast] at isLast'
    rw [Option.some.inj isLast']
    exact Bool.eq_false_iff.mpr stops

theorem trim_surrounded {front back : List Char} (text : List Char)
    (isFront : ∀ c ∈ front, isWhitespace c = true) (isBack : ∀ c ∈ back, isWhitespace c = true) :
    trim (front ++ (text ++ back)) = trim text := by
  obtain ⟨before, after, isText, isBefore, isAfter⟩ := exists_trim text
  have isWhole : front ++ (text ++ back) = (front ++ before) ++ (trim text ++ (after ++ back)) := by
    conv_lhs => rw [isText]
    simp
  rw [isWhole]
  refine trim_append (solid_trim text) (fun c cMem => ?_) (fun c cMem => ?_)
  · exact (List.mem_append.mp cMem).elim (isFront c) (isBefore c)
  · exact (List.mem_append.mp cMem).elim (isAfter c) (isBack c)

theorem trim_indented {front : List Char} (text : List Char)
    (isFront : ∀ c ∈ front, isWhitespace c = true) : trim (front ++ text) = trim text := by
  rw [trim, trim, List.dropWhile_append_of_pos isFront]

theorem mem_of_mem_trim {text : List Char} {c : Char} (cMem : c ∈ trim text) : c ∈ text := by
  obtain ⟨front, back, isText, -, -⟩ := exists_trim text
  rw [isText]
  simp [cMem]

section

variable {c : Char} (black : isWhitespace c = false) (first second : List Char)

include black

theorem dropWhile_append_cons :
    (first ++ c :: second).dropWhile isWhitespace =
      first.dropWhile isWhitespace ++ c :: second := by
  rw [List.dropWhile_append]
  split
  · rename_i isEmpty
    rw [List.isEmpty_iff.mp isEmpty, List.nil_append]
    exact List.dropWhile_cons_of_neg (by simp [black])
  · rfl

theorem rdropWhile_append_cons :
    (first ++ c :: second).rdropWhile isWhitespace =
      first ++ c :: second.rdropWhile isWhitespace := by
  rw [List.rdropWhile, List.reverse_append, List.reverse_cons, List.append_assoc,
    List.singleton_append, dropWhile_append_cons black, List.reverse_append, List.rdropWhile]
  simp

/-- Trimming around a character that stays. -/
theorem trim_append_cons :
    trim (first ++ c :: second) =
      first.dropWhile isWhitespace ++ c :: second.rdropWhile isWhitespace := by
  rw [trim, dropWhile_append_cons black, rdropWhile_append_cons black]

end

theorem rdropWhile_cons (c : Char) {first second : List Char}
    (same : first.rdropWhile isWhitespace = second.rdropWhile isWhitespace) :
    (c :: first).rdropWhile isWhitespace = (c :: second).rdropWhile isWhitespace := by
  have isCons : ∀ text : List Char, (c :: text).rdropWhile isWhitespace =
      if text.rdropWhile isWhitespace = [] then [c].rdropWhile isWhitespace
      else c :: text.rdropWhile isWhitespace := by
    intro text
    rw [List.rdropWhile, List.reverse_cons, List.dropWhile_append]
    split_ifs with isEmpty isNil notNil
    · rfl
    · exact absurd (by rw [List.rdropWhile, List.isEmpty_iff.mp isEmpty]; rfl) isNil
    · rw [List.rdropWhile, List.reverse_eq_nil_iff] at notNil
      exact absurd (List.isEmpty_iff.mpr notNil) isEmpty
    · rw [List.reverse_append]
      rfl
  rw [isCons first, isCons second, same]

theorem trim_dropWhile (text : List Char) : trim (text.dropWhile isWhitespace) = trim text := by
  rw [trim, trim, List.dropWhile_idempotent]

theorem trim_rdropWhile (text : List Char) : trim (text.rdropWhile isWhitespace) = trim text := by
  obtain ⟨front, back, isText, isFront, isBack⟩ := exists_trim text
  have isBackward : ∀ c ∈ back.reverse, isWhitespace c = true := by simpa using isBack
  have dropped : text.rdropWhile isWhitespace = (front ++ trim text).rdropWhile isWhitespace := by
    conv_lhs => rw [isText]
    rw [List.rdropWhile, ← List.append_assoc, List.reverse_append,
      List.dropWhile_append_of_pos isBackward]
    rfl
  by_cases isEmpty : trim text = []
  · rw [dropped, isEmpty, List.append_nil, List.rdropWhile_eq_nil_iff.mpr isFront]
    rfl
  · have kept : (front ++ trim text).rdropWhile isWhitespace = front ++ trim text := by
      rw [List.rdropWhile_eq_self_iff]
      intro full
      rw [List.getLast_append_of_ne_nil _ isEmpty]
      simp [(solid_trim text).last _ (List.getLast_mem_getLast? isEmpty)]
    rw [dropped, kept, trim_indent (solid_trim text) isFront]

/-! ### Lines -/

/-- The lines of a text; `current` holds the characters of the present line, last
first. -/
def linesFrom : List Char → List Char → List (List Char)
  | [], [] => []
  | current, [] => [current.reverse]
  | current, '\n' :: rest =>
      (match current with
        | '\r' :: body => body.reverse
        | _ => current.reverse) :: linesFrom [] rest
  | current, c :: rest => linesFrom (c :: current) rest

/-- The lines of a text without their line ends. -/
def lines (text : List Char) : List (List Char) := linesFrom [] text

/-- A text on one line. -/
structure IsLine (text : List Char) : Prop where
  noFeed : '\n' ∉ text
  noReturn : '\r' ∉ text

theorem IsLine.append {first second : List Char} (isFirst : IsLine first)
    (isSecond : IsLine second) : IsLine (first ++ second) where
  noFeed := by
    rw [List.mem_append, not_or]
    exact ⟨isFirst.noFeed, isSecond.noFeed⟩
  noReturn := by
    rw [List.mem_append, not_or]
    exact ⟨isFirst.noReturn, isSecond.noReturn⟩

theorem IsLine.of_forall {text : List Char} (black : ∀ c ∈ text, isWhitespace c = false) :
    IsLine text where
  noFeed feedMem := absurd (black _ feedMem) (by decide)
  noReturn returnMem := absurd (black _ returnMem) (by decide)

theorem linesFrom_line {current text : List Char} (rest : List Char) (noFeed : '\n' ∉ text)
    (noReturn : (current.reverse ++ text).getLast? ≠ some '\r') :
    linesFrom current (text ++ '\n' :: rest) = (current.reverse ++ text) :: lines rest := by
  induction text generalizing current with
  | nil =>
      rw [List.append_nil] at noReturn ⊢
      rw [List.nil_append, linesFrom, lines]
      rintro body rfl
      simp at noReturn
  | cons c text ih =>
      have isOther : c ≠ '\n' := by
        rintro rfl
        simp at noFeed
      rw [List.cons_append, linesFrom]
      · rw [ih (fun feedMem => noFeed (List.mem_cons_of_mem _ feedMem)) (by simpa using noReturn)]
        simp
      · exact fun isFeed => isOther isFeed

/-- Reading back lines that were written with line feeds. -/
theorem lines_flatMap_of_noFeed {texts : List (List Char)}
    (areLines : ∀ text ∈ texts, '\n' ∉ text ∧ text.getLast? ≠ some '\r') :
    lines (texts.flatMap (· ++ ['\n'])) = texts := by
  induction texts with
  | nil => rfl
  | cons text texts ih =>
      obtain ⟨noFeed, noReturn⟩ := areLines text List.mem_cons_self
      rw [List.flatMap_cons, List.append_assoc, List.singleton_append, lines,
        linesFrom_line _ noFeed (by simpa using noReturn),
        ih fun other otherMem => areLines other (List.mem_cons_of_mem _ otherMem)]
      rfl

theorem lines_flatMap {texts : List (List Char)} (areLines : ∀ text ∈ texts, IsLine text) :
    lines (texts.flatMap (· ++ ['\n'])) = texts :=
  lines_flatMap_of_noFeed fun text textMem => ⟨(areLines text textMem).noFeed,
    fun isReturn => (areLines text textMem).noReturn (List.mem_of_mem_getLast? isReturn)⟩

/-- A line feed ends the present line. -/
theorem linesFrom_feed (current rest : List Char) :
    ∃ line, linesFrom current ('\n' :: rest) = line :: linesFrom [] rest ∧
      ∀ c ∈ line, c ∈ current := by
  by_cases hasReturn : ∃ body, current = '\r' :: body
  · obtain ⟨body, rfl⟩ := hasReturn
    exact ⟨body.reverse, by rw [linesFrom], by simp +contextual⟩
  · refine ⟨current.reverse, ?_, by simp⟩
    rw [linesFrom]
    exact fun body isReturn => hasReturn ⟨body, isReturn⟩

/-- No line has a line feed. -/
theorem noFeed_of_mem_lines {text line : List Char} (lineMem : line ∈ lines text) :
    '\n' ∉ line := by
  have noFeed : ∀ current, '\n' ∉ current → ∀ line ∈ linesFrom current text, '\n' ∉ line := by
    clear lineMem
    induction text with
    | nil =>
        intro current absent line lineMem
        cases current with
        | nil => cases lineMem
        | cons c current =>
            rw [linesFrom, List.mem_singleton] at lineMem
            · rw [lineMem, List.mem_reverse]
              exact absent
            · simp
    | cons c text ih =>
        intro current absent line lineMem
        by_cases isFeed : c = '\n'
        · subst isFeed
          obtain ⟨first, unfolded, inside⟩ := linesFrom_feed current text
          rw [unfolded] at lineMem
          rcases List.mem_cons.mp lineMem with rfl | inRest
          · exact fun feedMem => absent (inside _ feedMem)
          · exact ih [] (by simp) line inRest
        · rw [linesFrom] at lineMem
          · refine ih (c :: current) ?_ line lineMem
            rw [List.mem_cons, not_or]
            exact ⟨Ne.symm isFeed, absent⟩
          · exact isFeed
  exact noFeed [] (by simp) line lineMem

/-! ### Cutting -/

section

variable {α : Type} [DecidableEq α]

theorem dropPrefix?_append (front text : List α) : (front ++ text).dropPrefix? front = some text :=
  List.dropPrefix?_append_of_beq text (beq_self_eq_true front)

theorem dropSuffix?_append (text back : List α) : (text ++ back).dropSuffix? back = some text :=
  List.dropSuffix?_eq_some_iff.mpr ⟨back, rfl, beq_self_eq_true back⟩

/-- Cutting at a separator that does not start earlier. -/
theorem dropInfix?_append {before : List α} (first : α) (sep after : List α)
    (absent : first ∉ before) :
    (before ++ (first :: sep ++ after)).dropInfix? (first :: sep) = some (before, after) := by
  refine List.dropInfix?_eq_some_iff.mpr ⟨⟨first :: sep, by simp, beq_self_eq_true _⟩, ?_⟩
  rintro front middle back same isSep
  obtain rfl := eq_of_beq isSep
  by_contra shorter
  have isFirst : (before ++ (first :: sep ++ after))[front.length]? = some first := by
    rw [same, List.append_assoc, List.getElem?_append_right (Nat.le_refl _), Nat.sub_self]
    rfl
  rw [List.getElem?_append_left (Nat.lt_of_not_le shorter)] at isFirst
  exact absent (List.mem_of_getElem? isFirst)

/-- A separator with a character that the text lacks does not occur. -/
theorem dropInfix?_eq_none {text sep : List α} {c : α} (inSep : c ∈ sep) (absent : c ∉ text) :
    text.dropInfix? sep = none := by
  rw [Option.eq_none_iff_forall_ne_some]
  rintro ⟨before, after⟩ isCut
  obtain ⟨⟨middle, rfl, isSep⟩, -⟩ := List.dropInfix?_eq_some_iff.mp isCut
  obtain rfl := eq_of_beq isSep
  exact absent (by simp [inSep])

/-- The first place of a separator. -/
theorem dropInfix?_eq_some {text sep before after : List α}
    (isCut : text.dropInfix? sep = some (before, after)) :
    text = before ++ (sep ++ after) ∧
      ∀ front back, text = front ++ (sep ++ back) → before.length ≤ front.length := by
  obtain ⟨⟨middle, isText, isSep⟩, first⟩ := List.dropInfix?_eq_some_iff.mp isCut
  obtain rfl := eq_of_beq isSep
  refine ⟨by rw [isText, List.append_assoc], fun front back isOther => ?_⟩
  exact first front middle back (by rw [isOther, List.append_assoc]) isSep

theorem not_mem_of_dropInfix? {text : List α} {c : α} (noCut : text.dropInfix? [c] = none) :
    c ∉ text := by
  intro cMem
  obtain ⟨before, after, rfl, absent⟩ := List.eq_append_cons_of_mem cMem
  have isCut := dropInfix?_append c [] after absent
  rw [List.cons_append, List.nil_append, noCut] at isCut
  cases isCut

/-- The pieces between separators. -/
theorem inside_of_mem_splitOn {text part : List α} {c : α} (partMem : part ∈ text.splitOn c) :
    (∀ other ∈ part, other ∈ text) ∧ c ∉ part := by
  rw [List.splitOn_eq_splitOnP] at partMem
  induction text generalizing part with
  | nil =>
      rw [List.splitOnP_nil, List.mem_singleton] at partMem
      simp [partMem]
  | cons first text ih =>
      rw [List.splitOnP_cons_eq_if_modifyHead] at partMem
      split_ifs at partMem with isCut
      · rcases List.mem_cons.mp partMem with rfl | inRest
        · simp
        · obtain ⟨inside, absent⟩ := ih inRest
          exact ⟨fun other otherMem => List.mem_cons_of_mem _ (inside other otherMem), absent⟩
      · obtain ⟨head, others, isSplit⟩ :=
          List.exists_cons_of_ne_nil (List.splitOnP_ne_nil (· == c) text)
        have isPart : ∀ other ∈ head :: others, other ∈ text.splitOnP (· == c) := by simp [isSplit]
        rw [isSplit, List.modifyHead_cons] at partMem
        rcases List.mem_cons.mp partMem with rfl | inRest
        · obtain ⟨inside, absent⟩ := ih (isPart head List.mem_cons_self)
          refine ⟨fun other otherMem => ?_, fun cMem => ?_⟩
          · rcases List.mem_cons.mp otherMem with rfl | inHead
            · exact List.mem_cons_self
            · exact List.mem_cons_of_mem _ (inside other inHead)
          · rcases List.mem_cons.mp cMem with rfl | inHead
            · simp at isCut
            · exact absent inHead
        · obtain ⟨inside, absent⟩ := ih (isPart part (List.mem_cons_of_mem _ inRest))
          exact ⟨fun other otherMem => List.mem_cons_of_mem _ (inside other otherMem), absent⟩

/-- Cutting at a place before which the separator does not occur. -/
theorem dropInfix?_of_first {before sep : List α} (after : List α)
    (first : ∀ front back, before ++ sep = front ++ (sep ++ back) →
      before.length ≤ front.length) :
    (before ++ (sep ++ after)).dropInfix? sep = some (before, after) := by
  refine List.dropInfix?_eq_some_iff.mpr ⟨⟨sep, by simp, beq_self_eq_true _⟩, ?_⟩
  rintro front middle back same isSep
  obtain rfl := eq_of_beq isSep
  by_contra shorter
  have isFront : front ++ middle <+: before ++ middle := by
    refine List.prefix_of_prefix_length_le ⟨back, same.symm⟩ ⟨after, by simp⟩ ?_
    simp only [List.length_append]
    omega
  obtain ⟨tail, isTail⟩ := isFront
  exact shorter (first front tail (by rw [← isTail, List.append_assoc]))

end

/-! ### Parts between separators -/

section

variable {sep : Char} (black : isWhitespace sep = false)

include black

theorem map_trim_splitOn_rdropWhile (text : List Char) :
    ((text.rdropWhile isWhitespace).splitOn sep).map trim = (text.splitOn sep).map trim := by
  induction isLength : text.length using Nat.strongRecOn generalizing text with
  | ind length ih =>
      by_cases cut : sep ∈ text
      · obtain ⟨first, second, rfl, absent⟩ := List.eq_append_cons_of_mem cut
        have shorter : second.length < length := by
          rw [← isLength, List.length_append, List.length_cons]
          omega
        rw [rdropWhile_append_cons black, List.splitOn_append_cons_self,
          List.splitOn_append_cons_self, List.map_append, List.map_append, ih _ shorter second rfl]
      · have absent : sep ∉ text.rdropWhile isWhitespace := fun sepMem =>
          cut ((List.rdropWhile_prefix isWhitespace text).subset sepMem)
        rw [List.splitOn_eq_singleton absent, List.splitOn_eq_singleton cut, List.map_singleton,
          List.map_singleton, trim_rdropWhile]

/-- Trimming a list does not change its trimmed parts. -/
theorem map_trim_splitOn_trim (text : List Char) :
    ((trim text).splitOn sep).map trim = (text.splitOn sep).map trim := by
  rw [trim, map_trim_splitOn_rdropWhile black]
  by_cases cut : sep ∈ text
  · obtain ⟨first, second, rfl, absent⟩ := List.eq_append_cons_of_mem cut
    have dropped : sep ∉ first.dropWhile isWhitespace := fun sepMem =>
      absent ((List.dropWhile_suffix isWhitespace).subset sepMem)
    rw [dropWhile_append_cons black, List.splitOn_append_cons_self, List.splitOn_append_cons_self,
      List.map_append, List.map_append, List.splitOn_eq_singleton dropped,
      List.splitOn_eq_singleton absent, List.map_singleton, List.map_singleton, trim_dropWhile]
  · have absent : sep ∉ text.dropWhile isWhitespace := fun sepMem =>
      cut ((List.dropWhile_suffix isWhitespace).subset sepMem)
    rw [List.splitOn_eq_singleton absent, List.splitOn_eq_singleton cut, List.map_singleton,
      List.map_singleton, trim_dropWhile]

end

/-! ### Numbers -/

/-- The value of a digit or letter. -/
def charValue (c : Char) : Option Nat :=
  if '0' ≤ c ∧ c ≤ '9' then some (c.toNat - '0'.toNat)
  else if 'a' ≤ c ∧ c ≤ 'z' then some (c.toNat - 'a'.toNat + 10)
  else if 'A' ≤ c ∧ c ≤ 'Z' then some (c.toNat - 'A'.toNat + 10)
  else none

/-- The value of a digit. -/
def digitValue (radix : Nat) (c : Char) : Option Nat := (charValue c).filter (· < radix)

/-- The value of a sequence of digits after the digits of `value`. -/
def digitsValue (radix : Nat) : Nat → List Char → Option Nat
  | value, [] => some value
  | value, c :: rest => do
      let digit ← digitValue radix c
      digitsValue radix (value * radix + digit) rest

/-- The value of a nonempty sequence of digits. -/
def natValue (radix : Nat) (digits : List Char) : Option Nat :=
  if digits = [] then none else digitsValue radix 0 digits

/-- An unsigned number below `bound`, with an optional plus sign. -/
def parseUnsigned (radix bound : Nat) (text : List Char) : Option Nat :=
  (natValue radix (match text with
    | '+' :: digits => digits
    | _ => text)).filter (· < bound)

/-- A signed 64-bit number. -/
def parseSigned (radix : Nat) : List Char → Option (BitVec 64)
  | '-' :: digits => do
      let value ← (natValue radix digits).filter (· ≤ 2 ^ 63)
      return BitVec.ofInt 64 (-value)
  | text => do
      let value ← parseUnsigned radix (2 ^ 63) text
      return BitVec.ofNat 64 value

theorem digitValue_digitChar {radix digit : Nat} (inside : digit < radix) (small : radix ≤ 16) :
    digitValue radix digit.digitChar = some digit := by
  have values : ∀ digit < 16, charValue digit.digitChar = some digit := by decide
  rw [digitValue, values digit (by omega)]
  simp [inside]

theorem digitsValue_append {radix value middle : Nat} {first second : List Char}
    (isFirst : digitsValue radix value first = some middle) :
    digitsValue radix value (first ++ second) = digitsValue radix middle second := by
  induction first generalizing value with
  | nil =>
      cases isFirst
      rfl
  | cons c first ih =>
      obtain ⟨digit, isDigit, isFirst⟩ := Option.bind_eq_some_iff.mp isFirst
      rw [List.cons_append, digitsValue, isDigit]
      exact ih isFirst

/-- Reading back the digits of a number. -/
theorem digitsValue_toDigits {radix : Nat} (isBase : 1 < radix) (small : radix ≤ 16) (n : Nat) :
    digitsValue radix 0 (Nat.toDigits radix n) = some n := by
  induction n using Nat.strongRecOn with
  | ind n ih =>
      rw [Nat.toDigits_eq_if isBase]
      split
      · rename_i isDigit
        rw [digitsValue, digitValue_digitChar isDigit small]
        simp [digitsValue]
      · rename_i isLarge
        have smaller : n / radix < n := Nat.div_lt_self (by omega) isBase
        have isDigit : n % radix < radix := Nat.mod_lt n (by omega)
        rw [digitsValue_append (ih _ smaller), digitsValue, digitValue_digitChar isDigit small]
        simp [digitsValue, Nat.div_add_mod']

theorem natValue_toDigits {radix : Nat} (isBase : 1 < radix) (small : radix ≤ 16) (n : Nat) :
    natValue radix (Nat.toDigits radix n) = some n := by
  rw [natValue, if_neg Nat.toDigits_ne_nil, digitsValue_toDigits isBase small]

theorem exists_digit_of_mem_toDigits {radix n : Nat} (isBase : 1 < radix) {c : Char}
    (cMem : c ∈ Nat.toDigits radix n) : ∃ digit < radix, c = digit.digitChar := by
  induction n using Nat.strongRecOn with
  | ind n ih =>
      rw [Nat.toDigits_eq_if isBase] at cMem
      split at cMem
      · rename_i isDigit
        exact ⟨n, isDigit, List.mem_singleton.mp cMem⟩
      · rename_i isLarge
        rcases List.mem_append.mp cMem with inFront | isLast
        · exact ih _ (Nat.div_lt_self (by omega) isBase) inFront
        · exact ⟨_, Nat.mod_lt n (by omega), List.mem_singleton.mp isLast⟩

/-- No digit is one of the given characters. -/
theorem not_mem_toDigits {radix n : Nat} (isBase : 1 < radix) (small : radix ≤ 16) {c : Char}
    (noDigit : ∀ digit < 16, c ≠ digit.digitChar) : c ∉ Nat.toDigits radix n := by
  intro cMem
  obtain ⟨digit, inside, isDigit⟩ := exists_digit_of_mem_toDigits isBase cMem
  exact noDigit digit (by omega) isDigit

theorem solid_toDigits {radix : Nat} (isBase : 1 < radix) (small : radix ≤ 16) (n : Nat) :
    Solid (Nat.toDigits radix n) := by
  refine Solid.of_forall fun c cMem => ?_
  obtain ⟨digit, inside, rfl⟩ := exists_digit_of_mem_toDigits isBase cMem
  have black : ∀ digit < 16, isWhitespace digit.digitChar = false := by decide
  exact black digit (by omega)

section

variable {radix n : Nat} (isBase : 1 < radix) (small : radix ≤ 16)

include isBase small

theorem parseUnsigned_toDigits_eq (bound : Nat) :
    parseUnsigned radix bound (Nat.toDigits radix n) = if n < bound then some n else none := by
  unfold parseUnsigned
  split
  · rename_i digits isDigits
    have plusMem : '+' ∈ Nat.toDigits radix n := isDigits ▸ List.mem_cons_self
    exact absurd plusMem (not_mem_toDigits isBase small (by decide))
  · rw [natValue_toDigits isBase small, Option.filter_some]
    simp only [decide_eq_true_eq]

theorem parseUnsigned_toDigits {bound : Nat} (inside : n < bound) :
    parseUnsigned radix bound (Nat.toDigits radix n) = some n := by
  rw [parseUnsigned_toDigits_eq isBase small, if_pos inside]

theorem parseSigned_toDigits_eq :
    parseSigned radix (Nat.toDigits radix n) =
      if n < 2 ^ 63 then some (BitVec.ofNat 64 n) else none := by
  unfold parseSigned
  split
  · rename_i digits isDigits
    have minusMem : '-' ∈ Nat.toDigits radix n := isDigits ▸ List.mem_cons_self
    exact absurd minusMem (not_mem_toDigits isBase small (by decide))
  · rw [parseUnsigned_toDigits_eq isBase small]
    split <;> rfl

theorem parseSigned_toDigits (inside : n < 2 ^ 63) :
    parseSigned radix (Nat.toDigits radix n) = some (BitVec.ofNat 64 n) := by
  rw [parseSigned_toDigits_eq isBase small, if_pos inside]

end

theorem parseSigned_neg {radix n : Nat} (isBase : 1 < radix) (small : radix ≤ 16)
    (inside : n ≤ 2 ^ 63) :
    parseSigned radix ('-' :: Nat.toDigits radix n) = some (BitVec.ofInt 64 (-n)) := by
  rw [parseSigned, natValue_toDigits isBase small, Option.filter_some,
    if_pos (decide_eq_true inside)]
  rfl

end VliwCompiler.Text
