import VliwCompiler.Asm.Emit
import VliwCompiler.Asm.Splitting
import VliwCompiler.Data.MapM

/-!
# Reading back operands

The text of an operand is read back as the operand, and the text of a list of
operands, cut at its commas outside brackets, as the list.
-/

namespace VliwCompiler.Asm

open Text (trim parseUnsigned parseSigned isWhitespace Solid IsLine)

/-! ### Names -/

/-- Letters, digits, `_` and `.`, among others: all characters that have no
meaning in the text format. -/
def isNameChar (c : Char) : Bool :=
  !isWhitespace c &&
    c ∉ ['\x7b', '\x7d', '[', ']', ':', ',', '?', '=', '+', '-']

/-- A nonempty string of name characters. -/
structure IsName (name : String) : Prop where
  full : name.toList ≠ []
  chars : ∀ c ∈ name.toList, isNameChar c = true

instance (name : String) : Decidable (IsName name) :=
  decidable_of_iff (name.toList ≠ [] ∧ ∀ c ∈ name.toList, isNameChar c = true)
    ⟨fun both => ⟨both.1, both.2⟩, fun isName => ⟨isName.full, isName.chars⟩⟩

section

variable {name : String}

theorem IsName.black (isName : IsName name) : ∀ c ∈ name.toList, isWhitespace c = false := by
  intro c cMem
  have isChar := isName.chars c cMem
  rw [isNameChar, Bool.and_eq_true, Bool.not_eq_true'] at isChar
  exact isChar.1

theorem IsName.solid (isName : IsName name) : Solid name.toList := Solid.of_forall isName.black

/-- A character with a meaning is in no name. -/
theorem IsName.not_mem (isName : IsName name) {c : Char} (meaning : isNameChar c = false) :
    c ∉ name.toList := by
  intro cMem
  rw [isName.chars c cMem] at meaning
  cases meaning

end

/-! ### Operands -/

/-- The operand is read back from its text. -/
def Operand.Readable : Operand → Prop
  | .reg _ | .pred _ | .imm _ => True
  | .memAddr _ offset => offset ≠ BitVec.intMin 64
  | .label name => IsName name ∧ (∀ c ∈ name.toList.head?, c.isDigit = false) ∧
      tryParseReg name.toList = none ∧ tryParsePred name.toList = none

instance (operand : Operand) : Decidable operand.Readable :=
  match operand with
  | .reg _ | .pred _ | .imm _ => .isTrue trivial
  | .memAddr _ offset => inferInstanceAs (Decidable (offset ≠ BitVec.intMin 64))
  | .label name => inferInstanceAs (Decidable (IsName name ∧
      (∀ c ∈ name.toList.head?, c.isDigit = false) ∧
      tryParseReg name.toList = none ∧ tryParsePred name.toList = none))

theorem toList_toString_uInt8 (n : UInt8) : (toString n).toList = Nat.toDigits 10 n.toNat :=
  Nat.toList_repr

theorem parseReg_toDigits (n : UInt8) :
    (parseUnsigned 10 (2 ^ 8) (Nat.toDigits 10 n.toNat)).map UInt8.ofNat = some n := by
  rw [Text.parseUnsigned_toDigits (by decide) (by decide) n.toNat_lt]
  simp

theorem tryParseReg_cons (n : UInt8) :
    tryParseReg ('r' :: Nat.toDigits 10 n.toNat) = some n := by
  have isReg := parseReg_toDigits n
  rw [tryParseReg]
  simpa [List.dropPrefix?, Option.map_eq_bind] using isReg

theorem tryParsePred_cons (n : UInt8) :
    tryParsePred ('p' :: Nat.toDigits 10 n.toNat) = some n := by
  have isPred := parseReg_toDigits n
  rw [tryParsePred]
  simpa [List.dropPrefix?, Option.map_eq_bind] using isPred

theorem tryParseReg_of_head {text : List Char} (noReg : text.head? ≠ some 'r') :
    tryParseReg text = none := by
  cases text with
  | nil => rfl
  | cons c rest =>
      have isOther : c ≠ 'r' := fun isReg => noReg (congrArg some isReg)
      simp [tryParseReg, List.dropPrefix?, isOther]

theorem tryParsePred_of_head {text : List Char} (noPred : text.head? ≠ some 'p') :
    tryParsePred text = none := by
  cases text with
  | nil => rfl
  | cons c rest =>
      have isOther : c ≠ 'p' := fun isPred => noPred (congrArg some isPred)
      simp [tryParsePred, List.dropPrefix?, isOther]

theorem toList_hex (n : Nat) : (hex n).toList = "0x".toList ++ Nat.toDigits 16 n := by
  simp [hex]

theorem parseHexOrDec_hex_eq (n : Nat) :
    parseHexOrDec (hex n).toList = if n < 2 ^ 63 then some (BitVec.ofNat 64 n) else none := by
  rw [toList_hex, parseHexOrDec, Text.dropPrefix?_append]
  exact Text.parseSigned_toDigits_eq (by decide) (by decide)

theorem parseHexOrDec_hex {n : Nat} (inside : n < 2 ^ 63) :
    parseHexOrDec (hex n).toList = some (BitVec.ofNat 64 n) := by
  rw [parseHexOrDec_hex_eq, if_pos inside]

theorem solid_hex (n : Nat) : Solid (hex n).toList := by
  have isDigits : Solid (Nat.toDigits 16 n) := Text.solid_toDigits (by decide) (by decide) n
  have isMarker : Solid "0x".toList := .of_forall (by decide)
  rw [toList_hex]
  exact isMarker.append [] isDigits (by decide) Nat.toDigits_ne_nil

/-- A character that is no digit is not in a hexadecimal number. -/
theorem not_mem_hex {c : Char} (noMarker : c ∉ "0x".toList)
    (noDigit : ∀ digit < 16, c ≠ digit.digitChar) (n : Nat) : c ∉ (hex n).toList := by
  rw [toList_hex, List.mem_append, not_or]
  exact ⟨noMarker, Text.not_mem_toDigits (by decide) (by decide) noDigit⟩

theorem parseOperand_bracket (inner : List Char) :
    parseOperand ('[' :: (inner ++ [']'])) = parseMemAddr inner := by
  rw [parseOperand, List.head?_cons, if_pos rfl]
  have isInner : (List.dropPrefix? ('[' :: (inner ++ [']'])) ['[']).bind (·.dropSuffix? [']']) =
      some inner := by
    rw [← List.singleton_append, Text.dropPrefix?_append]
    exact Text.dropSuffix?_append inner [']']
  rw [isInner]
  rfl

section

variable (base : UInt8)

/-- The text of a base register. -/
def baseText : List Char := 'r' :: Nat.toDigits 10 base.toNat

theorem not_mem_baseText {c : Char} (noReg : c ≠ 'r')
    (noDigit : ∀ digit < 16, c ≠ digit.digitChar) : c ∉ baseText base := by
  rw [baseText, List.mem_cons, not_or]
  exact ⟨noReg, Text.not_mem_toDigits (by decide) (by decide) noDigit⟩

theorem solid_baseText : Solid (baseText base) := by
  refine Solid.of_forall fun c cMem => ?_
  rcases List.mem_cons.mp cMem with rfl | isDigit
  · decide
  · obtain ⟨digit, inside, rfl⟩ := Text.exists_digit_of_mem_toDigits (by decide) isDigit
    have black : ∀ digit < 10, isWhitespace digit.digitChar = false := by decide
    exact black digit inside

theorem attempt_baseText : attempt (tryParseReg (trim (baseText base))) = .ok base := by
  rw [Text.trim_of_solid (solid_baseText base), baseText, tryParseReg_cons]
  rfl

theorem parseMemAddr_base : parseMemAddr (baseText base) = .ok (.memAddr base 0) := by
  have noPlus : (baseText base).dropInfix? " + ".toList = none :=
    Text.dropInfix?_eq_none (c := '+') (by decide)
      (not_mem_baseText base (by decide) (by decide))
  have noMinus : (baseText base).dropInfix? " - ".toList = none :=
    Text.dropInfix?_eq_none (c := '-') (by decide)
      (not_mem_baseText base (by decide) (by decide))
  rw [parseMemAddr, noPlus]
  dsimp only
  rw [noMinus]
  dsimp only
  rw [attempt_baseText]
  rfl

theorem parseMemAddr_plus {n : Nat} (inside : n < 2 ^ 63) :
    parseMemAddr (baseText base ++ (" + ".toList ++ (hex n).toList)) =
      .ok (.memAddr base (BitVec.ofNat 64 n)) := by
  have isCut : (baseText base ++ (" + ".toList ++ (hex n).toList)).dropInfix? " + ".toList =
      some (baseText base, (hex n).toList) :=
    Text.dropInfix?_append ' ' _ _ (not_mem_baseText base (by decide) (by decide))
  rw [parseMemAddr, isCut]
  dsimp only
  rw [attempt_baseText, Text.trim_of_solid (solid_hex n), parseHexOrDec_hex inside]
  rfl

theorem parseMemAddr_minus {n : Nat} (inside : n < 2 ^ 63) :
    parseMemAddr (baseText base ++ (" - ".toList ++ (hex n).toList)) =
      .ok (.memAddr base (-BitVec.ofNat 64 n)) := by
  have noPlus : (baseText base ++ (" - ".toList ++ (hex n).toList)).dropInfix? " + ".toList =
      none := by
    refine Text.dropInfix?_eq_none (c := '+') (by decide) ?_
    rw [List.mem_append, List.mem_append, not_or, not_or]
    exact ⟨not_mem_baseText base (by decide) (by decide), by decide,
      not_mem_hex (by decide) (by decide) n⟩
  have isCut : (baseText base ++ (" - ".toList ++ (hex n).toList)).dropInfix? " - ".toList =
      some (baseText base, (hex n).toList) :=
    Text.dropInfix?_append ' ' _ _ (not_mem_baseText base (by decide) (by decide))
  have isNeg : checkedNeg (BitVec.ofNat 64 n) = .ok (-BitVec.ofNat 64 n) := by
    rw [checkedNeg, if_neg]
    intro isMin
    have sameNat := congrArg BitVec.toNat isMin
    rw [BitVec.toNat_ofNat, BitVec.toNat_intMin, Nat.mod_eq_of_lt (by omega)] at sameNat
    omega
  rw [parseMemAddr, noPlus]
  dsimp only
  rw [isCut]
  dsimp only
  rw [attempt_baseText, Text.trim_of_solid (solid_hex n), parseHexOrDec_hex inside]
  change (checkedNeg (BitVec.ofNat 64 n)).bind _ = _
  rw [isNeg]
  rfl

end

theorem toList_display_memAddr (base : UInt8) (offset : I64) :
    (Operand.display (.memAddr base offset)).toList =
      '[' :: ((if offset.toInt = 0 then baseText base
        else if 0 < offset.toInt then
          baseText base ++ (" + ".toList ++ (hex offset.toInt.natAbs).toList)
        else baseText base ++ (" - ".toList ++ (hex offset.toInt.natAbs).toList)) ++ [']']) := by
  rw [Operand.display]
  split
  · simp [baseText, toList_toString_uInt8]
  · split
    · simp [baseText, toList_toString_uInt8]
    · simp [baseText, toList_toString_uInt8]

theorem parseOperand_memAddr {base : UInt8} {offset : I64} (inRange : offset ≠ BitVec.intMin 64) :
    parseOperand (Operand.display (.memAddr base offset)).toList = .ok (.memAddr base offset) := by
  have lower := BitVec.le_toInt offset
  have upper := BitVec.toInt_lt (x := offset)
  rw [toList_display_memAddr, parseOperand_bracket]
  split
  · rename_i isZero
    rw [parseMemAddr_base]
    have sameOffset : (0 : I64) = offset := by
      rw [← BitVec.ofInt_toInt (x := offset), isZero]
      rfl
    rw [sameOffset]
  · split
    · rename_i isPositive
      rw [parseMemAddr_plus base (by omega), ← BitVec.ofInt_natCast,
        Int.natAbs_of_nonneg (Int.le_of_lt isPositive), BitVec.ofInt_toInt]
    · rename_i notZero notPositive
      have notMin : offset.toInt ≠ -2 ^ 63 := by
        intro isMin
        refine inRange (BitVec.eq_of_toInt_eq ?_)
        rw [isMin]
        decide
      have isNegated : -(offset.toInt.natAbs : Int) = offset.toInt := by omega
      rw [parseMemAddr_minus base (by omega), ← BitVec.ofInt_natCast, ← BitVec.ofInt_neg,
        isNegated, BitVec.ofInt_toInt]

/-- A text that starts with a sign or a digit is an immediate. -/
theorem parseOperand_number {text : List Char} {c : Char} (isHead : text.head? = some c)
    (isNumber : c = '-' ∨ c.isDigit = true) {n : I64} (isValue : parseSigned 10 text = some n) :
    parseOperand text = .ok (.imm n) := by
  have others : c ≠ '[' ∧ c ≠ 'r' ∧ c ≠ 'p' := by
    refine ⟨?_, ?_, ?_⟩ <;>
      · rintro rfl
        revert isNumber
        decide
  rw [parseOperand, isHead, if_neg (by simpa using others.1),
    tryParseReg_of_head (by simpa [isHead] using others.2.1),
    tryParsePred_of_head (by simpa [isHead] using others.2.2)]
  dsimp only
  rw [if_pos (by simpa using isNumber), isValue]
  rfl

theorem parseOperand_imm (n : I64) :
    parseOperand (Operand.display (.imm n)).toList = .ok (.imm n) := by
  have lower := BitVec.le_toInt n
  have upper := BitVec.toInt_lt (x := n)
  rw [Operand.display, Int.toString_eq_repr]
  cases isInt : n.toInt with
  | ofNat value =>
      have isText : (Int.repr (.ofNat value)).toList = Nat.toDigits 10 value := Nat.toList_repr
      have isValue : BitVec.ofNat 64 value = n := by
        rw [← BitVec.ofInt_natCast, ← Int.ofNat_eq_natCast, ← isInt, BitVec.ofInt_toInt]
      rw [isText]
      obtain ⟨c, isHead⟩ : ∃ c, (Nat.toDigits 10 value).head? = some c :=
        Option.isSome_iff_exists.mp (List.isSome_head?.mpr Nat.toDigits_ne_nil)
      refine parseOperand_number isHead (.inr ?_) ?_
      · exact Nat.isDigit_of_mem_toDigits (by decide) (by decide) (List.mem_of_mem_head? isHead)
      · have inside : value < 2 ^ 63 := by
          rw [isInt, Int.ofNat_eq_natCast] at upper
          omega
        rw [Text.parseSigned_toDigits (by decide) (by decide) inside, isValue]
  | negSucc value =>
      have isText : (Int.repr (.negSucc value)).toList = '-' :: Nat.toDigits 10 (value + 1) := by
        simp [Int.repr]
      rw [isText]
      refine parseOperand_number rfl (.inl rfl) ?_
      have isValue : -((value + 1 : Nat) : Int) = n.toInt := by
        rw [isInt, Int.negSucc_eq]
        rfl
      rw [Text.parseSigned_neg (by decide) (by decide) (by omega), isValue, BitVec.ofInt_toInt]

theorem parseOperand_reg (n : UInt8) :
    parseOperand (Operand.display (.reg n)).toList = .ok (.reg n) := by
  have isText : (Operand.display (.reg n)).toList = 'r' :: Nat.toDigits 10 n.toNat := by
    simp [Operand.display, toList_toString_uInt8]
  rw [isText, parseOperand, List.head?_cons, if_neg (by decide), tryParseReg_cons]

theorem parseOperand_pred (n : UInt8) :
    parseOperand (Operand.display (.pred n)).toList = .ok (.pred n) := by
  have isText : (Operand.display (.pred n)).toList = 'p' :: Nat.toDigits 10 n.toNat := by
    simp [Operand.display, toList_toString_uInt8]
  rw [isText, parseOperand, List.head?_cons, if_neg (by decide),
    tryParseReg_of_head (by rw [List.head?_cons]; decide), tryParsePred_cons]

/-- An operand is read back from its text. -/
theorem parseOperand_display {operand : Operand} (readable : operand.Readable) :
    parseOperand operand.display.toList = .ok operand := by
  cases operand with
  | reg n => exact parseOperand_reg n
  | pred n => exact parseOperand_pred n
  | imm n => exact parseOperand_imm n
  | memAddr base offset => exact parseOperand_memAddr readable
  | label name =>
      obtain ⟨isName, noDigit, noReg, noPred⟩ := readable
      have starts : ∀ c, isNameChar c = false → name.toList.head? ≠ some c :=
        fun c meaning isHead => isName.not_mem meaning (List.mem_of_mem_head? isHead)
      have noNumber : ¬(name.toList.head? = some '-' ∨ name.toList.head?.any Char.isDigit = true) := by
        rintro (isMinus | isDigit)
        · exact starts '-' (by decide) isMinus
        · obtain ⟨c, isHead, isDigit⟩ := (Option.any_eq_true _ _).mp isDigit
          rw [noDigit c isHead] at isDigit
          cases isDigit
      rw [Operand.display, parseOperand, if_neg (starts '[' (by decide)), noReg]
      dsimp only
      rw [noPred]
      dsimp only
      rw [if_neg noNumber, String.ofList_toList]

/-! ### Lists of operands -/

/-- The number of brackets that a text leaves open. -/
def openBrackets (text : List Char) : Int := text.count '[' - text.count ']'

theorem scan_of_noComma {text : List Char} (noComma : ',' ∉ text) {depth : Int}
    (above : -2 ^ 31 ≤ depth - text.count ']') (below : depth + text.count '[' < 2 ^ 31) :
    scan depth text = some (depth + openBrackets text) := by
  induction text generalizing depth with
  | nil => simp [scan, openBrackets]
  | cons c text ih =>
      have isOther : c ≠ ',' := by
        rintro rfl
        simp at noComma
      have noComma : ',' ∉ text := fun commaMem => noComma (List.mem_cons_of_mem _ commaMem)
      rw [scan]
      by_cases opens : c = '['
      · have isDepth : depth + openBrackets (c :: text) = depth + 1 + openBrackets text := by
          subst opens
          rw [openBrackets, openBrackets, List.count_cons_self, List.count_cons_of_ne (by decide)]
          omega
        rw [opens, List.count_cons_self] at below
        rw [opens, List.count_cons_of_ne (by decide)] at above
        rw [if_pos opens, if_neg (by omega), ih noComma (by omega) (by omega), isDepth]
      · by_cases closes : c = ']'
        · have isDepth : depth + openBrackets (c :: text) = depth - 1 + openBrackets text := by
            subst closes
            rw [openBrackets, openBrackets, List.count_cons_self, List.count_cons_of_ne (by decide)]
            omega
          rw [closes, List.count_cons_of_ne (by decide)] at below
          rw [closes, List.count_cons_self] at above
          rw [if_neg opens, if_pos closes, if_neg (by omega), ih noComma (by omega) (by omega),
            isDepth]
        · have isDepth : openBrackets (c :: text) = openBrackets text := by
            rw [openBrackets, openBrackets, List.count_cons_of_ne opens,
              List.count_cons_of_ne closes]
          rw [List.count_cons_of_ne opens] at below
          rw [List.count_cons_of_ne closes] at above
          rw [if_neg opens, if_neg closes, if_neg (by simp [isOther]), ih noComma above below,
            isDepth]

/-- The text of an operand: a piece without commas and open brackets. -/
structure IsPart (text : List Char) : Prop where
  full : text ≠ []
  solid : Solid text
  noComma : ',' ∉ text
  isLine : IsLine text
  closed : openBrackets text = 0
  shallow : text.count '[' ≤ 1

theorem IsPart.scan {text : List Char} (isPart : IsPart text) : scan 0 text = some 0 := by
  have closed := isPart.closed
  have shallow := isPart.shallow
  rw [openBrackets] at closed
  rw [scan_of_noComma isPart.noComma (by omega) (by omega), isPart.closed, Int.add_zero]

theorem separable_of_areParts {parts : List (List Char)} (areParts : ∀ part ∈ parts, IsPart part) :
    Separable parts := by
  induction parts with
  | nil => trivial
  | cons part parts ih =>
      have isPart := areParts part List.mem_cons_self
      cases parts with
      | nil => exact Option.isSome_iff_exists.mpr ⟨0, isPart.scan⟩
      | cons next parts =>
          exact ⟨isPart.scan, ih fun other otherMem => areParts other (List.mem_cons_of_mem _ otherMem)⟩

theorem IsPart.of_forall {text : List Char} (full : text ≠ [])
    (chars : ∀ c ∈ text, isWhitespace c = false ∧ c ∉ [',', '[', ']']) : IsPart text := by
  have absent : ∀ c ∈ [',', '[', ']'], c ∉ text := fun c isMark cMem => (chars c cMem).2 isMark
  have black : ∀ c ∈ text, isWhitespace c = false := fun c cMem => (chars c cMem).1
  have noOpen : text.count '[' = 0 := List.count_eq_zero_of_not_mem (absent _ (by decide))
  have noClose : text.count ']' = 0 := List.count_eq_zero_of_not_mem (absent _ (by decide))
  exact ⟨full, .of_forall black, absent _ (by decide), .of_forall black,
    by rw [openBrackets, noOpen, noClose]; rfl, by rw [noOpen]; exact Nat.zero_le 1⟩

theorem IsName.isPart {name : String} (isName : IsName name) : IsPart name.toList := by
  refine .of_forall isName.full fun c cMem => ⟨isName.black c cMem, fun isMark => ?_⟩
  have meaningful : ∀ c ∈ [',', '[', ']'], isNameChar c = false := by decide
  exact isName.not_mem (meaningful c isMark) cMem

theorem plain_of_mem_toDigits {radix n : Nat} (isBase : 1 < radix) (small : radix ≤ 16) {c : Char}
    (cMem : c ∈ Nat.toDigits radix n) : isWhitespace c = false ∧ c ∉ [',', '[', ']'] := by
  obtain ⟨digit, inside, rfl⟩ := Text.exists_digit_of_mem_toDigits isBase cMem
  have plain : ∀ digit < 16, isWhitespace digit.digitChar = false ∧
      digit.digitChar ∉ [',', '[', ']'] := by decide
  exact plain digit (by omega)

theorem isPart_digits (n : Nat) : IsPart (Nat.toDigits 10 n) :=
  .of_forall Nat.toDigits_ne_nil fun _ => plain_of_mem_toDigits (by decide) (by decide)

/-- Digits after a sign or a letter. -/
theorem isPart_cons_digits {c : Char} (isFirst : isWhitespace c = false ∧ c ∉ [',', '[', ']'])
    (n : Nat) : IsPart (c :: Nat.toDigits 10 n) := by
  refine .of_forall (by simp) fun other otherMem => ?_
  rcases List.mem_cons.mp otherMem with rfl | isDigit
  · exact isFirst
  · exact plain_of_mem_toDigits (by decide) (by decide) isDigit

theorem isPart_hex (n : Nat) : IsPart (hex n).toList := by
  refine .of_forall (by simp [toList_hex]) fun c cMem => ?_
  rw [toList_hex] at cMem
  rcases List.mem_append.mp cMem with inMarker | isDigit
  · have marker : ∀ c ∈ "0x".toList, isWhitespace c = false ∧ c ∉ [',', '[', ']'] := by decide
    exact marker c inMarker
  · exact plain_of_mem_toDigits (by decide) (by decide) isDigit

/-- A bracketed text without marks inside. -/
theorem isPart_bracket {inner : List Char} (absent : ∀ c ∈ [',', '[', ']', '\n', '\r'], c ∉ inner) :
    IsPart ('[' :: (inner ++ [']'])) where
  full := by simp
  solid := by
    have isOpen : Solid ['['] := .of_forall (by decide)
    exact isOpen.append inner (.of_forall (by decide)) (by decide) (by decide)
  noComma := by simp [absent ',' (by decide)]
  isLine := ⟨by simp [absent '\n' (by decide)], by simp [absent '\r' (by decide)]⟩
  closed := by
    have noOpen := List.count_eq_zero_of_not_mem (absent '[' (by decide))
    have noClose := List.count_eq_zero_of_not_mem (absent ']' (by decide))
    simp [openBrackets, noOpen, noClose]
  shallow := by
    have noOpen := List.count_eq_zero_of_not_mem (absent '[' (by decide))
    simp [noOpen]

theorem absent_baseText (base : UInt8) : ∀ c ∈ [',', '[', ']', '\n', '\r'], c ∉ baseText base := by
  have marks : ∀ c ∈ [',', '[', ']', '\n', '\r'], c ≠ 'r' ∧ ∀ digit < 16, c ≠ digit.digitChar := by decide
  exact fun c isMark => not_mem_baseText base (marks c isMark).1 (marks c isMark).2

/-- A base register with a displacement. -/
theorem absent_displaced {sign : List Char} (plain : ∀ c ∈ [',', '[', ']', '\n', '\r'], c ∉ sign)
    (base : UInt8) (n : Nat) :
    ∀ c ∈ [',', '[', ']', '\n', '\r'], c ∉ baseText base ++ (sign ++ (hex n).toList) := by
  have marks : ∀ c ∈ [',', '[', ']', '\n', '\r'], c ∉ "0x".toList ∧ ∀ digit < 16, c ≠ digit.digitChar := by
    decide
  intro c isMark
  rw [List.mem_append, List.mem_append, not_or, not_or]
  exact ⟨absent_baseText base c isMark, plain c isMark,
    not_mem_hex (marks c isMark).1 (marks c isMark).2 n⟩

/-- The text of an operand other than a name is a part of the list of operands. -/
theorem isPart_display_of_notLabel {operand : Operand} (notLabel : ∀ name, operand ≠ .label name) :
    IsPart operand.display.toList := by
  cases operand with
  | reg n =>
      have isText : (Operand.display (.reg n)).toList = 'r' :: Nat.toDigits 10 n.toNat := by
        simp [Operand.display, toList_toString_uInt8]
      rw [isText]
      exact isPart_cons_digits (by decide) n.toNat
  | pred n =>
      have isText : (Operand.display (.pred n)).toList = 'p' :: Nat.toDigits 10 n.toNat := by
        simp [Operand.display, toList_toString_uInt8]
      rw [isText]
      exact isPart_cons_digits (by decide) n.toNat
  | imm n =>
      rw [Operand.display, Int.toString_eq_repr]
      cases n.toInt with
      | ofNat value =>
          have isText : (Int.repr (.ofNat value)).toList = Nat.toDigits 10 value := Nat.toList_repr
          rw [isText]
          exact isPart_digits value
      | negSucc value =>
          have isText : (Int.repr (.negSucc value)).toList =
              '-' :: Nat.toDigits 10 (value + 1) := by
            simp [Int.repr]
          rw [isText]
          exact isPart_cons_digits (by decide) _
  | memAddr base offset =>
      rw [toList_display_memAddr]
      refine isPart_bracket ?_
      split
      · exact absent_baseText base
      · split
        · exact absent_displaced (by decide) base _
        · exact absent_displaced (by decide) base _
  | label name => exact absurd rfl (notLabel name)

theorem isPart_display {operand : Operand} (readable : operand.Readable) :
    IsPart operand.display.toList := by
  cases operand with
  | label name => exact readable.1.isPart
  | _ => exact isPart_display_of_notLabel (by simp)

theorem areParts_display {operands : List Operand}
    (readable : ∀ operand ∈ operands, operand.Readable) :
    ∀ part ∈ operands.map (·.display.toList), IsPart part := by
  intro part partMem
  obtain ⟨operand, operandMem, rfl⟩ := List.mem_map.mp partMem
  exact isPart_display (readable operand operandMem)

/-- The operands of a syllable are read back. -/
theorem parseOperands_display {operands : List Operand} (full : operands ≠ [])
    (readable : ∀ operand ∈ operands, operand.Readable) :
    parseOperands (List.intercalate ", ".toList (operands.map (·.display.toList))) =
      .ok operands := by
  have areParts := areParts_display readable
  rw [parseOperands_eq_ok_iff, (separable_of_areParts areParts).trimmedParts (by simpa using full)
    (fun part partMem => (areParts part partMem).solid), List.forall₂_map_left_iff,
    List.forall₂_map_left_iff, List.forall₂_same]
  exact fun operand operandMem => parseOperand_display (readable operand operandMem)

end VliwCompiler.Asm
