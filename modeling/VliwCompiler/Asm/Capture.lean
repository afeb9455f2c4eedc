import VliwCompiler.Asm.OperandText
import VliwCompiler.Error

/-!
# Operands read as another kind

Names are written without a mark of their own, so a name can have the text of a
register, a predicate, a number or an address.  The magnitude of the least
displacement is not a signed 64-bit integer.
-/

namespace VliwCompiler.Asm

open Text (parseUnsigned)

/-- The text starts as an address or a number does, or it is `r` or `p` before
a number below 256. -/
def IsCaptured : List Char → Prop
  | [] => False
  | c :: rest => c = '[' ∨ c = '-' ∨ c.isDigit = true ∨
      ((c = 'r' ∨ c = 'p') ∧ (parseUnsigned 10 (2 ^ 8) rest).isSome = true)

/-- Neither a captured name nor the least displacement. -/
def Operand.IsKept : Operand → Prop
  | .reg _ | .pred _ | .imm _ => True
  | .memAddr _ offset => offset ≠ BitVec.intMin 64
  | .label name => ¬IsCaptured name.toList

section

variable {c : Char} {rest : List Char}

theorem tryParseReg_eq_none_iff :
    tryParseReg (c :: rest) = none ↔
      ¬(c = 'r' ∧ (parseUnsigned 10 (2 ^ 8) rest).isSome = true) := by
  by_cases isReg : c = 'r'
  · subst isReg
    simp [tryParseReg, List.dropPrefix?, Option.eq_none_iff_forall_ne_some (o := parseUnsigned _ _ _)]
  · simp [tryParseReg, List.dropPrefix?, isReg]

theorem tryParsePred_eq_none_iff :
    tryParsePred (c :: rest) = none ↔
      ¬(c = 'p' ∧ (parseUnsigned 10 (2 ^ 8) rest).isSome = true) := by
  by_cases isPred : c = 'p'
  · subst isPred
    simp [tryParsePred, List.dropPrefix?, Option.eq_none_iff_forall_ne_some (o := parseUnsigned _ _ _)]
  · simp [tryParsePred, List.dropPrefix?, isPred]

end

theorem parseMemAddr_ne_label (inner : List Char) (name : String) :
    parseMemAddr inner ≠ .ok (.label name) := by
  intro parsed
  rw [parseMemAddr] at parsed
  split at parsed
  · obtain ⟨base, _, rest⟩ := bind_eq_ok.mp parsed
    obtain ⟨offset, _, same⟩ := bind_eq_ok.mp rest
    cases same
  · split at parsed
    · obtain ⟨base, _, rest⟩ := bind_eq_ok.mp parsed
      obtain ⟨offset, _, rest⟩ := bind_eq_ok.mp rest
      obtain ⟨negated, _, same⟩ := bind_eq_ok.mp rest
      cases same
    · obtain ⟨base, _, same⟩ := bind_eq_ok.mp parsed
      cases same

theorem parseOperand_eq_label_iff (text : List Char) :
    parseOperand text = .ok (.label (String.ofList text)) ↔ ¬IsCaptured text := by
  cases text with
  | nil => exact iff_of_true rfl id
  | cons c rest =>
      rw [parseOperand, IsCaptured]
      by_cases isAddress : c = '['
      · rw [if_pos (by rw [isAddress]; rfl)]
        refine iff_of_false (fun parsed => ?_) (not_not_intro (.inl isAddress))
        obtain ⟨inner, _, isMemAddr⟩ := bind_eq_ok.mp parsed
        exact parseMemAddr_ne_label inner _ isMemAddr
      · rw [if_neg (by simpa using isAddress)]
        cases isReg : tryParseReg (c :: rest) with
        | some n =>
            have captured := mt tryParseReg_eq_none_iff.mpr (by rw [isReg]; exact Option.some_ne_none n)
            refine iff_of_false (by simp) (not_not_intro (.inr (.inr (.inr ?_))))
            exact ⟨.inl (not_not.mp captured).1, (not_not.mp captured).2⟩
        | none =>
            have noReg := tryParseReg_eq_none_iff.mp isReg
            cases isPred : tryParsePred (c :: rest) with
            | some n =>
                have captured := mt tryParsePred_eq_none_iff.mpr (by rw [isPred]; exact Option.some_ne_none n)
                refine iff_of_false (by simp) (not_not_intro (.inr (.inr (.inr ?_))))
                exact ⟨.inr (not_not.mp captured).1, (not_not.mp captured).2⟩
            | none =>
                have noPred := tryParsePred_eq_none_iff.mp isPred
                dsimp only
                by_cases isNumber : c = '-' ∨ c.isDigit = true
                · rw [if_pos (by simpa using isNumber)]
                  refine iff_of_false (fun parsed => ?_) (not_not_intro (.inr ?_))
                  · obtain ⟨n, _, same⟩ := bind_eq_ok.mp parsed
                    cases same
                  · exact isNumber.imp_right .inl
                · rw [if_neg (by simpa using isNumber)]
                  refine iff_of_true rfl ?_
                  rintro (isOpen | isMinus | isDigit | ⟨isReg | isPred, isNumeral⟩)
                  · exact isAddress isOpen
                  · exact isNumber (.inl isMinus)
                  · exact isNumber (.inr isDigit)
                  · exact noReg ⟨isReg, isNumeral⟩
                  · exact noPred ⟨isPred, isNumeral⟩

/-- The magnitude of the least displacement is not read. -/
theorem parseMemAddr_intMin (base : UInt8) :
    parseMemAddr (baseText base ++ (" - ".toList ++ (hex (2 ^ 63)).toList)) = .error .none := by
  have noPlus : (baseText base ++ (" - ".toList ++ (hex (2 ^ 63)).toList)).dropInfix?
      " + ".toList = none := by
    refine Text.dropInfix?_eq_none (c := '+') (by decide) ?_
    rw [List.mem_append, List.mem_append, not_or, not_or]
    exact ⟨not_mem_baseText base (by decide) (by decide), by decide,
      not_mem_hex (by decide) (by decide) _⟩
  have isCut : (baseText base ++ (" - ".toList ++ (hex (2 ^ 63)).toList)).dropInfix?
      " - ".toList = some (baseText base, (hex (2 ^ 63)).toList) :=
    Text.dropInfix?_append ' ' _ _ (not_mem_baseText base (by decide) (by decide))
  have tooLarge : parseHexOrDec (hex (2 ^ 63)).toList = none := by decide +kernel
  rw [parseMemAddr, noPlus]
  dsimp only
  rw [isCut]
  dsimp only
  rw [attempt_baseText, Text.trim_of_solid (solid_hex _), tooLarge]
  rfl

theorem parseOperand_intMin (base : UInt8) :
    parseOperand (Operand.display (.memAddr base (BitVec.intMin 64))).toList = .error .none := by
  have isLeast : (BitVec.intMin 64).toInt = -2 ^ 63 := by decide
  have isText : (-2 ^ 63 : Int).natAbs = 2 ^ 63 := by decide
  rw [toList_display_memAddr, parseOperand_bracket, if_neg (by rw [isLeast]; decide),
    if_neg (by rw [isLeast]; decide), isLeast, isText, parseMemAddr_intMin]

/-- The operands that are read back from their text. -/
theorem parseOperand_display_iff (operand : Operand) :
    parseOperand operand.display.toList = .ok operand ↔ operand.IsKept := by
  cases operand with
  | reg n => exact iff_of_true (parseOperand_reg n) trivial
  | pred n => exact iff_of_true (parseOperand_pred n) trivial
  | imm n => exact iff_of_true (parseOperand_imm n) trivial
  | memAddr base offset =>
      refine ⟨fun parsed isMin => ?_, parseOperand_memAddr⟩
      subst isMin
      rw [parseOperand_intMin] at parsed
      cases parsed
  | label name =>
      have sameName := parseOperand_eq_label_iff name.toList
      rw [String.ofList_toList] at sameName
      exact sameName

/-- A call of a function `r5` is read as a call of a register. -/
theorem label_read_as_reg :
    parseOperand (Operand.display (.label "r5")).toList = .ok (.reg 5) ∧
      ¬∀ operand : Operand, parseOperand operand.display.toList = .ok operand := by
  have isReg : parseOperand (Operand.display (.label "r5")).toList = .ok (.reg 5) := by
    decide +kernel
  refine ⟨isReg, fun readable => ?_⟩
  have isLabel := readable (.label "r5")
  rw [isReg] at isLabel
  cases isLabel

end VliwCompiler.Asm
