import VliwCompiler.Isel.FallThrough
import VliwCompiler.Isel.OneClass

/-!
# The link register in lowered code

A block that ends with a call saves the link register once, after everything but
copies of phis; the block after it begins by restoring the register.  No other
syllable uses the register.
-/

namespace VliwCompiler.Isel

open Mir (Reg Value Syllable Terminator Block)
open Llvm (Operand Instruction)

/-- The syllable neither reads nor writes the link register. -/
def AvoidsLink (syllable : Syllable) : Prop :=
  syllable.dst ≠ some (.preg linkReg) ∧ .reg (.preg linkReg) ∉ syllable.srcs

/-- The link register is saved before a call and not used before other
terminators. -/
def SavesLink (memorySize : Nat) : Terminator → List Syllable → Prop
  | .directCall _ _, code => ∃ front back, code = front ++ saveLink (linkAddress memorySize) :: back ∧
      (∀ syllable ∈ front, AvoidsLink syllable) ∧
        ∀ syllable ∈ back, AvoidsLink syllable ∧ syllable.opcode.behavior = .compute
  | _, code => ∀ syllable ∈ code, AvoidsLink syllable

/-- The block before the index `idx` calls a function and continues at `cont`. -/
def CallBefore (blocks : List Block) (idx : Nat) (cont : String) : Prop :=
  ∃ j block callee, idx = j + 1 ∧ blocks[j]? = some block ∧
    block.terminator = .directCall callee cont

/-- A jump or a branch to `target`. -/
def Targets (terminator : Terminator) (target : String) : Prop :=
  terminator = .jump target ∨ ∃ cond, terminator = .branch cond target

/-- A block with the index `idx` restores the link register exactly when it
continues after a call. -/
def FitsAt (memorySize : Nat) (blocks : List Block) (idx : Nat) (block : Block) : Prop :=
  ∃ lead body, block.syllables = lead ++ body ∧ SavesLink memorySize block.terminator body ∧
    ((lead = [restoreLink (linkAddress memorySize)] ∧ CallBefore blocks idx block.label) ∨
      (lead = [] ∧ ∀ cont, ¬CallBefore blocks idx cont))

/-- All blocks of a function save and restore the link register. -/
def LinkSaved (memorySize : Nat) (blocks : List Block) : Prop :=
  ∀ idx block, blocks[idx]? = some block → FitsAt memorySize blocks idx block

section

variable {memorySize idx : Nat} {blocks more : List Block} {block : Block} {cont : String}

theorem CallBefore.unique {other : String} (here : CallBefore blocks idx cont)
    (there : CallBefore blocks idx other) : cont = other := by
  obtain ⟨j, caller, callee, rfl, isCaller, isCall⟩ := here
  obtain ⟨k, caller', callee', same, isCaller', isCall'⟩ := there
  obtain rfl := Nat.succ.inj same
  obtain rfl := Option.some.inj (isCaller.symm.trans isCaller')
  exact (Terminator.directCall.inj (isCall.symm.trans isCall')).2

/-- Blocks that come later do not matter. -/
theorem callBefore_append (inside : idx ≤ blocks.length) :
    CallBefore (blocks ++ more) idx cont ↔ CallBefore blocks idx cont := by
  constructor
  · rintro ⟨j, caller, callee, rfl, isCaller, isCall⟩
    rw [List.getElem?_append_left (by omega)] at isCaller
    exact ⟨j, caller, callee, rfl, isCaller, isCall⟩
  · rintro ⟨j, caller, callee, rfl, isCaller, isCall⟩
    refine ⟨j, caller, callee, rfl, ?_, isCall⟩
    rw [List.getElem?_append_left (by omega)]
    exact isCaller

theorem FitsAt.append (fits : FitsAt memorySize blocks idx block)
    (inside : idx ≤ blocks.length) : FitsAt memorySize (blocks ++ more) idx block := by
  obtain ⟨lead, body, isCode, saves, ⟨isLead, before⟩ | ⟨isLead, noCall⟩⟩ := fits
  · exact ⟨lead, body, isCode, saves, .inl ⟨isLead, (callBefore_append inside).mpr before⟩⟩
  · exact ⟨lead, body, isCode, saves,
      .inr ⟨isLead, fun cont before => noCall cont ((callBefore_append inside).mp before)⟩⟩

theorem LinkSaved.snoc (saved : LinkSaved memorySize blocks)
    (fits : FitsAt memorySize blocks blocks.length block) :
    LinkSaved memorySize (blocks ++ [block]) := by
  intro idx other isOther
  rcases Nat.lt_trichotomy idx blocks.length with inside | rfl | outside
  · rw [List.getElem?_append_left inside] at isOther
    exact (saved idx other isOther).append inside.le
  · rw [List.getElem?_concat_length] at isOther
    obtain rfl := Option.some.inj isOther
    exact fits.append (Nat.le_refl _)
  · rw [List.getElem?_eq_none (by simp; omega)] at isOther
    cases isOther

/-- After a block without a call no call comes before. -/
theorem not_callBefore_snoc (noCall : ∀ callee cont, block.terminator ≠ .directCall callee cont) :
    ¬CallBefore (blocks ++ [block]) (blocks ++ [block]).length cont := by
  rintro ⟨j, caller, callee, isLength, isCaller, isCall⟩
  obtain rfl : blocks.length = j := by simpa using isLength
  rw [List.getElem?_concat_length] at isCaller
  obtain rfl := Option.some.inj isCaller
  exact noCall callee cont isCall

end

/-! ### Selection -/

/-- The code added to the block under construction avoids the link register. -/
def Adds (selection after : Selection) : Prop :=
  ∃ code, after.syllables = selection.syllables ++ code ∧ ∀ syllable ∈ code, AvoidsLink syllable

/-- No folded pointer is based on the link register. -/
def PointersAvoid (selection : Selection) : Prop :=
  ∀ key base offset, selection.gepMap.lookup key = some (base, offset) →
    base ≠ .reg (.preg linkReg)

/-- The variables of the loop while blocks save and restore the link register. -/
structure Saving (module : Llvm.Module) (memorySize : Nat) (selection : Selection) : Prop where
  saved : LinkSaved memorySize selection.mirBlocks
  defined : ∀ block ∈ selection.mirBlocks, ∀ callee cont,
    block.terminator = .directCall callee cont → Llvm.countBasicBlocks module callee ≠ 0
  pointers : PointersAvoid selection

/-- The block under construction, which is not ended by a call. -/
structure SavingOpen (module : Llvm.Module) (memorySize : Nat) (selection : Selection) : Prop
    extends Saving module memorySize selection where
  fits : FitsAt memorySize selection.mirBlocks selection.mirBlocks.length
    ⟨selection.currentMirLabel, selection.syllables, .ret⟩
  noCall : ∀ callee cont, selection.terminator ≠ .directCall callee cont

section

variable {module : Llvm.Module} {memorySize : Nat} {labelAt : Llvm.BlockRef → Outcome String}
  {label : String} {selection middle after : Selection} {instruction : Instruction}

theorem Adds.same (sameCode : after.syllables = selection.syllables) : Adds selection after :=
  ⟨[], by rw [sameCode, List.append_nil], by simp⟩

theorem Adds.trans (first : Adds selection middle) (second : Adds middle after) :
    Adds selection after := by
  obtain ⟨code, isCode, avoids⟩ := first
  obtain ⟨rest, isRest, restAvoids⟩ := second
  exact ⟨code ++ rest, by rw [isRest, isCode, List.append_assoc],
    List.forall_mem_append.mpr ⟨avoids, restAvoids⟩⟩

theorem Adds.push (added : Adds selection middle) {syllable : Syllable}
    (isAfter : after.syllables = middle.syllables ++ [syllable]) (avoids : AvoidsLink syllable) :
    Adds selection after :=
  added.trans ⟨[syllable], isAfter, List.forall_mem_singleton.mpr avoids⟩

/-- An integer operand is a virtual register. -/
theorem adds_of_lowerOperand {operand : Operand} {value : Value}
    (lowered : lowerOperand operand selection = .ok (value, after)) :
    Adds selection after ∧ value ≠ .reg (.preg linkReg) := by
  unfold lowerOperand at lowered
  split at lowered
  · cases lowered
    exact ⟨(Adds.same rfl).push rfl ⟨by simp, by simp⟩, by simp⟩
  · obtain ⟨vreg, -, same⟩ := bind_eq_ok.mp lowered
    cases same
    exact ⟨.same rfl, by simp⟩
  · cases lowered

theorem PointersAvoid.congr (avoid : PointersAvoid selection)
    (sameGeps : after.gepMap = selection.gepMap) : PointersAvoid after := by
  unfold PointersAvoid
  rw [sameGeps]
  exact avoid

theorem PointersAvoid.base_ne (avoid : PointersAvoid selection) {operand : Operand}
    {base : Value} {offset : Asm.I64}
    (lowered : lowerPtrOperand operand selection = .ok (base, offset)) :
    base ≠ .reg (.preg linkReg) := by
  rcases lowerPtrOperand_eq_ok lowered with
    ⟨bits, address, -, rfl, -⟩ | ⟨key, -, isFolded | ⟨-, vreg, -, rfl, -⟩⟩
  · simp
  · exact avoid key base offset isFolded
  · simp

theorem avoids_addressSrcs {base : Value} {offset : Asm.I64}
    (avoids : base ≠ .reg (.preg linkReg)) :
    .reg (.preg linkReg) ∉ addressSrcs base offset := by
  unfold addressSrcs
  split <;> simp [avoids.symm]

theorem avoidsLink_vreg {opcode : Asm.Opcode} {dst : Nat} {srcs : List Value}
    (avoids : .reg (.preg linkReg) ∉ srcs) : AvoidsLink ⟨opcode, some (.vreg dst), srcs⟩ :=
  ⟨by simp, avoids⟩

theorem adds_of_lowerIcmp {ref : Llvm.ValueRef} {predicate : Llvm.IntPredicate}
    {lhs rhs : Operand} (lowered : lowerIcmp ref predicate lhs rhs selection = .ok after) :
    Adds selection after := by
  obtain ⟨⟨left, first⟩, isLeft, lowered⟩ := bind_eq_ok.mp lowered
  obtain ⟨⟨right, second⟩, isRight, lowered⟩ := bind_eq_ok.mp lowered
  obtain ⟨⟨opcode, swapped⟩, -, lowered⟩ := bind_eq_ok.mp lowered
  obtain ⟨leftAdds, leftAvoids⟩ := adds_of_lowerOperand isLeft
  obtain ⟨rightAdds, rightAvoids⟩ := adds_of_lowerOperand isRight
  have added := leftAdds.trans rightAdds
  have sources : .reg (.preg linkReg) ∉ (if swapped = true then [right, left] else [left, right]) := by
    split <;> simp [leftAvoids.symm, rightAvoids.symm]
  dsimp only at lowered
  split at lowered
  · cases lowered
    have compared : Adds selection (second.push ⟨opcode, some (.vreg second.nextVreg),
        if swapped = true then [right, left] else [left, right]⟩) :=
      added.push rfl (avoidsLink_vreg sources)
    exact compared.push rfl (avoidsLink_vreg (by simp))
  · cases lowered
    exact added.push rfl (avoidsLink_vreg sources)

theorem adds_of_lowerBinary {ref : Llvm.ValueRef} {op : Llvm.BinaryOp} {lhs rhs : Operand}
    (lowered : lowerBinary ref op lhs rhs selection = .ok after) : Adds selection after := by
  obtain ⟨⟨left, first⟩, isLeft, lowered⟩ := bind_eq_ok.mp lowered
  obtain ⟨⟨right, second⟩, isRight, lowered⟩ := bind_eq_ok.mp lowered
  obtain ⟨leftAdds, leftAvoids⟩ := adds_of_lowerOperand isLeft
  obtain ⟨rightAdds, rightAvoids⟩ := adds_of_lowerOperand isRight
  cases lowered
  exact (leftAdds.trans rightAdds).push rfl
    (avoidsLink_vreg (by simp [leftAvoids.symm, rightAvoids.symm]))

theorem adds_of_lowerReturn {value : Option Operand}
    (lowered : lowerReturn value selection = .ok after) : Adds selection after := by
  unfold lowerReturn at lowered
  split at lowered
  · cases lowered
    exact (Adds.same rfl).push rfl ⟨by simp [retvalReg, linkReg], by simp⟩
  · obtain ⟨vreg, -, same⟩ := bind_eq_ok.mp lowered
    cases same
    exact (Adds.same rfl).push rfl ⟨by simp [retvalReg, linkReg], by simp⟩
  · cases lowered
    exact .same rfl

theorem Saving.adds_of_lowerStore (saving : Saving module memorySize selection)
    {value pointer : Operand} (lowered : lowerStore value pointer selection = .ok after) :
    Adds selection after := by
  obtain ⟨opcode, -, lowered⟩ := bind_eq_ok.mp lowered
  obtain ⟨⟨data, first⟩, isData, lowered⟩ := bind_eq_ok.mp lowered
  obtain ⟨⟨base, offset⟩, isBase, lowered⟩ := bind_eq_ok.mp lowered
  cases lowered
  obtain ⟨added, dataAvoids⟩ := adds_of_lowerOperand isData
  have baseAvoids := (saving.pointers.congr (gepMap_of_lowerOperand isData)).base_ne isBase
  refine added.push rfl ⟨by simp, ?_⟩
  rw [List.mem_append, not_or]
  exact ⟨avoids_addressSrcs baseAvoids, by simpa using dataAvoids.symm⟩

theorem Saving.adds_of_lowerLoad (saving : Saving module memorySize selection)
    {pointer : Operand} (lowered : lowerLoad instruction pointer selection = .ok after) :
    Adds selection after := by
  obtain ⟨opcode, -, lowered⟩ := bind_eq_ok.mp lowered
  obtain ⟨⟨base, offset⟩, isBase, lowered⟩ := bind_eq_ok.mp lowered
  cases lowered
  exact (Adds.same rfl).push rfl (avoidsLink_vreg (avoids_addressSrcs (saving.pointers.base_ne isBase)))

/-- Every instruction but a call adds code that avoids the link register. -/
theorem Saving.adds (saving : Saving module memorySize selection)
    (notCall : isCall instruction = false)
    (lowered : lowerInstruction module memorySize labelAt label selection instruction =
      .ok after) : Adds selection after := by
  unfold lowerInstruction at lowered
  cases isOperation : instruction.operation with
  | phi incoming =>
      rw [isOperation] at lowered
      obtain ⟨raw, -, lowered⟩ := bind_eq_ok.mp lowered
      cases lowered
      exact .same rfl
  | ret value =>
      rw [isOperation] at lowered
      exact adds_of_lowerReturn lowered
  | condBr cond ifTrue ifFalse =>
      rw [isOperation] at lowered
      obtain ⟨trueLabel, -, lowered⟩ := bind_eq_ok.mp lowered
      obtain ⟨falseLabel, -, lowered⟩ := bind_eq_ok.mp lowered
      obtain ⟨vreg, -, lowered⟩ := bind_eq_ok.mp lowered
      cases lowered
      exact .same rfl
  | br target =>
      rw [isOperation] at lowered
      obtain ⟨targetLabel, -, lowered⟩ := bind_eq_ok.mp lowered
      cases lowered
      exact .same rfl
  | call callee arguments =>
      rw [isCall, isOperation] at notCall
      cases notCall
  | icmp predicate lhs rhs =>
      rw [isOperation] at lowered
      exact adds_of_lowerIcmp lowered
  | binary op lhs rhs =>
      rw [isOperation] at lowered
      exact adds_of_lowerBinary lowered
  | store value pointer =>
      rw [isOperation] at lowered
      exact saving.adds_of_lowerStore lowered
  | load pointer =>
      rw [isOperation] at lowered
      exact saving.adds_of_lowerLoad lowered
  | getElementPtr element base indices =>
      rw [isOperation] at lowered
      obtain ⟨⟨baseVal, baseOffset⟩, -, lowered⟩ := bind_eq_ok.mp lowered
      obtain ⟨elemBytes, -, lowered⟩ := bind_eq_ok.mp lowered
      obtain ⟨totalOffset, -, lowered⟩ := bind_eq_ok.mp lowered
      cases lowered
      exact .same rfl
  | invoke | atomic | other =>
      rw [isOperation] at lowered
      cases lowered

/-- Folded pointers never use the link register. -/
theorem Saving.pointers_afterInstruction (saving : Saving module memorySize selection)
    (lowered : lowerInstruction module memorySize labelAt label selection instruction =
      .ok after) : PointersAvoid after := by
  have records := records_of_lowerInstruction lowered
  cases isFold : folds instruction with
  | false =>
      exact saving.pointers.congr (records.geps isFold)
  | true =>
      unfold folds at isFold
      split at isFold
      · rename_i element base indices isOperation
        obtain ⟨baseVal, baseOffset, elemBytes, totalOffset, isBase, -, -, isGeps⟩ :=
          records.folded element base indices isOperation
        intro key pointer offset found
        rw [isGeps] at found
        by_cases same : key = instruction.ref
        · rw [same, AList.lookup_insert] at found
          cases found
          exact saving.pointers.base_ne isBase
        · rw [AList.lookup_insert_ne same] at found
          exact saving.pointers key pointer offset found
      · cases isFold

theorem SavingOpen.afterPlain (saving : SavingOpen module memorySize selection)
    (added : Adds selection after) (sameBlocks : after.mirBlocks = selection.mirBlocks)
    (sameLabel : after.currentMirLabel = selection.currentMirLabel)
    (pointers : PointersAvoid after)
    (noCall : ∀ callee cont, after.terminator ≠ .directCall callee cont) :
    SavingOpen module memorySize after where
  saved := by
    rw [sameBlocks]
    exact saving.saved
  defined := by
    rw [sameBlocks]
    exact saving.defined
  pointers := pointers
  fits := by
    obtain ⟨code, isCode, avoids⟩ := added
    obtain ⟨lead, body, isSyllables, saves, isLead⟩ := saving.fits
    rw [sameBlocks, sameLabel]
    refine ⟨lead, body ++ code, ?_, List.forall_mem_append.mpr ⟨saves, avoids⟩, isLead⟩
    rw [← List.append_assoc, ← isSyllables]
    exact isCode
  noCall := noCall

theorem avoidsLink_argMoves {arguments : List Argument} (few : arguments.length ≤ 8) :
    ∀ syllable ∈ argMoves 0 arguments, AvoidsLink syllable := by
  intro syllable syllableMem
  obtain ⟨⟨argument, i⟩, inArguments, rfl⟩ := List.mem_map.mp syllableMem
  have inside : i < 8 := by
    have isArgument := List.mk_mem_zipIdx_iff_getElem?.mp inArguments
    have := (List.getElem?_eq_some_iff.mp isArgument).1
    omega
  have other : argReg i ≠ linkReg := by
    have all : ∀ i < 8, argReg i ≠ linkReg := by decide
    exact all i inside
  cases argument with
  | const value => exact ⟨by simpa [argMove] using other, by simp [argMove]⟩
  | vreg index => exact ⟨by simpa [argMove] using other, by simp [argMove]⟩

/-- A call saves the link register, and its continuation restores it. -/
theorem SavingOpen.afterCall (saving : SavingOpen module memorySize selection) {target : String}
    {values : List Argument} (defined : Llvm.countBasicBlocks module target ≠ 0)
    (few : values.length ≤ 8) :
    SavingOpen module memorySize (splitAtCall (linkAddress memorySize) target { selection with
      syllables := selection.syllables ++ argMoves 0 values ++ [saveLink (linkAddress memorySize)] }) := by
  obtain ⟨lead, body, isSyllables, saves, isLead⟩ := saving.fits
  have caller : FitsAt memorySize selection.mirBlocks selection.mirBlocks.length
      ⟨selection.currentMirLabel,
        selection.syllables ++ argMoves 0 values ++ [saveLink (linkAddress memorySize)],
        .directCall target (contLabel selection)⟩ := by
    refine ⟨lead, body ++ argMoves 0 values ++ [saveLink (linkAddress memorySize)], ?_, ?_, isLead⟩
    · have isSyllables : selection.syllables = lead ++ body := isSyllables
      simp [isSyllables]
    · exact ⟨body ++ argMoves 0 values, [], rfl,
        List.forall_mem_append.mpr ⟨saves, avoidsLink_argMoves few⟩, by simp⟩
  refine ⟨⟨saving.saved.snoc caller, ?_, saving.pointers⟩, ?_, by simp [splitAtCall]⟩
  · refine List.forall_mem_append.mpr ⟨saving.defined, List.forall_mem_singleton.mpr ?_⟩
    intro callee cont isCall
    obtain ⟨rfl, -⟩ := Terminator.directCall.inj isCall
    exact defined
  · exact ⟨[restoreLink (linkAddress memorySize)], [], rfl, fun _ nothing => absurd nothing (by simp),
      .inl ⟨rfl, selection.mirBlocks.length, _, target, by simp [splitAtCall],
        List.getElem?_concat_length, rfl⟩⟩

theorem SavingOpen.afterInstruction (saving : SavingOpen module memorySize selection)
    (lowered : lowerInstruction module memorySize labelAt label selection instruction =
      .ok after) : SavingOpen module memorySize after := by
  have effect := control_of_lowerInstruction lowered
  have pointers := saving.pointers_afterInstruction lowered
  have added : isCall instruction = false → Adds selection after := fun notCall =>
    saving.toSaving.adds notCall lowered
  cases isOperation : instruction.operation with
  | call callee arguments =>
      rw [lowerInstruction, isOperation] at lowered
      obtain ⟨target, values, ⟨-, defined, few, isValues, -⟩, rfl⟩ := lowerCall_eq_ok lowered
      have sameLength : values.length = arguments.length :=
        (mapM_eq_ok_iff.mp isValues).length_eq.symm
      have called := saving.afterCall defined (sameLength ▸ few)
      dsimp only
      split
      · exact called
      · refine called.afterPlain ((Adds.same rfl).push rfl ⟨by simp, ?_⟩) rfl rfl called.pointers
          called.noCall
        simp [retvalReg, linkReg]
  | phi incoming =>
      rw [isOperation] at effect
      obtain ⟨raw, -, same⟩ := effect
      refine saving.afterPlain (added (by rw [isCall, isOperation]))
        (congrArg Control.mirBlocks same) (congrArg Control.currentMirLabel same) pointers ?_
      rw [show after.terminator = selection.terminator from congrArg Control.terminator same]
      exact saving.noCall
  | condBr cond ifTrue ifFalse =>
      rw [isOperation] at effect
      obtain ⟨trueLabel, falseLabel, vreg, -, -, same⟩ := effect
      refine saving.afterPlain (added (by rw [isCall, isOperation]))
        (congrArg Control.mirBlocks same) (congrArg Control.currentMirLabel same) pointers ?_
      rw [show after.terminator = _ from congrArg Control.terminator same]
      simp
  | br target =>
      rw [isOperation] at effect
      obtain ⟨targetLabel, -, same⟩ := effect
      refine saving.afterPlain (added (by rw [isCall, isOperation]))
        (congrArg Control.mirBlocks same) (congrArg Control.currentMirLabel same) pointers ?_
      rw [show after.terminator = _ from congrArg Control.terminator same]
      simp
  | ret value =>
      rw [isOperation] at effect
      refine saving.afterPlain (added (by rw [isCall, isOperation]))
        (congrArg Control.mirBlocks effect) (congrArg Control.currentMirLabel effect) pointers ?_
      rw [show after.terminator = _ from congrArg Control.terminator effect]
      simp
  | _ =>
      rw [isOperation] at effect
      refine saving.afterPlain (added (by rw [isCall, isOperation]))
        (congrArg Control.mirBlocks effect) (congrArg Control.currentMirLabel effect) pointers ?_
      rw [show after.terminator = selection.terminator from congrArg Control.terminator effect]
      exact saving.noCall

theorem SavingOpen.afterInstructions {instructions : List Instruction}
    (saving : SavingOpen module memorySize selection)
    (lowered : instructions.foldlM (lowerInstruction module memorySize labelAt label) selection =
      .ok after) : SavingOpen module memorySize after := by
  induction instructions generalizing selection with
  | nil =>
      cases lowered
      exact saving
  | cons instruction instructions ih =>
      rw [List.foldlM_cons] at lowered
      obtain ⟨middle, first, rest⟩ := bind_eq_ok.mp lowered
      exact ih (saving.afterInstruction first) rest

/-- A jump or branch leads to the other successor. -/
def Aimed (selection : Selection) : Prop :=
  ∀ target, Targets selection.terminator target → selection.trueSucc = some target

theorem Aimed.congr (aimed : Aimed selection) (sameEnd : after.terminator = selection.terminator)
    (sameSucc : after.trueSucc = selection.trueSucc) : Aimed after := by
  unfold Aimed
  rw [sameEnd, sameSucc]
  exact aimed

theorem aimed_of_neither (noTarget : ∀ target, after.terminator ≠ .jump target ∧
    ∀ cond, after.terminator ≠ .branch cond target) : Aimed after := by
  rintro target (isJump | ⟨cond, isBranch⟩)
  · exact absurd isJump (noTarget target).1
  · exact absurd isBranch ((noTarget target).2 cond)

theorem Aimed.afterInstruction (aimed : Aimed selection)
    (lowered : lowerInstruction module memorySize labelAt label selection instruction =
      .ok after) : Aimed after := by
  have effect := control_of_lowerInstruction lowered
  cases isOperation : instruction.operation with
  | phi incoming =>
      rw [isOperation] at effect
      obtain ⟨raw, -, same⟩ := effect
      exact aimed.congr (congrArg Control.terminator same) (congrArg Control.trueSucc same)
  | condBr cond ifTrue ifFalse =>
      rw [isOperation] at effect
      obtain ⟨trueLabel, falseLabel, vreg, -, -, same⟩ := effect
      have isEnd : after.terminator = _ := congrArg Control.terminator same
      have isTrue : after.trueSucc = _ := congrArg Control.trueSucc same
      unfold Aimed Targets
      rw [isEnd, isTrue]
      simp
  | br target =>
      rw [isOperation] at effect
      obtain ⟨targetLabel, -, same⟩ := effect
      have isEnd : after.terminator = _ := congrArg Control.terminator same
      have isTrue : after.trueSucc = _ := congrArg Control.trueSucc same
      unfold Aimed Targets
      rw [isEnd, isTrue]
      simp
  | call callee arguments =>
      rw [isOperation] at effect
      obtain ⟨block, -, same⟩ := effect
      have isEnd : after.terminator = _ := congrArg Control.terminator same
      exact aimed_of_neither (by rw [isEnd]; simp)
  | ret value =>
      rw [isOperation] at effect
      have isEnd : after.terminator = _ := congrArg Control.terminator effect
      exact aimed_of_neither (by rw [isEnd]; simp)
  | _ =>
      rw [isOperation] at effect
      exact aimed.congr (congrArg Control.terminator effect) (congrArg Control.trueSucc effect)

theorem Aimed.afterInstructions {instructions : List Instruction} (aimed : Aimed selection)
    (lowered : instructions.foldlM (lowerInstruction module memorySize labelAt label) selection =
      .ok after) : Aimed after := by
  induction instructions generalizing selection with
  | nil =>
      cases lowered
      exact aimed
  | cons instruction instructions ih =>
      rw [List.foldlM_cons] at lowered
      obtain ⟨middle, first, rest⟩ := bind_eq_ok.mp lowered
      exact ih (aimed.afterInstruction first) rest

/-! ### Blocks -/

theorem SavingOpen.begin (saving : Saving module memorySize selection)
    (closed : ∀ cont, ¬CallBefore selection.mirBlocks selection.mirBlocks.length cont)
    (label : String) : SavingOpen module memorySize (selection.begin label) where
  saved := saving.saved
  defined := saving.defined
  pointers := saving.pointers
  fits := ⟨[], [], rfl, fun _ nothing => absurd nothing (by simp), .inr ⟨rfl, closed⟩⟩
  noCall := by simp [Selection.begin]

theorem SavingOpen.finish (saving : SavingOpen module memorySize selection) :
    Saving module memorySize selection.finish ∧ ∀ cont, ¬CallBefore selection.finish.mirBlocks
      selection.finish.mirBlocks.length cont := by
  obtain ⟨lead, body, isSyllables, saves, isLead⟩ := saving.fits
  have ends : SavesLink memorySize selection.terminator body := by
    cases isEnd : selection.terminator with
    | directCall callee cont => exact absurd isEnd (saving.noCall callee cont)
    | branch | jump | ret => exact saves
  refine ⟨⟨saving.saved.snoc ⟨lead, body, isSyllables, ends, isLead⟩, ?_, saving.pointers⟩,
    fun cont => not_callBefore_snoc saving.noCall⟩
  refine List.forall_mem_append.mpr ⟨saving.defined, List.forall_mem_singleton.mpr ?_⟩
  exact fun callee cont isCall => absurd isCall (saving.noCall callee cont)

variable {function : Llvm.Function}

/-- The blocks of an LLVM block lead to its successors. -/
theorem targets_of_lowerBlock {block : Llvm.Block} (isBlock : bbOf function label = some block)
    (lowered : lowerBlock module memorySize function label block selection = .ok after) :
    ∃ chunk, after.mirBlocks = selection.mirBlocks ++ chunk ∧
      chunk.head?.map (·.label) = some label ∧
      ∀ block ∈ chunk, ∀ target, Targets block.terminator target →
        Worklist.Edge (successorsOf function) label target := by
  have finished := finished_of_lowerBlock isBlock lowered
  obtain ⟨chunk, isChunk, labels⟩ := finished.blocks
  refine ⟨chunk, isChunk, ?_, ?_⟩
  · rw [← List.head?_map, labels]
    exact head?_chunkLabels _ _ _
  · have successors := finished.successors
    obtain ⟨final, folded, lowered⟩ := bind_eq_ok.mp lowered
    cases lowered
    obtain ⟨front, isFront, linked⟩ := chained_of_foldlM folded
    have isAll : chunk = front ++ [⟨final.currentMirLabel, final.syllables, final.terminator⟩] := by
      rw [Selection.finish, isFront, List.append_assoc] at isChunk
      exact (List.append_cancel_left isChunk).symm
    rw [isAll]
    refine List.forall_mem_append.mpr ⟨?_, List.forall_mem_singleton.mpr ?_⟩
    · intro other otherMem target isTarget
      obtain ⟨callee, next, isCall⟩ := linked.calls (outline other) (List.mem_map_of_mem otherMem)
      have isCall : other.terminator = .directCall callee next := isCall
      rcases isTarget with same | ⟨cond, same⟩
      · cases same.symm.trans isCall
      · cases same.symm.trans isCall
    · intro target isTarget
      have begun : Aimed (selection.begin label) := aimed_of_neither (by simp [Selection.begin])
      have isLater := begun.afterInstructions folded target isTarget
      exact .inr (by rw [← successors]; exact isLater)

end

/-- The loop over the worklist while blocks save and restore the link register. -/
structure SavingLoop (module : Llvm.Module) (memorySize : Nat) (function : Llvm.Function)
    (traversal : Traversal) : Prop extends Saving module memorySize traversal.selection where
  closed : ∀ cont, ¬CallBefore traversal.selection.mirBlocks
    traversal.selection.mirBlocks.length cont
  targets : ∀ block ∈ traversal.selection.mirBlocks, ∀ target, Targets block.terminator target →
    target ∈ traversal.visited ∨
      ∃ origin ∈ traversal.visited, Worklist.Edge (successorsOf function) origin target
  firsts : ∀ label ∈ traversal.visited, ∃ (idx : Nat) (block : Block),
    traversal.selection.mirBlocks[idx]? = some block ∧ block.label = label ∧
      ∀ cont, ¬CallBefore traversal.selection.mirBlocks idx cont

section

variable {module : Llvm.Module} {memorySize : Nat} {function : Llvm.Function} {label : String}
  {traversal after : Traversal}

theorem SavingLoop.start (begun : initialTraversal function = .ok traversal) :
    SavingLoop module memorySize function traversal := by
  obtain ⟨entry, selection, -, bound, rfl⟩ := initialTraversal_eq_ok begun
  injection control_of_bindParams bound with noPhis noCalls noBlocks
  have isNil : selection.mirBlocks = [] := noBlocks
  obtain ⟨-, noGeps, -⟩ := bound_of_bindParams bound
  refine ⟨⟨?_, by simp [isNil], ?_⟩, ?_, by simp [isNil], by simp⟩
  · simp [LinkSaved, isNil]
  · intro key base offset found
    rw [noGeps] at found
    cases found
  · rintro cont ⟨j, block, callee, -, isBlock, -⟩
    simp [isNil] at isBlock

/-- A latch jumps to a block visited before. -/
theorem SavingLoop.addLatch (saving : SavingLoop module memorySize function traversal)
    (latch : String) {target : String} (isVisited : target ∈ traversal.visited) :
    SavingLoop module memorySize function { traversal with
      selection := { traversal.selection with
        mirBlocks := traversal.selection.mirBlocks ++ [⟨latch, [], .jump target⟩] } } where
  saved := saving.saved.snoc
    ⟨[], [], rfl, fun _ nothing => absurd nothing (by simp), .inr ⟨rfl, saving.closed⟩⟩
  defined := List.forall_mem_append.mpr ⟨saving.defined, List.forall_mem_singleton.mpr (by simp)⟩
  pointers := saving.pointers
  closed := fun cont => not_callBefore_snoc (by simp)
  targets := by
    refine List.forall_mem_append.mpr ⟨saving.targets, List.forall_mem_singleton.mpr ?_⟩
    rintro other (isJump | ⟨cond, isBranch⟩)
    · cases isJump
      exact .inl isVisited
    · cases isBranch
  firsts := by
    intro label labelMem
    obtain ⟨idx, block, isBlock, isLabel, noCall⟩ := saving.firsts label labelMem
    have inside := (List.getElem?_eq_some_iff.mp isBlock).1
    refine ⟨idx, block, ?_, isLabel, fun cont before => ?_⟩
    · exact (List.getElem?_append_left inside).trans isBlock
    · exact noCall cont ((callBefore_append inside.le).mp before)

theorem SavingLoop.congr (saving : SavingLoop module memorySize function traversal)
    (sameSelection : after.selection = traversal.selection)
    (sameVisited : after.visited = traversal.visited) :
    SavingLoop module memorySize function after := by
  obtain ⟨basic, closed, targets, firsts⟩ := saving
  constructor
  · rw [sameSelection]
    exact basic
  · rw [sameSelection]
    exact closed
  · rw [sameSelection, sameVisited]
    exact targets
  · rw [sameSelection, sameVisited]
    exact firsts

theorem SavingLoop.afterBlock (saving : SavingLoop module memorySize function traversal)
    {block : Llvm.Block} {selection : Selection} (isBlock : bbOf function label = some block)
    (lowered : lowerBlock module memorySize function label block traversal.selection =
      .ok selection) :
    SavingLoop module memorySize function { traversal with
      selection := selection
      visited := traversal.visited ++ [label] } := by
  obtain ⟨chunk, isChunk, isFirst, leads⟩ := targets_of_lowerBlock isBlock lowered
  obtain ⟨final, folded, finished⟩ := bind_eq_ok.mp lowered
  cases finished
  obtain ⟨basic, closed⟩ :=
    ((SavingOpen.begin saving.toSaving saving.closed label).afterInstructions folded).finish
  have isChunk : final.finish.mirBlocks = traversal.selection.mirBlocks ++ chunk := isChunk
  refine ⟨basic, closed, ?_, ?_⟩
  · dsimp only
    rw [isChunk]
    refine List.forall_mem_append.mpr ⟨?_, ?_⟩
    · intro other otherMem target isTarget
      rcases saving.targets other otherMem target isTarget with isVisited | ⟨origin, originMem, edge⟩
      · exact .inl (List.mem_append_left _ isVisited)
      · exact .inr ⟨origin, List.mem_append_left _ originMem, edge⟩
    · intro other otherMem target isTarget
      exact .inr ⟨label, by simp, leads other otherMem target isTarget⟩
  · dsimp only
    rw [isChunk]
    refine List.forall_mem_append.mpr ⟨?_, List.forall_mem_singleton.mpr ?_⟩
    · intro other otherMem
      obtain ⟨idx, first, isBlock, isLabel, noCall⟩ := saving.firsts other otherMem
      have inside := (List.getElem?_eq_some_iff.mp isBlock).1
      exact ⟨idx, first, (List.getElem?_append_left inside).trans isBlock, isLabel,
        fun cont before => noCall cont ((callBefore_append inside.le).mp before)⟩
    · obtain ⟨first, isHead, isLabel⟩ := Option.map_eq_some_iff.mp isFirst
      refine ⟨traversal.selection.mirBlocks.length, first, ?_, isLabel, fun cont before => ?_⟩
      · rw [List.getElem?_append_right (Nat.le_refl _), Nat.sub_self, ← List.head?_eq_getElem?]
        exact isHead
      · exact saving.closed cont ((callBefore_append (Nat.le_refl _)).mp before)

theorem LoopState.saving (state : LoopState module memorySize function traversal) :
    SavingLoop module memorySize function traversal := by
  induction state with
  | start begun => exact .start begun
  | skip _ _ _ ih => exact ih.congr rfl rfl
  | @visit current after label rest _ _ _ visited ih =>
      obtain ⟨block, selection, isBlock, lowered, enqueued⟩ := visitBlock_eq_ok visited
      have afterBlock := ih.afterBlock isBlock lowered
      have isSelection := enqueued.rest
      have isBlocks := enqueued.mirBlocks
      dsimp only at isSelection isBlocks
      cases isNext : (successorsOf function label).next with
      | none =>
          rw [isNext, List.append_nil] at isBlocks
          exact afterBlock.congr (by rw [isSelection, isBlocks]) enqueued.visited
      | some target =>
          rw [isNext] at isBlocks
          dsimp only at isBlocks
          by_cases isVisited : target ∈ current.visited ++ [label]
          · rw [if_pos isVisited] at isBlocks
            exact (afterBlock.addLatch (label ++ "__latch__" ++ target) isVisited).congr
              (by rw [isSelection, isBlocks]) enqueued.visited
          · rw [if_neg isVisited, List.append_nil] at isBlocks
            exact afterBlock.congr (by rw [isSelection, isBlocks]) enqueued.visited

/-! ### Lowered functions -/

/-- Only terminators matter for calls. -/
theorem callBefore_congr {blocks blocks' : List Block}
    (same : blocks.map outline = blocks'.map outline) {idx : Nat} {cont : String}
    (before : CallBefore blocks idx cont) : CallBefore blocks' idx cont := by
  obtain ⟨j, caller, callee, rfl, isCaller, isCall⟩ := before
  have isOutline : (blocks'.map outline)[j]? = some (outline caller) := by
    rw [← same, List.getElem?_map, isCaller]
    rfl
  rw [List.getElem?_map] at isOutline
  obtain ⟨caller', isCaller', sameOutline⟩ := Option.map_eq_some_iff.mp isOutline
  exact ⟨j, caller', callee, rfl, isCaller',
    (congrArg Outline.terminator sameOutline).trans isCall⟩

/-- The code of a function as far as the link register and control flow matter: calls
and jumps lead to blocks of the function, and only a call leads to the block after
it. -/
structure LinkedCode (module : Llvm.Module) (memorySize : Nat) (blocks : List Block) : Prop where
  saved : LinkSaved memorySize blocks
  defined : ∀ block ∈ blocks, ∀ callee cont, block.terminator = .directCall callee cont →
    Llvm.countBasicBlocks module callee ≠ 0
  call : ∀ (idx : Nat) (block : Block) (callee cont : String), blocks[idx]? = some block →
    block.terminator = .directCall callee cont →
      ∃ next, blocks[idx + 1]? = some next ∧ next.label = cont
  targets : ∀ block ∈ blocks, ∀ target, Targets block.terminator target →
    ∃ (idx : Nat) (other : Block), blocks[idx]? = some other ∧ other.label = target ∧
      ∀ cont, ¬CallBefore blocks idx cont
  nonempty : blocks ≠ []

theorem avoidsLink_syllableForCopy (dst : Nat) (src : CopySrc) :
    AvoidsLink (syllableForCopy dst src) ∧
      (syllableForCopy dst src).opcode.behavior = .compute := by
  cases src with
  | const value => exact ⟨⟨by simp [syllableForCopy], by simp [syllableForCopy]⟩, rfl⟩
  | vreg index => exact ⟨⟨by simp [syllableForCopy], by simp [syllableForCopy]⟩, rfl⟩

theorem SavesLink.append {terminator : Terminator} {body code : List Syllable}
    (saves : SavesLink memorySize terminator body)
    (copies : ∀ syllable ∈ code, AvoidsLink syllable ∧ syllable.opcode.behavior = .compute) :
    SavesLink memorySize terminator (body ++ code) := by
  cases terminator with
  | directCall callee cont =>
      obtain ⟨front, back, rfl, frontAvoids, backAvoids⟩ := saves
      exact ⟨front, back ++ code, by simp, frontAvoids,
        List.forall_mem_append.mpr ⟨backAvoids, copies⟩⟩
  | branch | jump | ret =>
      exact List.forall_mem_append.mpr ⟨saves, fun syllable syllableMem =>
        (copies syllable syllableMem).1⟩

theorem Copied.linkSaved {table : CopyTable} {blocks : List Block}
    (copied : Copied traversal table blocks)
    (saved : LinkSaved memorySize traversal.selection.mirBlocks) : LinkSaved memorySize blocks := by
  intro idx block isBlock
  have inside : idx < traversal.selection.mirBlocks.length :=
    copied.length ▸ (List.getElem?_eq_some_iff.mp isBlock).1
  have isMir := List.getElem?_eq_getElem inside
  obtain ⟨code, isCode, isCopies⟩ := copied.block idx _ isMir
  obtain rfl := Option.some.inj (isCode.symm.trans isBlock)
  have copies : ∀ syllable ∈ code, AvoidsLink syllable ∧ syllable.opcode.behavior = .compute := by
    rcases isCopies with rfl | ⟨label, copies, nextVreg, next, -, -, ordered⟩
    · simp
    · intro syllable syllableMem
      obtain ⟨dst, src, rfl, -⟩ :=
        (moves_of_serializeParallelCopies ordered).sound syllable syllableMem
      exact avoidsLink_syllableForCopy dst src
  obtain ⟨lead, body, isSyllables, saves, isLead⟩ := saved idx _ isMir
  refine ⟨lead, body ++ code, by rw [isSyllables, List.append_assoc], saves.append copies, ?_⟩
  rcases isLead with ⟨isLead, before⟩ | ⟨isLead, noCall⟩
  · exact .inl ⟨isLead, callBefore_congr copied.outlines.symm before⟩
  · exact .inr ⟨isLead, fun cont before => noCall cont (callBefore_congr copied.outlines before)⟩

/-- A block has the same label and terminator in another list with the same
outlines. -/
theorem exists_of_outlines {blocks blocks' : List Block}
    (same : blocks.map outline = blocks'.map outline) {idx : Nat} {block : Block}
    (isBlock : blocks[idx]? = some block) :
    ∃ block', blocks'[idx]? = some block' ∧ block'.label = block.label ∧
      block'.terminator = block.terminator := by
  have isOutline : (blocks'.map outline)[idx]? = some (outline block) := by
    rw [← same, List.getElem?_map, isBlock]
    rfl
  rw [List.getElem?_map] at isOutline
  obtain ⟨block', isBlock', sameOutline⟩ := Option.map_eq_some_iff.mp isOutline
  exact ⟨block', isBlock', congrArg Outline.label sameOutline,
    congrArg Outline.terminator sameOutline⟩

/-- Lowered functions save and restore the link register. -/
theorem linkedCode_of_lowerFunction {order : CopyOrder} {lowered : Mir.Function}
    (hasEntry : function.blocks ≠ [])
    (isLowered : lowerFunction order module memorySize function = .ok lowered) :
    LinkedCode module memorySize lowered.blocks := by
  obtain ⟨traversal, table, isSelected, -, copied⟩ := lowerFunction_eq_ok isLowered
  obtain ⟨-, isVisited⟩ := laidOut_of_selectFunction isSelected
  have saving := (loopState_of_selectFunction hasEntry isSelected).saving
  have saved := copied.linkSaved saving.saved
  refine ⟨saved, ?_, ?_, ?_, ?_⟩
  · intro block blockMem callee cont isCall
    obtain ⟨idx, isBlock⟩ := List.mem_iff_getElem?.mp blockMem
    obtain ⟨mir, isMir, -, sameEnd⟩ := exists_of_outlines copied.outlines isBlock
    exact saving.defined mir (List.mem_of_getElem? isMir) callee cont (sameEnd.trans isCall)
  · intro idx block callee cont isBlock isCall
    have before : CallBefore lowered.blocks (idx + 1) cont :=
      ⟨idx, block, callee, rfl, isBlock, isCall⟩
    cases isNext : lowered.blocks[idx + 1]? with
    | none =>
        have outside := List.getElem?_eq_none_iff.mp isNext
        have inside := (List.getElem?_eq_some_iff.mp isBlock).1
        have isEnd : idx + 1 = traversal.selection.mirBlocks.length := by
          rw [copied.length] at outside inside
          omega
        rw [isEnd] at before
        exact absurd (callBefore_congr copied.outlines before) (saving.closed cont)
    | some next =>
        obtain ⟨lead, body, -, -, ⟨-, isLabel⟩ | ⟨-, noCall⟩⟩ := saved (idx + 1) next isNext
        · exact ⟨next, rfl, isLabel.unique before⟩
        · exact absurd before (noCall cont)
  · intro block blockMem target isTarget
    obtain ⟨idx, isBlock⟩ := List.mem_iff_getElem?.mp blockMem
    obtain ⟨mir, isMir, -, sameEnd⟩ := exists_of_outlines copied.outlines isBlock
    have targetMem : target ∈ traversal.visited := by
      rcases saving.targets mir (List.mem_of_getElem? isMir) target (sameEnd ▸ isTarget) with
        isOld | ⟨origin, originMem, edge⟩
      · exact isOld
      · rw [isVisited] at originMem ⊢
        exact mem_blockOrder_of_edge hasEntry originMem edge
    obtain ⟨first, firstMir, isFirst, isLabel, noCall⟩ := saving.firsts target targetMem
    obtain ⟨other, isOther, sameLabel, -⟩ := exists_of_outlines copied.outlines.symm isFirst
    exact ⟨first, other, isOther, sameLabel.trans isLabel,
      fun cont before => noCall cont (callBefore_congr copied.outlines before)⟩
  · obtain ⟨entry, isEntry⟩ := exists_label (List.length_pos_iff.mpr hasEntry)
    have entryMem : entry ∈ traversal.visited := isVisited ▸ entry_mem_blockOrder isEntry
    obtain ⟨first, firstMir, isFirst, -⟩ := saving.firsts entry entryMem
    obtain ⟨other, isOther, -⟩ := exists_of_outlines copied.outlines.symm isFirst
    exact List.ne_nil_of_mem (List.mem_of_getElem? isOther)

end

end VliwCompiler.Isel
