import VliwCompiler.Isel.Traversal

/-!
# Registers of values

Every virtual register is taken for one value, or for a constant.  Two values
never share a register.
-/

namespace VliwCompiler.Isel

open Llvm (ValueRef Operand Instruction)

/-- The registers an instruction takes: new ones, of which at most one is bound
to its value. -/
structure Takes (instruction : Instruction) (selection after : Selection) : Prop where
  next : selection.nextVreg ≤ after.nextVreg
  bound : after.vregMap = selection.vregMap ∨ ∃ v, selection.nextVreg ≤ v ∧ v < after.nextVreg ∧
    after.vregMap = selection.vregMap.insert instruction.ref v

theorem takes_of_lowerOperand {operand : Operand} {selection after : Selection}
    {value : Mir.Value} (lowered : lowerOperand operand selection = .ok (value, after)) :
    selection.nextVreg ≤ after.nextVreg ∧ after.vregMap = selection.vregMap := by
  unfold lowerOperand at lowered
  split at lowered
  · cases lowered
    exact ⟨Nat.le_succ _, rfl⟩
  · obtain ⟨vreg, -, same⟩ := bind_eq_ok.mp lowered
    cases same
    exact ⟨Nat.le_refl _, rfl⟩
  · cases lowered

/-- A pointer is a constant address, a folded address or the register of its
value. -/
theorem lowerPtrOperand_eq_ok {operand : Operand} {selection : Selection} {base : Mir.Value}
    {offset : Asm.I64} (lowered : lowerPtrOperand operand selection = .ok (base, offset)) :
    (∃ bits value, operand = .constAddress bits value ∧ base = .imm value ∧ offset = 0) ∨
      ∃ key, operand = .ref key .ptr ∧ (selection.gepMap.lookup key = some (base, offset) ∨
        selection.gepMap.lookup key = none ∧ ∃ vreg, selection.vregMap.lookup key = some vreg ∧
          base = .reg (.vreg vreg) ∧ offset = 0) := by
  cases operand with
  | constInt bits value => cases lowered
  | constCast => cases lowered
  | constAddress bits value =>
      obtain ⟨isBase, isOffset⟩ := Prod.mk.inj (Except.ok.inj lowered)
      exact .inl ⟨bits, value, rfl, isBase.symm, isOffset.symm⟩
  | const type => cases type <;> cases lowered
  | ref key type =>
      cases type with
      | ptr =>
          refine .inr ⟨key, rfl, ?_⟩
          unfold lowerPtrOperand at lowered
          dsimp only at lowered
          split at lowered
          · rename_i isFolded
            exact .inl (isFolded.trans (congrArg some (Except.ok.inj lowered)))
          · rename_i vreg notFolded isBound
            obtain ⟨isBase, isOffset⟩ := Prod.mk.inj (Except.ok.inj lowered)
            exact .inr ⟨notFolded, vreg, isBound, isBase.symm, isOffset.symm⟩
          · cases lowered
      | _ => cases lowered

/-- The value of the instruction has a register of its own. -/
def binds (instruction : Instruction) : Bool :=
  match instruction.operation with
  | .phi _ | .icmp _ _ _ | .binary _ _ _ | .load _ => true
  | .call _ _ => instruction.type ≠ .void
  | _ => false

/-- The instruction is folded into the memory accesses that use it. -/
def folds (instruction : Instruction) : Bool :=
  match instruction.operation with
  | .getElementPtr _ _ _ => true
  | _ => false

/-- What an instruction records about its value. -/
structure Records (instruction : Instruction) (selection after : Selection) : Prop where
  next : selection.nextVreg ≤ after.nextVreg
  vregs : if binds instruction = true then
      ∃ v, selection.nextVreg ≤ v ∧ v < after.nextVreg ∧
        after.vregMap = selection.vregMap.insert instruction.ref v
    else after.vregMap = selection.vregMap
  geps : folds instruction = false → after.gepMap = selection.gepMap
  folded : ∀ element base indices, instruction.operation = .getElementPtr element base indices →
    ∃ baseVal baseOffset elemBytes totalOffset,
      lowerPtrOperand base selection = .ok (baseVal, baseOffset) ∧
      intTypeByteSize element = .ok elemBytes ∧
      indices.foldlM (foldIndex elemBytes) baseOffset = .ok totalOffset ∧
      after.gepMap = selection.gepMap.insert instruction.ref (baseVal, totalOffset)

section

variable {module : Llvm.Module} {memorySize : Nat} {labelAt : Llvm.BlockRef → Outcome String}
  {label : String} {selection after : Selection} {instruction : Instruction}

/-- Binding the next register. -/
theorem Records.bindVreg (middle : Selection) (older : selection.nextVreg ≤ middle.nextVreg)
    (sameVregs : middle.vregMap = selection.vregMap)
    (isNext : after.nextVreg = middle.nextVreg + 1)
    (isBound : after.vregMap = middle.vregMap.insert instruction.ref middle.nextVreg)
    (sameGeps : after.gepMap = selection.gepMap) (bindsValue : binds instruction = true) :
    Records instruction selection after where
  next := by omega
  vregs := by
    rw [if_pos bindsValue]
    exact ⟨middle.nextVreg, older, by omega, by rw [isBound, sameVregs]⟩
  geps := fun _ => sameGeps
  folded := by
    intro element base indices isFold
    rw [binds, isFold] at bindsValue
    cases bindsValue

theorem Records.unchanged (isNext : selection.nextVreg ≤ after.nextVreg)
    (sameVregs : after.vregMap = selection.vregMap) (sameGeps : after.gepMap = selection.gepMap)
    (noValue : binds instruction = false) (notFolded : folds instruction = false) :
    Records instruction selection after where
  next := isNext
  vregs := by simpa [noValue] using sameVregs
  geps := fun _ => sameGeps
  folded := by
    intro element base indices isFold
    rw [folds, isFold] at notFolded
    cases notFolded

theorem gepMap_of_lowerOperand {operand : Operand} {value : Mir.Value}
    (lowered : lowerOperand operand selection = .ok (value, after)) :
    after.gepMap = selection.gepMap := by
  unfold lowerOperand at lowered
  split at lowered
  · cases lowered
    rfl
  · obtain ⟨vreg, -, same⟩ := bind_eq_ok.mp lowered
    cases same
    rfl
  · cases lowered

/-- What an instruction does to the registers of values and to folded pointers. -/
theorem records_of_lowerInstruction
    (lowered : lowerInstruction module memorySize labelAt label selection instruction =
      .ok after) : Records instruction selection after := by
  unfold lowerInstruction at lowered
  cases isOperation : instruction.operation with
  | phi incoming =>
      rw [isOperation] at lowered
      obtain ⟨raw, -, lowered⟩ := bind_eq_ok.mp lowered
      cases lowered
      exact .bindVreg _ (Nat.le_refl _) rfl rfl rfl rfl (by simp [binds, isOperation])
  | ret value =>
      rw [isOperation] at lowered
      dsimp only at lowered
      have noValue : binds instruction = false := by simp [binds, isOperation]
      have notFolded : folds instruction = false := by simp [folds, isOperation]
      unfold lowerReturn at lowered
      split at lowered
      · cases lowered
        exact .unchanged (Nat.le_refl _) rfl rfl noValue notFolded
      · obtain ⟨vreg, -, lowered⟩ := bind_eq_ok.mp lowered
        cases lowered
        exact .unchanged (Nat.le_refl _) rfl rfl noValue notFolded
      · cases lowered
        exact .unchanged (Nat.le_refl _) rfl rfl noValue notFolded
  | condBr cond ifTrue ifFalse =>
      rw [isOperation] at lowered
      obtain ⟨trueLabel, -, lowered⟩ := bind_eq_ok.mp lowered
      obtain ⟨falseLabel, -, lowered⟩ := bind_eq_ok.mp lowered
      obtain ⟨vreg, -, lowered⟩ := bind_eq_ok.mp lowered
      cases lowered
      exact .unchanged (Nat.le_refl _) rfl rfl (by simp [binds, isOperation])
        (by simp [folds, isOperation])
  | br target =>
      rw [isOperation] at lowered
      obtain ⟨targetLabel, -, lowered⟩ := bind_eq_ok.mp lowered
      cases lowered
      exact .unchanged (Nat.le_refl _) rfl rfl (by simp [binds, isOperation])
        (by simp [folds, isOperation])
  | call callee arguments =>
      rw [isOperation] at lowered
      obtain ⟨target, values, -, isAfter⟩ := lowerCall_eq_ok lowered
      dsimp only at isAfter
      split at isAfter
      · rename_i isVoid
        subst isAfter
        exact .unchanged (Nat.le_refl _) rfl rfl (by simp [binds, isOperation, isVoid])
          (by simp [folds, isOperation])
      · rename_i notVoid
        subst isAfter
        exact .bindVreg _ (Nat.le_refl _) rfl rfl rfl rfl (by simp [binds, isOperation, notVoid])
  | icmp predicate lhs rhs =>
      rw [isOperation] at lowered
      obtain ⟨⟨left, first⟩, isLeft, lowered⟩ := bind_eq_ok.mp lowered
      obtain ⟨⟨right, second⟩, isRight, lowered⟩ := bind_eq_ok.mp lowered
      obtain ⟨⟨opcode, swapped⟩, -, lowered⟩ := bind_eq_ok.mp lowered
      obtain ⟨leftNext, leftSame⟩ := takes_of_lowerOperand isLeft
      obtain ⟨rightNext, rightSame⟩ := takes_of_lowerOperand isRight
      have same := rightSame.trans leftSame
      have sameGeps := (gepMap_of_lowerOperand isRight).trans (gepMap_of_lowerOperand isLeft)
      have bindsValue : binds instruction = true := by simp [binds, isOperation]
      dsimp only at lowered
      split at lowered
      · cases lowered
        refine .bindVreg { second with nextVreg := second.nextVreg + 1 } ?_ same rfl rfl sameGeps
          bindsValue
        exact Nat.le_succ_of_le (leftNext.trans rightNext)
      · cases lowered
        exact .bindVreg _ (leftNext.trans rightNext) same rfl rfl sameGeps bindsValue
  | binary op lhs rhs =>
      rw [isOperation] at lowered
      obtain ⟨⟨left, first⟩, isLeft, lowered⟩ := bind_eq_ok.mp lowered
      obtain ⟨⟨right, second⟩, isRight, lowered⟩ := bind_eq_ok.mp lowered
      obtain ⟨leftNext, leftSame⟩ := takes_of_lowerOperand isLeft
      obtain ⟨rightNext, rightSame⟩ := takes_of_lowerOperand isRight
      have sameGeps := (gepMap_of_lowerOperand isRight).trans (gepMap_of_lowerOperand isLeft)
      cases lowered
      exact .bindVreg _ (leftNext.trans rightNext) (rightSame.trans leftSame) rfl rfl sameGeps
        (by simp [binds, isOperation])
  | store value pointer =>
      rw [isOperation] at lowered
      obtain ⟨opcode, -, lowered⟩ := bind_eq_ok.mp lowered
      obtain ⟨⟨data, first⟩, isData, lowered⟩ := bind_eq_ok.mp lowered
      obtain ⟨⟨base, offset⟩, -, lowered⟩ := bind_eq_ok.mp lowered
      obtain ⟨dataNext, dataSame⟩ := takes_of_lowerOperand isData
      have sameGeps := gepMap_of_lowerOperand isData
      cases lowered
      exact .unchanged dataNext dataSame sameGeps (by simp [binds, isOperation])
        (by simp [folds, isOperation])
  | load pointer =>
      rw [isOperation] at lowered
      obtain ⟨opcode, -, lowered⟩ := bind_eq_ok.mp lowered
      obtain ⟨⟨base, offset⟩, -, lowered⟩ := bind_eq_ok.mp lowered
      cases lowered
      exact .bindVreg _ (Nat.le_refl _) rfl rfl rfl rfl (by simp [binds, isOperation])
  | getElementPtr element base indices =>
      rw [isOperation] at lowered
      obtain ⟨⟨baseVal, baseOffset⟩, isBase, lowered⟩ := bind_eq_ok.mp lowered
      obtain ⟨elemBytes, isElement, lowered⟩ := bind_eq_ok.mp lowered
      obtain ⟨totalOffset, isTotal, lowered⟩ := bind_eq_ok.mp lowered
      cases lowered
      refine ⟨Nat.le_refl _, by simp [binds, isOperation], by simp [folds, isOperation], ?_⟩
      intro otherElement otherBase otherIndices isSame
      cases isOperation.symm.trans isSame
      exact ⟨baseVal, baseOffset, elemBytes, totalOffset, isBase, isElement, isTotal, rfl⟩
  | invoke | atomic | other =>
      rw [isOperation] at lowered
      cases lowered

theorem takes_of_lowerInstruction
    (lowered : lowerInstruction module memorySize labelAt label selection instruction =
      .ok after) : Takes instruction selection after := by
  have records := records_of_lowerInstruction lowered
  refine ⟨records.next, ?_⟩
  have vregs := records.vregs
  split at vregs
  · exact .inr vregs
  · exact .inl vregs

/-- The phis collected by an instruction. -/
theorem pendingPhis_of_lowerInstruction
    (lowered : lowerInstruction module memorySize labelAt label selection instruction =
      .ok after) :
    after.pendingPhis = selection.pendingPhis ∨
      ∃ incoming raw, instruction.operation = .phi incoming ∧
        rawIncoming labelAt incoming = .ok raw ∧
        after = { selection.bindVreg instruction.ref with
          pendingPhis := selection.pendingPhis ++ [⟨label, selection.nextVreg, raw⟩] } := by
  have effect := control_of_lowerInstruction lowered
  cases isOperation : instruction.operation with
  | phi incoming =>
      unfold lowerInstruction at lowered
      rw [isOperation] at lowered
      obtain ⟨raw, isRaw, lowered⟩ := bind_eq_ok.mp lowered
      cases lowered
      exact .inr ⟨incoming, raw, rfl, isRaw, rfl⟩
  | condBr cond ifTrue ifFalse =>
      rw [isOperation] at effect
      obtain ⟨trueLabel, falseLabel, vreg, -, -, same⟩ := effect
      exact .inl (congrArg Control.pendingPhis same)
  | br target =>
      rw [isOperation] at effect
      obtain ⟨targetLabel, -, same⟩ := effect
      exact .inl (congrArg Control.pendingPhis same)
  | call callee arguments =>
      rw [isOperation] at effect
      obtain ⟨block, -, same⟩ := effect
      exact .inl (congrArg Control.pendingPhis same)
  | _ =>
      rw [isOperation] at effect
      exact .inl (congrArg Control.pendingPhis effect)

/-- Registers belong to values: `owner` gives the value of a register. -/
structure Owned (labelAt : Llvm.BlockRef → Outcome String) (instructions : List Instruction)
    (owner : Nat → Option ValueRef) (selection : Selection) : Prop where
  bound : ∀ ref v, selection.vregMap.lookup ref = some v →
    v < selection.nextVreg ∧ owner v = some ref
  phis : ∀ phi ∈ selection.pendingPhis, phi.dst < selection.nextVreg ∧
    ∃ instruction ∈ instructions, owner phi.dst = some instruction.ref ∧
      ∃ incoming, instruction.operation = .phi incoming ∧
        rawIncoming labelAt incoming = .ok phi.incoming
  dsts : (selection.pendingPhis.map (·.dst)).Nodup

/-- Ownership by more instructions and of more registers. -/
theorem Owned.extend {instructions more : List Instruction} {owner owner' : Nat → Option ValueRef}
    (owned : Owned labelAt instructions owner selection)
    (isNext : selection.nextVreg ≤ after.nextVreg)
    (samePhis : after.pendingPhis = selection.pendingPhis)
    (bound : ∀ ref v, after.vregMap.lookup ref = some v →
      v < after.nextVreg ∧ owner' v = some ref)
    (kept : ∀ v < selection.nextVreg, owner' v = owner v) :
    Owned labelAt (instructions ++ more) owner' after where
  bound := bound
  phis := by
    rw [samePhis]
    intro phi phiMem
    obtain ⟨inside, instruction, instructionMem, isOwner, isPhi⟩ := owned.phis phi phiMem
    exact ⟨by omega, instruction, List.mem_append_left _ instructionMem,
      (kept phi.dst inside).trans isOwner, isPhi⟩
  dsts := by
    rw [samePhis]
    exact owned.dsts

theorem Owned.afterInstruction {instructions : List Instruction} {owner : Nat → Option ValueRef}
    (owned : Owned labelAt instructions owner selection)
    (lowered : lowerInstruction module memorySize labelAt label selection instruction =
      .ok after) : ∃ owner', Owned labelAt (instructions ++ [instruction]) owner' after := by
  rcases pendingPhis_of_lowerInstruction lowered with samePhis | ⟨incoming, raw, isPhi, isRaw, rfl⟩
  · obtain ⟨isNext, sameVregs | ⟨v, older, newer, isBound⟩⟩ := takes_of_lowerInstruction lowered
    · refine ⟨owner, owned.extend isNext samePhis ?_ fun _ _ => rfl⟩
      intro ref v isRef
      rw [sameVregs] at isRef
      obtain ⟨inside, isOwner⟩ := owned.bound ref v isRef
      exact ⟨by omega, isOwner⟩
    · refine ⟨Function.update owner v (some instruction.ref), owned.extend isNext samePhis ?_ ?_⟩
      · intro ref w isRef
        rw [isBound] at isRef
        by_cases same : ref = instruction.ref
        · subst same
          rw [AList.lookup_insert] at isRef
          obtain rfl := Option.some.inj isRef
          exact ⟨newer, Function.update_self ..⟩
        · rw [AList.lookup_insert_ne same] at isRef
          obtain ⟨inside, isOwner⟩ := owned.bound ref w isRef
          have differ : w ≠ v := by omega
          exact ⟨by omega, by rw [Function.update_of_ne differ, isOwner]⟩
      · intro w inside
        exact Function.update_of_ne (by omega) ..
  · refine ⟨Function.update owner selection.nextVreg (some instruction.ref), ?_, ?_, ?_⟩
    · intro ref w isRef
      by_cases same : ref = instruction.ref
      · subst same
        rw [Selection.bindVreg, AList.lookup_insert] at isRef
        obtain rfl := Option.some.inj isRef
        exact ⟨Nat.lt_succ_self _, Function.update_self ..⟩
      · rw [Selection.bindVreg, AList.lookup_insert_ne same] at isRef
        obtain ⟨inside, isOwner⟩ := owned.bound ref w isRef
        have differ : w ≠ selection.nextVreg := by omega
        exact ⟨Nat.lt_succ_of_lt inside, by rw [Function.update_of_ne differ, isOwner]⟩
    · intro phi phiMem
      rcases List.mem_append.mp phiMem with isOld | isNew
      · obtain ⟨inside, other, otherMem, isOwner, rest⟩ := owned.phis phi isOld
        have differ : phi.dst ≠ selection.nextVreg := by omega
        exact ⟨Nat.lt_succ_of_lt inside, other, List.mem_append_left _ otherMem,
          by rw [Function.update_of_ne differ, isOwner], rest⟩
      · obtain rfl := List.mem_singleton.mp isNew
        exact ⟨Nat.lt_succ_self _, instruction, by simp, Function.update_self .., incoming, isPhi,
          isRaw⟩
    · rw [List.map_append, List.map_singleton]
      refine List.nodup_append.mpr ⟨owned.dsts, List.pairwise_singleton _ _, ?_⟩
      intro dst dstMem other otherMem
      obtain ⟨phi, phiMem, rfl⟩ := List.mem_map.mp dstMem
      rw [List.mem_singleton.mp otherMem]
      exact Nat.ne_of_lt (owned.phis phi phiMem).1

end

/-- The registers of parameters. -/
theorem bound_of_bindParams {params : List Llvm.Param} {selection : Selection}
    (bound : bindParams params = .ok selection) :
    selection.nextVreg = params.length ∧ selection.gepMap = ∅ ∧
      ∀ ref v, selection.vregMap.lookup ref = some v →
        ∃ param, params[v]? = some param ∧ param.ref = ref := by
  unfold bindParams at bound
  induction params using List.reverseRecOn generalizing selection with
  | nil =>
      cases bound
      exact ⟨rfl, rfl, by simp⟩
  | append_singleton params param ih =>
      rw [List.foldlM_append] at bound
      obtain ⟨middle, first, last⟩ := bind_eq_ok.mp bound
      obtain ⟨isNext, noGeps, isBound⟩ := ih first
      have isLast : selection = middle.bindVreg param.ref := by
        rw [List.foldlM_cons] at last
        obtain ⟨selected, isSelected, last⟩ := bind_eq_ok.mp last
        cases last
        split at isSelected <;> cases isSelected <;> rfl
      subst isLast
      refine ⟨by simp [Selection.bindVreg, isNext], noGeps, ?_⟩
      intro ref v isRef
      by_cases same : ref = param.ref
      · subst same
        rw [Selection.bindVreg, AList.lookup_insert] at isRef
        obtain rfl := Option.some.inj isRef
        exact ⟨param, by rw [isNext, List.getElem?_concat_length], rfl⟩
      · rw [Selection.bindVreg, AList.lookup_insert_ne same] at isRef
        obtain ⟨other, isOther, isRef⟩ := isBound ref v isRef
        obtain ⟨inside, -⟩ := List.getElem?_eq_some_iff.mp isOther
        exact ⟨other, by rw [List.getElem?_append_left inside, isOther], isRef⟩

theorem Owned.afterInstructions {module : Llvm.Module} {memorySize : Nat}
    {labelAt : Llvm.BlockRef → Outcome String} {label : String} {selection after : Selection}
    {before instructions : List Instruction} {owner : Nat → Option ValueRef}
    (owned : Owned labelAt before owner selection)
    (lowered : instructions.foldlM (lowerInstruction module memorySize labelAt label) selection =
      .ok after) : ∃ owner', Owned labelAt (before ++ instructions) owner' after := by
  induction instructions generalizing before owner selection with
  | nil =>
      cases lowered
      exact ⟨owner, by simpa using owned⟩
  | cons instruction instructions ih =>
      rw [List.foldlM_cons] at lowered
      obtain ⟨middle, first, rest⟩ := bind_eq_ok.mp lowered
      obtain ⟨owner', ownedMiddle⟩ := owned.afterInstruction first
      obtain ⟨owner'', ownedAfter⟩ := ih ownedMiddle rest
      exact ⟨owner'', by simpa using ownedAfter⟩

/-- The registers of the selected code. -/
theorem owned_of_selectFunction {module : Llvm.Module} {memorySize : Nat}
    {function : Llvm.Function} {traversal : Traversal}
    (selected : selectFunction module memorySize function = .ok traversal) :
    ∃ owner, Owned (labelOf function)
      ((blockOrder function).flatMap (instructionsOf function)) owner traversal.selection := by
  rw [← (laidOut_of_selectFunction selected).2]
  refine selectFunction_induct (motive := fun visited selection =>
    ∃ owner, Owned (labelOf function) (visited.flatMap (instructionsOf function)) owner
      selection) ?_ ?_ ?_ selected
  · intro selection bound
    obtain ⟨isNext, -, isBound⟩ := bound_of_bindParams bound
    injection control_of_bindParams bound with noPhis
    refine ⟨fun v => (function.params[v]?).map (·.ref), ?_, ?_, ?_⟩
    · intro ref v isRef
      obtain ⟨param, isParam, rfl⟩ := isBound ref v isRef
      obtain ⟨inside, -⟩ := List.getElem?_eq_some_iff.mp isParam
      exact ⟨isNext ▸ inside, by rw [isParam]; rfl⟩
    · simp [noPhis]
    · simp [noPhis]
  · rintro visited label block selection after ⟨owner, owned⟩ - isBlock lowered
    obtain ⟨final, folded, lowered⟩ := bind_eq_ok.mp lowered
    cases lowered
    have begun : Owned (labelOf function) (visited.flatMap (instructionsOf function)) owner
        (selection.begin label) := ⟨owned.bound, owned.phis, owned.dsts⟩
    obtain ⟨owner', ownedFinal⟩ := begun.afterInstructions folded
    have isInstructions : instructionsOf function label = block.instructions := by
      simp [instructionsOf, isBlock]
    rw [List.flatMap_append, List.flatMap_singleton, isInstructions]
    exact ⟨owner', ownedFinal.bound, ownedFinal.phis, ownedFinal.dsts⟩
  · rintro visited selection latch target ⟨owner, owned⟩
    exact ⟨owner, owned.bound, owned.phis, owned.dsts⟩

end VliwCompiler.Isel
