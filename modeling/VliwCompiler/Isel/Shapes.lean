import VliwCompiler.Isel.Execution
import VliwCompiler.Isel.OneClass

/-!
# Shapes of lowered code

Selection writes few kinds of syllables.  All of them fit their opcodes, read at
most two registers and use no fixed registers other than the return value and,
around calls, the link register and those of arguments.
-/

namespace VliwCompiler.Isel

open Asm (Opcode I64)
open Mir (Reg Value Syllable Terminator Block)
open Llvm (ValueRef Operand Instruction)

/-! ### Syllables -/

/-- The base of an address in selected code. -/
def IsBase (base : Value) : Prop :=
  (∃ address, base = .imm address) ∨ ∃ v, base = .reg (.vreg v)

/-- A register of selected code: a virtual one, or a fixed one of a set. -/
def RegIn (fixed : UInt8 → Prop) : Reg → Prop
  | .vreg _ => True
  | .preg n => fixed n

/-- The syllables that selection and the lowering of phis write. -/
inductive Shape (fixed : UInt8 → Prop) : Syllable → Prop where
  | constant (dst : Reg) (dstIn : RegIn fixed dst) (value : I64) :
      Shape fixed ⟨.movImm, some dst, [.imm value]⟩
  | move (dst src : Reg) (dstIn : RegIn fixed dst) (srcIn : RegIn fixed src) :
      Shape fixed ⟨.mov, some dst, [.reg src]⟩
  | binary (op : Llvm.BinaryOp) (dst left right : Nat) :
      Shape fixed
        ⟨binaryOpcode op, some (.vreg dst), [.reg (.vreg left), .reg (.vreg right)]⟩
  | compare (opcode : Opcode) (isComparison : opcode ∈ [.cmpEq, .cmpLt, .cmpUlt])
      (dst left right : Nat) :
      Shape fixed ⟨opcode, some (.vreg dst), [.reg (.vreg left), .reg (.vreg right)]⟩
  | negate (dst src : Nat) : Shape fixed ⟨.pNot, some (.vreg dst), [.reg (.vreg src)]⟩
  | load (opcode : Opcode) (isLoad : opcode ∈ [.loadB, .loadW, .loadD]) (dst : Reg)
      (dstIn : RegIn fixed dst) (base : Value) (isBase : IsBase base) (offset : I64) :
      Shape fixed ⟨opcode, some dst, addressSrcs base offset⟩
  | store (opcode : Opcode) (isStore : opcode ∈ [.storeB, .storeW, .storeD]) (base : Value)
      (isBase : IsBase base) (offset : I64) (data : Reg) (dataIn : RegIn fixed data) :
      Shape fixed ⟨opcode, none, addressSrcs base offset ++ [.reg data]⟩

/-- The condition of a branch is a virtual register. -/
def VirtualCond : Terminator → Prop
  | .branch cond _ => ∃ v, cond = .vreg v
  | _ => True

/-- A block of selected code. -/
structure ShapedBlock (fixed : UInt8 → Prop) (block : Block) : Prop where
  code : ∀ syllable ∈ block.syllables, Shape fixed syllable
  cond : VirtualCond block.terminator

section

variable {fixed : UInt8 → Prop} {syllable : Syllable}

theorem regIn_vreg (v : Nat) : RegIn fixed (.vreg v) := trivial

/-- The operands of selected code fit its opcodes. -/
theorem Shape.wellFormed (shape : Shape fixed syllable) : syllable.WellFormed := by
  cases shape with
  | constant | move | negate => exact ⟨rfl, by simp [Opcode.writesGpr, Opcode.writesPred]⟩
  | binary op =>
      cases op with
      | _ => exact ⟨rfl, by simp [binaryOpcode, Opcode.writesGpr, Opcode.writesPred]⟩
  | compare opcode isComparison =>
      simp only [List.mem_cons, List.not_mem_nil, or_false] at isComparison
      rcases isComparison with rfl | rfl | rfl
      all_goals exact ⟨rfl, by simp [Opcode.writesGpr, Opcode.writesPred]⟩
  | load opcode isLoad dst dstIn base isBase offset =>
      simp only [List.mem_cons, List.not_mem_nil, or_false] at isLoad
      rcases isLoad with rfl | rfl | rfl
      all_goals
        refine ⟨?_, by simp [Opcode.writesGpr, Opcode.writesPred]⟩
        simp [Syllable.action, Opcode.behavior, loadAddress_addressSrcs]
  | store opcode isStore base isBase offset =>
      simp only [List.mem_cons, List.not_mem_nil, or_false] at isStore
      rcases isStore with rfl | rfl | rfl
      all_goals
        refine ⟨?_, by simp [Opcode.writesGpr, Opcode.writesPred]⟩
        simp [Syllable.action, Opcode.behavior, storeOperands_addressSrcs, Value.source]

theorem length_addressSrcs (base : Value) (offset : I64) :
    (addressSrcs base offset).length ≤ 2 := by
  unfold addressSrcs
  split <;> simp

/-- Selected code reads few registers. -/
theorem Shape.length_sourceVregs (shape : Shape fixed syllable) :
    syllable.sourceVregs.length ≤ 3 := by
  refine (List.length_filterMap_le _ _).trans ?_
  cases shape with
  | constant | move | binary | compare | negate => simp
  | load opcode _ dst _ base _ offset => exact (length_addressSrcs _ offset).trans (by decide)
  | store opcode _ base _ offset =>
      rw [List.length_append]
      exact Nat.succ_le_succ (length_addressSrcs _ offset)

end

/-! ### Selection -/

/-- The code and the branches selected so far, and the bases of folded pointers. -/
structure Shaped (fixed : UInt8 → Prop) (selection : Selection) : Prop where
  code : ∀ syllable ∈ selection.emitted, Shape fixed syllable
  conds : ∀ block ∈ selection.mirBlocks, VirtualCond block.terminator
  cond : VirtualCond selection.terminator
  pointers : ∀ key base offset, selection.gepMap.lookup key = some (base, offset) → IsBase base

/-- Calls use the registers of arguments and the link register. -/
structure Linkage (fixed : UInt8 → Prop) : Prop where
  link : fixed linkReg
  arguments : ∀ i < 8, fixed (argReg i)

namespace Shaped

variable {fixed : UInt8 → Prop} {module : Llvm.Module} {memorySize : Nat}
  {labelAt : Llvm.BlockRef → Outcome String} {label : String} {selection after : Selection}
  {instruction : Instruction}

theorem push (shaped : Shaped fixed selection) {syllable : Syllable}
    (shape : Shape fixed syllable) : Shaped fixed (selection.push syllable) where
  code := by
    rw [Selection.emitted_push]
    exact List.forall_mem_append.mpr ⟨shaped.code, List.forall_mem_singleton.mpr shape⟩
  conds := shaped.conds
  cond := shaped.cond
  pointers := shaped.pointers

theorem fresh (shaped : Shaped fixed selection) : Shaped fixed selection.freshVreg :=
  ⟨shaped.code, shaped.conds, shaped.cond, shaped.pointers⟩

theorem bind (shaped : Shaped fixed selection) (ref : ValueRef) :
    Shaped fixed (selection.bindVreg ref) :=
  ⟨shaped.code, shaped.conds, shaped.cond, shaped.pointers⟩

/-- An integer operand is a virtual register. -/
theorem operand (shaped : Shaped fixed selection) {operand : Operand} {value : Value}
    (lowered : lowerOperand operand selection = .ok (value, after)) :
    Shaped fixed after ∧ ∃ v, value = .reg (.vreg v) := by
  unfold lowerOperand at lowered
  split at lowered
  · cases lowered
    exact ⟨(shaped.push (.constant _ (regIn_vreg _) _)).fresh, _, rfl⟩
  · obtain ⟨v, -, same⟩ := bind_eq_ok.mp lowered
    cases same
    exact ⟨shaped, v, rfl⟩
  · cases lowered

/-- A pointer operand is a constant address or a virtual register. -/
theorem base (shaped : Shaped fixed selection) {operand : Operand} {base : Value} {offset : I64}
    (lowered : lowerPtrOperand operand selection = .ok (base, offset)) : IsBase base := by
  rcases lowerPtrOperand_eq_ok lowered with
    ⟨bits, address, -, isBase, -⟩ | ⟨key, -, isFolded | ⟨-, v, -, isBase, -⟩⟩
  · exact .inl ⟨address, isBase⟩
  · exact shaped.pointers key base offset isFolded
  · exact .inr ⟨v, isBase⟩

/-! ### Instructions -/

theorem afterReturn (shaped : Shaped fixed selection) (retval : fixed retvalReg)
    {value : Option Operand} (lowered : lowerReturn value selection = .ok after) :
    Shaped fixed after := by
  unfold lowerReturn at lowered
  split at lowered
  · rename_i constant _
    cases lowered
    have moved := shaped.push (.constant (.preg retvalReg) retval constant)
    exact ⟨moved.code, moved.conds, trivial, moved.pointers⟩
  · obtain ⟨v, -, same⟩ := bind_eq_ok.mp lowered
    cases same
    have moved := shaped.push (.move (.preg retvalReg) (.vreg v) retval trivial)
    exact ⟨moved.code, moved.conds, trivial, moved.pointers⟩
  · cases lowered
    exact ⟨shaped.code, shaped.conds, trivial, shaped.pointers⟩

theorem afterIcmp (shaped : Shaped fixed selection) {ref : ValueRef}
    {predicate : Llvm.IntPredicate} {lhs rhs : Operand}
    (lowered : lowerIcmp ref predicate lhs rhs selection = .ok after) : Shaped fixed after := by
  obtain ⟨⟨left, first⟩, isLeft, lowered⟩ := bind_eq_ok.mp lowered
  obtain ⟨⟨right, second⟩, isRight, lowered⟩ := bind_eq_ok.mp lowered
  obtain ⟨⟨opcode, swapped⟩, isComparison, lowered⟩ := bind_eq_ok.mp lowered
  obtain ⟨shapedFirst, v, rfl⟩ := shaped.operand isLeft
  obtain ⟨shapedSecond, w, rfl⟩ := shapedFirst.operand isRight
  have isOpcode : opcode ∈ [Opcode.cmpEq, .cmpLt, .cmpUlt] := by
    cases predicate <;> cases isComparison <;> simp
  have compared : Shape fixed ⟨opcode, some (.vreg second.nextVreg),
      if swapped = true then [.reg (.vreg w), .reg (.vreg v)]
        else [.reg (.vreg v), .reg (.vreg w)]⟩ := by
    split
    · exact .compare opcode isOpcode _ w v
    · exact .compare opcode isOpcode _ v w
  dsimp only at lowered
  split at lowered
  · cases lowered
    exact (((shapedSecond.push compared).fresh).push (.negate _ _)).bind ref
  · cases lowered
    exact (shapedSecond.push compared).bind ref

theorem afterBinary (shaped : Shaped fixed selection) {ref : ValueRef} {op : Llvm.BinaryOp}
    {lhs rhs : Operand} (lowered : lowerBinary ref op lhs rhs selection = .ok after) :
    Shaped fixed after := by
  obtain ⟨⟨left, first⟩, isLeft, lowered⟩ := bind_eq_ok.mp lowered
  obtain ⟨⟨right, second⟩, isRight, lowered⟩ := bind_eq_ok.mp lowered
  obtain ⟨shapedFirst, v, rfl⟩ := shaped.operand isLeft
  obtain ⟨shapedSecond, w, rfl⟩ := shapedFirst.operand isRight
  cases lowered
  exact (shapedSecond.push (.binary op _ v w)).bind ref

theorem afterStore (shaped : Shaped fixed selection) {value pointer : Operand}
    (lowered : lowerStore value pointer selection = .ok after) : Shaped fixed after := by
  obtain ⟨opcode, isStore, lowered⟩ := bind_eq_ok.mp lowered
  obtain ⟨⟨data, first⟩, isData, lowered⟩ := bind_eq_ok.mp lowered
  obtain ⟨⟨base, offset⟩, isBase, lowered⟩ := bind_eq_ok.mp lowered
  obtain ⟨shapedFirst, v, rfl⟩ := shaped.operand isData
  cases lowered
  refine shapedFirst.push (.store opcode ?_ base (shapedFirst.base isBase) offset _ trivial)
  unfold storeOpcode at isStore
  split at isStore <;> cases isStore <;> simp

theorem afterLoad (shaped : Shaped fixed selection) {pointer : Operand}
    (lowered : lowerLoad instruction pointer selection = .ok after) : Shaped fixed after := by
  obtain ⟨opcode, isLoad, lowered⟩ := bind_eq_ok.mp lowered
  obtain ⟨⟨base, offset⟩, isBase, lowered⟩ := bind_eq_ok.mp lowered
  cases lowered
  refine (shaped.push (.load opcode ?_ _ (regIn_vreg _) base (shaped.base isBase) offset)).bind _
  unfold loadOpcode at isLoad
  split at isLoad <;> cases isLoad <;> simp

theorem shape_argMoves (linkage : Linkage fixed) {arguments : List Argument}
    (few : arguments.length ≤ 8) : ∀ syllable ∈ argMoves 0 arguments, Shape fixed syllable := by
  intro syllable syllableMem
  obtain ⟨⟨argument, i⟩, inArguments, rfl⟩ := List.mem_map.mp syllableMem
  have isArgument := List.mk_mem_zipIdx_iff_getElem?.mp inArguments
  have inside := (List.getElem?_eq_some_iff.mp isArgument).1
  have isFixed : fixed (argReg i) := linkage.arguments i (Nat.lt_of_lt_of_le inside few)
  cases argument with
  | const value => exact .constant (.preg (argReg i)) isFixed value
  | vreg index => exact .move (.preg (argReg i)) (.vreg index) isFixed trivial

theorem afterCall (shaped : Shaped fixed selection) (retval : fixed retvalReg)
    (linkage : Linkage fixed) {callee : Llvm.Callee} {arguments : List Operand}
    (lowered : lowerCall module memorySize instruction callee arguments selection = .ok after) :
    Shaped fixed after := by
  obtain ⟨target, values, ⟨-, -, few, isValues, -⟩, rfl⟩ := lowerCall_eq_ok lowered
  have sameLength : values.length = arguments.length := (mapM_eq_ok_iff.mp isValues).length_eq.symm
  have linkBase : IsBase (.imm (linkAddress memorySize)) := .inl ⟨_, rfl⟩
  have saves : Shape fixed (saveLink (linkAddress memorySize)) :=
    .store .storeD (by simp) _ linkBase 0 (.preg linkReg) linkage.link
  have restores : Shape fixed (restoreLink (linkAddress memorySize)) :=
    .load .loadD (by simp) (.preg linkReg) linkage.link _ linkBase 0
  have called : Shaped fixed (splitAtCall (linkAddress memorySize) target { selection with
      syllables := selection.syllables ++ argMoves 0 values ++ [saveLink (linkAddress memorySize)] }) := by
    refine ⟨?_, ?_, trivial, shaped.pointers⟩
    · intro syllable syllableMem
      simp only [Selection.emitted, splitAtCall, List.flatMap_append, List.flatMap_singleton,
        List.mem_append, List.mem_singleton] at syllableMem
      have older : syllable ∈ selection.emitted → Shape fixed syllable := shaped.code syllable
      simp only [Selection.emitted, List.mem_append] at older
      rcases syllableMem with (isDone | (isOpen | isMove) | rfl) | rfl
      · exact older (.inl isDone)
      · exact older (.inr isOpen)
      · exact shape_argMoves linkage (sameLength ▸ few) syllable isMove
      · exact saves
      · exact restores
    · exact List.forall_mem_append.mpr ⟨shaped.conds, List.forall_mem_singleton.mpr trivial⟩
  dsimp only
  split
  · exact called
  · exact (called.push (.move _ (.preg retvalReg) (regIn_vreg _) retval)).bind _

/-- Every instruction is selected as code of the known shapes. -/
theorem afterInstruction (shaped : Shaped fixed selection) (retval : fixed retvalReg)
    (linkage : isCall instruction = true → Linkage fixed)
    (lowered : lowerInstruction module memorySize labelAt label selection instruction =
      .ok after) : Shaped fixed after := by
  unfold lowerInstruction at lowered
  cases isOperation : instruction.operation with
  | phi incoming =>
      rw [isOperation] at lowered
      obtain ⟨raw, -, lowered⟩ := bind_eq_ok.mp lowered
      cases lowered
      exact ⟨shaped.code, shaped.conds, shaped.cond, shaped.pointers⟩
  | ret value =>
      rw [isOperation] at lowered
      exact shaped.afterReturn retval lowered
  | condBr cond ifTrue ifFalse =>
      rw [isOperation] at lowered
      obtain ⟨trueLabel, -, lowered⟩ := bind_eq_ok.mp lowered
      obtain ⟨falseLabel, -, lowered⟩ := bind_eq_ok.mp lowered
      obtain ⟨v, -, lowered⟩ := bind_eq_ok.mp lowered
      cases lowered
      exact ⟨shaped.code, shaped.conds, ⟨v, rfl⟩, shaped.pointers⟩
  | br target =>
      rw [isOperation] at lowered
      obtain ⟨targetLabel, -, lowered⟩ := bind_eq_ok.mp lowered
      cases lowered
      exact ⟨shaped.code, shaped.conds, trivial, shaped.pointers⟩
  | call callee arguments =>
      rw [isOperation] at lowered
      exact shaped.afterCall retval (linkage (by rw [isCall, isOperation])) lowered
  | icmp predicate lhs rhs =>
      rw [isOperation] at lowered
      exact shaped.afterIcmp lowered
  | binary op lhs rhs =>
      rw [isOperation] at lowered
      exact shaped.afterBinary lowered
  | store value pointer =>
      rw [isOperation] at lowered
      exact shaped.afterStore lowered
  | load pointer =>
      rw [isOperation] at lowered
      exact shaped.afterLoad lowered
  | getElementPtr element base indices =>
      rw [isOperation] at lowered
      obtain ⟨⟨baseVal, baseOffset⟩, isBase, lowered⟩ := bind_eq_ok.mp lowered
      obtain ⟨elemBytes, -, lowered⟩ := bind_eq_ok.mp lowered
      obtain ⟨totalOffset, -, lowered⟩ := bind_eq_ok.mp lowered
      cases lowered
      refine ⟨shaped.code, shaped.conds, shaped.cond, ?_⟩
      intro key pointer offset isFolded
      by_cases same : key = instruction.ref
      · subst same
        rw [AList.lookup_insert] at isFolded
        obtain ⟨rfl, -⟩ := Prod.mk.inj (Option.some.inj isFolded)
        exact shaped.base isBase
      · rw [AList.lookup_insert_ne same] at isFolded
        exact shaped.pointers key pointer offset isFolded
  | invoke | atomic | other =>
      rw [isOperation] at lowered
      cases lowered

theorem afterInstructions {instructions : List Instruction} (shaped : Shaped fixed selection)
    (retval : fixed retvalReg)
    (linkage : ∀ instruction ∈ instructions, isCall instruction = true → Linkage fixed)
    (lowered : instructions.foldlM (lowerInstruction module memorySize labelAt label) selection =
      .ok after) : Shaped fixed after := by
  induction instructions generalizing selection with
  | nil =>
      cases lowered
      exact shaped
  | cons instruction rest ih =>
      rw [List.foldlM_cons] at lowered
      obtain ⟨middle, first, lowered⟩ := bind_eq_ok.mp lowered
      obtain ⟨here, others⟩ := List.forall_mem_cons.mp linkage
      exact ih (shaped.afterInstruction retval here first) others lowered

/-- A finished block belongs to the selected code. -/
theorem finish (shaped : Shaped fixed selection) (label : String) :
    Shaped fixed (selection.finish.begin label) where
  code := by
    intro syllable syllableMem
    refine shaped.code syllable ?_
    simpa [Selection.emitted, Selection.finish, Selection.begin] using syllableMem
  conds := by
    refine List.forall_mem_append.mpr ⟨shaped.conds, List.forall_mem_singleton.mpr ?_⟩
    exact shaped.cond
  cond := trivial
  pointers := shaped.pointers

theorem addLatch (shaped : Shaped fixed (selection.begin label)) (latch target other : String) :
    Shaped fixed (Selection.begin { selection with
      mirBlocks := selection.mirBlocks ++ [⟨latch, [], .jump target⟩] } other) where
  code := by
    intro syllable syllableMem
    refine shaped.code syllable ?_
    simpa [Selection.emitted, Selection.begin] using syllableMem
  conds := by
    intro block blockMem
    rcases List.mem_append.mp blockMem with isOld | isLatch
    · exact shaped.conds block isOld
    · rw [List.mem_singleton.mp isLatch]
      trivial
  cond := trivial
  pointers := shaped.pointers

theorem start {params : List Llvm.Param} (bound : bindParams params = .ok selection)
    (label : String) : Shaped fixed (selection.begin label) := by
  obtain ⟨-, noGeps, -⟩ := bound_of_bindParams bound
  injection control_of_bindParams bound with _ _ noBlocks
  refine ⟨?_, ?_, trivial, ?_⟩
  · simp [Selection.emitted, Selection.begin, noBlocks]
  · simp [Selection.begin, noBlocks]
  · intro key base offset isFolded
    rw [Selection.begin, noGeps] at isFolded
    cases isFolded

theorem block (shaped : Shaped fixed (selection.begin label)) {block : Block}
    (blockMem : block ∈ selection.mirBlocks) : ShapedBlock fixed block where
  code := by
    intro syllable syllableMem
    refine shaped.code syllable ?_
    rw [emitted_begin]
    exact mem_codeOf.mpr ⟨block, blockMem, syllableMem⟩
  cond := shaped.conds block blockMem

end Shaped

/-! ### Lowered functions -/

section

variable {fixed : UInt8 → Prop} {module : Llvm.Module} {memorySize : Nat}
  {function : Llvm.Function} {traversal : Traversal} {order : CopyOrder} {lowered : Mir.Function}

/-- Selected blocks have the known shapes. -/
theorem shaped_of_selectFunction (retval : fixed retvalReg)
    (linkage : ∀ instruction ∈ allInstructions function,
      isCall instruction = true → Linkage fixed)
    (isSelected : selectFunction module memorySize function = .ok traversal) :
    ∀ block ∈ traversal.selection.mirBlocks, ShapedBlock fixed block := by
  have shaped : ∀ label, Shaped fixed (traversal.selection.begin label) := by
    refine selectFunction_induct (motive := fun _ selection =>
      ∀ label, Shaped fixed (selection.begin label)) ?_ ?_ ?_ isSelected
    · exact fun selection bound label => .start bound label
    · intro visited label block selection after shaped _ isBlock lowered other
      obtain ⟨final, folded, lowered⟩ := bind_eq_ok.mp lowered
      cases lowered
      refine ((shaped label).afterInstructions retval ?_ folded).finish other
      intro instruction instructionMem
      exact linkage instruction
        (List.mem_flatMap.mpr ⟨block, mem_blocks_of_bbOf isBlock, instructionMem⟩)
    · exact fun visited selection latch target shaped other =>
        (shaped "").addLatch latch target other
  exact fun block blockMem => (shaped "").block blockMem

theorem shape_syllableForCopy (dst : Nat) (src : CopySrc) :
    Shape fixed (syllableForCopy dst src) := by
  cases src with
  | const value => exact .constant _ (regIn_vreg dst) value
  | vreg v => exact .move _ _ (regIn_vreg dst) (regIn_vreg v)

/-- Lowered functions have the known shapes. -/
theorem shaped_of_lowerFunction (retval : fixed retvalReg)
    (linkage : ∀ instruction ∈ allInstructions function,
      isCall instruction = true → Linkage fixed)
    (isLowered : lowerFunction order module memorySize function = .ok lowered) :
    ∀ block ∈ lowered.blocks, ShapedBlock fixed block := by
  obtain ⟨traversal, table, isSelected, -, copied⟩ := lowerFunction_eq_ok isLowered
  have selected := shaped_of_selectFunction retval linkage isSelected
  intro block blockMem
  obtain ⟨idx, isBlock⟩ := List.mem_iff_getElem?.mp blockMem
  have inside := (List.getElem?_eq_some_iff.mp isBlock).1
  rw [copied.length] at inside
  obtain ⟨code, isAfter, isCode⟩ := copied.block idx _ (List.getElem?_eq_getElem inside)
  obtain rfl := Option.some.inj (isAfter.symm.trans isBlock)
  have shaped := selected _ (List.getElem_mem inside)
  refine ⟨List.forall_mem_append.mpr ⟨shaped.code, ?_⟩, shaped.cond⟩
  rcases isCode with rfl | ⟨label, copies, nextVreg, next, -, -, ordered⟩
  · simp
  · intro syllable syllableMem
    obtain ⟨dst, src, rfl, -⟩ :=
      (moves_of_serializeParallelCopies ordered).sound syllable syllableMem
    exact shape_syllableForCopy dst src

/-- The registers of calls, arguments and results. -/
def CallRegister (n : UInt8) : Prop := n = retvalReg ∨ n = linkReg ∨ ∃ i < 8, n = argReg i

theorem linkage_callRegister : Linkage CallRegister :=
  ⟨.inr (.inl rfl), fun i inside => .inr (.inr ⟨i, inside, rfl⟩)⟩

/-- Every lowered function has the known shapes. -/
theorem shaped_lowered (isLowered : lowerFunction order module memorySize function = .ok lowered) :
    ∀ block ∈ lowered.blocks, ShapedBlock CallRegister block :=
  shaped_of_lowerFunction (.inl rfl) (fun _ _ _ => linkage_callRegister) isLowered

end

end VliwCompiler.Isel
