import VliwCompiler.Isel.Registers
import VliwCompiler.Isel.OneClass
import VliwCompiler.Regalloc.Dataflow

/-!
# Registers are defined before they are read

Code is covered by a set of registers when everything it reads is in the set or
defined earlier in the code.  The code selected for an instruction is covered by
the registers of its operands, and it defines the register of its result.  The
copies of phis are covered by their sources.
-/

namespace VliwCompiler.Isel

open Asm (I64)
open Mir (Reg Value Syllable Terminator)
open Llvm (ValueRef Operand Instruction)
open Liveness (Defines Exposed)

/-! ### Covered code -/

/-- What the code reads is available or defined earlier in the code. -/
def Covered (available : Nat → Prop) (code : List Syllable) : Prop :=
  ∀ front syllable back, code = front ++ syllable :: back → ∀ v ∈ syllable.sourceVregs,
    available v ∨ Defines front v

section

variable {available more : Nat → Prop} {code first second : List Syllable} {syllable : Syllable}
  {v : Nat}

theorem covered_nil (available : Nat → Prop) : Covered available [] := by
  rintro front syllable back isNil
  simp at isNil

theorem defines_append : Defines (first ++ second) v ↔ Defines first v ∨ Defines second v := by
  simp [Defines, or_and_right, exists_or]

theorem defines_singleton : Defines [syllable] v ↔ syllable.dstVreg = some v := by
  simp [Defines]

theorem not_defines_nil : ¬Defines [] v := by
  simp [Defines]

theorem Covered.snoc (covered : Covered available code)
    (reads : ∀ v ∈ syllable.sourceVregs, available v ∨ Defines code v) :
    Covered available (code ++ [syllable]) := by
  intro front other back isCode
  rcases Worklist.append_cons_eq_snoc.mp isCode with ⟨rfl, rfl, -⟩ | ⟨rest, -, isFront⟩
  · exact reads
  · exact covered front other rest isFront

theorem Covered.append (isFirst : Covered available first)
    (isSecond : Covered (fun v => available v ∨ Defines first v) second) :
    Covered available (first ++ second) := by
  induction second using List.reverseRecOn with
  | nil => simpa using isFirst
  | append_singleton second syllable ih =>
      rw [← List.append_assoc]
      apply Covered.snoc
      · apply ih
        intro front other back isCode
        exact isSecond front other (back ++ [syllable]) (by simp [isCode])
      · intro v isRead
        rw [defines_append]
        have isReady := isSecond second syllable [] rfl v isRead
        tauto

theorem Covered.mono (covered : Covered available code)
    (included : ∀ v, available v → more v) : Covered more code := by
  intro front syllable back isCode v isRead
  exact (covered front syllable back isCode v isRead).imp_left (included v)

theorem Covered.tail (covered : Covered available (syllable :: code)) :
    Covered (fun v => available v ∨ syllable.dstVreg = some v) code := by
  intro front other back isCode v isRead
  rcases covered (syllable :: front) other back (by rw [isCode]; rfl) v isRead with isReady | defines
  · exact .inl (.inl isReady)
  · rcases Liveness.defines_cons.mp defines with isDst | later
    · exact .inl (.inr isDst)
    · exact .inr later

/-- A register that covered code exposes is available. -/
theorem Covered.available_of_exposed {terminator : Terminator} (covered : Covered available code)
    (cond : ∀ v, terminator.condVreg = some v → available v ∨ Defines code v)
    (exposed : Exposed terminator v code) : available v := by
  induction code generalizing available with
  | nil => exact (cond v exposed).resolve_right not_defines_nil
  | cons syllable code ih =>
      rcases exposed with isRead | ⟨kept, later⟩
      · exact (covered [] syllable code rfl v isRead).resolve_right not_defines_nil
      · refine (ih covered.tail (fun w isCond => ?_) later).resolve_right kept
        rcases cond w isCond with isReady | defines
        · exact .inl (.inl isReady)
        · rcases Liveness.defines_cons.mp defines with isDst | inCode
          · exact .inl (.inr isDst)
          · exact .inr inCode

end

/-! ### Selected code -/

/-- The register is available or defined by the code under construction. -/
def Obtained (available : Nat → Prop) (selection : Selection) (v : Nat) : Prop :=
  available v ∨ Defines selection.syllables v

/-- The registers recorded for the value are obtained. -/
structure Supplied (available : Nat → Prop) (selection : Selection) (key : ValueRef) : Prop where
  vreg : ∀ v, selection.vregMap.lookup key = some v → Obtained available selection v
  base : ∀ v offset, selection.gepMap.lookup key = some (.reg (.vreg v), offset) →
    Obtained available selection v

/-- The code under construction and its branch read what is obtained. -/
structure Definite (available : Nat → Prop) (selection : Selection) : Prop where
  code : Covered available selection.syllables
  cond : ∀ v, selection.terminator.condVreg = some v → Obtained available selection v

/-- More code has been selected, which reads what is obtained. -/
structure Gains (available : Nat → Prop) (selection after : Selection) : Prop where
  definite : Definite available after
  grows : ∀ v, Obtained available selection v → Obtained available after v

section

variable {available : Nat → Prop} {module : Llvm.Module} {memorySize : Nat}
  {labelAt : Llvm.BlockRef → Outcome String} {label : String} {selection after : Selection}
  {instruction : Instruction} {syllable : Syllable}

namespace Definite

theorem refl (definite : Definite available selection) : Gains available selection selection :=
  ⟨definite, fun _ => id⟩

theorem push (definite : Definite available selection)
    (reads : ∀ v ∈ syllable.sourceVregs, Obtained available selection v) :
    Gains available selection (selection.push syllable) := by
  have grows : ∀ v, Obtained available selection v →
      Obtained available (selection.push syllable) v := by
    intro v isObtained
    exact isObtained.imp_right fun defines => defines_append.mpr (.inl defines)
  exact ⟨⟨definite.code.snoc reads, fun v isCond => grows v (definite.cond v isCond)⟩, grows⟩

end Definite

theorem Gains.trans {middle : Selection} (left : Gains available selection middle)
    (right : Gains available middle after) : Gains available selection after :=
  ⟨right.definite, fun v isObtained => right.grows v (left.grows v isObtained)⟩

theorem Obtained.congr {other : Selection} (sameCode : other.syllables = selection.syllables)
    {v : Nat} (isObtained : Obtained available selection v) : Obtained available other v := by
  unfold Obtained at isObtained ⊢
  rwa [sameCode]

/-- A branch on a register that is obtained. -/
theorem Gains.ends {other : Selection} (gains : Gains available selection after)
    (sameCode : other.syllables = after.syllables)
    (cond : ∀ v, other.terminator.condVreg = some v → Obtained available after v) :
    Gains available selection other := by
  refine ⟨⟨?_, fun v isCond => (cond v isCond).congr sameCode⟩,
    fun v isObtained => (gains.grows v isObtained).congr sameCode⟩
  rw [sameCode]
  exact gains.definite.code

/-- Taking and binding registers leaves the code alone. -/
theorem Gains.congr {other : Selection} (gains : Gains available selection after)
    (sameCode : other.syllables = after.syllables) (sameEnd : other.terminator = after.terminator) :
    Gains available selection other :=
  gains.ends sameCode fun v isCond => gains.definite.cond v (sameEnd ▸ isCond)

theorem obtained_push {v : Nat} (isDst : syllable.dstVreg = some v) :
    Obtained available (selection.push syllable) v :=
  .inr (defines_append.mpr (.inr (defines_singleton.mpr isDst)))

/-! ### Operands -/

/-- The registers of an integer or pointer operand are obtained. -/
def OperandSupplied (available : Nat → Prop) (selection : Selection) (operand : Operand) : Prop :=
  ∀ key type, operand = .ref key type → Supplied available selection key

theorem OperandSupplied.congr {operand : Operand} (gains : Gains available selection after)
    (sameVregs : after.vregMap = selection.vregMap) (sameGeps : after.gepMap = selection.gepMap)
    (supplied : OperandSupplied available selection operand) :
    OperandSupplied available after operand := by
  intro key type isRef
  refine ⟨fun v isBound => ?_, fun v offset isFolded => ?_⟩
  · rw [sameVregs] at isBound
    exact gains.grows v ((supplied key type isRef).vreg v isBound)
  · rw [sameGeps] at isFolded
    exact gains.grows v ((supplied key type isRef).base v offset isFolded)

/-- The register of an integer operand. -/
theorem Definite.operand (definite : Definite available selection) {operand : Operand}
    {value : Value} (supplied : OperandSupplied available selection operand)
    (lowered : lowerOperand operand selection = .ok (value, after)) :
    Gains available selection after ∧ after.vregMap = selection.vregMap ∧
      after.gepMap = selection.gepMap ∧
      ∃ v, value = .reg (.vreg v) ∧ Obtained available after v := by
  unfold lowerOperand at lowered
  split at lowered
  · cases lowered
    refine ⟨(definite.push ?_).congr rfl rfl, rfl, rfl, _, rfl, obtained_push rfl⟩
    simp [Syllable.sourceVregs, Value.vreg?]
  · rcases bind_eq_ok.mp lowered with ⟨v, isBound, same⟩
    cases same
    refine ⟨definite.refl, rfl, rfl, v, rfl, ?_⟩
    exact (supplied _ _ rfl).vreg v (expect_eq_ok.mp isBound)
  · cases lowered

/-- The base register of a pointer operand. -/
theorem obtained_of_base {operand : Operand} {base : Value} {offset : I64}
    (supplied : OperandSupplied available selection operand)
    (lowered : lowerPtrOperand operand selection = .ok (base, offset)) {v : Nat}
    (isBase : base = .reg (.vreg v)) : Obtained available selection v := by
  subst isBase
  rcases lowerPtrOperand_eq_ok lowered with
    ⟨bits, address, -, isAddress, -⟩ | ⟨key, isRef, isFolded | ⟨-, w, isBound, isVreg, -⟩⟩
  · cases isAddress
  · exact (supplied key _ isRef).base v offset isFolded
  · cases isVreg
    exact (supplied key _ isRef).vreg v isBound

theorem mem_sourceVregs_addressSrcs {base : Value} {offset : I64} {v : Nat} :
    v ∈ (addressSrcs base offset).filterMap Value.vreg? ↔ base = .reg (.vreg v) := by
  have isVreg : base.vreg? = some v ↔ base = .reg (.vreg v) := by
    cases base with
    | reg reg => cases reg <;> simp [Value.vreg?]
    | imm value => simp [Value.vreg?]
    | stack address => simp [Value.vreg?]
  have noOffset : (Value.imm offset).vreg? = none := rfl
  unfold addressSrcs
  split
  · simp [isVreg]
  · simp [isVreg, noOffset]

/-! ### Instructions -/

/-- The code of an instruction gives its value a register, or a base, that is
obtained. -/
structure Yields (available : Nat → Prop) (ref : ValueRef) (selection after : Selection) : Prop
    extends Gains available selection after where
  vreg : ∀ v, after.vregMap.lookup ref = some v →
    selection.vregMap.lookup ref = some v ∨ Obtained available after v
  base : ∀ v offset, after.gepMap.lookup ref = some (.reg (.vreg v), offset) →
    selection.gepMap.lookup ref = some (.reg (.vreg v), offset) ∨ Obtained available after v

variable {ref : ValueRef}

/-- Code without a result. -/
theorem Gains.yields (gains : Gains available selection after)
    (sameVregs : after.vregMap = selection.vregMap) (sameGeps : after.gepMap = selection.gepMap) :
    Yields available ref selection after := by
  refine ⟨gains, fun v isBound => ?_, fun v offset isFolded => ?_⟩
  · rw [sameVregs] at isBound
    exact .inl isBound
  · rw [sameGeps] at isFolded
    exact .inl isFolded

/-- A branch has no result. -/
theorem Gains.yields_end {middle : Selection} (gains : Gains available selection middle)
    (sameCode : after.syllables = middle.syllables)
    (cond : ∀ v, after.terminator.condVreg = some v → Obtained available middle v)
    (sameVregs : after.vregMap = selection.vregMap) (sameGeps : after.gepMap = selection.gepMap) :
    Yields available ref selection after :=
  (gains.ends sameCode cond).yields sameVregs sameGeps

/-- The last syllable of the code defines the result. -/
theorem Gains.yields_bind {middle : Selection} (gains : Gains available selection middle)
    (sameGeps : middle.gepMap = selection.gepMap)
    (reads : ∀ v ∈ syllable.sourceVregs, Obtained available middle v)
    (isDst : syllable.dstVreg = some middle.nextVreg) :
    Yields available ref selection ((middle.push syllable).bindVreg ref) := by
  refine ⟨(gains.trans (gains.definite.push reads)).congr rfl rfl, fun v isBound => ?_,
    fun v offset isFolded => ?_⟩
  · right
    have isNext : (middle.vregMap.insert ref middle.nextVreg).lookup ref = some v := isBound
    rw [AList.lookup_insert] at isNext
    rw [← Option.some.inj isNext]
    exact (obtained_push isDst).congr rfl
  · left
    rw [← sameGeps]
    exact isFolded

theorem Definite.yields_icmp (definite : Definite available selection)
    {predicate : Llvm.IntPredicate} {lhs rhs : Operand}
    (isLhs : OperandSupplied available selection lhs)
    (isRhs : OperandSupplied available selection rhs)
    (lowered : lowerIcmp ref predicate lhs rhs selection = .ok after) :
    Yields available ref selection after := by
  rcases bind_eq_ok.mp lowered with ⟨⟨left, first⟩, isLeft, lowered⟩
  rcases bind_eq_ok.mp lowered with ⟨⟨right, second⟩, isRight, lowered⟩
  rcases bind_eq_ok.mp lowered with ⟨⟨opcode, swapped⟩, -, lowered⟩
  rcases definite.operand isLhs isLeft with ⟨gainsFirst, vregsFirst, gepsFirst, v, rfl, isV⟩
  rcases gainsFirst.definite.operand (isRhs.congr gainsFirst vregsFirst gepsFirst) isRight with
    ⟨gainsSecond, -, gepsSecond, w, rfl, isW⟩
  have gains := gainsFirst.trans gainsSecond
  have sameGeps := gepsSecond.trans gepsFirst
  have reads : ∀ x ∈ (Syllable.mk opcode (some (.vreg second.nextVreg))
      (if swapped = true then [.reg (.vreg w), .reg (.vreg v)]
        else [.reg (.vreg v), .reg (.vreg w)])).sourceVregs, Obtained available second x := by
    have isOld := gainsSecond.grows v isV
    split
    · simp [Syllable.sourceVregs, Value.vreg?, isOld, isW]
    · simp [Syllable.sourceVregs, Value.vreg?, isOld, isW]
  dsimp only at lowered
  split at lowered
  · cases lowered
    have compared : Gains available selection (second.push _).freshVreg :=
      (gains.trans (gains.definite.push reads)).congr rfl rfl
    refine compared.yields_bind sameGeps (fun x isRead => ?_) rfl
    obtain rfl : x = second.nextVreg := by simpa [Syllable.sourceVregs, Value.vreg?] using isRead
    exact (obtained_push rfl).congr rfl
  · cases lowered
    exact gains.yields_bind sameGeps reads rfl

theorem Definite.yields_binary (definite : Definite available selection) {op : Llvm.BinaryOp}
    {lhs rhs : Operand} (isLhs : OperandSupplied available selection lhs)
    (isRhs : OperandSupplied available selection rhs)
    (lowered : lowerBinary ref op lhs rhs selection = .ok after) :
    Yields available ref selection after := by
  rcases bind_eq_ok.mp lowered with ⟨⟨left, first⟩, isLeft, lowered⟩
  rcases bind_eq_ok.mp lowered with ⟨⟨right, second⟩, isRight, lowered⟩
  rcases definite.operand isLhs isLeft with ⟨gainsFirst, vregsFirst, gepsFirst, v, rfl, isV⟩
  rcases gainsFirst.definite.operand (isRhs.congr gainsFirst vregsFirst gepsFirst) isRight with
    ⟨gainsSecond, -, gepsSecond, w, rfl, isW⟩
  cases lowered
  refine (gainsFirst.trans gainsSecond).yields_bind (gepsSecond.trans gepsFirst) ?_ rfl
  simp [Syllable.sourceVregs, Value.vreg?, gainsSecond.grows v isV, isW]

theorem Definite.yields_store (definite : Definite available selection) {value pointer : Operand}
    (isValue : OperandSupplied available selection value)
    (isPointer : OperandSupplied available selection pointer)
    (lowered : lowerStore value pointer selection = .ok after) :
    Yields available ref selection after := by
  rcases bind_eq_ok.mp lowered with ⟨opcode, -, lowered⟩
  rcases bind_eq_ok.mp lowered with ⟨⟨data, first⟩, isData, lowered⟩
  rcases bind_eq_ok.mp lowered with ⟨⟨base, offset⟩, isBase, lowered⟩
  rcases definite.operand isValue isData with ⟨gains, sameVregs, sameGeps, v, rfl, isV⟩
  cases lowered
  refine (gains.trans (gains.definite.push ?_)).yields sameVregs sameGeps
  intro w isRead
  rw [Syllable.sourceVregs, List.filterMap_append, List.mem_append,
    mem_sourceVregs_addressSrcs] at isRead
  rcases isRead with isAddress | isStored
  · exact obtained_of_base (isPointer.congr gains sameVregs sameGeps) isBase isAddress
  · obtain rfl : w = v := by simpa [Value.vreg?] using isStored
    exact isV

theorem Definite.yields_load (definite : Definite available selection) {pointer : Operand}
    (isPointer : OperandSupplied available selection pointer)
    (lowered : lowerLoad instruction pointer selection = .ok after) :
    Yields available instruction.ref selection after := by
  rcases bind_eq_ok.mp lowered with ⟨opcode, -, lowered⟩
  rcases bind_eq_ok.mp lowered with ⟨⟨base, offset⟩, isBase, lowered⟩
  cases lowered
  refine definite.refl.yields_bind rfl ?_ rfl
  intro v isRead
  exact obtained_of_base isPointer isBase (mem_sourceVregs_addressSrcs.mp isRead)

theorem Definite.yields_return (definite : Definite available selection) {value : Option Operand}
    (isValue : ∀ operand ∈ value, OperandSupplied available selection operand)
    (lowered : lowerReturn value selection = .ok after) :
    Yields available ref selection after := by
  unfold lowerReturn at lowered
  split at lowered
  · rename_i constant _
    cases lowered
    have moved : Gains available selection
        (selection.push ⟨.movImm, some (.preg retvalReg), [.imm constant]⟩) :=
      definite.push (by simp [Syllable.sourceVregs, Value.vreg?])
    exact moved.yields_end rfl (by rintro v ⟨⟩) rfl rfl
  · rcases bind_eq_ok.mp lowered with ⟨v, isBound, same⟩
    cases same
    have isV := (isValue _ rfl _ _ rfl).vreg v (expect_eq_ok.mp isBound)
    have moved : Gains available selection
        (selection.push ⟨.mov, some (.preg retvalReg), [.reg (.vreg v)]⟩) :=
      definite.push (by simp [Syllable.sourceVregs, Value.vreg?, isV])
    exact moved.yields_end rfl (by rintro v ⟨⟩) rfl rfl
  · cases lowered
    exact definite.refl.yields_end rfl (by rintro v ⟨⟩) rfl rfl

theorem Definite.yields_condBr (definite : Definite available selection) {cond : Operand}
    {ifTrue ifFalse : Llvm.BlockRef} (isCond : OperandSupplied available selection cond)
    (lowered : lowerCondBr labelAt cond ifTrue ifFalse selection = .ok after) :
    Yields available ref selection after := by
  rcases bind_eq_ok.mp lowered with ⟨trueLabel, -, lowered⟩
  rcases bind_eq_ok.mp lowered with ⟨falseLabel, -, lowered⟩
  rcases bind_eq_ok.mp lowered with ⟨v, isBound, lowered⟩
  rcases Option.bind_eq_some_iff.mp (expect_eq_ok.mp isBound) with ⟨key, isRef, isRegister⟩
  cases lowered
  refine definite.refl.yields_end rfl ?_ rfl rfl
  rintro w ⟨⟩
  cases cond with
  | ref other type =>
      cases isRef
      exact (isCond _ type rfl).vreg _ isRegister
  | _ => cases isRef

/-- The result of an address computation keeps the base of its operand. -/
theorem Definite.yields_getElementPtr (definite : Definite available selection) {element : Llvm.Ty}
    {base : Operand} {indices : List Operand}
    (isBase : OperandSupplied available selection base)
    (lowered : lowerGetElementPtr ref element base indices selection = .ok after) :
    Yields available ref selection after := by
  rcases bind_eq_ok.mp lowered with ⟨⟨baseVal, baseOffset⟩, isValue, lowered⟩
  rcases bind_eq_ok.mp lowered with ⟨elemBytes, -, lowered⟩
  rcases bind_eq_ok.mp lowered with ⟨totalOffset, -, lowered⟩
  cases lowered
  refine ⟨definite.refl.congr rfl rfl, fun v isBound => .inl isBound, fun v offset isFolded => ?_⟩
  right
  rw [AList.lookup_insert] at isFolded
  rcases Prod.mk.inj (Option.some.inj isFolded) with ⟨isVreg, -⟩
  exact (obtained_of_base isBase isValue isVreg).congr rfl

/-- Every instruction but a phi and a call reads what is obtained and obtains its
result. -/
theorem Definite.yields (definite : Definite available selection)
    (notPhi : ∀ incoming, instruction.operation ≠ .phi incoming)
    (notCall : isCall instruction = false)
    (supplied : ∀ operand ∈ instruction.operation.operands,
      OperandSupplied available selection operand)
    (lowered : lowerInstruction module memorySize labelAt label selection instruction =
      .ok after) : Yields available instruction.ref selection after := by
  unfold lowerInstruction at lowered
  cases isOperation : instruction.operation with
  | phi incoming => exact absurd isOperation (notPhi incoming)
  | ret value =>
      rw [isOperation] at lowered supplied
      apply definite.yields_return _ lowered
      intro operand isOperand
      exact supplied operand (by simpa [Llvm.Operation.operands] using isOperand)
  | condBr cond ifTrue ifFalse =>
      rw [isOperation] at lowered supplied
      exact definite.yields_condBr (supplied cond (by simp [Llvm.Operation.operands])) lowered
  | br target =>
      rw [isOperation] at lowered
      rcases bind_eq_ok.mp lowered with ⟨targetLabel, -, lowered⟩
      cases lowered
      exact definite.refl.yields_end rfl (by rintro v ⟨⟩) rfl rfl
  | call callee arguments =>
      rw [isCall, isOperation] at notCall
      cases notCall
  | icmp predicate lhs rhs =>
      rw [isOperation] at lowered supplied
      exact definite.yields_icmp (supplied lhs (by simp [Llvm.Operation.operands]))
        (supplied rhs (by simp [Llvm.Operation.operands])) lowered
  | binary op lhs rhs =>
      rw [isOperation] at lowered supplied
      exact definite.yields_binary (supplied lhs (by simp [Llvm.Operation.operands]))
        (supplied rhs (by simp [Llvm.Operation.operands])) lowered
  | store value pointer =>
      rw [isOperation] at lowered supplied
      exact definite.yields_store (supplied value (by simp [Llvm.Operation.operands]))
        (supplied pointer (by simp [Llvm.Operation.operands])) lowered
  | load pointer =>
      rw [isOperation] at lowered supplied
      exact definite.yields_load (supplied pointer (by simp [Llvm.Operation.operands])) lowered
  | getElementPtr element base indices =>
      rw [isOperation] at lowered supplied
      exact definite.yields_getElementPtr (supplied base (by simp [Llvm.Operation.operands])) lowered
  | invoke | atomic | other =>
      rw [isOperation] at lowered
      cases lowered

end

/-! ### Copies of phis -/

/-- Some copy has the register as its source. -/
def IsSource (copies : List PhiCopy) (v : Nat) : Prop := ∃ copy ∈ copies, copy.src = .vreg v

theorem covered_cons {available : Nat → Prop} {syllable : Syllable} {code : List Syllable}
    (reads : ∀ v ∈ syllable.sourceVregs, available v)
    (rest : Covered (fun v => available v ∨ syllable.dstVreg = some v) code) :
    Covered available (syllable :: code) := by
  have isFirst : Covered available [syllable] := by
    rw [← List.nil_append [syllable]]
    exact (covered_nil available).snoc fun v isRead => .inl (reads v isRead)
  rw [← List.singleton_append]
  exact isFirst.append (rest.mono fun v => Or.imp_right defines_singleton.mpr)

/-- Copies in order read their sources and registers written before. -/
theorem covered_of_serialize {limit : Option Nat} {fuel nextVreg next : Nat}
    {remaining : List PhiCopy} {code : List Syllable}
    (ordered : serialize limit fuel remaining nextVreg = .ok (code, next)) :
    Covered (IsSource remaining) code := by
  induction fuel generalizing remaining nextVreg next code with
  | zero => cases ordered
  | succ fuel ih =>
      unfold serialize at ordered
      split at ordered
      · cases ordered
        exact covered_nil _
      · split at ordered
        · rename_i pos _
          rcases bind_eq_ok.mp ordered with ⟨copy, isCopy, ordered⟩
          rw [expect_eq_ok] at isCopy
          rcases bind_eq_ok.mp ordered with ⟨⟨rest, last⟩, isRest, ordered⟩
          cases ordered
          apply covered_cons
          · intro v isRead
            exact ⟨copy, List.mem_of_getElem? isCopy, mem_sourceVregs_syllableForCopy.mp isRead⟩
          · refine (ih isRest).mono ?_
            rintro v ⟨other, otherMem, isSrc⟩
            exact .inl ⟨other, List.mem_of_mem_eraseIdx otherMem, isSrc⟩
        · rcases bind_eq_ok.mp ordered with ⟨src, isSrc, ordered⟩
          rw [expect_eq_ok] at isSrc
          rcases bind_eq_ok.mp ordered with ⟨fresh, isFresh, ordered⟩
          rcases bind_eq_ok.mp ordered with ⟨⟨rest, last⟩, isRest, ordered⟩
          cases ordered
          cases succVreg_eq_ok isFresh
          rcases List.exists_of_findSome?_eq_some isSrc with ⟨reader, readerMem, isReader⟩
          rw [reg?_eq_some] at isReader
          apply covered_cons
          · intro v isRead
            cases mem_sourceVregs_syllableForCopy.mp isRead
            exact ⟨reader, readerMem, isReader⟩
          · refine (ih isRest).mono ?_
            rintro v ⟨copy, copyMem, isV⟩
            rcases List.mem_map.mp copyMem with ⟨original, originalMem, rfl⟩
            rw [redirect_src] at isV
            split at isV
            · cases isV
              exact .inr (dstVreg_syllableForCopy _ _)
            · exact .inl ⟨original, originalMem, isV⟩

/-- The code of copies reads sources, and writes the destination of every copy that
is not of a register to itself. -/
theorem covered_of_serializeParallelCopies {copies : List PhiCopy} {code : List Syllable}
    {nextVreg next : Nat} (ordered : serializeParallelCopies none copies nextVreg = .ok (code, next)) :
    Covered (IsSource copies) code ∧
      ∀ copy ∈ copies, copy.src = .vreg copy.dst ∨ Defines code copy.dst := by
  constructor
  · refine (covered_of_serialize ordered).mono ?_
    rintro v ⟨copy, copyMem, isSrc⟩
    exact ⟨copy, List.mem_of_mem_filter copyMem, isSrc⟩
  · intro copy copyMem
    by_cases isSelf : copy.src = .vreg copy.dst
    · exact .inl isSelf
    · right
      apply (moves_of_serialize ordered).written copy
      simp [copyMem, isSelf]

end VliwCompiler.Isel
