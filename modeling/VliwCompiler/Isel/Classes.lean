import VliwCompiler.Isel.Registers

/-!
# Register classes of selected code

Comparisons write predicates, everything else writes integers.  Every virtual
register is written in one class only; whether it is read in the same class
depends on how the values of comparisons are used.
-/

namespace VliwCompiler.Isel

open Asm (Opcode I64)
open Mir (Reg Value Syllable Terminator Block predicateSources)
open Llvm (ValueRef Operand Operation Instruction)

/-! ### Uses of values -/

/-- A use of a value as a predicate or as an integer. -/
structure Use where
  asPred : Bool
  ref : ValueRef
  deriving DecidableEq, Repr

/-- The use of an integer operand. -/
def intUse : Operand → List Use
  | .ref key (.int _) => [⟨false, key⟩]
  | _ => []

/-- The use of an operand of any type. -/
def refUse (asPred : Bool) (operand : Operand) : List Use :=
  operand.ref?.toList.map (⟨asPred, ·⟩)

/-- The uses of values by the code of an instruction; those of a phi belong to
its predecessors. -/
def codeUses : Operation → List Use
  | .ret value => value.toList.flatMap intUse
  | .condBr cond _ _ => refUse true cond
  | .call _ arguments => arguments.flatMap (refUse false)
  | .icmp _ lhs rhs | .binary _ lhs rhs => intUse lhs ++ intUse rhs
  | .store value _ => intUse value
  | _ => []

/-- The uses of values by a phi. -/
def phiUses : Operation → List Use
  | .phi incoming => incoming.flatMap fun value => refUse false value.1
  | _ => []

/-! ### Selected code -/

namespace Selection

/-- The syllables selected so far. -/
def emitted (selection : Selection) : List Syllable :=
  selection.mirBlocks.flatMap (·.syllables) ++ selection.syllables

/-- The branch conditions selected so far. -/
def conds (selection : Selection) : List Nat :=
  selection.mirBlocks.filterMap (·.terminator.condVreg) ++ selection.terminator.condVreg.toList

@[simp]
theorem emitted_push (selection : Selection) (syllable : Syllable) :
    (selection.push syllable).emitted = selection.emitted ++ [syllable] := by
  simp [emitted, push]

@[simp]
theorem emitted_freshVreg (selection : Selection) :
    selection.freshVreg.emitted = selection.emitted := rfl

end Selection

/-- The sources of a syllable are registers of its class or values used. -/
structure Sourced (isComparison : ValueRef → Bool) (classes : List Bool) (syllable : Syllable)
    (uses : List Use) : Prop where
  sound : ∀ v ∈ syllable.sourceVregs, classes[v]? = some (predicateSources syllable.opcode) ∨
    ∃ use ∈ uses, use.asPred = predicateSources syllable.opcode ∧
      classes[v]? = some (isComparison use.ref)
  complete : ∀ use ∈ uses, use.asPred = predicateSources syllable.opcode ∧
    ∃ v ∈ syllable.sourceVregs, classes[v]? = some (isComparison use.ref)

/-- The registers of a selection have the classes `classes`; its code makes the
given uses of values. -/
structure Classed (params : Nat) (isComparison : ValueRef → Bool) (uses : List Use)
    (classes : List Bool) (selection : Selection) : Prop where
  length : classes.length = selection.nextVreg
  paramClass : ∀ v < params, classes[v]? = some false
  written : ∀ syllable ∈ selection.emitted, ∀ v, syllable.dstVreg = some v →
    classes[v]? = some syllable.opcode.writesPred ∧
      syllable.opcode.writesGpr = !syllable.opcode.writesPred
  writer : ∀ v < selection.nextVreg, v < params ∨ (∃ phi ∈ selection.pendingPhis, phi.dst = v) ∨
    ∃ syllable ∈ selection.emitted, syllable.dstVreg = some v
  phis : ∀ phi ∈ selection.pendingPhis, classes[phi.dst]? = some false
  bound : ∀ ref v, selection.vregMap.lookup ref = some v → classes[v]? = some (isComparison ref)
  folded : ∀ ref v offset, selection.gepMap.lookup ref = some (.reg (.vreg v), offset) →
    classes[v]? = some false
  sound : ∀ syllable ∈ selection.emitted, ∀ v ∈ syllable.sourceVregs,
    classes[v]? = some (predicateSources syllable.opcode) ∨
      ∃ use ∈ uses, use.asPred = predicateSources syllable.opcode ∧
        classes[v]? = some (isComparison use.ref)
  soundCond : ∀ v ∈ selection.conds,
    ∃ use ∈ uses, use.asPred = true ∧ classes[v]? = some (isComparison use.ref)
  complete : ∀ use ∈ uses, use.asPred = false → ∃ syllable ∈ selection.emitted,
    predicateSources syllable.opcode = false ∧
      ∃ v ∈ syllable.sourceVregs, classes[v]? = some (isComparison use.ref)
  completeCond : ∀ use ∈ uses, use.asPred = true →
    ∃ v ∈ selection.conds, classes[v]? = some (isComparison use.ref)

section

variable {params : Nat} {isComparison : ValueRef → Bool} {uses : List Use} {classes : List Bool}
  {selection after : Selection}

theorem getElem?_snoc {v : Nat} {cls : Bool} (isClass : classes[v]? = some cls) (last : Bool) :
    (classes ++ [last])[v]? = some cls := by
  obtain ⟨inside, -⟩ := List.getElem?_eq_some_iff.mp isClass
  rw [List.getElem?_append_left inside, isClass]

theorem Sourced.snoc {syllable : Syllable} (sourced : Sourced isComparison classes syllable uses)
    (last : Bool) : Sourced isComparison (classes ++ [last]) syllable uses where
  sound := by
    intro v vMem
    rcases sourced.sound v vMem with isClass | ⟨use, useMem, same, isClass⟩
    · exact .inl (getElem?_snoc isClass last)
    · exact .inr ⟨use, useMem, same, getElem?_snoc isClass last⟩
  complete := by
    intro use useMem
    obtain ⟨same, v, vMem, isClass⟩ := sourced.complete use useMem
    exact ⟨same, v, vMem, getElem?_snoc isClass last⟩

/-- A syllable without destination. -/
theorem Classed.push (classed : Classed params isComparison uses classes selection)
    {syllable : Syllable} {more : List Use} (noVreg : syllable.dstVreg = none)
    (sourced : Sourced isComparison classes syllable more)
    (words : predicateSources syllable.opcode = false) :
    Classed params isComparison (uses ++ more) classes (selection.push syllable) where
  length := classed.length
  paramClass := classed.paramClass
  written := by
    intro other otherMem v isDst
    rw [Selection.emitted_push] at otherMem
    rcases List.mem_append.mp otherMem with isOld | isNew
    · exact classed.written other isOld v isDst
    · rw [List.mem_singleton.mp isNew, noVreg] at isDst
      cases isDst
  writer := by
    intro v inside
    rcases classed.writer v inside with isParam | isPhi | ⟨other, otherMem, isDst⟩
    · exact .inl isParam
    · exact .inr (.inl isPhi)
    · exact .inr (.inr ⟨other, by simp [otherMem], isDst⟩)
  phis := classed.phis
  bound := classed.bound
  folded := classed.folded
  sound := by
    intro other otherMem v vMem
    rw [Selection.emitted_push] at otherMem
    rcases List.mem_append.mp otherMem with isOld | isNew
    · rcases classed.sound other isOld v vMem with isClass | ⟨use, useMem, rest⟩
      · exact .inl isClass
      · exact .inr ⟨use, List.mem_append_left _ useMem, rest⟩
    · obtain rfl := List.mem_singleton.mp isNew
      rcases sourced.sound v vMem with isClass | ⟨use, useMem, rest⟩
      · exact .inl isClass
      · exact .inr ⟨use, List.mem_append_right _ useMem, rest⟩
  soundCond := by
    intro v vMem
    obtain ⟨use, useMem, rest⟩ := classed.soundCond v vMem
    exact ⟨use, List.mem_append_left _ useMem, rest⟩
  complete := by
    intro use useMem isWord
    rcases List.mem_append.mp useMem with isOld | isNew
    · obtain ⟨other, otherMem, rest⟩ := classed.complete use isOld isWord
      exact ⟨other, by simp [otherMem], rest⟩
    · exact ⟨syllable, by simp, words, (sourced.complete use isNew).2⟩
  completeCond := by
    intro use useMem isPred
    rcases List.mem_append.mp useMem with isOld | isNew
    · exact classed.completeCond use isOld isPred
    · rw [(sourced.complete use isNew).1, words] at isPred
      cases isPred

/-- A syllable that defines the next register. -/
theorem Classed.define (classed : Classed params isComparison uses classes selection)
    {opcode : Opcode} {srcs : List Value} {more : List Use}
    (sourced : Sourced isComparison classes
      ⟨opcode, some (.vreg selection.nextVreg), srcs⟩ more)
    (words : predicateSources opcode = true → more = [])
    (writes : opcode.writesGpr = !opcode.writesPred) :
    Classed params isComparison (uses ++ more) (classes ++ [opcode.writesPred])
      (selection.push ⟨opcode, some (.vreg selection.nextVreg), srcs⟩).freshVreg := by
  have isEmitted : (selection.push ⟨opcode, some (.vreg selection.nextVreg), srcs⟩).freshVreg.emitted =
      selection.emitted ++ [⟨opcode, some (.vreg selection.nextVreg), srcs⟩] := by
    rw [Selection.emitted_freshVreg, Selection.emitted_push]
  have isNext : (classes ++ [opcode.writesPred])[selection.nextVreg]? = some opcode.writesPred := by
    rw [← classed.length, List.getElem?_concat_length]
  have sourced' := sourced.snoc opcode.writesPred
  refine ⟨?_, ?_, ?_, ?_, ?_, ?_, ?_, ?_, ?_, ?_, ?_⟩
  · rw [List.length_append, classed.length]
    rfl
  · exact fun v isParam => getElem?_snoc (classed.paramClass v isParam) _
  · intro other otherMem v isDst
    rw [isEmitted] at otherMem
    rcases List.mem_append.mp otherMem with isOld | isNew
    · obtain ⟨isClass, exclusive⟩ := classed.written other isOld v isDst
      exact ⟨getElem?_snoc isClass _, exclusive⟩
    · obtain rfl := List.mem_singleton.mp isNew
      obtain rfl : selection.nextVreg = v := by simpa [Syllable.dstVreg] using isDst
      exact ⟨isNext, writes⟩
  · intro v inside
    rw [isEmitted]
    by_cases isLast : v = selection.nextVreg
    · exact .inr (.inr ⟨_, List.mem_append_right _ (List.mem_singleton_self _), by rw [isLast]; rfl⟩)
    · have older : v < selection.nextVreg := Nat.lt_of_le_of_ne (Nat.le_of_lt_succ inside) isLast
      rcases classed.writer v older with isParam | isPhi | ⟨other, otherMem, isDst⟩
      · exact .inl isParam
      · exact .inr (.inl isPhi)
      · exact .inr (.inr ⟨other, List.mem_append_left _ otherMem, isDst⟩)
  · exact fun phi phiMem => getElem?_snoc (classed.phis phi phiMem) _
  · exact fun ref v isBound => getElem?_snoc (classed.bound ref v isBound) _
  · exact fun ref v offset isFolded => getElem?_snoc (classed.folded ref v offset isFolded) _
  · intro other otherMem v vMem
    rw [isEmitted] at otherMem
    rcases List.mem_append.mp otherMem with isOld | isNew
    · rcases classed.sound other isOld v vMem with isClass | ⟨use, useMem, same, isClass⟩
      · exact .inl (getElem?_snoc isClass _)
      · exact .inr ⟨use, List.mem_append_left _ useMem, same, getElem?_snoc isClass _⟩
    · obtain rfl := List.mem_singleton.mp isNew
      rcases sourced'.sound v vMem with isClass | ⟨use, useMem, rest⟩
      · exact .inl isClass
      · exact .inr ⟨use, List.mem_append_right _ useMem, rest⟩
  · intro v vMem
    obtain ⟨use, useMem, isPred, isClass⟩ := classed.soundCond v vMem
    exact ⟨use, List.mem_append_left _ useMem, isPred, getElem?_snoc isClass _⟩
  · intro use useMem isWord
    rw [isEmitted]
    rcases List.mem_append.mp useMem with isOld | isNew
    · obtain ⟨other, otherMem, isWords, v, vMem, isClass⟩ := classed.complete use isOld isWord
      exact ⟨other, List.mem_append_left _ otherMem, isWords, v, vMem, getElem?_snoc isClass _⟩
    · obtain ⟨same, reads⟩ := sourced'.complete use isNew
      exact ⟨_, List.mem_append_right _ (List.mem_singleton_self _), same.symm.trans isWord, reads⟩
  · intro use useMem isPred
    rcases List.mem_append.mp useMem with isOld | isNew
    · obtain ⟨v, vMem, isClass⟩ := classed.completeCond use isOld isPred
      exact ⟨v, vMem, getElem?_snoc isClass _⟩
    · obtain ⟨same, -⟩ := sourced.complete use isNew
      rw [words (same.symm.trans isPred)] at isNew
      cases isNew

/-- Binding a value to a register of its class. -/
theorem Classed.bind (classed : Classed params isComparison uses classes selection)
    {ref : ValueRef} {v : Nat} (isClass : classes[v]? = some (isComparison ref)) :
    Classed params isComparison uses classes
      { selection with vregMap := selection.vregMap.insert ref v } := by
  refine { classed with bound := ?_ }
  intro other w isBound
  by_cases same : other = ref
  · subst same
    rw [AList.lookup_insert] at isBound
    exact Option.some.inj isBound ▸ isClass
  · rw [AList.lookup_insert_ne same] at isBound
    exact classed.bound other w isBound

/-- The value of an instruction defined in the next register. -/
theorem Classed.defineValue (classed : Classed params isComparison uses classes selection)
    {opcode : Opcode} {srcs : List Value} {more : List Use} {ref : ValueRef}
    (sourced : Sourced isComparison classes
      ⟨opcode, some (.vreg selection.nextVreg), srcs⟩ more)
    (words : predicateSources opcode = true → more = [])
    (writes : opcode.writesGpr = !opcode.writesPred)
    (isClass : opcode.writesPred = isComparison ref) :
    Classed params isComparison (uses ++ more) (classes ++ [opcode.writesPred])
      ((selection.push ⟨opcode, some (.vreg selection.nextVreg), srcs⟩).bindVreg ref) := by
  refine (classed.define sourced words writes).bind ?_
  rw [Selection.push, ← classed.length, List.getElem?_concat_length, isClass]

/-- A phi takes the next register. -/
theorem Classed.phi (classed : Classed params isComparison uses classes selection)
    {ref : ValueRef} {label : String} {incoming : List (String × RawPhiVal)}
    (isWord : isComparison ref = false) :
    Classed params isComparison uses (classes ++ [false])
      { selection.bindVreg ref with
        pendingPhis := selection.pendingPhis ++ [⟨label, selection.nextVreg, incoming⟩] } := by
  have isNext : (classes ++ [false])[selection.nextVreg]? = some false := by
    rw [← classed.length, List.getElem?_concat_length]
  have fresh : Classed params isComparison uses (classes ++ [false])
      { selection.freshVreg with
        pendingPhis := selection.pendingPhis ++ [⟨label, selection.nextVreg, incoming⟩] } := by
    refine ⟨?_, ?_, ?_, ?_, ?_, ?_, ?_, ?_, ?_, ?_, ?_⟩
    · rw [List.length_append, classed.length]
      rfl
    · exact fun v isParam => getElem?_snoc (classed.paramClass v isParam) _
    · intro other otherMem v isDst
      obtain ⟨isClass, exclusive⟩ := classed.written other otherMem v isDst
      exact ⟨getElem?_snoc isClass _, exclusive⟩
    · intro v inside
      by_cases isLast : v = selection.nextVreg
      · exact .inr (.inl ⟨_, List.mem_append_right _ (List.mem_singleton_self _), isLast.symm⟩)
      · have older : v < selection.nextVreg := Nat.lt_of_le_of_ne (Nat.le_of_lt_succ inside) isLast
        rcases classed.writer v older with isParam | ⟨phi, phiMem, isDst⟩ | written
        · exact .inl isParam
        · exact .inr (.inl ⟨phi, List.mem_append_left _ phiMem, isDst⟩)
        · exact .inr (.inr written)
    · intro phi phiMem
      rcases List.mem_append.mp phiMem with isOld | isNew
      · exact getElem?_snoc (classed.phis phi isOld) _
      · rw [List.mem_singleton.mp isNew]
        exact isNext
    · exact fun ref v isBound => getElem?_snoc (classed.bound ref v isBound) _
    · exact fun ref v offset isFolded => getElem?_snoc (classed.folded ref v offset isFolded) _
    · intro other otherMem v vMem
      rcases classed.sound other otherMem v vMem with isClass | ⟨use, useMem, same, isClass⟩
      · exact .inl (getElem?_snoc isClass _)
      · exact .inr ⟨use, useMem, same, getElem?_snoc isClass _⟩
    · intro v vMem
      obtain ⟨use, useMem, isPred, isClass⟩ := classed.soundCond v vMem
      exact ⟨use, useMem, isPred, getElem?_snoc isClass _⟩
    · intro use useMem isUse
      obtain ⟨other, otherMem, isWords, v, vMem, isClass⟩ := classed.complete use useMem isUse
      exact ⟨other, otherMem, isWords, v, vMem, getElem?_snoc isClass _⟩
    · intro use useMem isPred
      obtain ⟨v, vMem, isClass⟩ := classed.completeCond use useMem isPred
      exact ⟨v, vMem, getElem?_snoc isClass _⟩
  exact fresh.bind (isWord ▸ isNext)

/-- Control flow is no concern of the classes as long as the code and the
branch conditions stay. -/
theorem Classed.congr (classed : Classed params isComparison uses classes selection)
    (sameVregs : after.vregMap = selection.vregMap) (sameNext : after.nextVreg = selection.nextVreg)
    (sameGeps : after.gepMap = selection.gepMap)
    (samePhis : after.pendingPhis = selection.pendingPhis)
    (sameCode : ∀ syllable, syllable ∈ after.emitted ↔ syllable ∈ selection.emitted)
    (sameConds : ∀ v, v ∈ after.conds ↔ v ∈ selection.conds) :
    Classed params isComparison uses classes after := by
  obtain ⟨length, paramClass, written, writer, phis, bound, folded, sound, soundCond, complete,
    completeCond⟩ := classed
  refine ⟨?_, paramClass, ?_, ?_, ?_, ?_, ?_, ?_, ?_, ?_, ?_⟩
  · rw [sameNext, length]
  · simpa only [sameCode] using written
  · simpa only [sameCode, samePhis, sameNext] using writer
  · simpa only [samePhis] using phis
  · simpa only [sameVregs] using bound
  · simpa only [sameGeps] using folded
  · simpa only [sameCode] using sound
  · simpa only [sameConds] using soundCond
  · simpa only [sameCode] using complete
  · simpa only [sameConds] using completeCond

/-! ### Operands -/

/-- The register of an integer operand has the class of its value; a constant
has a register of its own. -/
def OperandClass (isComparison : ValueRef → Bool) (classes : List Bool) (operand : Operand)
    (v : Nat) : Prop :=
  (intUse operand = [] ∧ classes[v]? = some false) ∨
    ∃ key, intUse operand = [⟨false, key⟩] ∧ classes[v]? = some (isComparison key)

theorem OperandClass.append {operand : Operand} {v : Nat}
    (isClass : OperandClass isComparison classes operand v) (added : List Bool) :
    OperandClass isComparison (classes ++ added) operand v := by
  have kept : ∀ cls, classes[v]? = some cls → (classes ++ added)[v]? = some cls := by
    intro cls found
    obtain ⟨inside, -⟩ := List.getElem?_eq_some_iff.mp found
    rw [List.getElem?_append_left inside, found]
  rcases isClass with ⟨unused, found⟩ | ⟨key, isUse, found⟩
  · exact .inl ⟨unused, kept _ found⟩
  · exact .inr ⟨key, isUse, kept _ found⟩

/-- A syllable on integers reads the registers of operands, and besides them
integers only. -/
theorem sourced_of_operands {syllable : Syllable} {operands : List (Operand × Nat)}
    (words : predicateSources syllable.opcode = false)
    (isClass : ∀ pair ∈ operands, OperandClass isComparison classes pair.1 pair.2 ∧
      pair.2 ∈ syllable.sourceVregs)
    (others : ∀ v ∈ syllable.sourceVregs, classes[v]? = some false ∨ ∃ pair ∈ operands, pair.2 = v) :
    Sourced isComparison classes syllable (operands.flatMap fun pair => intUse pair.1) where
  sound := by
    intro v vMem
    rw [words]
    rcases others v vMem with found | ⟨pair, pairMem, rfl⟩
    · exact .inl found
    · rcases (isClass pair pairMem).1 with ⟨-, found⟩ | ⟨key, isUse, found⟩
      · exact .inl found
      · exact .inr ⟨⟨false, key⟩, List.mem_flatMap.mpr ⟨pair, pairMem, by simp [isUse]⟩, rfl, found⟩
  complete := by
    intro use useMem
    obtain ⟨pair, pairMem, isUse⟩ := List.mem_flatMap.mp useMem
    obtain ⟨cls, inSources⟩ := isClass pair pairMem
    rcases cls with ⟨unused, -⟩ | ⟨key, isKey, found⟩
    · simp [unused] at isUse
    · obtain rfl : use = ⟨false, key⟩ := by simpa [isKey] using isUse
      exact ⟨words.symm, pair.2, inSources, found⟩

theorem sourced_of_noVreg {syllable : Syllable} (noVreg : syllable.sourceVregs = []) :
    Sourced isComparison classes syllable [] where
  sound := by simp [noVreg]
  complete := by simp

theorem intUse_of_intConstant {operand : Operand} {constant : I64}
    (isConstant : intConstant operand = some constant) : intUse operand = [] := by
  cases operand with
  | ref key type => cases type <;> simp [intConstant] at isConstant
  | _ => rfl

theorem Classed.operand (classed : Classed params isComparison uses classes selection)
    {operand : Operand} {value : Value}
    (lowered : lowerOperand operand selection = .ok (value, after)) :
    ∃ added v, Classed params isComparison uses (classes ++ added) after ∧
      value = .reg (.vreg v) ∧ OperandClass isComparison (classes ++ added) operand v := by
  unfold lowerOperand at lowered
  split at lowered
  · rename_i _ constant isConstant
    cases lowered
    have defined : Classed params isComparison (uses ++ []) (classes ++ [Opcode.movImm.writesPred])
        (selection.push ⟨.movImm, some (.vreg selection.nextVreg), [.imm constant]⟩).freshVreg :=
      classed.define (sourced_of_noVreg rfl) (fun _ => rfl) rfl
    rw [List.append_nil] at defined
    refine ⟨_, selection.nextVreg, defined, rfl, .inl ⟨?_, ?_⟩⟩
    · exact intUse_of_intConstant isConstant
    · rw [← classed.length, List.getElem?_concat_length]
      rfl
  · rename_i key bits isConstant
    obtain ⟨v, isBound, lowered⟩ := bind_eq_ok.mp lowered
    rw [expect_eq_ok] at isBound
    cases lowered
    refine ⟨[], v, by rwa [List.append_nil], rfl, .inr ⟨key, rfl, ?_⟩⟩
    rw [List.append_nil]
    exact classed.bound key v isBound
  · cases lowered

/-- The base of a pointer is an integer. -/
theorem Classed.pointer (classed : Classed params isComparison uses classes selection)
    {operand : Operand} {base : Value} {offset : I64}
    (typed : ∀ key, operand = .ref key .ptr → isComparison key = false)
    (lowered : lowerPtrOperand operand selection = .ok (base, offset)) {v : Nat}
    (isBase : base = .reg (.vreg v)) : classes[v]? = some false := by
  rcases lowerPtrOperand_eq_ok lowered with
    ⟨bits, address, -, isImm, -⟩ | ⟨key, isKey, isFolded | ⟨-, vreg, isBound, isVreg, -⟩⟩
  · rw [isImm] at isBase
    cases isBase
  · rw [isBase] at isFolded
    exact classed.folded key v offset isFolded
  · have same : vreg = v := by simpa using isVreg.symm.trans isBase
    have isClass := classed.bound key vreg isBound
    rwa [same, typed key isKey] at isClass

/-- The sources of an address are integers. -/
theorem Classed.address (classed : Classed params isComparison uses classes selection)
    {operand : Operand} {base : Value} {offset : I64}
    (typed : ∀ key, operand = .ref key .ptr → isComparison key = false)
    (lowered : lowerPtrOperand operand selection = .ok (base, offset)) {v : Nat}
    (vMem : .reg (.vreg v) ∈ addressSrcs base offset) : classes[v]? = some false := by
  have isBase : base = .reg (.vreg v) := by
    unfold addressSrcs at vMem
    split at vMem
    · exact (List.mem_singleton.mp vMem).symm
    · simp only [List.mem_cons, List.not_mem_nil, or_false, reduceCtorEq] at vMem
      exact vMem.symm
  exact classed.pointer typed lowered isBase

/-! ### Instructions -/

/-- An instruction agrees with the classes of values. -/
structure InstructionTyped (isComparison : ValueRef → Bool) (instruction : Instruction) : Prop where
  result : isComparison instruction.ref = true ↔
    ∃ predicate lhs rhs, instruction.operation = .icmp predicate lhs rhs
  pointers : ∀ operand ∈ instruction.operation.operands, ∀ key, operand = .ref key .ptr →
    isComparison key = false

theorem InstructionTyped.word {instruction : Instruction}
    (typed : InstructionTyped isComparison instruction)
    (notIcmp : ∀ predicate lhs rhs, instruction.operation ≠ .icmp predicate lhs rhs) :
    isComparison instruction.ref = false := by
  rw [← Bool.not_eq_true, typed.result]
  rintro ⟨predicate, lhs, rhs, isIcmp⟩
  exact notIcmp predicate lhs rhs isIcmp

/-- The classes after an instruction. -/
def ClassedBy (params : Nat) (isComparison : ValueRef → Bool) (uses : List Use)
    (classes : List Bool) (after : Selection) : Prop :=
  ∃ added, Classed params isComparison uses (classes ++ added) after

theorem comparison_opcode {predicate : Llvm.IntPredicate} {opcode : Opcode} {swapped : Bool}
    (isComparison : comparison predicate = .ok (opcode, swapped)) :
    opcode.writesPred = true ∧ predicateSources opcode = false ∧ opcode.writesGpr = false := by
  cases predicate <;> cases isComparison <;> decide

/-- A syllable on two integer operands in either order. -/
theorem sourced_of_pair {opcode : Opcode} {dst : Option Reg} {lhs rhs : Operand} {l r : Nat}
    (swapped : Bool) (words : predicateSources opcode = false)
    (leftClass : OperandClass isComparison classes lhs l)
    (rightClass : OperandClass isComparison classes rhs r) :
    Sourced isComparison classes
      ⟨opcode, dst,
        if swapped then [.reg (.vreg r), .reg (.vreg l)] else [.reg (.vreg l), .reg (.vreg r)]⟩
      (intUse lhs ++ intUse rhs) := by
  have both : intUse lhs ++ intUse rhs =
      [(lhs, l), (rhs, r)].flatMap fun pair => intUse pair.1 := by simp
  have isSources : ∀ v, v ∈ Syllable.sourceVregs ⟨opcode, dst,
      if swapped then [.reg (.vreg r), .reg (.vreg l)] else [.reg (.vreg l), .reg (.vreg r)]⟩ ↔
        v = l ∨ v = r := by
    intro v
    rw [Syllable.mem_sourceVregs]
    cases swapped with
    | false => simp
    | true => simp [or_comm]
  rw [both]
  refine sourced_of_operands words ?_ ?_
  · intro pair pairMem
    simp only [List.mem_cons, List.not_mem_nil, or_false] at pairMem
    rcases pairMem with rfl | rfl
    · exact ⟨leftClass, (isSources l).mpr (.inl rfl)⟩
    · exact ⟨rightClass, (isSources r).mpr (.inr rfl)⟩
  · intro v vMem
    rcases (isSources v).mp vMem with rfl | rfl
    · exact .inr ⟨(lhs, v), by simp, rfl⟩
    · exact .inr ⟨(rhs, v), by simp, rfl⟩

theorem Classed.icmp (classed : Classed params isComparison uses classes selection)
    {ref : ValueRef} {predicate : Llvm.IntPredicate} {lhs rhs : Operand}
    (isPred : isComparison ref = true)
    (lowered : lowerIcmp ref predicate lhs rhs selection = .ok after) :
    ClassedBy params isComparison (uses ++ (intUse lhs ++ intUse rhs)) classes after := by
  obtain ⟨⟨left, first⟩, isLeft, lowered⟩ := bind_eq_ok.mp lowered
  obtain ⟨⟨right, second⟩, isRight, lowered⟩ := bind_eq_ok.mp lowered
  obtain ⟨⟨opcode, swapped⟩, isOpcode, lowered⟩ := bind_eq_ok.mp lowered
  obtain ⟨added, l, classedFirst, rfl, leftClass⟩ := classed.operand isLeft
  obtain ⟨added', r, classedSecond, rfl, rightClass⟩ := classedFirst.operand isRight
  obtain ⟨writes, words, exclusive⟩ := comparison_opcode isOpcode
  have sourced : Sourced isComparison (classes ++ added ++ added')
      ⟨opcode, some (.vreg second.nextVreg),
        if swapped then [.reg (.vreg r), .reg (.vreg l)] else [.reg (.vreg l), .reg (.vreg r)]⟩
      (intUse lhs ++ intUse rhs) :=
    sourced_of_pair swapped words (leftClass.append added') rightClass
  dsimp only at lowered
  split at lowered
  · cases lowered
    have compared := classedSecond.define sourced (by simp [words]) (by rw [writes, exclusive]; rfl)
    have isCompared : (classes ++ added ++ added' ++ [opcode.writesPred])[second.nextVreg]? =
        some true := by
      rw [← classedSecond.length, List.getElem?_concat_length, writes]
    have negation : Sourced isComparison (classes ++ added ++ added' ++ [opcode.writesPred])
        ⟨.pNot, some (.vreg (second.nextVreg + 1)), [.reg (.vreg second.nextVreg)]⟩ [] := by
      refine ⟨?_, by simp⟩
      intro v vMem
      rw [Syllable.mem_sourceVregs] at vMem
      obtain rfl : v = second.nextVreg := by simpa using vMem
      exact .inl isCompared
    have negated := compared.defineValue negation (fun _ => rfl) rfl isPred.symm
    exact ⟨added ++ added' ++ [opcode.writesPred] ++ [Opcode.pNot.writesPred],
      by simpa using negated⟩
  · cases lowered
    have defined := classedSecond.defineValue sourced (by simp [words])
      (by rw [writes, exclusive]; rfl) (writes.trans isPred.symm)
    exact ⟨added ++ added' ++ [opcode.writesPred], by simpa using defined⟩

theorem Classed.binary (classed : Classed params isComparison uses classes selection)
    {ref : ValueRef} {op : Llvm.BinaryOp} {lhs rhs : Operand} (isWord : isComparison ref = false)
    (lowered : lowerBinary ref op lhs rhs selection = .ok after) :
    ClassedBy params isComparison (uses ++ (intUse lhs ++ intUse rhs)) classes after := by
  obtain ⟨⟨left, first⟩, isLeft, lowered⟩ := bind_eq_ok.mp lowered
  obtain ⟨⟨right, second⟩, isRight, lowered⟩ := bind_eq_ok.mp lowered
  obtain ⟨added, l, classedFirst, rfl, leftClass⟩ := classed.operand isLeft
  obtain ⟨added', r, classedSecond, rfl, rightClass⟩ := classedFirst.operand isRight
  have words : predicateSources (binaryOpcode op) = false ∧ (binaryOpcode op).writesPred = false ∧
      (binaryOpcode op).writesGpr = true := by
    cases op <;> decide
  have sourced : Sourced isComparison (classes ++ added ++ added')
      ⟨binaryOpcode op, some (.vreg second.nextVreg), [.reg (.vreg l), .reg (.vreg r)]⟩
      (intUse lhs ++ intUse rhs) :=
    sourced_of_pair false words.1 (leftClass.append added') rightClass
  cases lowered
  have defined := classedSecond.defineValue sourced (by simp [words.1])
    (by rw [words.2.1, words.2.2]; rfl) (words.2.1.trans isWord.symm)
  exact ⟨added ++ added' ++ [(binaryOpcode op).writesPred], by simpa using defined⟩

theorem Classed.store (classed : Classed params isComparison uses classes selection)
    {value pointer : Operand}
    (typed : ∀ key, pointer = .ref key .ptr → isComparison key = false)
    (lowered : lowerStore value pointer selection = .ok after) :
    ClassedBy params isComparison (uses ++ intUse value) classes after := by
  obtain ⟨opcode, isOpcode, lowered⟩ := bind_eq_ok.mp lowered
  obtain ⟨⟨data, first⟩, isData, lowered⟩ := bind_eq_ok.mp lowered
  obtain ⟨⟨base, offset⟩, isPointer, lowered⟩ := bind_eq_ok.mp lowered
  obtain ⟨added, d, classedFirst, rfl, dataClass⟩ := classed.operand isData
  have words : predicateSources opcode = false := by
    unfold storeOpcode at isOpcode
    split at isOpcode <;> cases isOpcode <;> rfl
  cases lowered
  refine ⟨added, classedFirst.push rfl ?_ words⟩
  have single : intUse value = [(value, d)].flatMap fun pair => intUse pair.1 := by simp
  rw [single]
  refine sourced_of_operands words ?_ ?_
  · intro pair pairMem
    obtain rfl := List.mem_singleton.mp pairMem
    exact ⟨dataClass, by simp [Syllable.mem_sourceVregs]⟩
  · intro v vMem
    rw [Syllable.mem_sourceVregs] at vMem
    rcases List.mem_append.mp vMem with inAddress | isValue
    · exact .inl (classedFirst.address typed isPointer inAddress)
    · obtain rfl : v = d := by simpa using isValue
      exact .inr ⟨(value, v), by simp, rfl⟩

theorem Classed.load (classed : Classed params isComparison uses classes selection)
    {instruction : Instruction} {pointer : Operand}
    (typed : ∀ key, pointer = .ref key .ptr → isComparison key = false)
    (isWord : isComparison instruction.ref = false)
    (lowered : lowerLoad instruction pointer selection = .ok after) :
    ClassedBy params isComparison (uses ++ []) classes after := by
  obtain ⟨opcode, isOpcode, lowered⟩ := bind_eq_ok.mp lowered
  obtain ⟨⟨base, offset⟩, isPointer, lowered⟩ := bind_eq_ok.mp lowered
  have words : predicateSources opcode = false ∧ opcode.writesPred = false ∧
      opcode.writesGpr = true := by
    unfold loadOpcode at isOpcode
    split at isOpcode <;> cases isOpcode <;> exact ⟨rfl, rfl, rfl⟩
  cases lowered
  refine ⟨_, classed.defineValue ⟨?_, by simp⟩ (by simp) (by rw [words.2.1, words.2.2]; rfl)
    (words.2.1.trans isWord.symm)⟩
  intro v vMem
  rw [Syllable.mem_sourceVregs] at vMem
  rw [words.1]
  exact .inl (classed.address typed isPointer vMem)

theorem Classed.getElementPtr (classed : Classed params isComparison uses classes selection)
    {ref : ValueRef} {element : Llvm.Ty} {base : Operand} {indices : List Operand}
    (typed : ∀ key, base = .ref key .ptr → isComparison key = false)
    (lowered : lowerGetElementPtr ref element base indices selection = .ok after) :
    ClassedBy params isComparison (uses ++ []) classes after := by
  obtain ⟨⟨baseVal, baseOffset⟩, isPointer, lowered⟩ := bind_eq_ok.mp lowered
  obtain ⟨elemBytes, -, lowered⟩ := bind_eq_ok.mp lowered
  obtain ⟨totalOffset, -, lowered⟩ := bind_eq_ok.mp lowered
  cases lowered
  refine ⟨[], ?_⟩
  rw [List.append_nil, List.append_nil]
  refine { classed with folded := ?_ }
  intro other v offset isFolded
  by_cases same : other = ref
  · subst same
    rw [AList.lookup_insert] at isFolded
    exact classed.pointer typed isPointer (Prod.mk.inj (Option.some.inj isFolded)).1
  · rw [AList.lookup_insert_ne same] at isFolded
    exact classed.folded other v offset isFolded

/-- A terminator other than a branch. -/
theorem Classed.terminate (classed : Classed params isComparison uses classes selection)
    (open? : selection.terminator.condVreg = none) {terminator : Terminator}
    (noCond : terminator.condVreg = none) (falseSucc trueSucc : Option String) :
    Classed params isComparison uses classes { selection with
      terminator := terminator
      falseSucc := falseSucc
      trueSucc := trueSucc } := by
  refine classed.congr rfl rfl rfl rfl (fun _ => Iff.rfl) fun v => ?_
  simp [Selection.conds, open?, noCond]

theorem Classed.branch (classed : Classed params isComparison uses classes selection)
    (open? : selection.terminator.condVreg = none) {key : ValueRef} {vreg : Nat} {label : String}
    (isBound : selection.vregMap.lookup key = some vreg) (falseSucc trueSucc : Option String) :
    Classed params isComparison (uses ++ [⟨true, key⟩]) classes { selection with
      terminator := .branch (.vreg vreg) label
      falseSucc := falseSucc
      trueSucc := trueSucc } := by
  have isClass := classed.bound key vreg isBound
  have isConds : ∀ v, v ∈ ({ selection with
      terminator := .branch (.vreg vreg) label
      falseSucc := falseSucc
      trueSucc := trueSucc } : Selection).conds ↔ v ∈ selection.conds ∨ v = vreg := by
    intro v
    have isCond : (Terminator.branch (.vreg vreg) label).condVreg = some vreg := rfl
    simp [Selection.conds, open?, isCond, eq_comm]
  refine ⟨classed.length, classed.paramClass, classed.written, classed.writer, classed.phis,
    classed.bound, classed.folded, ?_, ?_, ?_, ?_⟩
  · intro syllable syllableMem v vMem
    rcases classed.sound syllable syllableMem v vMem with found | ⟨use, useMem, rest⟩
    · exact .inl found
    · exact .inr ⟨use, List.mem_append_left _ useMem, rest⟩
  · intro v vMem
    rcases (isConds v).mp vMem with isOld | rfl
    · obtain ⟨use, useMem, rest⟩ := classed.soundCond v isOld
      exact ⟨use, List.mem_append_left _ useMem, rest⟩
    · exact ⟨⟨true, key⟩, by simp, rfl, isClass⟩
  · intro use useMem isWord
    rcases List.mem_append.mp useMem with isOld | isNew
    · exact classed.complete use isOld isWord
    · rw [List.mem_singleton.mp isNew] at isWord
      cases isWord
  · intro use useMem isPred
    rcases List.mem_append.mp useMem with isOld | isNew
    · obtain ⟨v, vMem, found⟩ := classed.completeCond use isOld isPred
      exact ⟨v, (isConds v).mpr (.inl vMem), found⟩
    · rw [List.mem_singleton.mp isNew]
      exact ⟨vreg, (isConds vreg).mpr (.inr rfl), isClass⟩

/-- A move to a physical register. -/
theorem Classed.moveRef (classed : Classed params isComparison uses classes selection)
    {key : ValueRef} {vreg : Nat} (isBound : selection.vregMap.lookup key = some vreg)
    (preg : UInt8) :
    Classed params isComparison (uses ++ [⟨false, key⟩]) classes
      (selection.push ⟨.mov, some (.preg preg), [.reg (.vreg vreg)]⟩) := by
  have isClass := classed.bound key vreg isBound
  have isSource : ∀ v, v ∈ Syllable.sourceVregs ⟨.mov, some (.preg preg), [.reg (.vreg vreg)]⟩ ↔
      v = vreg := by
    intro v
    rw [Syllable.mem_sourceVregs]
    simp
  refine classed.push rfl ⟨?_, ?_⟩ rfl
  · intro v vMem
    rw [(isSource v).mp vMem]
    exact .inr ⟨⟨false, key⟩, List.mem_singleton_self _, rfl, isClass⟩
  · intro use useMem
    rw [List.mem_singleton.mp useMem]
    exact ⟨rfl, vreg, (isSource vreg).mpr rfl, isClass⟩

/-- A syllable on physical registers, constants and addresses. -/
theorem Classed.pushFixed (classed : Classed params isComparison uses classes selection)
    {syllable : Syllable} (noDst : syllable.dstVreg = none) (noSource : syllable.sourceVregs = [])
    (words : predicateSources syllable.opcode = false) :
    Classed params isComparison uses classes (selection.push syllable) := by
  have pushed := classed.push noDst (sourced_of_noVreg noSource) words
  rwa [List.append_nil] at pushed

theorem intUses_eq_nil {value : Option Operand}
    (notInt : ∀ key bits, value = some (.ref key (.int bits)) → False) :
    value.toList.flatMap intUse = [] := by
  cases value with
  | none => rfl
  | some operand =>
      cases operand with
      | ref key type =>
          cases type with
          | int bits => exact (notInt key bits rfl).elim
          | _ => rfl
      | _ => rfl

theorem Classed.return (classed : Classed params isComparison uses classes selection)
    (open? : selection.terminator.condVreg = none) {value : Option Operand}
    (lowered : lowerReturn value selection = .ok after) :
    Classed params isComparison (uses ++ value.toList.flatMap intUse) classes after := by
  have unused : value.toList.flatMap intUse = [] →
      Classed params isComparison (uses ++ value.toList.flatMap intUse) classes
        { selection with terminator := .ret } := by
    intro isEmpty
    rw [isEmpty, List.append_nil]
    exact classed.terminate open? rfl _ _
  unfold lowerReturn at lowered
  split at lowered
  · rename_i constant isConstant
    cases lowered
    obtain ⟨operand, rfl, isConstant⟩ := Option.bind_eq_some_iff.mp isConstant
    have isEmpty : (some operand).toList.flatMap intUse = [] := by
      simp [intUse_of_intConstant isConstant]
    rw [isEmpty, List.append_nil]
    exact (classed.pushFixed rfl rfl rfl).terminate open? rfl _ _
  · rename_i key bits _
    obtain ⟨vreg, isBound, lowered⟩ := bind_eq_ok.mp lowered
    rw [expect_eq_ok] at isBound
    cases lowered
    exact (classed.moveRef isBound retvalReg).terminate open? rfl _ _
  · rename_i notInt _
    cases lowered
    exact unused (intUses_eq_nil notInt)

/-- The moves of arguments. -/
theorem Classed.arguments {arguments : List Operand} {values : List Argument} {first : Nat}
    {vregMap : HashMap ValueRef Nat}
    (classed : Classed params isComparison uses classes selection)
    (moved : arguments.mapM (callArgument vregMap) = .ok values)
    (sameVregs : selection.vregMap = vregMap) :
    Classed params isComparison (uses ++ arguments.flatMap (refUse false)) classes
      { selection with syllables := selection.syllables ++ argMoves first values } := by
  have related := mapM_eq_ok_iff.mp moved
  clear moved
  induction related generalizing first uses selection with
  | nil => simpa [argMoves] using classed
  | @cons operand value arguments values isValue _ ih =>
      have moved : Classed params isComparison (uses ++ refUse false operand) classes
          (selection.push (argMove value first)) := by
        cases operand with
        | constInt bits constant =>
            cases isValue
            have unused : refUse false (.constInt bits constant) = [] := rfl
            rw [unused, List.append_nil]
            exact classed.pushFixed rfl rfl rfl
        | constAddress bits value => cases isValue
        | constCast => cases isValue
        | const type => cases isValue
        | ref key type =>
            obtain ⟨vreg, isBound, isValue⟩ := bind_eq_ok.mp isValue
            rw [expect_eq_ok, ← sameVregs] at isBound
            cases isValue
            exact classed.moveRef isBound (argReg first)
      have rest : Classed params isComparison
          (uses ++ refUse false operand ++ arguments.flatMap (refUse false)) classes
          { selection.push (argMove value first) with
            syllables := selection.syllables ++ [argMove value first] ++
              argMoves (first + 1) values } :=
        ih moved sameVregs
      rw [argMoves_cons, List.flatMap_cons, ← List.append_assoc]
      rw [List.append_assoc selection.syllables] at rest
      exact rest

theorem Classed.call (classed : Classed params isComparison uses classes selection)
    (open? : selection.terminator.condVreg = none) {module : Llvm.Module} {memorySize : Nat}
    {instruction : Instruction} {callee : Llvm.Callee} {arguments : List Operand}
    (isWord : isComparison instruction.ref = false)
    (lowered : lowerCall module memorySize instruction callee arguments selection = .ok after) :
    ClassedBy params isComparison (uses ++ arguments.flatMap (refUse false)) classes after := by
  obtain ⟨target, values, ⟨-, -, -, moved, -⟩, rfl⟩ := lowerCall_eq_ok lowered
  have argumentsMoved : Classed params isComparison (uses ++ arguments.flatMap (refUse false)) classes
      { selection with syllables := selection.syllables ++ argMoves 0 values } :=
    classed.arguments moved rfl
  have saved : Classed params isComparison (uses ++ arguments.flatMap (refUse false)) classes
      ({ selection with syllables := selection.syllables ++ argMoves 0 values ++
        [saveLink (linkAddress memorySize)] }.push (restoreLink (linkAddress memorySize))) :=
    (argumentsMoved.pushFixed rfl rfl rfl).pushFixed rfl rfl rfl
  have called : Classed params isComparison (uses ++ arguments.flatMap (refUse false)) classes
      (splitAtCall (linkAddress memorySize) target { selection with
        syllables := selection.syllables ++ argMoves 0 values ++ [saveLink (linkAddress memorySize)] }) := by
    refine saved.congr rfl rfl rfl rfl (fun syllable => ?_) fun v => ?_
    · simp [Selection.emitted, splitAtCall, Selection.push]
    · have noCond : ∀ label, (Terminator.directCall target label).condVreg = none := fun _ => rfl
      have isRet : Terminator.ret.condVreg = none := rfl
      simp [Selection.conds, splitAtCall, Selection.push, open?, isRet, noCond]
  dsimp only
  split
  · exact ⟨[], by rwa [List.append_nil]⟩
  · have captured : ClassedBy params isComparison (uses ++ arguments.flatMap (refUse false) ++ [])
        classes (captureResult instruction.ref (splitAtCall (linkAddress memorySize) target { selection with
          syllables := selection.syllables ++ argMoves 0 values ++ [saveLink (linkAddress memorySize)] })) :=
      ⟨_, called.defineValue (sourced_of_noVreg rfl) (fun _ => rfl) rfl isWord.symm⟩
    rwa [List.append_nil] at captured

/-- What an instruction adds to the code keeps the classes. -/
theorem Classed.instruction (classed : Classed params isComparison uses classes selection)
    (open? : selection.terminator.condVreg = none) {module : Llvm.Module} {memorySize : Nat}
    {labelAt : Llvm.BlockRef → Outcome String} {label : String} {instruction : Instruction}
    (typed : InstructionTyped isComparison instruction)
    (lowered : lowerInstruction module memorySize labelAt label selection instruction =
      .ok after) :
    ClassedBy params isComparison (uses ++ codeUses instruction.operation) classes after := by
  have word := typed.word
  have pointers := typed.pointers
  have result := typed.result
  unfold lowerInstruction at lowered
  cases isOperation : instruction.operation with
  | phi incoming =>
      rw [isOperation] at lowered word
      obtain ⟨raw, -, lowered⟩ := bind_eq_ok.mp lowered
      cases lowered
      have unused : codeUses (.phi incoming) = [] := rfl
      rw [unused, List.append_nil]
      exact ⟨[false], classed.phi (word (by simp))⟩
  | ret value =>
      rw [isOperation] at lowered
      refine ⟨[], ?_⟩
      rw [List.append_nil]
      exact classed.return open? lowered
  | condBr cond ifTrue ifFalse =>
      rw [isOperation] at lowered
      obtain ⟨trueLabel, isTrue, lowered⟩ := bind_eq_ok.mp lowered
      obtain ⟨falseLabel, isFalse, lowered⟩ := bind_eq_ok.mp lowered
      obtain ⟨vreg, isBound, lowered⟩ := bind_eq_ok.mp lowered
      rw [expect_eq_ok] at isBound
      obtain ⟨key, isKey, isBound⟩ := Option.bind_eq_some_iff.mp isBound
      cases lowered
      have isUse : codeUses (.condBr cond ifTrue ifFalse) = [⟨true, key⟩] := by
        simp [codeUses, refUse, isKey]
      rw [isUse]
      exact ⟨[], by simpa using classed.branch open? isBound _ _⟩
  | br target =>
      rw [isOperation] at lowered
      obtain ⟨targetLabel, isTarget, lowered⟩ := bind_eq_ok.mp lowered
      cases lowered
      exact ⟨[], by simpa [codeUses] using classed.terminate open? rfl _ _⟩
  | call callee arguments =>
      rw [isOperation] at lowered word
      exact classed.call open? (word (by simp)) lowered
  | icmp predicate lhs rhs =>
      rw [isOperation] at lowered result
      exact classed.icmp (result.mpr ⟨predicate, lhs, rhs, rfl⟩) lowered
  | binary op lhs rhs =>
      rw [isOperation] at lowered word
      exact classed.binary (word (by simp)) lowered
  | store value pointer =>
      rw [isOperation] at lowered pointers
      exact classed.store (pointers pointer (by simp [Operation.operands])) lowered
  | load pointer =>
      rw [isOperation] at lowered pointers word
      exact classed.load (pointers pointer (by simp [Operation.operands])) (word (by simp)) lowered
  | getElementPtr element base indices =>
      rw [isOperation] at lowered pointers
      exact classed.getElementPtr (pointers base (by simp [Operation.operands])) lowered
  | invoke | atomic | other =>
      rw [isOperation] at lowered
      cases lowered

end

end VliwCompiler.Isel
