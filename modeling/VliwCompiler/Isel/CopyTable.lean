import VliwCompiler.Isel.Copies
import VliwCompiler.Isel.Dominance

/-!
# The table of copies

When labels tell all blocks apart, the copies of one predecessor agree: every
phi has one source for it.  Phi lowering then ends, and fails only where a
predecessor has no code.
-/

namespace VliwCompiler.Isel

open Mir (Block)
open Llvm (BlockRef ValueRef Operand Instruction)

/-- Labels tell blocks apart: those of the LLVM blocks, those of the MIR blocks,
and the ones made up for MIR blocks from those of LLVM blocks. -/
structure LabelsDistinct (function : Llvm.Function) : Prop where
  blocks : (blockLabels function).Nodup
  layout : (mirLabels function (blockOrder function)).Nodup
  apart : ∀ label ∈ mirLabels function (blockOrder function), label ∈ blockLabels function →
    label ∈ blockOrder function

/-! ### Receivers of copies -/

section

variable {function : Llvm.Function} {traversal : Traversal} {first second target : String}

theorem mem_layoutLabels {label : String} {labels : List String} (labelMem : label ∈ labels)
    (before : List String) (callCount : Nat) :
    label ∈ layoutLabels function before callCount labels := by
  induction labels generalizing before callCount with
  | nil => cases labelMem
  | cons head labels ih =>
      rw [layoutLabels, List.append_assoc]
      rcases List.mem_cons.mp labelMem with rfl | inRest
      · refine List.mem_append_left _ (List.mem_of_mem_head? ?_)
        rw [head?_chunkLabels]
        rfl
      · exact List.mem_append_right _ (List.mem_append_right _ (ih inRest _ _))

/-- A latch has a label of its own. -/
theorem latch_not_mem_blockLabels (distinct : LabelsDistinct function)
    (isPred : first ∈ blockOrder function) (isLatched : Latched function first target) :
    first ++ "__latch__" ++ target ∉ blockLabels function := by
  intro isLabel
  obtain ⟨back, isOrder⟩ := blockOrder_eq isPred
  have isLatch : latchLabels function (visitedBefore function first ++ [first]) first =
      [first ++ "__latch__" ++ target] := by
    rw [latchLabels, isLatched.1]
    exact if_pos isLatched.2
  have labels : mirLabels function (blockOrder function) = _ :=
    congrArg (mirLabels function) isOrder
  rw [mirLabels, mirLabels, layoutLabels_append, layoutLabels, List.nil_append, isLatch] at labels
  have layout := distinct.layout
  have isVisited := distinct.apart (first ++ "__latch__" ++ target)
    (by rw [mirLabels, labels]; simp) isLabel
  rw [mirLabels, labels] at layout
  rw [isOrder] at isVisited
  generalize first ++ "__latch__" ++ target = latch at layout isVisited
  rw [List.append_assoc] at layout
  obtain ⟨-, others, before⟩ := List.nodup_append.mp layout
  obtain ⟨-, rest, inChunk⟩ := List.nodup_append.mp others
  rcases List.mem_append.mp isVisited with isBefore | isAfter
  · exact before latch (mem_layoutLabels isBefore _ _) latch (by simp) rfl
  · rcases List.mem_cons.mp isAfter with rfl | isLater
    · refine inChunk latch (List.mem_of_mem_head? ?_) latch (by simp) rfl
      rw [head?_chunkLabels]
      rfl
    · exact (List.nodup_cons.mp rest).1 (mem_layoutLabels isLater _ _)

theorem Selected.actualPred_cases (selected : Selected function traversal)
    (first target : String) :
    actualPred traversal.edgeRemap first target = first ∨
      first ∈ blockOrder function ∧ Latched function first target ∧
        actualPred traversal.edgeRemap first target = first ++ "__latch__" ++ target := by
  unfold actualPred
  cases found : traversal.edgeRemap.lookup (first, target) with
  | none => exact .inl rfl
  | some latch =>
      obtain ⟨latched, rfl⟩ := (selected.laidOut.latched first target latch).mp found
      obtain ⟨isPred, isLatched⟩ := selected.latched_iff.mp latched
      exact .inr ⟨isPred, isLatched, rfl⟩

/-- The copies of different predecessors have different receivers. -/
theorem Selected.actualPred_inj (selected : Selected function traversal)
    (distinct : LabelsDistinct function) (isFirst : first ∈ blockLabels function)
    (isSecond : second ∈ blockLabels function)
    (same : actualPred traversal.edgeRemap first target =
      actualPred traversal.edgeRemap second target) : first = second := by
  rcases selected.actualPred_cases first target with
    firstIs | ⟨firstPred, firstLatched, firstIs⟩
  · rcases selected.actualPred_cases second target with
      secondIs | ⟨secondPred, secondLatched, secondIs⟩
    · rw [← firstIs, same, secondIs]
    · rw [firstIs, secondIs] at same
      exact absurd (same ▸ isFirst) (latch_not_mem_blockLabels distinct secondPred secondLatched)
  · rcases selected.actualPred_cases second target with
      secondIs | ⟨secondPred, secondLatched, secondIs⟩
    · rw [firstIs, secondIs] at same
      exact absurd (same ▸ isSecond) (latch_not_mem_blockLabels distinct firstPred firstLatched)
    · rw [firstIs, secondIs, String.append_left_inj, String.append_left_inj] at same
      exact same

end

/-! ### Agreement of copies -/

section

variable {function : Llvm.Function} {traversal : Traversal} {table : CopyTable}
  {instructions : List Instruction} {owner : Nat → Option ValueRef}

/-- Where a collected incoming value comes from. -/
theorem exists_incoming {incoming : List (Operand × BlockRef)} {raw : List (String × RawPhiVal)}
    (isRaw : rawIncoming (labelOf function) incoming = .ok raw) {value : String × RawPhiVal}
    (valueMem : value ∈ raw) :
    ∃ operand pred, (operand, pred) ∈ incoming ∧
      (blockLabels function)[pred]? = some value.1 ∧ value.2 = rawPhiVal operand := by
  obtain ⟨⟨operand, pred⟩, incomingMem, isValue⟩ :=
    exists_mem_of_forall₂ (mapM_eq_ok_iff.mp isRaw) valueMem
  obtain ⟨label, isLabel, isValue⟩ := bind_eq_ok.mp isValue
  cases isValue
  exact ⟨operand, pred, incomingMem, labelOf_eq_ok.mp isLabel, rfl⟩

/-- The copies of a receiver agree and use registers that exist. -/
theorem orderly_copies (isSsa : function.IsSsa) (distinct : LabelsDistinct function)
    (selected : Selected function traversal)
    (owned : Owned (labelOf function) instructions owner traversal.selection)
    (inside : ∀ instruction ∈ instructions, instruction ∈ function.instructions)
    (computed : copiesPerBlock traversal = .ok table) (label : String) :
    Orderly (table.copies label) traversal.selection.nextVreg where
  agree := by
    intro first firstMem second secondMem sameDst
    obtain ⟨phi, phiMem, value, valueMem, isPred, isDst, isSrc⟩ :=
      (mem_copiesPerBlock computed label first).mp firstMem
    obtain ⟨otherPhi, otherPhiMem, other, otherMem, isOtherPred, isOtherDst, isOtherSrc⟩ :=
      (mem_copiesPerBlock computed label second).mp secondMem
    have samePhi : otherPhi = phi := List.inj_on_of_nodup_map owned.dsts otherPhiMem phiMem
      (isOtherDst.symm.trans (sameDst.symm.trans isDst))
    subst samePhi
    obtain ⟨-, instruction, instructionMem, -, incoming, isPhi, isRaw⟩ :=
      owned.phis otherPhi phiMem
    obtain ⟨operand, pred, incomingMem, isLabel, isRawValue⟩ := exists_incoming isRaw valueMem
    obtain ⟨otherOperand, otherPred, otherIncomingMem, isOtherLabel, isOtherRaw⟩ :=
      exists_incoming isRaw otherMem
    have sameLabel := selected.actualPred_inj distinct (List.mem_of_getElem? isLabel)
      (List.mem_of_getElem? isOtherLabel) (isPred.trans isOtherPred.symm)
    rw [sameLabel] at isLabel
    obtain rfl := index_unique distinct.blocks isLabel isOtherLabel
    obtain ⟨-, unique⟩ := isSsa.phis instruction (inside instruction instructionMem) incoming isPhi
      operand pred incomingMem
    rw [unique otherOperand otherIncomingMem, ← isRawValue] at isOtherRaw
    rw [isOtherRaw] at isOtherSrc
    exact Except.ok.inj (isSrc.symm.trans isOtherSrc)
  dst := by
    intro copy copyMem
    obtain ⟨phi, phiMem, value, -, -, isDst, -⟩ :=
      (mem_copiesPerBlock computed label copy).mp copyMem
    rw [isDst]
    exact (owned.phis phi phiMem).1
  src := by
    intro copy copyMem reg isReg
    obtain ⟨phi, -, value, -, -, -, isSrc⟩ := (mem_copiesPerBlock computed label copy).mp copyMem
    rw [isReg] at isSrc
    unfold copySrc at isSrc
    split at isSrc
    · cases isSrc
    · obtain ⟨vreg, isVreg, isSrc⟩ := bind_eq_ok.mp isSrc
      cases isSrc
      rw [expect_eq_ok] at isVreg
      obtain ⟨key, -, isBound⟩ := Option.bind_eq_some_iff.mp isVreg
      exact (owned.bound key reg isBound).1

/-! ### Outcomes -/

theorem exists_copiesPerBlock
    (resolved : ∀ phi ∈ traversal.selection.pendingPhis, ∀ value ∈ phi.incoming,
      ∃ src, copySrc traversal.selection value.2 = .ok src) :
    ∃ table, copiesPerBlock traversal = .ok table := by
  refine exists_foldlM_ok ?_ ∅
  intro table phi phiMem
  refine exists_foldlM_ok ?_ table
  intro current value valueMem
  obtain ⟨src, isSrc⟩ := resolved phi phiMem value valueMem
  exact ⟨_, by rw [addCopy, isSrc]; rfl⟩

/-- Every entry of the table has a copy. -/
theorem copies_ne_nil (computed : copiesPerBlock traversal = .ok table) {label : String}
    {copies : List PhiCopy} (found : table.lookup label = some copies) : copies ≠ [] := by
  have keeps : ∀ phi current value next,
      (∀ label copies, current.lookup label = some copies → copies ≠ []) →
      addCopy traversal phi current value = .ok next →
        ∀ label copies, next.lookup label = some copies → copies ≠ [] := by
    intro phi current value next holds added label copies found
    obtain ⟨src, -, added⟩ := bind_eq_ok.mp added
    cases added
    by_cases same : label = actualPred traversal.edgeRemap value.1 phi.phiBlockLabel
    · rw [same, AList.lookup_insert] at found
      cases found
      simp
    · rw [AList.lookup_insert_ne same] at found
      exact holds label copies found
  have start : ∀ label copies, (∅ : CopyTable).lookup label = some copies → copies ≠ [] := by
    simp
  exact invariant_of_foldlM_ok (fun current phi next holds folded =>
    invariant_of_foldlM_ok (keeps phi) holds folded) start computed label copies found

/-- Collecting copies fails at a value without register. -/
theorem copiesPerBlock_eq_error {failure : Failure}
    (failed : copiesPerBlock traversal = .error failure) :
    failure = .panic "phi incoming value not found in vreg_map after ISel" := by
  obtain ⟨-, phi, -, current, -, -, failed⟩ := exists_step_of_foldlM_error failed
  obtain ⟨-, value, -, table, -, -, failed⟩ := exists_step_of_foldlM_error failed
  rcases bind_eq_error.mp failed with failed | ⟨src, -, done⟩
  · unfold copySrc at failed
    split at failed
    · cases failed
    · rcases bind_eq_error.mp failed with failed | ⟨vreg, -, done⟩
      · unfold expect at failed
        split at failed
        · cases failed
        · exact (Except.error.inj failed).symm
      · cases done
  · cases done

/-- From the number `first` on, the copies can be ordered. -/
def Orderable (copies : List PhiCopy) (first : Nat) : Prop :=
  ∀ nextVreg ≥ first, ∃ result, serializeParallelCopies none copies nextVreg = .ok result

/-- From the number `first` on, ordering the copies never ends. -/
def NeverOrdered (copies : List PhiCopy) (first : Nat) : Prop :=
  ∀ nextVreg ≥ first, serializeParallelCopies none copies nextVreg = .error .diverges

theorem Orderly.mono {copies : List PhiCopy} {nextVreg next : Nat}
    (orderly : Orderly copies nextVreg) (grows : nextVreg ≤ next) : Orderly copies next where
  agree := orderly.agree
  dst := fun copy copyMem => Nat.lt_of_lt_of_le (orderly.dst copy copyMem) grows
  src := fun copy copyMem reg isReg => Nat.lt_of_lt_of_le (orderly.src copy copyMem reg isReg) grows

/-- Phi lowering ends, unless a predecessor has no code or its copies cannot be
ordered. -/
theorem lowerPhiCopies_cases (blocks : List Block) {entries : List (String × List PhiCopy)}
    {first nextVreg : Nat} (grows : first ≤ nextVreg)
    (decided : ∀ entry ∈ entries, Orderable entry.2 first ∨ NeverOrdered entry.2 first) :
    ((∀ entry ∈ entries, (∃ idx, receiver blocks entry.1 = some idx) ∧ Orderable entry.2 first) ∧
      ∃ result, lowerPhiCopies blocks entries nextVreg = .ok result) ∨
    ∃ entry ∈ entries,
      receiver blocks entry.1 = none ∧ lowerPhiCopies blocks entries nextVreg =
        .error (.panic ("phi predecessor block '" ++ entry.1 ++ "' not found in MIR")) ∨
      NeverOrdered entry.2 first ∧
        lowerPhiCopies blocks entries nextVreg = .error .diverges := by
  induction entries generalizing blocks nextVreg with
  | nil => exact .inl ⟨by simp, _, rfl⟩
  | cons entry entries ih =>
      obtain ⟨label, copies⟩ := entry
      obtain ⟨isDecided, others⟩ := List.forall_mem_cons.mp decided
      cases found : receiver blocks label with
      | none =>
          refine .inr ⟨(label, copies), List.mem_cons_self, .inl ⟨found, ?_⟩⟩
          unfold receiver at found
          rw [lowerPhiCopies, found]
          rfl
      | some idx =>
          have isFound := found
          unfold receiver at isFound
          rcases isDecided with orderable | never
          · obtain ⟨⟨syllables, next⟩, serialized⟩ := orderable nextVreg grows
            have step : lowerPhiCopies blocks ((label, copies) :: entries) nextVreg =
                lowerPhiCopies (appendTo blocks idx syllables) entries next := by
              rw [lowerPhiCopies, isFound]
              simp only [expect, bind, Except.bind, serialized]
              rfl
            rw [step]
            rcases ih (appendTo blocks idx syllables)
                (grows.trans (le_of_serialize serialized)) others with
              ⟨received, lowered⟩ | ⟨entry, entryMem, fails⟩
            · refine .inl ⟨List.forall_mem_cons.mpr ⟨⟨⟨idx, found⟩, orderable⟩, ?_⟩, lowered⟩
              intro entry entryMem
              have isReceived := received entry entryMem
              rw [receiver_appendTo] at isReceived
              exact isReceived
            · rw [receiver_appendTo] at fails
              exact .inr ⟨entry, List.mem_cons_of_mem _ entryMem, fails⟩
          · refine .inr ⟨(label, copies), List.mem_cons_self, .inr ⟨never, ?_⟩⟩
            rw [lowerPhiCopies, isFound]
            simp only [expect, bind, Except.bind, never nextVreg grows]

end

end VliwCompiler.Isel
