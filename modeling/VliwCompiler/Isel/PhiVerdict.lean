import VliwCompiler.Isel.VisitVerdict
import VliwCompiler.Isel.CopyTable
import VliwCompiler.Isel.Collected
import VliwCompiler.Isel.Ordering

/-!
# The verdict on phis

After the blocks are lowered the phis become copies.  This fails where a value has
no register, where a predecessor has no code, and where the copies for one label
cannot be ordered, which happens only to labels that stand for several blocks.
-/

namespace VliwCompiler.Isel

open Llvm (BlockRef ValueRef Operand Instruction)

/-! ### Copies of values -/

/-- The source of the copy of a value, with the value in place of its register. -/
def valueSrc : Operand → Option CopySrc
  | .constInt _ value => some (.const value)
  | .ref key _ => some (.vreg key)
  | _ => none

/-- A number above all registers of the copies. -/
def supply (copies : List PhiCopy) : Nat :=
  (copies.map fun copy => max copy.dst (copy.src.reg?.getD 0)).foldr max 0 + 1

section

variable (function : Llvm.Function)

/-- The phis of the visited blocks, with the labels of the blocks. -/
def visitedPhis : List (String × Instruction) := (blockOrder function).flatMap (phisOf function)

/-- The label for which the copies on the edge from `pred` to `target` are collected. -/
def collectedFor (pred target : String) : String :=
  if pred ∈ blockOrder function then edgeLabel function pred target else pred

/-- The copy of an incoming value of the phi `dst` in the block `target`, if it is
collected for `label`. -/
def valueCopy (label target : String) (dst : ValueRef) (incoming : Operand × BlockRef) :
    Option PhiCopy :=
  if (blockLabels function)[incoming.2]?.map (collectedFor function · target) = some label then
    (valueSrc incoming.1).map fun src => ⟨dst, src⟩
  else none

/-- The copies that are collected for a label, of values in place of their registers. -/
def valueCopies (label : String) : List PhiCopy :=
  (visitedPhis function).flatMap fun entry =>
    ((phiIncoming entry.2).getD []).filterMap (valueCopy function label entry.1 entry.2.ref)

/-- The copies that are collected for a label can be ordered. -/
def copiesOrdered (label : String) : Bool :=
  (serializeParallelCopies none (valueCopies function label)
    (supply (valueCopies function label))).isOk

/-- The value of a phi in `target` for a predecessor has a register or is a constant,
and the block for which its copy is collected exists. -/
def incomingResolves (target : String) (incoming : Operand × BlockRef) : Bool :=
  resolves function (visitedInstructions function) incoming.1 &&
    (blockLabels function)[incoming.2]?.any fun pred =>
      collectedFor function pred target ∈ mirLabels function (blockOrder function)

/-- What becomes of the phis of a function. -/
def phiVerdict : Verdict :=
  if (∀ entry ∈ visitedPhis function, ∀ value ∈ (phiIncoming entry.2).getD [],
      incomingResolves function entry.1 value = true) ∧
    ∀ label ∈ mirLabels function (blockOrder function), copiesOrdered function label = true
  then .lowered else .aborts

end

theorem mentions_lt_supply {copies : List PhiCopy} {v : Nat} (mentions : Mentions copies v) :
    v < supply copies := by
  unfold supply
  induction copies with
  | nil =>
      rcases mentions with ⟨copy, copyMem, -⟩
      cases copyMem
  | cons head copies ih =>
      rcases mentions with ⟨copy, copyMem, isMentioned⟩
      rw [List.map_cons, List.foldr_cons]
      rcases List.mem_cons.mp copyMem with rfl | inRest
      · rcases isMentioned with rfl | isSource
        · omega
        · rw [isSource, CopySrc.reg?, Option.getD_some]
          omega
      · have below := ih ⟨copy, inRest, isMentioned⟩
        omega

/-- A function whose blocks are all selected. -/
structure Complete (function : Llvm.Function) (traversal : Traversal) : Prop where
  selected : Selected function traversal
  recorded : Recorded function (visitedInstructions function) traversal.selection
  owned : ∃ owner, Owned (labelOf function) (visitedInstructions function) owner
    traversal.selection
  collected : PhisCollected function (blockOrder function) traversal.selection

section

variable {module : Llvm.Module} {memorySize : Nat} {function : Llvm.Function}
  {traversal : Traversal} {order : CopyOrder} {table : CopyTable} {label target : String}

theorem complete_of_selectFunction (isSsa : function.IsSsa)
    (isSelected : selectFunction module memorySize function = .ok traversal) :
    Complete function traversal := by
  rcases laidOut_of_selectFunction isSelected with ⟨laidOut, isVisited⟩
  have state := loopState_of_selectFunction isSsa.entry isSelected
  refine ⟨⟨laidOut, isVisited⟩, ?_, owned_of_selectFunction isSelected, ?_⟩
  · rw [visitedInstructions, ← isVisited]
    exact state.recorded
  · rw [← isVisited]
    exact state.phisCollected isSsa

theorem not_mem_usedBeforeDefinition (label : String) :
    "phi predecessor block '" ++ label ++ "' not found in MIR" ∉ usedBeforeDefinition := by
  intro isMessage
  have heads : ∀ message ∈ usedBeforeDefinition, message.toList.head? ≠ some 'p' := by decide
  refine heads _ isMessage ?_
  rw [String.toList_append, String.toList_append]
  rfl

theorem Selected.actualPred_eq_collectedFor (selected : Selected function traversal)
    (pred target : String) :
    actualPred traversal.edgeRemap pred target = collectedFor function pred target := by
  unfold collectedFor
  split
  · rename_i isPred
    exact selected.actualPred_eq isPred
  · rename_i notPred
    rcases selected.actualPred_cases pred target with isSame | ⟨isPred, -⟩
    · exact isSame
    · exact absurd isPred notPred

/-! ### Registers of values -/

/-- The register of a value. -/
def vregOf (selection : Selection) (key : ValueRef) : Nat := (selection.vregMap.lookup key).getD 0

section

variable (complete : Complete function traversal)

include complete

/-- Sources of copies are the registers of values. -/
theorem copySrc_of_resolves {operand : Operand}
    (isResolved : resolves function (visitedInstructions function) operand = true) :
    ∃ src, valueSrc operand = some src ∧ copySrc traversal.selection (rawPhiVal operand) =
      .ok (src.rename (vregOf traversal.selection)) := by
  cases operand with
  | constInt bits value => exact ⟨_, rfl, rfl⟩
  | ref key type =>
      rcases complete.recorded.registered_iff.mp isResolved with ⟨v, isBound⟩
      refine ⟨_, rfl, ?_⟩
      simp [rawPhiVal, copySrc, Operand.ref?, isBound, expect, CopySrc.rename, vregOf, bind,
        Except.bind, pure, Except.pure]
  | constAddress | constCast | const => cases isResolved

theorem exists_copySrc_iff {operand : Operand} :
    (∃ src, copySrc traversal.selection (rawPhiVal operand) = .ok src) ↔
      resolves function (visitedInstructions function) operand = true := by
  constructor
  · rintro ⟨src, isSrc⟩
    cases operand with
    | constInt bits value => rfl
    | ref key type =>
        rcases bind_eq_ok.mp isSrc with ⟨v, isBound, -⟩
        exact complete.recorded.registered_iff.mpr ⟨v, by simpa [Operand.ref?] using isBound⟩
    | constAddress | constCast | const => simp [rawPhiVal, copySrc, Operand.ref?, expect, bind,
        Except.bind] at isSrc
  · intro isResolved
    rcases copySrc_of_resolves complete isResolved with ⟨src, -, isSrc⟩
    exact ⟨_, isSrc⟩

omit complete in
/-- The collected phi of an instruction, value by value. -/
theorem forall₂_incoming {entry : String × Instruction} {phi : PendingPhi}
    (phiOf : PhiOf function traversal.selection entry.2 phi) :
    List.Forall₂ (fun incoming value => (blockLabels function)[incoming.2]? = some value.1 ∧
      value.2 = rawPhiVal incoming.1) ((phiIncoming entry.2).getD []) phi.incoming := by
  rcases phiOf.isRaw with ⟨incoming, isPhi, isRaw⟩
  rw [phiIncoming_eq_some.mpr isPhi, Option.getD_some]
  refine (mapM_eq_ok_iff.mp isRaw).imp ?_
  rintro ⟨operand, pred⟩ value isValue
  rcases bind_eq_ok.mp isValue with ⟨name, isName, isValue⟩
  cases isValue
  exact ⟨labelOf_eq_ok.mp isName, rfl⟩

/-- The copies of an entry of the table, value by value. -/
theorem copies_eq_valueCopies (computed : copiesPerBlock traversal = .ok table)
    (resolve : ∀ entry ∈ visitedPhis function, ∀ value ∈ (phiIncoming entry.2).getD [],
      resolves function (visitedInstructions function) value.1 = true) (label : String) :
    table.copies label =
      (valueCopies function label).map (·.rename (vregOf traversal.selection)) := by
  have onePhi : ∀ (entry : String × Instruction) (phi : PendingPhi),
      (∀ value ∈ (phiIncoming entry.2).getD [],
        resolves function (visitedInstructions function) value.1 = true) →
      phi.phiBlockLabel = entry.1 → PhiOf function traversal.selection entry.2 phi →
        phi.incoming.filterMap (copyFor traversal label phi) =
          (((phiIncoming entry.2).getD []).filterMap
            (valueCopy function label entry.1 entry.2.ref)).map
              (·.rename (vregOf traversal.selection)) := by
    intro entry phi resolved isLabel phiOf
    have isDst : vregOf traversal.selection entry.2.ref = phi.dst := by
      rw [vregOf, phiOf.isBound, Option.getD_some]
    have related := forall₂_incoming phiOf
    revert resolved
    generalize (phiIncoming entry.2).getD [] = incoming at related
    generalize phi.incoming = values at related
    intro resolved
    induction related with
    | nil => rfl
    | @cons incoming value rest others isValue related ih =>
        rcases List.forall_mem_cons.mp resolved with ⟨isResolved, restResolved⟩
        rcases isValue with ⟨isPred, isRaw⟩
        rcases copySrc_of_resolves complete isResolved with ⟨src, isSource, isSrc⟩
        have sameCopy : copyFor traversal label phi value =
            (valueCopy function label entry.1 entry.2.ref incoming).map
              (·.rename (vregOf traversal.selection)) := by
          unfold copyFor valueCopy
          rw [complete.selected.actualPred_eq_collectedFor, isLabel, isPred, Option.map_some]
          by_cases isFor : collectedFor function value.1 entry.1 = label
          · rw [if_pos isFor, if_pos (congrArg some isFor), isRaw, isSrc, isSource]
            simp [Except.toOption, PhiCopy.rename, isDst]
          · rw [if_neg isFor, if_neg fun same => isFor (Option.some.inj same)]
            rfl
        cases isCopy : valueCopy function label entry.1 entry.2.ref incoming with
        | none =>
            rw [isCopy] at sameCopy
            rw [List.filterMap_cons_none sameCopy, List.filterMap_cons_none isCopy,
              ih restResolved]
        | some copy =>
            rw [isCopy] at sameCopy
            rw [List.filterMap_cons_some sameCopy, List.filterMap_cons_some isCopy,
              ih restResolved, List.map_cons]
  rw [copies_copiesPerBlock computed, valueCopies]
  have related : List.Forall₂ _ (visitedPhis function) traversal.selection.pendingPhis :=
    complete.collected
  revert resolve
  generalize visitedPhis function = entries at related
  generalize traversal.selection.pendingPhis = phis at related
  intro resolve
  induction related with
  | nil => rfl
  | cons isEntry related ih =>
      rcases List.forall_mem_cons.mp resolve with ⟨first, others⟩
      rw [List.flatMap_cons, List.flatMap_cons, List.map_append, ih others,
        onePhi _ _ first isEntry.1 isEntry.2]

/-- Values of copies have registers of their own. -/
theorem renames_valueCopies
    (resolve : ∀ entry ∈ visitedPhis function, ∀ value ∈ (phiIncoming entry.2).getD [],
      resolves function (visitedInstructions function) value.1 = true) {nextVreg : Nat}
    (grows : traversal.selection.nextVreg ≤ nextVreg) :
    Renames (vregOf traversal.selection) (valueCopies function label)
      (supply (valueCopies function label)) nextVreg := by
  have isRegistered : ∀ key, Mentions (valueCopies function label) key →
      ∃ v, traversal.selection.vregMap.lookup key = some v := by
    rintro key ⟨copy, copyMem, isMentioned⟩
    rcases List.mem_flatMap.mp copyMem with ⟨entry, entryMem, inEntry⟩
    rcases List.mem_filterMap.mp inEntry with ⟨incoming, incomingMem, isCopy⟩
    unfold valueCopy at isCopy
    split at isCopy
    · rcases Option.map_eq_some_iff.mp isCopy with ⟨src, isSrc, rfl⟩
      rcases isMentioned with rfl | isSource
      · rcases exists_image_of_forall₂ complete.collected entryMem with ⟨phi, -, -, phiOf⟩
        exact ⟨phi.dst, phiOf.isBound⟩
      · have isResolved := resolve entry entryMem incoming incomingMem
        rcases incoming with ⟨operand, pred⟩
        dsimp only at isSource
        subst isSource
        cases operand with
        | ref other type =>
            cases isSrc
            exact complete.recorded.registered_iff.mp isResolved
        | constInt | constAddress | constCast | const => cases isSrc
    · cases isCopy
  rcases complete.owned with ⟨owner, owned⟩
  constructor
  · intro v w isFirst isSecond same
    rcases isRegistered v isFirst with ⟨x, isX⟩
    rcases isRegistered w isSecond with ⟨y, isY⟩
    rw [vregOf, vregOf, isX, isY, Option.getD_some, Option.getD_some] at same
    subst same
    exact Option.some.inj ((owned.bound v x isX).2.symm.trans (owned.bound w x isY).2)
  · intro v isMentioned
    rcases isRegistered v isMentioned with ⟨x, isX⟩
    refine ⟨mentions_lt_supply isMentioned, ?_⟩
    rw [vregOf, isX, Option.getD_some]
    exact Nat.lt_of_lt_of_le (owned.bound v x isX).1 grows

/-- Whether the copies of a label can be ordered is decided by their values. -/
theorem orderable_or_never (computed : copiesPerBlock traversal = .ok table)
    (resolve : ∀ entry ∈ visitedPhis function, ∀ value ∈ (phiIncoming entry.2).getD [],
      resolves function (visitedInstructions function) value.1 = true) (label : String) :
    copiesOrdered function label = true ∧
        Orderable (table.copies label) traversal.selection.nextVreg ∨
      copiesOrdered function label = false ∧
        NeverOrdered (table.copies label) traversal.selection.nextVreg := by
  rw [copies_eq_valueCopies complete computed resolve]
  cases isOrdered : copiesOrdered function label with
  | true =>
      refine .inl ⟨rfl, fun nextVreg grows => ?_⟩
      exact (serializeParallelCopies_rename (renames_valueCopies complete resolve grows)).mpr
        (exists_of_isOk isOrdered)
  | false =>
      refine .inr ⟨rfl, fun nextVreg grows => ?_⟩
      have renames : Renames (vregOf traversal.selection) (valueCopies function label)
          (supply (valueCopies function label)) nextVreg :=
        renames_valueCopies complete resolve grows
      have below : ∀ copy ∈ (valueCopies function label).map
          (·.rename (vregOf traversal.selection)), copy.dst < nextVreg := by
        intro _ copyMem
        rcases List.mem_map.mp copyMem with ⟨copy, isCopy, rfl⟩
        exact (renames.below copy.dst (mentions_dst isCopy)).2
      rcases serializeParallelCopies_cases below with ended | ⟨diverges, -⟩
      · rcases (serializeParallelCopies_rename renames).mp ended with ⟨result, isOk⟩
        rw [copiesOrdered, isOk] at isOrdered
        cases isOrdered
      · exact diverges

/-! ### Outcomes -/

/-- A value of a phi adds a copy to those of its label. -/
theorem copyMem_of_incoming (computed : copiesPerBlock traversal = .ok table)
    {entry : String × Instruction} (entryMem : entry ∈ visitedPhis function)
    {incoming : Operand × BlockRef} (incomingMem : incoming ∈ (phiIncoming entry.2).getD []) :
    ∃ pred, (blockLabels function)[incoming.2]? = some pred ∧
      table.copies (collectedFor function pred entry.1) ≠ [] ∧
      resolves function (visitedInstructions function) incoming.1 = true := by
  rcases exists_image_of_forall₂ complete.collected entryMem with ⟨phi, phiMem, isLabel, phiOf⟩
  rcases exists_image_of_forall₂ (forall₂_incoming phiOf) incomingMem with
    ⟨value, valueMem, isPred, isRaw⟩
  rcases exists_copySrc computed phi phiMem value valueMem with ⟨src, isSrc⟩
  refine ⟨value.1, isPred, ?_, (exists_copySrc_iff complete).mp ⟨src, isRaw ▸ isSrc⟩⟩
  refine List.ne_nil_of_mem ((mem_copiesPerBlock computed _ ⟨phi.dst, src⟩).mpr
    ⟨phi, phiMem, value, valueMem, ?_, rfl, isSrc⟩)
  rw [complete.selected.actualPred_eq_collectedFor, isLabel]

/-- Every copy of a label comes from a value of a phi. -/
theorem exists_incoming_of_copy (computed : copiesPerBlock traversal = .ok table)
    (notEmpty : table.copies label ≠ []) :
    ∃ entry ∈ visitedPhis function, ∃ incoming ∈ (phiIncoming entry.2).getD [],
      ∃ pred, (blockLabels function)[incoming.2]? = some pred ∧
        collectedFor function pred entry.1 = label := by
  rcases List.exists_mem_of_ne_nil _ notEmpty with ⟨copy, copyMem⟩
  rcases (mem_copiesPerBlock computed label copy).mp copyMem with
    ⟨phi, phiMem, value, valueMem, isReceiver, -, -⟩
  rcases exists_mem_of_forall₂ complete.collected phiMem with ⟨entry, entryMem, isLabel, phiOf⟩
  rcases exists_mem_of_forall₂ (forall₂_incoming phiOf) valueMem with
    ⟨incoming, incomingMem, isPred, -⟩
  refine ⟨entry, entryMem, incoming, incomingMem, value.1, isPred, ?_⟩
  rw [← isLabel, ← complete.selected.actualPred_eq_collectedFor, isReceiver]

theorem receiver_isSome_iff :
    (∃ idx, receiver traversal.selection.mirBlocks label = some idx) ↔
      label ∈ mirLabels function (blockOrder function) := by
  rw [← complete.selected.visited, ← complete.selected.laidOut.labels, receiver_eq_findIdx?,
    ← Option.isSome_iff_exists, List.findIdx?_isSome]
  simp

/-- Values for which copies are computed have registers. -/
theorem resolves_of_computed (computed : copiesPerBlock traversal = .ok table) :
    ∀ entry ∈ visitedPhis function, ∀ value ∈ (phiIncoming entry.2).getD [],
      resolves function (visitedInstructions function) value.1 = true := by
  intro entry entryMem value valueMem
  rcases copyMem_of_incoming complete computed entryMem valueMem with ⟨-, -, -, isResolved⟩
  exact isResolved

/-- The copies of a label can be ordered when those of its values can. -/
theorem orderable_iff (computed : copiesPerBlock traversal = .ok table) (label : String) :
    Orderable (table.copies label) traversal.selection.nextVreg ↔
      copiesOrdered function label = true := by
  rcases orderable_or_never complete computed (resolves_of_computed complete computed) label with
    ⟨isOrdered, orderable⟩ | ⟨notOrdered, never⟩
  · exact iff_of_true orderable isOrdered
  · rw [notOrdered]
    refine iff_of_false (fun orderable => ?_) (by decide)
    rcases orderable _ (Nat.le_refl _) with ⟨ordered, isOk⟩
    cases (never _ (Nat.le_refl _)).symm.trans isOk

omit complete in
/-- The entries of the table are the labels with copies. -/
theorem mem_entries_iff {order : CopyOrder} (computed : copiesPerBlock traversal = .ok table)
    {entry : String × List PhiCopy} :
    entry ∈ order.entries table ↔ entry.2 = table.copies entry.1 ∧ table.copies entry.1 ≠ [] := by
  obtain ⟨label, copies⟩ := entry
  rw [mem_entries]
  constructor
  · intro found
    have same : table.copies label = copies := by rw [CopyTable.copies, found]; rfl
    dsimp only
    rw [same]
    exact ⟨rfl, copies_ne_nil computed found⟩
  · rintro ⟨same, notEmpty⟩
    dsimp only at same notEmpty
    rcases List.exists_mem_of_ne_nil _ notEmpty with ⟨copy, copyMem⟩
    rw [same]
    exact lookup_of_mem_copies copyMem

omit complete in
theorem phiVerdict_of_ne (notLowered : phiVerdict function ≠ .lowered) :
    phiVerdict function = .aborts := by
  unfold phiVerdict at notLowered ⊢
  split at notLowered
  · exact absurd rfl notLowered
  · rename_i notResolved
    rw [if_neg notResolved]

/-- Where the copies cannot be computed, some value of a phi has no register. -/
theorem phiVerdict_of_error {failure : Failure} (failed : copiesPerBlock traversal = .error failure) :
    phiVerdict function = .aborts := by
  refine if_neg ?_
  rintro ⟨resolve, -⟩
  have resolved : ∀ phi ∈ traversal.selection.pendingPhis, ∀ value ∈ phi.incoming,
      ∃ src, copySrc traversal.selection value.2 = .ok src := by
    intro phi phiMem value valueMem
    rcases exists_mem_of_forall₂ complete.collected phiMem with ⟨entry, entryMem, -, phiOf⟩
    rcases exists_mem_of_forall₂ (forall₂_incoming phiOf) valueMem with
      ⟨incoming, incomingMem, -, isRaw⟩
    rw [isRaw]
    refine (exists_copySrc_iff complete).mpr ?_
    exact (Bool.and_eq_true_iff.mp (resolve entry entryMem incoming incomingMem)).1
  rcases exists_copiesPerBlock resolved with ⟨table, isOk⟩
  cases failed.symm.trans isOk

/-- Phis are lowered when all copies have a block that receives them and an order. -/
theorem phiVerdict_lowered_iff (computed : copiesPerBlock traversal = .ok table)
    (order : CopyOrder) :
    phiVerdict function = .lowered ↔ ∀ entry ∈ order.entries table,
      (∃ idx, receiver traversal.selection.mirBlocks entry.1 = some idx) ∧
        Orderable entry.2 traversal.selection.nextVreg := by
  constructor
  · intro isLowered entry entryMem
    unfold phiVerdict at isLowered
    split at isLowered
    · rename_i conditions
      rcases conditions with ⟨allResolve, allOrdered⟩
      rcases (mem_entries_iff computed).mp entryMem with ⟨same, notEmpty⟩
      rcases exists_incoming_of_copy complete computed notEmpty with
        ⟨phi, phiMem, incoming, incomingMem, pred, isPred, isLabel⟩
      have isReceived : entry.1 ∈ mirLabels function (blockOrder function) := by
        have isIncoming := allResolve phi phiMem incoming incomingMem
        rw [incomingResolves, isPred, Option.any_some, isLabel] at isIncoming
        exact of_decide_eq_true (Bool.and_eq_true_iff.mp isIncoming).2
      rw [same]
      exact ⟨(receiver_isSome_iff complete).mpr isReceived,
        (orderable_iff complete computed entry.1).mpr (allOrdered entry.1 isReceived)⟩
    · cases isLowered
  · intro received
    have atLabel : ∀ label, table.copies label ≠ [] →
        label ∈ mirLabels function (blockOrder function) ∧ copiesOrdered function label = true := by
      intro label notEmpty
      have isEntry : (label, table.copies label) ∈ order.entries table :=
        (mem_entries_iff computed).mpr ⟨rfl, notEmpty⟩
      rcases received _ isEntry with ⟨isReceived, orderable⟩
      exact ⟨(receiver_isSome_iff complete).mp isReceived,
        (orderable_iff complete computed label).mp orderable⟩
    refine if_pos ⟨?_, ?_⟩
    · intro entry entryMem value valueMem
      rcases copyMem_of_incoming complete computed entryMem valueMem with
        ⟨pred, isPred, notEmpty, isResolved⟩
      rw [incomingResolves, isResolved, isPred, Bool.true_and, Option.any_some]
      exact decide_eq_true (atLabel _ notEmpty).1
    · intro label labelMem
      by_cases empty : table.copies label = []
      · refine (orderable_iff complete computed label).mp ?_
        rw [empty]
        exact fun nextVreg _ => ⟨([], nextVreg), rfl⟩
      · exact (atLabel label empty).2

/-- What becomes of the phis of a function. -/
theorem hasVerdict_phis (order : CopyOrder) :
    HasVerdict (do
      let table ← copiesPerBlock traversal
      let (blocks, _) ← lowerPhiCopies traversal.selection.mirBlocks (order.entries table)
        traversal.selection.nextVreg
      return (⟨function.name, blocks⟩ : Mir.Function)) (phiVerdict function) := by
  cases computed : copiesPerBlock traversal with
  | error failure =>
      rw [phiVerdict_of_error complete computed, copiesPerBlock_eq_error computed]
      exact hasVerdict_panic (by decide)
  | ok table =>
      have decided : ∀ entry ∈ order.entries table,
          Orderable entry.2 traversal.selection.nextVreg ∨
            NeverOrdered entry.2 traversal.selection.nextVreg := by
        intro entry entryMem
        rw [((mem_entries_iff computed).mp entryMem).1]
        exact (orderable_or_never complete computed (resolves_of_computed complete computed)
          entry.1).imp (·.2) (·.2)
      simp only [bind, Except.bind]
      rcases lowerPhiCopies_cases traversal.selection.mirBlocks (Nat.le_refl _) decided with
        ⟨received, result, lowered⟩ | ⟨entry, entryMem, fails⟩
      · rw [(phiVerdict_lowered_iff complete computed order).mpr received, lowered]
        exact ⟨⟨function.name, result.1⟩, rfl⟩
      · have notLowered : phiVerdict function ≠ .lowered := by
          intro isLowered
          rcases (phiVerdict_lowered_iff complete computed order).mp isLowered entry entryMem with
            ⟨⟨idx, isIdx⟩, orderable⟩
          rcases fails with ⟨missing, -⟩ | ⟨never, -⟩
          · cases missing.symm.trans isIdx
          · rcases orderable _ (Nat.le_refl _) with ⟨ordered, isOk⟩
            cases (never _ (Nat.le_refl _)).symm.trans isOk
        rw [phiVerdict_of_ne notLowered]
        rcases fails with ⟨-, failed⟩ | ⟨-, failed⟩
        · rw [failed]
          exact hasVerdict_panic (not_mem_usedBeforeDefinition entry.1)
        · rw [failed]
          exact hasVerdict_diverges

end

end

end VliwCompiler.Isel
