import VliwCompiler.Isel.Traversal
import Mathlib.Data.List.TakeWhile

/-!
# Where phi copies go

The copies of an edge are appended to the first MIR block that has the label of
its source, or of the latch made for it.  That block ends the source block
unless a call splits it.
-/

namespace VliwCompiler.Isel

open Mir (Block Syllable)

/-! ### The table of copies -/

/-- The copies recorded for a label. -/
def CopyTable.copies (table : CopyTable) (label : String) : List PhiCopy :=
  (table.lookup label).getD []

theorem lookup_of_mem_copies {table : CopyTable} {label : String} {copy : PhiCopy}
    (copyMem : copy ∈ table.copies label) : table.lookup label = some (table.copies label) := by
  unfold CopyTable.copies at copyMem ⊢
  cases found : table.lookup label with
  | none => simp [found] at copyMem
  | some copies => rfl

/-- The copy of an incoming value of a phi belongs to the block `label`. -/
def IsCopy (traversal : Traversal) (label : String) (phi : PendingPhi)
    (incoming : String × RawPhiVal) (copy : PhiCopy) : Prop :=
  actualPred traversal.edgeRemap incoming.1 phi.phiBlockLabel = label ∧ copy.dst = phi.dst ∧
    copySrc traversal.selection incoming.2 = .ok copy.src

/-- The copy that an incoming value adds to those for `label`. -/
def copyFor (traversal : Traversal) (label : String) (phi : PendingPhi)
    (incoming : String × RawPhiVal) : Option PhiCopy :=
  if actualPred traversal.edgeRemap incoming.1 phi.phiBlockLabel = label then
    (copySrc traversal.selection incoming.2).toOption.map fun src => ⟨phi.dst, src⟩
  else none

section

variable {traversal : Traversal} {phi : PendingPhi} {table after : CopyTable}

theorem copyFor_eq_some {label : String} {incoming : String × RawPhiVal} {copy : PhiCopy} :
    copyFor traversal label phi incoming = some copy ↔
      IsCopy traversal label phi incoming copy := by
  unfold copyFor IsCopy
  split
  · rename_i isLabel
    cases isSrc : copySrc traversal.selection incoming.2 with
    | error failure => simp [Except.toOption]
    | ok src =>
        obtain ⟨dst, other⟩ := copy
        simp only [Except.toOption, Option.map_some, Option.some.injEq, PhiCopy.mk.injEq, isLabel,
          Except.ok.injEq, true_and]
        rw [eq_comm (a := phi.dst)]
  · rename_i notLabel
    simp [notLabel]

theorem copies_addCopy {incoming : String × RawPhiVal}
    (added : addCopy traversal phi table incoming = .ok after) (label : String) :
    after.copies label = table.copies label ++ (copyFor traversal label phi incoming).toList := by
  obtain ⟨src, isSrc, added⟩ := bind_eq_ok.mp added
  cases added
  unfold CopyTable.copies copyFor
  by_cases isLabel : actualPred traversal.edgeRemap incoming.1 phi.phiBlockLabel = label
  · rw [isLabel, AList.lookup_insert, isSrc]
    simp [Except.toOption]
  · rw [AList.lookup_insert_ne (Ne.symm isLabel)]
    simp [isLabel]

theorem copies_addCopies {incoming : List (String × RawPhiVal)}
    (added : incoming.foldlM (addCopy traversal phi) table = .ok after) (label : String) :
    after.copies label =
      table.copies label ++ incoming.filterMap (copyFor traversal label phi) := by
  induction incoming generalizing table with
  | nil =>
      cases added
      simp
  | cons value incoming ih =>
      rw [List.foldlM_cons] at added
      obtain ⟨middle, first, rest⟩ := bind_eq_ok.mp added
      rw [ih rest, copies_addCopy first, List.append_assoc]
      cases isCopy : copyFor traversal label phi value with
      | none =>
          rw [List.filterMap_cons_none isCopy]
          rfl
      | some copy =>
          rw [List.filterMap_cons_some isCopy]
          rfl

/-- The copies recorded for a block, in order. -/
theorem copies_copiesPerBlock (computed : copiesPerBlock traversal = .ok table) (label : String) :
    table.copies label = traversal.selection.pendingPhis.flatMap fun phi =>
      phi.incoming.filterMap (copyFor traversal label phi) := by
  unfold copiesPerBlock at computed
  have general : ∀ (phis : List PendingPhi) (start : CopyTable),
      phis.foldlM (fun table phi => phi.incoming.foldlM (addCopy traversal phi) table) start =
        .ok table →
      table.copies label = start.copies label ++
        phis.flatMap fun phi => phi.incoming.filterMap (copyFor traversal label phi) := by
    intro phis
    induction phis with
    | nil =>
        intro start folded
        cases folded
        simp
    | cons phi phis ih =>
        intro start folded
        rw [List.foldlM_cons] at folded
        obtain ⟨middle, first, rest⟩ := bind_eq_ok.mp folded
        rw [ih middle rest, copies_addCopies first, List.append_assoc, List.flatMap_cons]
  rw [general _ _ computed]
  rfl

/-- The copies recorded for a block are those of the edges that lead through
it. -/
theorem mem_copiesPerBlock (computed : copiesPerBlock traversal = .ok table) (label : String)
    (copy : PhiCopy) :
    copy ∈ table.copies label ↔ ∃ phi ∈ traversal.selection.pendingPhis,
      ∃ value ∈ phi.incoming, IsCopy traversal label phi value copy := by
  rw [copies_copiesPerBlock computed]
  simp only [List.mem_flatMap, List.mem_filterMap, copyFor_eq_some]

end

/-! ### Appending copies -/

/-- Every incoming value has a register or is a constant. -/
theorem exists_copySrc {traversal : Traversal} {table : CopyTable}
    (computed : copiesPerBlock traversal = .ok table) :
    ∀ phi ∈ traversal.selection.pendingPhis, ∀ value ∈ phi.incoming,
      ∃ src, copySrc traversal.selection value.2 = .ok src := by
  have addAll : ∀ (phi : PendingPhi) (values : List (String × RawPhiVal)) (start after : CopyTable),
      values.foldlM (addCopy traversal phi) start = .ok after →
        ∀ value ∈ values, ∃ src, copySrc traversal.selection value.2 = .ok src := by
    intro phi values
    induction values with
    | nil => simp
    | cons value values ih =>
        intro start after folded other otherMem
        rw [List.foldlM_cons] at folded
        obtain ⟨middle, first, rest⟩ := bind_eq_ok.mp folded
        rcases List.mem_cons.mp otherMem with rfl | inRest
        · obtain ⟨src, isSrc, -⟩ := bind_eq_ok.mp first
          exact ⟨src, isSrc⟩
        · exact ih middle after rest other inRest
  have all : ∀ (phis : List PendingPhi) (start after : CopyTable),
      phis.foldlM (fun table phi => phi.incoming.foldlM (addCopy traversal phi) table) start =
        .ok after →
      ∀ phi ∈ phis, ∀ value ∈ phi.incoming,
        ∃ src, copySrc traversal.selection value.2 = .ok src := by
    intro phis
    induction phis with
    | nil => simp
    | cons phi phis ih =>
        intro start after folded other otherMem
        rw [List.foldlM_cons] at folded
        obtain ⟨middle, first, rest⟩ := bind_eq_ok.mp folded
        rcases List.mem_cons.mp otherMem with rfl | inRest
        · exact addAll _ _ _ _ first
        · exact ih middle after rest other inRest
  exact all _ _ _ computed

/-- The block that receives the copies of `label`. -/
def receiver (blocks : List Block) (label : String) : Option Nat :=
  blocks.findIdx? (·.label = label)

theorem receiver_eq_findIdx? (blocks : List Block) (label : String) :
    receiver blocks label = (blocks.map (·.label)).findIdx? (· = label) := by
  rw [List.findIdx?_map]
  rfl

/-- What phi lowering appends to the block with index `idx`. -/
inductive Appended (blocks : List Block) (table : List (String × List PhiCopy)) (first last : Nat)
    (idx : Nat) : List Syllable → Prop where
  | none (unreached : ∀ entry ∈ table, receiver blocks entry.1 ≠ some idx) :
      Appended blocks table first last idx []
  | copies {entry : String × List PhiCopy} {nextVreg next : Nat} {code : List Syllable}
      (entryMem : entry ∈ table) (reached : receiver blocks entry.1 = some idx)
      (fresh : first ≤ nextVreg) (bounded : next ≤ last)
      (ordered : serializeParallelCopies none entry.2 nextVreg = .ok (code, next)) :
      Appended blocks table first last idx code

theorem receiver_eq_some_iff {blocks : List Block} {label : String} {idx : Nat} :
    receiver blocks label = some idx ↔
      (blocks.map (·.label))[idx]? = some label ∧ label ∉ (blocks.map (·.label)).take idx := by
  rw [receiver_eq_findIdx?, List.findIdx?_eq_some_iff_getElem]
  constructor
  · rintro ⟨inside, isLabel, others⟩
    refine ⟨?_, ?_⟩
    · rw [List.getElem?_eq_getElem inside]
      exact congrArg some (by simpa using isLabel)
    · intro labelMem
      obtain ⟨k, kInside, isK⟩ := List.mem_take_iff_getElem.mp labelMem
      exact others k (by omega) (by simpa using isK)
  · rintro ⟨isLabel, absent⟩
    obtain ⟨inside, isLabel⟩ := List.getElem?_eq_some_iff.mp isLabel
    refine ⟨inside, by simpa using isLabel, ?_⟩
    intro k before isK
    refine absent (List.mem_take_iff_getElem.mpr ⟨k, by omega, ?_⟩)
    simpa using isK

theorem label_of_receiver {blocks : List Block} {label : String} {idx : Nat}
    (received : receiver blocks label = some idx) : (blocks.map (·.label))[idx]? = some label :=
  (receiver_eq_some_iff.mp received).1

/-- Appending syllables to one block. -/
def appendTo (blocks : List Block) (idx : Nat) (code : List Syllable) : List Block :=
  blocks.modify idx fun block => { block with syllables := block.syllables ++ code }

theorem getElem?_appendTo (blocks : List Block) (target idx : Nat) (code : List Syllable) :
    (appendTo blocks target code)[idx]? = blocks[idx]?.map fun block =>
      if target = idx then { block with syllables := block.syllables ++ code } else block := by
  rw [appendTo, List.getElem?_modify]
  split <;> rfl

theorem labels_appendTo (blocks : List Block) (target : Nat) (code : List Syllable) :
    (appendTo blocks target code).map (·.label) = blocks.map (·.label) := by
  refine List.ext_getElem? fun idx => ?_
  rw [List.getElem?_map, List.getElem?_map, getElem?_appendTo, Option.map_map]
  congr 1
  funext block
  dsimp only [Function.comp]
  split <;> rfl

theorem receiver_appendTo (blocks : List Block) (target : Nat) (code : List Syllable)
    (label : String) : receiver (appendTo blocks target code) label = receiver blocks label := by
  rw [receiver_eq_findIdx?, receiver_eq_findIdx?, labels_appendTo]

/-- Every block keeps its syllables and receives at most the copies of one
label. -/
theorem appended_of_lowerPhiCopies {blocks after : List Block}
    {table : List (String × List PhiCopy)} {nextVreg last : Nat}
    (distinct : (table.map (·.1)).Nodup)
    (lowered : lowerPhiCopies blocks table nextVreg = .ok (after, last)) :
    nextVreg ≤ last ∧ after.length = blocks.length ∧
      ∀ idx block, blocks[idx]? = some block → ∃ code,
        after[idx]? = some { block with syllables := block.syllables ++ code } ∧
          Appended blocks table nextVreg last idx code := by
  induction table generalizing blocks nextVreg with
  | nil =>
      cases lowered
      exact ⟨Nat.le_refl _, rfl, fun idx block isBlock => ⟨[], by simpa using isBlock, .none (by simp)⟩⟩
  | cons entry table ih =>
      obtain ⟨label, copies⟩ := entry
      rw [lowerPhiCopies] at lowered
      obtain ⟨target, isTarget, lowered⟩ := bind_eq_ok.mp lowered
      rw [expect_eq_ok] at isTarget
      obtain ⟨⟨code, next⟩, ordered, lowered⟩ := bind_eq_ok.mp lowered
      rw [List.map_cons, List.nodup_cons] at distinct
      obtain ⟨isLess, sameLength, rest⟩ := ih distinct.2 lowered
      have fresh : nextVreg ≤ next := le_of_serialize ordered
      refine ⟨fresh.trans isLess, by rw [sameLength, List.length_modify], ?_⟩
      intro idx block isBlock
      by_cases isHere : target = idx
      · subst isHere
        have isModified : (appendTo blocks target code)[target]? =
            some { block with syllables := block.syllables ++ code } := by
          rw [getElem?_appendTo, isBlock, Option.map_some, if_pos rfl]
        obtain ⟨later, isAfter, appended⟩ := rest target _ isModified
        cases appended with
        | none _ =>
            rw [List.append_nil] at isAfter
            exact ⟨code, isAfter, .copies List.mem_cons_self isTarget (Nat.le_refl _) isLess ordered⟩
        | @copies entry _ _ _ entryMem reached _ _ _ =>
            have sameLabel := label_of_receiver reached
            rw [← appendTo, labels_appendTo, label_of_receiver isTarget] at sameLabel
            exact absurd (List.mem_map_of_mem entryMem)
              ((Option.some.inj sameLabel) ▸ distinct.1)
      · have isModified : (appendTo blocks target code)[idx]? = some block := by
          rw [getElem?_appendTo, isBlock, Option.map_some, if_neg isHere]
        obtain ⟨later, isAfter, appended⟩ := rest idx _ isModified
        refine ⟨later, isAfter, ?_⟩
        cases appended with
        | none unreached =>
            refine .none fun entry entryMem => ?_
            rcases List.mem_cons.mp entryMem with rfl | inTable
            · exact fun reached => isHere (Option.some.inj (isTarget.symm.trans reached))
            · rw [← receiver_appendTo blocks target code]
              exact unreached entry inTable
        | copies entryMem reached isFresh bounded isOrdered =>
            rw [← appendTo, receiver_appendTo] at reached
            exact .copies (List.mem_cons_of_mem _ entryMem) reached (fresh.trans isFresh) bounded
              isOrdered

theorem exists_receiver {blocks after : List Block} {table : List (String × List PhiCopy)}
    {nextVreg last : Nat} (lowered : lowerPhiCopies blocks table nextVreg = .ok (after, last)) :
    ∀ entry ∈ table, ∃ idx, receiver blocks entry.1 = some idx := by
  induction table generalizing blocks nextVreg with
  | nil => simp
  | cons entry table ih =>
      obtain ⟨label, copies⟩ := entry
      rw [lowerPhiCopies] at lowered
      obtain ⟨target, isTarget, lowered⟩ := bind_eq_ok.mp lowered
      rw [expect_eq_ok] at isTarget
      obtain ⟨⟨code, next⟩, ordered, lowered⟩ := bind_eq_ok.mp lowered
      intro other otherMem
      rcases List.mem_cons.mp otherMem with rfl | inTable
      · exact ⟨target, isTarget⟩
      · obtain ⟨idx, isReceiver⟩ := ih lowered other inTable
        rw [← appendTo, receiver_appendTo] at isReceiver
        exact ⟨idx, isReceiver⟩

theorem nodup_entries (order : CopyOrder) (table : CopyTable) :
    ((order.entries table).map (·.1)).Nodup := by
  rw [((order.perm table).map (·.1)).nodup_iff, List.map_map]
  exact table.nodupKeys

theorem mem_entries {order : CopyOrder} {table : CopyTable} {label : String}
    {copies : List PhiCopy} :
    (label, copies) ∈ order.entries table ↔ table.lookup label = some copies := by
  rw [(order.perm table).mem_iff, List.mem_map]
  constructor
  · rintro ⟨⟨_, _⟩, entryMem, same⟩
    cases same
    exact AList.mem_lookup_iff.mpr entryMem
  · intro found
    exact ⟨⟨label, copies⟩, AList.mem_lookup_iff.mp found, rfl⟩

/-- The blocks of a lowered function: every MIR block with the copies it
received, and the copies of every entry of the table in some block. -/
structure Copied (traversal : Traversal) (table : CopyTable) (blocks : List Block) : Prop where
  length : blocks.length = traversal.selection.mirBlocks.length
  block : ∀ (idx : Nat) (mir : Block), traversal.selection.mirBlocks[idx]? = some mir → ∃ code,
    blocks[idx]? = some { mir with syllables := mir.syllables ++ code } ∧
      (code = [] ∨ ∃ label copies nextVreg next, table.lookup label = some copies ∧
        traversal.selection.nextVreg ≤ nextVreg ∧
        serializeParallelCopies none copies nextVreg = .ok (code, next))
  entry : ∀ label copies, table.lookup label = some copies →
    ∃ (idx : Nat) (mir : Block) (code : List Syllable) (nextVreg next : Nat),
    receiver traversal.selection.mirBlocks label = some idx ∧
      traversal.selection.mirBlocks[idx]? = some mir ∧
      blocks[idx]? = some { mir with syllables := mir.syllables ++ code } ∧
      traversal.selection.nextVreg ≤ nextVreg ∧
      serializeParallelCopies none copies nextVreg = .ok (code, next)

theorem copied_of_lowerPhiCopies {order : CopyOrder} {traversal : Traversal} {table : CopyTable}
    {blocks : List Block} {last : Nat}
    (lowered : lowerPhiCopies traversal.selection.mirBlocks (order.entries table)
      traversal.selection.nextVreg = .ok (blocks, last)) :
    Copied traversal table blocks := by
  obtain ⟨-, sameLength, appended⟩ := appended_of_lowerPhiCopies (nodup_entries order table) lowered
  refine ⟨sameLength, ?_, ?_⟩
  · intro idx mir isMir
    obtain ⟨code, isBlock, wasAppended⟩ := appended idx mir isMir
    refine ⟨code, isBlock, ?_⟩
    cases wasAppended with
    | none _ => exact .inl rfl
    | copies entryMem _ fresh _ ordered =>
        exact .inr ⟨_, _, _, _, mem_entries.mp entryMem, fresh, ordered⟩
  · intro label copies found
    have isEntry : (label, copies) ∈ order.entries table := mem_entries.mpr found
    obtain ⟨idx, received⟩ := exists_receiver lowered _ isEntry
    have labelled := label_of_receiver received
    rw [List.getElem?_map] at labelled
    obtain ⟨mir, isMir, -⟩ := Option.map_eq_some_iff.mp labelled
    obtain ⟨code, isBlock, wasAppended⟩ := appended idx mir isMir
    cases wasAppended with
    | none unreached => exact absurd received (unreached _ isEntry)
    | @copies entry nextVreg next _ entryMem reached fresh _ ordered =>
        obtain ⟨other, others⟩ := entry
        have sameLabel : other = label :=
          Option.some.inj ((label_of_receiver reached).symm.trans (label_of_receiver received))
        subst sameLabel
        have sameCopies : others = copies :=
          Option.some.inj ((mem_entries.mp entryMem).symm.trans found)
        subst sameCopies
        exact ⟨idx, mir, code, nextVreg, next, received, isMir, isBlock, fresh, ordered⟩

/-- The stages of the lowering of a function. -/
theorem lowerFunction_eq_ok {order : CopyOrder} {module : Llvm.Module} {memorySize : Nat}
    {function : Llvm.Function} {lowered : Mir.Function}
    (isLowered : lowerFunction order module memorySize function = .ok lowered) :
    ∃ traversal table, selectFunction module memorySize function = .ok traversal ∧
      copiesPerBlock traversal = .ok table ∧ Copied traversal table lowered.blocks := by
  obtain ⟨traversal, isSelected, isLowered⟩ := bind_eq_ok.mp isLowered
  obtain ⟨table, computed, isLowered⟩ := bind_eq_ok.mp isLowered
  obtain ⟨⟨blocks, last⟩, appended, isLowered⟩ := bind_eq_ok.mp isLowered
  cases isLowered
  exact ⟨traversal, table, isSelected, computed, copied_of_lowerPhiCopies appended⟩

/-! ### Edges -/

section

variable (function : Llvm.Function) (pred target : String)

/-- The blocks visited before a block. -/
def visitedBefore : List String := (blockOrder function).takeWhile (· ≠ pred)

/-- The false edge from `pred` to `target` goes through a latch. -/
def Latched : Prop :=
  (successorsOf function pred).next = some target ∧ target ∈ visitedBefore function pred ++ [pred]

instance : Decidable (Latched function pred target) := inferInstanceAs (Decidable (_ ∧ _))

/-- The label under which the copies of an edge are inserted. -/
def edgeLabel : String :=
  if Latched function pred target then pred ++ "__latch__" ++ target else pred

/-- The index of the latch of an edge, or of the MIR block with the terminator
of its source. -/
def edgeIndex : Nat :=
  (mirLabels function (visitedBefore function pred)).length + callsIn function pred +
    if Latched function pred target then 1 else 0

/-- An edge between visited blocks to a block with a phi. -/
structure PhiEdge : Prop where
  isPred : pred ∈ blockOrder function
  isTarget : target ∈ blockOrder function
  hasPhi : ∃ incoming ∈ (instructionsOf function target).filterMap phiIncoming,
    ∃ value ∈ incoming, (blockLabels function)[value.2]? = some pred

end

/-- The MIR block in which the copies of an edge come after all the code of its
source: the one with the terminator of the source, or the latch. -/
def copyIndex (traversal : Traversal) (placement : Placement) (target : String) : Nat :=
  match traversal.edgeRemap.lookup (placement.label, target) with
  | some _ => placement.last + 1
  | none => placement.last

/-- The copies of an edge follow the code of its source. -/
def CopiesFollow (traversal : Traversal) (lowered : Mir.Function) (pred target : String) : Prop :=
  ∃ placement ∈ traversal.placements, placement.label = pred ∧
    receiver traversal.selection.mirBlocks (actualPred traversal.edgeRemap pred target) =
      some (copyIndex traversal placement target) ∧
    ∃ block copies nextVreg next code,
      traversal.selection.mirBlocks[copyIndex traversal placement target]? = some block ∧
      serializeParallelCopies none copies nextVreg = .ok (code, next) ∧
      lowered.blocks[copyIndex traversal placement target]? =
        some { block with syllables := block.syllables ++ code } ∧
      ∀ phi ∈ traversal.selection.pendingPhis, phi.phiBlockLabel = target →
        ∀ value ∈ phi.incoming, value.1 = pred → ∃ copy ∈ copies,
          IsCopy traversal (actualPred traversal.edgeRemap pred target) phi value copy

section

variable {module : Llvm.Module} {memorySize : Nat} {function : Llvm.Function}
  {traversal : Traversal} {pred target : String}

theorem blockOrder_eq (isPred : pred ∈ blockOrder function) :
    ∃ back, blockOrder function = visitedBefore function pred ++ pred :: back := by
  have split := List.takeWhile_append_dropWhile (p := fun label => decide (label ≠ pred))
    (l := blockOrder function)
  cases isRest : (blockOrder function).dropWhile (fun label => decide (label ≠ pred)) with
  | nil =>
      have all := List.dropWhile_eq_nil_iff.mp isRest pred isPred
      simp at all
  | cons head back =>
      have isHead := List.head?_dropWhile_not (fun label => decide (label ≠ pred))
        (blockOrder function)
      rw [isRest] at isHead split
      obtain rfl : head = pred := by simpa using isHead
      exact ⟨back, split.symm⟩

theorem front_eq_visitedBefore {front back : List String} (distinct : (blockOrder function).Nodup)
    (isOrder : blockOrder function = front ++ pred :: back) :
    front = visitedBefore function pred := by
  rw [isOrder] at distinct
  have absent : ∀ label ∈ front, decide (label ≠ pred) = true := by
    intro label labelMem
    have apart := (List.nodup_append.mp distinct).2.2 label labelMem pred List.mem_cons_self
    simpa using apart
  rw [visitedBefore, isOrder, List.takeWhile_append_of_pos absent]
  simp

/-- The lowered blocks have the labels of the layout. -/
structure Selected (function : Llvm.Function) (traversal : Traversal) : Prop where
  laidOut : LaidOut function traversal
  visited : traversal.visited = blockOrder function

theorem Selected.latched_iff (selected : Selected function traversal) :
    LatchedAfter function traversal.visited pred target ↔
      pred ∈ blockOrder function ∧ Latched function pred target := by
  rw [selected.visited]
  constructor
  · rintro ⟨front, back, isOrder, isNext, targetMem⟩
    have distinct := selected.visited ▸ selected.laidOut.distinct
    rw [front_eq_visitedBefore distinct isOrder] at targetMem
    exact ⟨by simp [isOrder], isNext, targetMem⟩
  · rintro ⟨isPred, isNext, targetMem⟩
    obtain ⟨back, isOrder⟩ := blockOrder_eq isPred
    exact ⟨_, back, isOrder, isNext, targetMem⟩

theorem Selected.actualPred_eq (selected : Selected function traversal)
    (isPred : pred ∈ blockOrder function) :
    actualPred traversal.edgeRemap pred target = edgeLabel function pred target := by
  unfold actualPred edgeLabel
  split
  · rename_i isLatched
    have remapped := (selected.laidOut.latched pred target _).mpr
      ⟨selected.latched_iff.mpr ⟨isPred, isLatched⟩, rfl⟩
    rw [remapped, Option.getD_some]
  · rename_i notLatched
    cases found : traversal.edgeRemap.lookup (pred, target) with
    | none => rfl
    | some latch =>
        have latched := ((selected.laidOut.latched pred target latch).mp found).1
        exact absurd (selected.latched_iff.mp latched).2 notLatched

theorem Selected.copyIndex_eq (selected : Selected function traversal) {placement : Placement}
    (placementMem : placement ∈ traversal.placements) (isLabel : placement.label = pred) :
    copyIndex traversal placement target = edgeIndex function pred target := by
  obtain ⟨front, back, isOrder, isFirst, isLast⟩ := selected.laidOut.placed placement placementMem
  rw [selected.visited, isLabel] at isOrder
  rw [isLabel] at isLast
  have isPred : pred ∈ blockOrder function := by simp [isOrder]
  have distinct := selected.visited ▸ selected.laidOut.distinct
  rw [front_eq_visitedBefore distinct isOrder] at isFirst
  unfold copyIndex edgeIndex
  rw [isLabel, isLast, isFirst]
  split
  · rename_i latch found
    have latched := ((selected.laidOut.latched pred target latch).mp found).1
    rw [if_pos (selected.latched_iff.mp latched).2]
  · rename_i notFound
    rw [if_neg, Nat.add_zero]
    intro isLatched
    have remapped := (selected.laidOut.latched pred target _).mpr
      ⟨selected.latched_iff.mpr ⟨isPred, isLatched⟩, rfl⟩
    rw [notFound] at remapped
    cases remapped

/-- The labels around the code of a visited block. -/
theorem mirLabels_blockOrder (isPred : pred ∈ blockOrder function) :
    ∃ callCount rest, mirLabels function (blockOrder function) =
      mirLabels function (visitedBefore function pred) ++
        (chunkLabels pred (callsIn function pred) callCount ++
          (latchLabels function (visitedBefore function pred ++ [pred]) pred ++ rest)) := by
  obtain ⟨back, isOrder⟩ := blockOrder_eq isPred
  have isLabels : mirLabels function (blockOrder function) =
      mirLabels function (visitedBefore function pred ++ pred :: back) :=
    congrArg (mirLabels function) isOrder
  rw [mirLabels, mirLabels, layoutLabels_append, layoutLabels, List.append_assoc] at isLabels
  exact ⟨_, _, isLabels⟩

/-- The first MIR block of a visited block has its label. -/
theorem getElem?_mirLabels_first (isPred : pred ∈ blockOrder function) :
    (mirLabels function (blockOrder function))[
      (mirLabels function (visitedBefore function pred)).length]? = some pred := by
  obtain ⟨callCount, rest, isLabels⟩ := mirLabels_blockOrder isPred
  rw [isLabels, List.getElem?_append_right (Nat.le_refl _), Nat.sub_self,
    List.getElem?_append_left (by simp [length_chunkLabels]), ← List.head?_eq_getElem?,
    head?_chunkLabels]

theorem getElem?_mirLabels_latch (isPred : pred ∈ blockOrder function)
    (isLatched : Latched function pred target) :
    (mirLabels function (blockOrder function))[edgeIndex function pred target]? =
      some (edgeLabel function pred target) := by
  obtain ⟨callCount, rest, isLabels⟩ := mirLabels_blockOrder isPred
  have isLatch : latchLabels function (visitedBefore function pred ++ [pred]) pred =
      [pred ++ "__latch__" ++ target] := by
    rw [latchLabels, isLatched.1]
    exact if_pos isLatched.2
  rw [edgeIndex, edgeLabel, if_pos isLatched, if_pos isLatched, isLabels, Nat.add_assoc,
    List.getElem?_append_right (Nat.le_add_right _ _), Nat.add_sub_cancel_left,
    List.getElem?_append_right (by rw [length_chunkLabels]), length_chunkLabels, Nat.sub_self,
    isLatch]
  rfl

/-- The label of an edge stands at its index, unless calls split its source. -/
theorem getElem?_mirLabels_edge (isPred : pred ∈ blockOrder function)
    (unsplit : Latched function pred target ∨ callsIn function pred = 0) :
    (mirLabels function (blockOrder function))[edgeIndex function pred target]? =
      some (edgeLabel function pred target) := by
  by_cases isLatched : Latched function pred target
  · exact getElem?_mirLabels_latch isPred isLatched
  · have noCall := unsplit.resolve_left isLatched
    rw [edgeIndex, edgeLabel, if_neg isLatched, if_neg isLatched, noCall]
    exact getElem?_mirLabels_first isPred

theorem Selected.receiver_iff (selected : Selected function traversal) {label : String}
    {idx : Nat} :
    receiver traversal.selection.mirBlocks label = some idx ↔
      (mirLabels function (blockOrder function))[idx]? = some label ∧
        label ∉ (mirLabels function (blockOrder function)).take idx := by
  rw [receiver_eq_some_iff, selected.laidOut.labels, selected.visited]

/-- The phis of an edge are collected. -/
theorem Selected.exists_phi (selected : Selected function traversal)
    (edge : PhiEdge function pred target) :
    ∃ phi ∈ traversal.selection.pendingPhis, phi.phiBlockLabel = target ∧
      ∃ value ∈ phi.incoming, value.1 = pred := by
  obtain ⟨incoming, incomingMem, ⟨operand, ref⟩, valueMem, isPred⟩ := edge.hasPhi
  obtain ⟨phi, phiMem, isBlock, isRaw⟩ := selected.laidOut.phis target
    (selected.visited ▸ edge.isTarget) incoming incomingMem
  obtain ⟨value, rawMem, isValue⟩ := exists_image_of_forall₂ (mapM_eq_ok_iff.mp isRaw) valueMem
  obtain ⟨label, isLabel, isValue⟩ := bind_eq_ok.mp isValue
  cases isValue
  rw [labelOf_eq_ok, isPred] at isLabel
  exact ⟨phi, phiMem, isBlock, _, rawMem, (Option.some.inj isLabel).symm⟩

/-- The receiver of the copies of an edge ends with code for them. -/
theorem exists_code_of_receiver {order : CopyOrder} {lowered : Mir.Function} {idx : Nat}
    (isLowered : lowerFunction order module memorySize function = .ok lowered)
    (isSelected : selectFunction module memorySize function = .ok traversal)
    (hasPhi : ∃ phi ∈ traversal.selection.pendingPhis, phi.phiBlockLabel = target ∧
      ∃ value ∈ phi.incoming, value.1 = pred)
    (received : receiver traversal.selection.mirBlocks
      (actualPred traversal.edgeRemap pred target) = some idx) :
    ∃ block copies nextVreg next code, traversal.selection.mirBlocks[idx]? = some block ∧
      serializeParallelCopies none copies nextVreg = .ok (code, next) ∧
      lowered.blocks[idx]? = some { block with syllables := block.syllables ++ code } ∧
      ∀ phi ∈ traversal.selection.pendingPhis, phi.phiBlockLabel = target →
        ∀ value ∈ phi.incoming, value.1 = pred → ∃ copy ∈ copies,
          IsCopy traversal (actualPred traversal.edgeRemap pred target) phi value copy := by
  obtain ⟨selected, table, isOther, computed, copied⟩ := lowerFunction_eq_ok isLowered
  obtain rfl := Except.ok.inj (isOther.symm.trans isSelected)
  have exists_copy : ∀ phi ∈ selected.selection.pendingPhis, phi.phiBlockLabel = target →
      ∀ value ∈ phi.incoming, value.1 = pred →
        ∃ copy ∈ table.copies (actualPred selected.edgeRemap pred target),
          IsCopy selected (actualPred selected.edgeRemap pred target) phi value copy := by
    rintro phi phiMem rfl value valueMem rfl
    obtain ⟨src, isSrc⟩ := exists_copySrc computed phi phiMem value valueMem
    have isCopy : IsCopy selected (actualPred selected.edgeRemap value.1 phi.phiBlockLabel) phi
        value ⟨phi.dst, src⟩ := ⟨rfl, rfl, isSrc⟩
    exact ⟨_, (mem_copiesPerBlock computed _ _).mpr ⟨phi, phiMem, value, valueMem, isCopy⟩, isCopy⟩
  obtain ⟨phi, phiMem, isBlock, value, valueMem, isPred⟩ := hasPhi
  obtain ⟨copy, copyMem, -⟩ := exists_copy phi phiMem isBlock value valueMem isPred
  obtain ⟨other, mir, code, nextVreg, next, isReceiver, isMir, isAfter, -, ordered⟩ :=
    copied.entry _ _ (lookup_of_mem_copies copyMem)
  obtain rfl := Option.some.inj (isReceiver.symm.trans received)
  exact ⟨mir, _, nextVreg, next, code, isMir, ordered, isAfter, exists_copy⟩

/-- The copies of an edge to a block with a phi follow the code of its source
exactly when the source has no call or the edge has a latch, and no MIR block
made earlier has the label under which the copies are inserted. -/
theorem copiesFollow_iff {order : CopyOrder} {lowered : Mir.Function}
    (isLowered : lowerFunction order module memorySize function = .ok lowered)
    (isSelected : selectFunction module memorySize function = .ok traversal)
    (edge : PhiEdge function pred target) :
    CopiesFollow traversal lowered pred target ↔
      (Latched function pred target ∨ callsIn function pred = 0) ∧
        edgeLabel function pred target ∉
          (mirLabels function (blockOrder function)).take (edgeIndex function pred target) := by
  obtain ⟨laidOut, isVisited⟩ := laidOut_of_selectFunction isSelected
  have selected : Selected function traversal := ⟨laidOut, isVisited⟩
  constructor
  · rintro ⟨placement, placementMem, isLabel, received, -⟩
    rw [selected.actualPred_eq edge.isPred, selected.copyIndex_eq placementMem isLabel,
      selected.receiver_iff] at received
    refine ⟨?_, received.2⟩
    by_contra split
    obtain ⟨notLatched, hasCall⟩ := not_or.mp split
    refine received.2 (List.mem_take_iff_getElem.mpr ?_)
    obtain ⟨inside, isFirst⟩ := List.getElem?_eq_some_iff.mp (getElem?_mirLabels_first edge.isPred)
    refine ⟨_, ?_, by rw [edgeLabel, if_neg notLatched]; exact isFirst⟩
    rw [edgeIndex]
    omega
  · rintro ⟨unsplit, unclashed⟩
    obtain ⟨placement, placementMem, isLabel⟩ := laidOut.exists_placement pred
      (isVisited ▸ edge.isPred)
    have isIndex : copyIndex traversal placement target = edgeIndex function pred target :=
      selected.copyIndex_eq placementMem isLabel
    have received := selected.receiver_iff.mpr
      ⟨getElem?_mirLabels_edge edge.isPred unsplit, unclashed⟩
    rw [← selected.actualPred_eq edge.isPred, ← isIndex] at received
    refine ⟨placement, placementMem, isLabel, received, ?_⟩
    exact exists_code_of_receiver isLowered isSelected (selected.exists_phi edge) received

end

/-! ### A call in a loop -/

/-- Copies in the order of insertion. -/
def insertionOrder : CopyOrder where
  entries table := table.entries.map fun entry => (entry.1, entry.2)
  perm _ := .refl _

/-- A function that returns its parameter. -/
def identityFunction : Llvm.Function where
  name := "identity"
  params := [⟨0, .int 64⟩]
  returnType := .int 64
  blocks := [⟨"entry", [⟨1, .void, .ret (some (.ref 0 (.int 64)))⟩]⟩]

/-- A loop whose body calls a function and passes the result to the next
iteration. -/
def callInLoop : Llvm.Function where
  name := "callInLoop"
  params := []
  returnType := .int 64
  blocks :=
    [⟨"entry", [⟨10, .void, .br 1⟩]⟩,
      ⟨"header", [⟨11, .int 64, .phi [(.constInt 64 0, 0), (.ref 14 (.int 64), 2)]⟩,
        ⟨12, .int 1, .icmp .slt (.ref 11 (.int 64)) (.constInt 64 10)⟩,
        ⟨13, .void, .condBr (.ref 12 (.int 1)) 2 3⟩]⟩,
      ⟨"body", [⟨14, .int 64, .call (.function "identity") [.ref 11 (.int 64)]⟩,
        ⟨15, .void, .br 1⟩]⟩,
      ⟨"exit", [⟨16, .void, .ret (some (.ref 11 (.int 64)))⟩]⟩]

theorem phiEdge_callInLoop {pred : String} (isPred : pred ∈ ["entry", "body"]) :
    PhiEdge callInLoop pred "header" := by
  have isOrder : blockOrder callInLoop = ["entry", "header", "exit", "body"] := by decide +kernel
  have isPhi : (instructionsOf callInLoop "header").filterMap phiIncoming =
      [[(.constInt 64 0, 0), (.ref 14 (.int 64), 2)]] := by decide +kernel
  refine ⟨?_, by simp [isOrder], ?_⟩
  · rw [isOrder]
    simp only [List.mem_cons, List.not_mem_nil, or_false] at isPred
    rcases isPred with rfl | rfl <;> simp
  · refine ⟨_, isPhi ▸ List.mem_singleton_self _, ?_⟩
    simp only [List.mem_cons, List.not_mem_nil, or_false] at isPred
    rcases isPred with rfl | rfl
    · exact ⟨_, List.mem_cons_self, by decide +kernel⟩
    · exact ⟨_, List.mem_cons_of_mem _ List.mem_cons_self, by decide +kernel⟩

theorem copiesFollow_iff_callInLoop :
    ∃ lowered traversal,
      lowerFunction insertionOrder [identityFunction, callInLoop] 65536 callInLoop = .ok lowered ∧
      selectFunction [identityFunction, callInLoop] 65536 callInLoop = .ok traversal ∧
      CopiesFollow traversal lowered "entry" "header" := by
  have lowers : (lowerFunction insertionOrder [identityFunction, callInLoop] 65536
      callInLoop).isOk := by decide +kernel
  have selects : (selectFunction [identityFunction, callInLoop] 65536 callInLoop).isOk := by
    decide +kernel
  obtain ⟨lowered, isLowered⟩ := exists_of_isOk lowers
  obtain ⟨traversal, isSelected⟩ := exists_of_isOk selects
  refine ⟨lowered, traversal, isLowered, isSelected, ?_⟩
  exact (copiesFollow_iff isLowered isSelected (phiEdge_callInLoop (by simp))).mpr (by decide +kernel)

/-- The copy of the result of a call in a loop stands before the call.  It reads
the register of the result, which is written after the call. -/
theorem callResult_copied_early :
    ∃ lowered traversal,
      lowerFunction insertionOrder [identityFunction, callInLoop] 65536 callInLoop = .ok lowered ∧
      selectFunction [identityFunction, callInLoop] 65536 callInLoop = .ok traversal ∧
      PhiEdge callInLoop "body" "header" ∧
      ¬CopiesFollow traversal lowered "body" "header" ∧
      (lowered.blocks.drop 3).map (fun block => (block.label, block.syllables.getLast?)) =
        [("body", some ⟨.mov, some (.vreg 0), [.reg (.vreg 3)]⟩),
          ("body__cont__0", some ⟨.mov, some (.vreg 3), [.reg (.preg retvalReg)]⟩)] := by
  have ends : (lowerFunction insertionOrder [identityFunction, callInLoop] 65536 callInLoop).map
      (fun lowered => (lowered.blocks.drop 3).map fun block =>
        (block.label, block.syllables.getLast?)) =
      .ok [("body", some ⟨.mov, some (.vreg 0), [.reg (.vreg 3)]⟩),
        ("body__cont__0", some ⟨.mov, some (.vreg 3), [.reg (.preg retvalReg)]⟩)] := by
    decide +kernel
  have places : (selectFunction [identityFunction, callInLoop] 65536 callInLoop).map
      (fun traversal => (traversal.placements, traversal.edgeRemap.lookup ("body", "header"),
        receiver traversal.selection.mirBlocks
          (actualPred traversal.edgeRemap "body" "header"))) =
      .ok ([⟨"entry", 0, 0⟩, ⟨"header", 1, 1⟩, ⟨"exit", 2, 2⟩, ⟨"body", 3, 4⟩], none, some 3) := by
    decide +kernel
  obtain ⟨lowered, isLowered, isEnds⟩ := map_eq_ok.mp ends
  obtain ⟨traversal, isSelected, isPlaces⟩ := map_eq_ok.mp places
  refine ⟨lowered, traversal, isLowered, isSelected, phiEdge_callInLoop (by simp), ?_, isEnds⟩
  obtain ⟨isPlacements, isUnmapped, isReceiver⟩ : traversal.placements = _ ∧ _ ∧ _ := by
    simpa only [Prod.mk.injEq] using isPlaces
  rintro ⟨placement, placementMem, isLabel, received, -⟩
  have isLast : placement.last = 4 := by
    rw [isPlacements] at placementMem
    simp only [List.mem_cons, List.not_mem_nil, or_false] at placementMem
    rcases placementMem with rfl | rfl | rfl | rfl
    · simp at isLabel
    · simp at isLabel
    · simp at isLabel
    · rfl
  rw [isReceiver, copyIndex, isLabel, isUnmapped, isLast] at received
  cases received

end VliwCompiler.Isel
