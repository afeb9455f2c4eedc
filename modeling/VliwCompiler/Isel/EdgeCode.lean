import VliwCompiler.Isel.PhiEdges
import VliwCompiler.Isel.Sites
import VliwCompiler.Isel.Activations

/-!
# Code of edges

What the blocks of a lowered function without calls hold.  The MIR block of an
LLVM block ends with code that performs the copies of all its edges without a
latch; the latch of an edge performs the copies of that edge.
-/

namespace VliwCompiler.Isel

open Asm (Opcode Copies)
open Mir (Reg Syllable Terminator Block execSyllables jumpTarget labelledBlock)
open Llvm (Instruction)
open Machine
open Worklist (Edge Successors)

/-- The stages of the lowering of a function without calls. -/
structure CallFreeLowering (module : Llvm.Module) (memorySize : Nat) (function : Llvm.Function)
    (traversal : Traversal) (table : CopyTable) (sites : List Site) (lowered : Mir.Function) :
    Prop where
  isSsa : function.IsSsa
  wellFormed : WellFormed function
  distinct : LabelsDistinct function
  selected : Selected function traversal
  isSelected : selectFunction module memorySize function = .ok traversal
  sited : Sited module memorySize function (blockOrder function) traversal.selection sites
  computed : copiesPerBlock traversal = .ok table
  orderly : ∀ label, Orderly (table.copies label) traversal.selection.nextVreg
  length : lowered.blocks.length = traversal.selection.mirBlocks.length
  code : ∀ (idx : Nat) (block : Block), traversal.selection.mirBlocks[idx]? = some block →
    ∃ code, lowered.blocks[idx]? = some { block with syllables := block.syllables ++ code } ∧
      (code = [] ∧ table.copies block.label = [] ∨ ∃ nextVreg next,
        traversal.selection.nextVreg ≤ nextVreg ∧
          serializeParallelCopies none (table.copies block.label) nextVreg = .ok (code, next))

section

variable {module : Llvm.Module} {memorySize : Nat} {function : Llvm.Function}
  {traversal : Traversal} {table : CopyTable} {sites : List Site} {lowered : Mir.Function}
  {order : CopyOrder}

theorem exists_callFreeLowering (isSsa : function.IsSsa) (wellFormed : WellFormed function)
    (distinct : LabelsDistinct function) (noCalls : NoCalls function)
    (isSelected : selectFunction module memorySize function = .ok traversal)
    (isLowered : lowerFunction order module memorySize function = .ok lowered) :
    ∃ table sites,
      CallFreeLowering module memorySize function traversal table sites lowered := by
  obtain ⟨sites, sited⟩ := exists_sited isSsa noCalls isSelected
  obtain ⟨laidOut, isVisited⟩ := laidOut_of_selectFunction isSelected
  have selected : Selected function traversal := ⟨laidOut, isVisited⟩
  obtain ⟨owner, owned⟩ := owned_of_selectFunction isSelected
  obtain ⟨other, isOther, isLowered⟩ := bind_eq_ok.mp isLowered
  obtain rfl := Except.ok.inj (isOther.symm.trans isSelected)
  obtain ⟨table, computed, isLowered⟩ := bind_eq_ok.mp isLowered
  obtain ⟨⟨blocks, last⟩, appended, isLowered⟩ := bind_eq_ok.mp isLowered
  cases isLowered
  obtain ⟨-, sameLength, code⟩ := appended_of_lowerPhiCopies (nodup_entries order table) appended
  have layout := distinct.layout
  rw [← isVisited, ← laidOut.labels] at layout
  refine ⟨table, sites, isSsa, wellFormed, distinct, selected, isSelected, sited, computed, ?_,
    sameLength, ?_⟩
  · refine orderly_copies isSsa distinct selected owned ?_ computed
    intro instruction instructionMem
    obtain ⟨label, -, inBlock⟩ := List.mem_flatMap.mp instructionMem
    exact mem_instructions inBlock
  · intro idx block isBlock
    obtain ⟨code, isAfter, wasAppended⟩ := code idx block isBlock
    refine ⟨code, isAfter, ?_⟩
    have isLabel : (other.selection.mirBlocks.map (·.label))[idx]? = some block.label := by
      rw [List.getElem?_map, isBlock]
      rfl
    cases wasAppended with
    | none unreached =>
        refine .inl ⟨rfl, ?_⟩
        unfold CopyTable.copies
        cases found : table.lookup block.label with
        | none => rfl
        | some copies =>
            refine absurd ?_ (unreached _ (mem_entries.mpr found))
            rw [receiver_eq_some_iff]
            refine ⟨isLabel, fun before => ?_⟩
            obtain ⟨earlier, less, isEarlier⟩ := List.mem_take_iff_getElem.mp before
            obtain ⟨inside, isHere⟩ := List.getElem?_eq_some_iff.mp isLabel
            have same := layout.getElem_inj_iff.mp (isEarlier.trans isHere.symm)
            omega
    | @copies entry nextVreg next _ entryMem reached fresh _ ordered =>
        have sameLabel := Option.some.inj ((label_of_receiver reached).symm.trans isLabel)
        have found := mem_entries.mp entryMem
        rw [sameLabel] at found
        refine .inr ⟨nextVreg, next, fresh, ?_⟩
        rw [CopyTable.copies, found]
        exact ordered

namespace CallFreeLowering

variable (lowering : CallFreeLowering module memorySize function traversal table sites lowered)
  {label pred target : String}

include lowering

/-! ### Labels -/

theorem mem_blockLabels (isVisited : label ∈ blockOrder function) :
    label ∈ blockLabels function := by
  obtain ⟨front, site, back, isSites, rfl⟩ := lowering.sited.exists_site isVisited
  obtain ⟨block, before, after, made⟩ := lowering.sited.made _ _ _ isSites
  obtain ⟨node, isLabel, -⟩ := exists_index_of_bbOf made.isBlock
  exact List.mem_of_getElem? isLabel

theorem nodup_labels : (traversal.selection.mirBlocks.map (·.label)).Nodup := by
  rw [lowering.selected.laidOut.labels, lowering.selected.visited]
  exact lowering.distinct.layout

/-- MIR blocks with the same label are the same. -/
theorem index_unique {first second : Nat} {block other : Block}
    (isFirst : traversal.selection.mirBlocks[first]? = some block)
    (isSecond : traversal.selection.mirBlocks[second]? = some other)
    (same : block.label = other.label) : first = second := by
  have firstLabel : (traversal.selection.mirBlocks.map (·.label))[first]? = some block.label := by
    rw [List.getElem?_map, isFirst]
    rfl
  have secondLabel : (traversal.selection.mirBlocks.map (·.label))[second]? =
      some block.label := by
    rw [List.getElem?_map, isSecond, same]
    rfl
  obtain ⟨inside, -⟩ := List.getElem?_eq_some_iff.mp firstLabel
  exact (List.getElem?_inj inside lowering.nodup_labels).mp (firstLabel.trans secondLabel.symm)

/-- The copies of a block are those of its edges without a latch. -/
theorem mem_copies_site (isPred : pred ∈ blockOrder function) (copy : PhiCopy) :
    copy ∈ table.copies pred ↔
      ∃ target, ¬Latched function pred target ∧ copy ∈ edgeCopies traversal pred target := by
  have isLabel := lowering.mem_blockLabels isPred
  rw [mem_copiesPerBlock lowering.computed]
  constructor
  · rintro ⟨phi, phiMem, value, valueMem, isReceiver, isDst, isSrc⟩
    rcases lowering.selected.actualPred_cases value.1 phi.phiBlockLabel with
      isSame | ⟨isOrigin, isLatched, isLatch⟩
    · obtain rfl := isSame.symm.trans isReceiver
      refine ⟨phi.phiBlockLabel, ?_, mem_edgeCopies.mpr
        ⟨phi, phiMem, rfl, value, valueMem, rfl, isDst, isSrc⟩⟩
      intro isLatched
      rw [lowering.selected.actualPred_eq isPred, edgeLabel, if_pos isLatched] at isReceiver
      refine latch_not_mem_blockLabels lowering.distinct isPred isLatched ?_
      rw [isReceiver]
      exact isLabel
    · rw [isLatch] at isReceiver
      refine absurd ?_ (latch_not_mem_blockLabels lowering.distinct isOrigin isLatched)
      rw [isReceiver]
      exact isLabel
  · rintro ⟨target, notLatched, copyMem⟩
    obtain ⟨phi, phiMem, rfl, value, valueMem, rfl, isDst, isSrc⟩ := mem_edgeCopies.mp copyMem
    refine ⟨phi, phiMem, value, valueMem, ?_, isDst, isSrc⟩
    rw [lowering.selected.actualPred_eq isPred, edgeLabel, if_neg notLatched]

/-! ### Latches -/

/-- A false edge to a block visited before has a latch, right after its source. -/
theorem latch_eq {front back : List Site} {site : Site} (isSites : sites = front ++ site :: back)
    (isNext : (successorsOf function site.label).next = some target) :
    (Latched function site.label target ∧
        site.latch = [⟨site.label ++ "__latch__" ++ target, [], .jump target⟩]) ∨
      (¬Latched function site.label target ∧ site.latch = [] ∧
        ∃ next rest, back = next :: rest ∧ next.label = target) := by
  have isVisited := lowering.sited.visited_eq isSites
  have nodup : (blockOrder function).Nodup :=
    lowering.selected.visited ▸ lowering.selected.laidOut.distinct
  have isFront := front_eq_visitedBefore nodup isVisited
  have isLatch := lowering.sited.latches front site back isSites
  rw [latchBlocks, isNext, isFront] at isLatch
  dsimp only at isLatch
  by_cases isLatched : target ∈ visitedBefore function site.label ++ [site.label]
  · rw [if_pos isLatched] at isLatch
    exact .inl ⟨⟨isNext, isLatched⟩, isLatch⟩
  · rw [if_neg isLatched] at isLatch
    refine .inr ⟨fun latched => isLatched latched.2, isLatch, ?_⟩
    have adjacent := adjacent_blockOrder lowering.isSsa
    rw [← isFront] at isLatched
    cases back with
    | nil =>
        have isEmpty := adjacent.last _ _ isVisited target isNext (isVisited ▸ isLatched)
        cases isEmpty
    | cons next rest =>
        exact ⟨next, rest, rfl, adjacent.inner _ _ _ _ isVisited target isNext isLatched⟩

/-- The latch of an edge follows the block of its source. -/
theorem getElem?_latch {front back : List Site} {site : Site}
    (isSites : sites = front ++ site :: back) (isLatched : Latched function site.label target) :
    traversal.selection.mirBlocks[siteIndex front + 1]? =
      some ⟨site.label ++ "__latch__" ++ target, [], .jump target⟩ := by
  rw [lowering.sited.getElem?_next isSites]
  rcases lowering.latch_eq isSites isLatched.1 with ⟨-, isLatch⟩ | ⟨notLatched, -⟩
  · rw [isLatch]
    rfl
  · exact absurd isLatched notLatched

/-- The name of a latch determines its edge. -/
theorem latch_inj {other otherTarget : String} (isPred : pred ∈ blockOrder function)
    (isLatched : Latched function pred target) (isOther : other ∈ blockOrder function)
    (isOtherLatched : Latched function other otherTarget)
    (same : pred ++ "__latch__" ++ target = other ++ "__latch__" ++ otherTarget) :
    pred = other ∧ target = otherTarget := by
  obtain ⟨front, site, back, isSites, rfl⟩ := lowering.sited.exists_site isPred
  obtain ⟨front', site', back', isSites', rfl⟩ := lowering.sited.exists_site isOther
  have sameIndex := lowering.index_unique (lowering.getElem?_latch isSites isLatched)
    (lowering.getElem?_latch isSites' isOtherLatched) same
  have isBlock := lowering.sited.getElem?_site isSites
  rw [Nat.succ.inj sameIndex, lowering.sited.getElem?_site isSites'] at isBlock
  have sameLabel : site'.label = site.label := by
    rw [← lowering.sited.label_block isSites, ← lowering.sited.label_block isSites',
      Option.some.inj isBlock]
  refine ⟨sameLabel.symm, ?_⟩
  rw [sameLabel] at isOtherLatched
  exact Option.some.inj (isLatched.1.symm.trans isOtherLatched.1)

/-- The copies of a latch are those of its edge. -/
theorem mem_copies_latch (isPred : pred ∈ blockOrder function)
    (isLatched : Latched function pred target) (copy : PhiCopy) :
    copy ∈ table.copies (pred ++ "__latch__" ++ target) ↔
      copy ∈ edgeCopies traversal pred target := by
  rw [mem_copiesPerBlock lowering.computed]
  constructor
  · rintro ⟨phi, phiMem, value, valueMem, isReceiver, isDst, isSrc⟩
    rcases lowering.selected.actualPred_cases value.1 phi.phiBlockLabel with
      isSame | ⟨isOrigin, isOriginLatched, isLatch⟩
    · obtain ⟨-, incoming, -, isRaw⟩ := lowering.selected.laidOut.fromPhi phi phiMem
      obtain ⟨operand, node, -, isLabel, -⟩ := exists_incoming isRaw valueMem
      refine absurd ?_ (latch_not_mem_blockLabels lowering.distinct isPred isLatched)
      rw [← isReceiver, isSame]
      exact List.mem_of_getElem? isLabel
    · obtain ⟨isPred, isTarget⟩ := lowering.latch_inj isOrigin isOriginLatched isPred isLatched
        (isLatch.symm.trans isReceiver)
      exact mem_edgeCopies.mpr ⟨phi, phiMem, isTarget, value, valueMem, isPred, isDst, isSrc⟩
  · intro copyMem
    obtain ⟨phi, phiMem, rfl, value, valueMem, rfl, isDst, isSrc⟩ := mem_edgeCopies.mp copyMem
    refine ⟨phi, phiMem, value, valueMem, ?_, isDst, isSrc⟩
    rw [lowering.selected.actualPred_eq isPred, edgeLabel, if_pos isLatched]

/-! ### Blocks -/

theorem siteBlock_eq {front back : List Site} {site : Site}
    (isSites : sites = front ++ site :: back) :
    siteBlock traversal site.label = some site.block := by
  have isBlock := lowering.sited.getElem?_site isSites
  have isLabel := lowering.sited.label_block isSites
  unfold siteBlock
  cases found : traversal.selection.mirBlocks.find? (·.label = site.label) with
  | none =>
      have absent := List.find?_eq_none.mp found site.block (List.mem_of_getElem? isBlock)
      simp [isLabel] at absent
  | some other =>
      obtain ⟨idx, isOther⟩ := List.mem_iff_getElem?.mp (List.mem_of_find?_eq_some found)
      have otherLabel : other.label = site.label := by simpa using List.find?_some found
      have sameIndex := lowering.index_unique isOther isBlock (otherLabel.trans isLabel.symm)
      rw [sameIndex] at isOther
      exact isOther.symm.trans isBlock

/-- The terminator of a block fits the successors of the LLVM block. -/
theorem endsAs {front back : List Site} {site : Site} (isSites : sites = front ++ site :: back) :
    EndsAs (successorsOf function site.label) site.block.terminator := by
  obtain ⟨block, before, after, made⟩ := lowering.sited.made _ _ _ isSites
  rw [made.isSite]
  exact made.ends

/-- No block ends with a call. -/
theorem not_call {block : Block} (blockMem : block ∈ traversal.selection.mirBlocks)
    (callee cont : String) : block.terminator ≠ .directCall callee cont := by
  rw [lowering.sited.blocks] at blockMem
  obtain ⟨site, siteMem, inSite⟩ := List.mem_flatMap.mp blockMem
  obtain ⟨front, back, isSites⟩ := List.append_of_mem siteMem
  rcases List.mem_cons.mp inSite with rfl | inLatch
  · intro isCall
    have ends := lowering.endsAs isSites
    rw [isCall] at ends
    unfold EndsAs at ends
    split at ends
    · obtain ⟨cond, same⟩ := ends
      cases same
    · cases ends
    · cases ends
  · rw [lowering.sited.latches front site back isSites] at inLatch
    unfold latchBlocks at inLatch
    split at inLatch
    · split at inLatch
      · rw [List.mem_singleton] at inLatch
        rw [inLatch]
        simp
      · cases inLatch
    · cases inLatch

/-- The code of a block leaves the link register alone. -/
theorem avoids {block : Block} (blockMem : block ∈ traversal.selection.mirBlocks) :
    ∀ syllable ∈ block.syllables, AvoidsLink syllable := by
  have state := loopState_of_selectFunction lowering.isSsa.entry lowering.isSelected
  obtain ⟨idx, isBlock⟩ := List.mem_iff_getElem?.mp blockMem
  obtain ⟨lead, body, isCode, saves, resumes⟩ := state.saving.saved idx block isBlock
  have noCall := lowering.not_call blockMem
  rcases resumes with ⟨-, j, caller, callee, -, isCaller, isCall⟩ | ⟨rfl, -⟩
  · exact absurd isCall (lowering.not_call (List.mem_of_getElem? isCaller) callee _)
  · rw [isCode, List.nil_append]
    unfold SavesLink at saves
    split at saves
    · rename_i callee cont isCall
      exact absurd isCall (noCall callee cont)
    · exact saves

/-! ### Lowered blocks -/

/-- A lowered block executes its own code and then its copies, all at once. -/
theorem exists_copied {isa : Isa Opcode} (isCopy : Copies isa) {idx : Nat} {block : Block}
    (isBlock : traversal.selection.mirBlocks[idx]? = some block) :
    ∃ code, lowered.blocks[idx]? = some { block with syllables := block.syllables ++ code } ∧
      ∀ state, ∃ final, execSyllables isa code state = some final ∧
        Assigned (table.copies block.label) traversal.selection.nextVreg state final := by
  obtain ⟨code, isLowered, noCopies | ⟨nextVreg, next, fresh, serialized⟩⟩ :=
    lowering.code idx block isBlock
  · obtain ⟨rfl, isNil⟩ := noCopies
    refine ⟨[], isLowered, fun state => ⟨state, rfl, ?_⟩⟩
    rw [isNil]
    exact ⟨by simp, fun _ _ _ => rfl, fun _ => rfl, rfl, rfl⟩
  · refine ⟨code, isLowered, fun state => ?_⟩
    have orderly := (lowering.orderly block.label).mono fresh
    have few := passes_le ((table.copies block.label).filter fun copy => copy.src ≠ .vreg copy.dst)
    obtain ⟨others, last, isOther, -, runs⟩ := serialize_spec isCopy
      (orderly.filter fun copy => copy.src ≠ .vreg copy.dst) (Nat.lt_succ_of_le few)
    obtain ⟨rfl, -⟩ := Prod.mk.inj (Except.ok.inj (isOther.symm.trans serialized))
    obtain ⟨final, executed, assigned⟩ := runs state
    have whole := assigned.of_filter orderly
    exact ⟨final, executed, whole.dst, fun v less => whole.other v (Nat.lt_of_lt_of_le less fresh),
      whole.fixed, whole.pred, whole.mem⟩

theorem nodup_lowered : (lowered.blocks.map (·.label)).Nodup := by
  have same : lowered.blocks.map (·.label) = traversal.selection.mirBlocks.map (·.label) := by
    refine List.ext_getElem? fun idx => ?_
    rw [List.getElem?_map, List.getElem?_map]
    cases isBlock : traversal.selection.mirBlocks[idx]? with
    | none =>
        rw [List.getElem?_eq_none_iff, ← lowering.length] at isBlock
        rw [List.getElem?_eq_none isBlock]
    | some block =>
        obtain ⟨code, isLowered, -⟩ := lowering.code idx block isBlock
        rw [isLowered]
        rfl
  rw [same]
  exact lowering.nodup_labels

/-- Labels of the function lead to its own blocks. -/
theorem jumpTarget_eq {functions : List Mir.Function} {func idx : Nat} {block : Block}
    (isFunction : functions[func]? = some lowered)
    (isBlock : traversal.selection.mirBlocks[idx]? = some block) :
    jumpTarget functions func block.label = some ⟨func, idx⟩ := by
  obtain ⟨code, isLowered, -⟩ := lowering.code idx block isBlock
  unfold jumpTarget
  rw [labelledBlock_of_nodup isFunction lowering.nodup_lowered isLowered]
  rfl

/-! ### Registers -/

/-- Needed registers are registers of the selected code. -/
theorem lt_of_needed {v : Nat} (isVisited : label ∈ blockOrder function)
    (needed : NeededAt function traversal v label) : v < traversal.selection.nextVreg := by
  induction needed with
  | @read label block isBlock reads =>
      obtain ⟨classes, classed⟩ := classed_of_selectFunction lowering.wellFormed
        lowering.isSelected
      obtain ⟨syllable, syllableMem, -, inSources⟩ := reads.exists_reads
      have isEmitted : syllable ∈ (traversal.selection.begin label).emitted :=
        List.mem_append_left _ (List.mem_flatMap.mpr
          ⟨block, List.mem_of_find?_eq_some isBlock, syllableMem⟩)
      have isClass : ∃ isPred, classes[v]? = some isPred := by
        rcases (classed label).sound syllable isEmitted v inSources with isClass | ⟨use, -, -, isClass⟩
        · exact ⟨_, isClass⟩
        · exact ⟨_, isClass⟩
      obtain ⟨isPred, isClass⟩ := isClass
      exact lt_of_lt_of_eq (List.getElem?_eq_some_iff.mp isClass).1 (classed label).length
  | @copied label target block copy isBlock _ edge copyMem isSrc =>
      by_cases isLatched : Latched function label target
      · exact (lowering.orderly _).src copy
          ((lowering.mem_copies_latch isVisited isLatched copy).mpr copyMem) v isSrc
      · exact (lowering.orderly _).src copy
          ((lowering.mem_copies_site isVisited copy).mpr ⟨target, isLatched, copyMem⟩) v isSrc
  | passed _ _ edge _ _ ih =>
      exact ih (mem_blockOrder_of_edge lowering.isSsa.entry isVisited edge)

/-- The phis of an edge can be lowered. -/
theorem agree_edgeCopies (isPred : pred ∈ blockOrder function) :
    Agree (edgeCopies traversal pred target) := by
  by_cases isLatched : Latched function pred target
  · intro first firstMem second secondMem
    exact (lowering.orderly _).agree
      first ((lowering.mem_copies_latch isPred isLatched first).mpr firstMem)
      second ((lowering.mem_copies_latch isPred isLatched second).mpr secondMem)
  · intro first firstMem second secondMem
    exact (lowering.orderly _).agree
      first ((lowering.mem_copies_site isPred first).mpr ⟨target, isLatched, firstMem⟩)
      second ((lowering.mem_copies_site isPred second).mpr ⟨target, isLatched, secondMem⟩)

end CallFreeLowering

end

end VliwCompiler.Isel
