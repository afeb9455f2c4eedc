import VliwCompiler.Isel.FallThrough
import VliwCompiler.Isel.CopyTable
import VliwCompiler.Isel.Collected

/-!
# Blocks without calls

An LLVM block without calls becomes one MIR block with the label of the LLVM
block, followed by the latch of its false edge when that successor was visited
before.
-/

namespace VliwCompiler.Isel

open Asm (I64)
open Mir (Block Value)
open Llvm (ValueRef Instruction)
open Worklist (Edge Successors)

/-- No instruction is a call. -/
def NoCalls (function : Llvm.Function) : Prop :=
  ∀ instruction ∈ function.instructions, isCall instruction = false

instance (function : Llvm.Function) : Decidable (NoCalls function) :=
  inferInstanceAs (Decidable (∀ instruction ∈ function.instructions, isCall instruction = false))

/-! ### Code without calls -/

section

variable {module : Llvm.Module} {memorySize : Nat} {labelAt : Llvm.BlockRef → Outcome String}
  {label : String} {selection after : Selection} {instruction : Instruction}

/-- Code without calls stays in one MIR block. -/
theorem control_of_noCalls {instructions : List Instruction}
    (noCalls : ∀ instruction ∈ instructions, isCall instruction = false)
    (lowered : instructions.foldlM (lowerInstruction module memorySize labelAt label) selection =
      .ok after) :
    after.mirBlocks = selection.mirBlocks ∧
      after.currentMirLabel = selection.currentMirLabel := by
  induction instructions generalizing selection with
  | nil =>
      cases lowered
      exact ⟨rfl, rfl⟩
  | cons instruction rest ih =>
      rw [List.foldlM_cons] at lowered
      obtain ⟨middle, first, lowered⟩ := bind_eq_ok.mp lowered
      obtain ⟨notCall, restNoCalls⟩ := List.forall_mem_cons.mp noCalls
      obtain ⟨sameBlocks, sameLabel⟩ := ih restNoCalls lowered
      rcases control_of_not_isCall notCall first with ⟨isBlocks, isLabel⟩
      exact ⟨sameBlocks.trans isBlocks, sameLabel.trans isLabel⟩

end

/-! ### The blocks of a function -/

/-- The MIR block of an LLVM block, with the latch of its false edge. -/
structure Site where
  label : String
  block : Block
  latch : List Block

def Site.blocks (site : Site) : List Block := site.block :: site.latch

/-- The latch that follows a block when its false successor is among those
visited. -/
def latchBlocks (function : Llvm.Function) (visited : List String) (label : String) : List Block :=
  match (successorsOf function label).next with
  | some target =>
      if target ∈ visited then [⟨label ++ "__latch__" ++ target, [], .jump target⟩] else []
  | none => []

section

variable (module : Llvm.Module) (memorySize : Nat) (function : Llvm.Function)

/-- The site holds the code of an LLVM block, lowered after the blocks `visited` from
the selection `before` to the selection `after`. -/
structure Site.LoweredFrom (final : Selection) (visited : List String) (site : Site)
    (block : Llvm.Block) (before after : Selection) : Prop where
  isBlock : bbOf function site.label = some block
  lowered : block.instructions.foldlM
    (lowerInstruction module memorySize (labelOf function) site.label) before = .ok after
  empty : before.syllables = []
  branchless : before.terminator = .ret
  fresh : ∀ instruction ∈ block.instructions, Unrecorded before instruction.ref
  bounded : Bounded before
  recorded : Recorded function (visited.flatMap (instructionsOf function)) before
  isSite : site.block = ⟨site.label, after.syllables, after.terminator⟩
  ends : EndsAs (successorsOf function site.label) after.terminator
  extended : Extends after final

/-- The sites of the visited blocks. -/
structure Sited (visited : List String) (selection : Selection) (sites : List Site) : Prop where
  labels : sites.map (·.label) = visited
  blocks : selection.mirBlocks = sites.flatMap Site.blocks
  latches : ∀ front site back, sites = front ++ site :: back →
    site.latch = latchBlocks function (front.map (·.label) ++ [site.label]) site.label
  made : ∀ front site back, sites = front ++ site :: back → ∃ block before after,
    site.LoweredFrom module memorySize function selection (front.map (·.label)) block before after

end

section

variable {module : Llvm.Module} {memorySize : Nat} {function : Llvm.Function}
  {traversal : Traversal} {label : String}

/-- Visited blocks have sites. -/
theorem LoopState.exists_sited (isSsa : function.IsSsa) (noCalls : NoCalls function)
    (state : LoopState module memorySize function traversal) :
    ∃ sites, Sited module memorySize function traversal.visited traversal.selection sites := by
  induction state with
  | start begun =>
      obtain ⟨entry, selection, -, bound, rfl⟩ := initialTraversal_eq_ok begun
      injection control_of_bindParams bound with noPhis noCalls noBlocks
      exact ⟨[], rfl, noBlocks, by simp, by simp⟩
  | skip _ _ _ ih => exact ih
  | @visit current after label rest before isNext isNew visited ih =>
      obtain ⟨sites, sited⟩ := ih
      obtain ⟨block, selection, isBlock, lowered, enqueued⟩ := visitBlock_eq_ok visited
      obtain ⟨blocks, isBlocks, front, last, isChunk, linked, ends⟩ :=
        isChunk_of_lowerBlock isSsa isBlock lowered
      obtain ⟨final, folded, lowered⟩ := bind_eq_ok.mp lowered
      cases lowered
      obtain ⟨node, isLabel, isNode⟩ := exists_index_of_bbOf isBlock
      have straight : ∀ instruction ∈ block.instructions, isCall instruction = false :=
        fun instruction instructionMem => noCalls instruction
          (List.mem_flatMap.mpr ⟨block, List.mem_of_getElem? isNode, instructionMem⟩)
      obtain ⟨sameBlocks, sameLabel⟩ := control_of_noCalls straight folded
      have fresh : ∀ instruction ∈ block.instructions,
          Unrecorded (current.selection.begin label) instruction.ref :=
        before.unrecorded isSsa isBlock isNew
      obtain ⟨extended, -⟩ := extends_of_foldlM (nodup_refs isSsa isNode) fresh folded
      have isOne : front = [] ∧ last = ⟨label, final.terminator⟩ := by
        have isOutline : blocks.map outline = [⟨label, final.terminator⟩] := by
          rw [Selection.finish, sameBlocks, sameLabel] at isBlocks
          rw [← List.append_cancel_left isBlocks]
          rfl
        rw [isChunk, List.append_eq_singleton_iff] at isOutline
        rcases isOutline with ⟨isNil, isLast⟩ | ⟨-, isNil⟩
        · exact ⟨isNil, by simpa using isLast⟩
        · cases isNil
      obtain ⟨-, rfl⟩ := isOne
      have latest : Extends final after.selection := by
        rw [enqueued.rest]
        exact (Extends.refl final).congr rfl rfl rfl
      refine ⟨sites ++ [⟨label, ⟨label, final.syllables, final.terminator⟩,
        latchBlocks function (current.visited ++ [label]) label⟩], ?_, ?_, ?_, ?_⟩
      · rw [List.map_append, sited.labels, enqueued.visited]
        rfl
      · rw [List.flatMap_append, ← sited.blocks, enqueued.mirBlocks, List.flatMap_singleton,
          Selection.finish, sameBlocks, sameLabel, List.append_assoc]
        rfl
      · intro front site back isSites
        rcases Worklist.append_cons_eq_snoc.mp isSites with ⟨rfl, rfl, -⟩ | ⟨rest, -, isSites⟩
        · rw [sited.labels]
        · exact sited.latches front site rest isSites
      · intro front site back isSites
        rcases Worklist.append_cons_eq_snoc.mp isSites with ⟨rfl, rfl, -⟩ | ⟨rest, -, isSites⟩
        · have bounded : Bounded (current.selection.begin label) :=
            ⟨before.bounded.vregs, before.bounded.pointers⟩
          have recorded : Recorded function (current.visited.flatMap (instructionsOf function))
              (current.selection.begin label) := before.recorded.congr rfl rfl
          rw [← sited.labels] at recorded
          exact ⟨block, current.selection.begin label, final, isBlock, folded, rfl, rfl, fresh,
            bounded, recorded, rfl, ends, latest⟩
        · obtain ⟨other, begun, middle, made⟩ := sited.made front site rest isSites
          have extended' : Extends middle (current.selection.begin label) :=
            made.extended.congr rfl rfl rfl
          exact ⟨other, begun, middle, { made with
            extended := (extended'.trans extended).trans latest }⟩

theorem exists_sited (isSsa : function.IsSsa) (noCalls : NoCalls function)
    (isSelected : selectFunction module memorySize function = .ok traversal) :
    ∃ sites, Sited module memorySize function (blockOrder function) traversal.selection sites := by
  rw [← (laidOut_of_selectFunction isSelected).2]
  exact (loopState_of_selectFunction isSsa.entry isSelected).exists_sited isSsa noCalls

end

/-! ### Places of sites -/

section

variable {module : Llvm.Module} {memorySize : Nat} {function : Llvm.Function}
  {visited : List String} {selection : Selection} {sites front back : List Site} {site : Site}
  (sited : Sited module memorySize function visited selection sites)

/-- The index of the MIR block of a site. -/
def siteIndex (front : List Site) : Nat := (front.flatMap Site.blocks).length

include sited in
theorem Sited.blocks_eq (isSites : sites = front ++ site :: back) :
    selection.mirBlocks = front.flatMap Site.blocks ++
      site.block :: (site.latch ++ back.flatMap Site.blocks) := by
  rw [sited.blocks, isSites, List.flatMap_append, List.flatMap_cons]
  rfl

include sited in
theorem Sited.getElem?_site (isSites : sites = front ++ site :: back) :
    selection.mirBlocks[siteIndex front]? = some site.block := by
  rw [sited.blocks_eq isSites, siteIndex, List.getElem?_append_right (Nat.le_refl _), Nat.sub_self]
  rfl

include sited in
theorem Sited.getElem?_next (isSites : sites = front ++ site :: back) :
    selection.mirBlocks[siteIndex front + 1]? = (site.latch ++ back.flatMap Site.blocks).head? := by
  rw [sited.blocks_eq isSites, siteIndex, List.getElem?_append_right (Nat.le_add_right _ 1),
    Nat.add_sub_cancel_left, List.getElem?_cons_succ, List.head?_eq_getElem?]

include sited in
theorem Sited.visited_eq (isSites : sites = front ++ site :: back) :
    visited = front.map (·.label) ++ site.label :: back.map (·.label) := by
  rw [← sited.labels, isSites, List.map_append, List.map_cons]

include sited in
theorem Sited.exists_site {label : String} (isVisited : label ∈ visited) :
    ∃ front site back, sites = front ++ site :: back ∧ site.label = label := by
  rw [← sited.labels] at isVisited
  obtain ⟨site, siteMem, isLabel⟩ := List.mem_map.mp isVisited
  obtain ⟨front, back, isSites⟩ := List.append_of_mem siteMem
  exact ⟨front, site, back, isSites, isLabel⟩

include sited in
theorem Sited.label_block (isSites : sites = front ++ site :: back) :
    site.block.label = site.label := by
  obtain ⟨block, before, after, made⟩ := sited.made front site back isSites
  rw [made.isSite]

end

end VliwCompiler.Isel
