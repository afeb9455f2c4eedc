import VliwCompiler.Isel.Definite
import VliwCompiler.Isel.Preservation
import VliwCompiler.Regalloc.ControlFlow

/-!
# Nothing but parameters is live at the entry

In a lowered function without calls every path from the entry defines a virtual
register before it reads it, unless the register is that of a parameter.  What is
live at the start of a block holds a value whose definition dominates the block.
-/

namespace VliwCompiler.Isel

open Asm (I64)
open Mir (Reg Value Syllable Terminator Block)
open Llvm (BlockRef ValueRef Operand Instruction)
open Liveness (Defines Exposed LiveAt Flow)
open Worklist (Dominates Edge)

/-- Every phi has a value for every edge into its block, and the entry has no phis. -/
structure PhisTotal (function : Llvm.Function) : Prop where
  entry : ∀ block, function.blocks[0]? = some block → ∀ instruction ∈ block.instructions,
    ∀ incoming, instruction.operation ≠ .phi incoming
  incoming : ∀ pred target block, Edge function.successors pred target →
    function.blocks[target]? = some block → ∀ instruction ∈ block.instructions, ∀ incoming,
      instruction.operation = .phi incoming → ∃ operand, (operand, pred) ∈ incoming

/-- A check that phis are total. -/
def checkPhisTotal (function : Llvm.Function) : Bool :=
  (function.entryInstructions.all fun instruction => (phiIncoming instruction).isNone) &&
    (List.range function.blocks.length).all fun pred =>
      ((function.successors pred).next.toList ++ (function.successors pred).later.toList).all
        fun target => (function.blocks[target]?).all fun block => block.instructions.all
          fun instruction => (phiIncoming instruction).all (·.any (·.2 = pred))

theorem phisTotal_of_check {function : Llvm.Function} (checked : checkPhisTotal function = true) :
    PhisTotal function := by
  simp only [checkPhisTotal, Bool.and_eq_true, List.all_eq_true, Option.all_eq_true,
    List.mem_range, List.any_eq_true, decide_eq_true_eq, List.mem_append, Option.mem_toList] at checked
  rcases checked with ⟨entry, edges⟩
  refine ⟨fun block isBlock instruction instructionMem incoming isPhi => ?_,
    fun pred target block edge isBlock instruction instructionMem incoming isPhi => ?_⟩
  · have noPhi := entry instruction (by
      rw [Llvm.Function.entryInstructions, isBlock]
      exact instructionMem)
    rw [phiIncoming, isPhi] at noPhi
    cases noPhi
  · have inside : pred < function.blocks.length := by
      by_contra outside
      have isNone : function.blocks[pred]? = none := List.getElem?_eq_none (Nat.le_of_not_lt outside)
      simp [Edge, Llvm.Function.successors, isNone] at edge
    rcases edges pred inside target edge block isBlock instruction instructionMem incoming
      (by rw [phiIncoming, isPhi]) with ⟨⟨operand, other⟩, incomingMem, rfl⟩
    exact ⟨operand, incomingMem⟩

/-- The register is that of a value known at a place, or the base of one. -/
def HeldAt (function : Llvm.Function) (final : Selection) (node : BlockRef)
    (front : List Instruction) (v : Nat) : Prop :=
  ∃ key, Known function node front key ∧ (final.vregMap.lookup key = some v ∨
    ∃ offset, final.gepMap.lookup key = some (.reg (.vreg v), offset))

/-! ### Blocks -/

section

variable {module : Llvm.Module} {memorySize : Nat} {function : Llvm.Function} {final : Selection}
  {visited : List String} {label : String} {node : BlockRef} {block : Llvm.Block}
  {front back : List Instruction} {current : Selection} {all : List Instruction}

/-- The code of a block reads what is held before it or defined in it, and obtains
what is held after it. -/
theorem Underway.definite (isSsa : function.IsSsa) (finalRecorded : Recorded function all final)
    (included : ∀ instruction ∈ all, instruction ∈ function.instructions)
    (underway : Underway module memorySize function final visited label node block front back
      current) (straight : ∀ instruction ∈ back, isCall instruction = false)
    (definite : Definite (HeldAt function final node []) current)
    (held : ∀ v, HeldAt function final node front v →
      Obtained (HeldAt function final node []) current v) :
    ∃ after, back.foldlM (lowerInstruction module memorySize (labelOf function) label) current =
        .ok after ∧ Definite (HeldAt function final node []) after ∧
      ∀ v, HeldAt function final node block.instructions v →
        Obtained (HeldAt function final node []) after v := by
  induction back generalizing front current with
  | nil =>
      refine ⟨current, rfl, definite, ?_⟩
      rw [underway.isInstructions, List.append_nil]
      exact held
  | cons instruction back ih =>
      rcases List.forall_mem_cons.mp straight with ⟨notCall, straight⟩
      rcases underway.step isSsa with ⟨next, lowered, underwayNext⟩
      have instructionMem : instruction ∈ block.instructions := by simp [underway.isInstructions]
      have step : Gains (HeldAt function final node []) current next ∧
          ∀ v, HeldAt function final node (front ++ [instruction]) v →
            Obtained (HeldAt function final node []) next v := by
        by_cases isPhi : ∃ incoming, instruction.operation = .phi incoming
        · rcases isPhi with ⟨incoming, isPhi⟩
          rw [lowerInstruction, isPhi] at lowered
          rcases bind_eq_ok.mp lowered with ⟨raw, -, same⟩
          cases same
          refine ⟨definite.refl.congr rfl rfl, ?_⟩
          rintro v ⟨key, known, isRecorded⟩
          rcases known.of_snoc with isOlder | ⟨rfl, -⟩
          · exact (held v ⟨key, isOlder, isRecorded⟩).congr rfl
          · exact .inl ⟨_, .phi underway.isNode instructionMem isPhi rfl, isRecorded⟩
        · simp only [not_exists] at isPhi
          have extended := underway.extended isSsa
          have supplied : ∀ operand ∈ instruction.operation.operands,
              OperandSupplied (HeldAt function final node []) current operand := by
            rintro operand isOperand key type rfl
            rcases known_of_operand isSsa underway.isNode underway.isInstructions isPhi isOperand with
              ⟨known, -⟩
            refine ⟨fun v isBound => held v ⟨key, known, .inl (extended.vregs key v isBound)⟩, ?_⟩
            intro v offset isFolded
            exact held v ⟨key, known, .inr ⟨offset, extended.geps key _ isFolded⟩⟩
          have yields := definite.yields isPhi notCall supplied lowered
          refine ⟨yields.toGains, ?_⟩
          rintro v ⟨key, known, isRecorded⟩
          rcases known.of_snoc with isOlder | ⟨rfl, -⟩
          · exact yields.grows v (held v ⟨key, isOlder, isRecorded⟩)
          · have fresh := underway.fresh instruction List.mem_cons_self
            rcases recorded_early isSsa finalRecorded included underwayNext.recorded
              (underwayNext.extended isSsa) (.inr ⟨instruction, by simp, rfl⟩)
              underwayNext.seenIncluded with ⟨wasBound, wasFolded⟩
            rcases isRecorded with isBound | ⟨offset, isFolded⟩
            · refine (yields.vreg v (wasBound v isBound)).resolve_left fun isOld => ?_
              rw [fresh.1] at isOld
              cases isOld
            · refine (yields.base v offset (wasFolded _ isFolded)).resolve_left fun isOld => ?_
              rw [fresh.2] at isOld
              cases isOld
      rcases ih underwayNext straight step.1.definite step.2 with ⟨after, rest, isDefinite, isHeld⟩
      refine ⟨after, ?_, isDefinite, isHeld⟩
      rw [List.foldlM_cons]
      exact bind_eq_ok.mpr ⟨next, lowered, rest⟩

end

/-! ### Sites -/

namespace CallFreeLowering

variable {module : Llvm.Module} {memorySize : Nat} {function : Llvm.Function}
  {traversal : Traversal} {table : CopyTable} {sites : List Site} {lowered : Mir.Function}
  {pred target : BlockRef} {label name : String} {block : Llvm.Block} {v : Nat}
  (lowering : CallFreeLowering module memorySize function traversal table sites lowered)

include lowering

theorem recorded : Recorded function (loweredInstructions function) traversal.selection := by
  have loop := loopState_of_selectFunction lowering.isSsa.entry lowering.isSelected
  have recorded := loop.recorded
  rwa [lowering.selected.visited] at recorded

/-- The code of a site reads what is held before it or defined in it. -/
theorem definite_site (noCalls : NoCalls function) {front back : List Site} {site : Site}
    (isSites : sites = front ++ site :: back)
    (isLabel : (blockLabels function)[pred]? = some site.label) :
    ∃ block, function.blocks[pred]? = some block ∧
      Covered (HeldAt function traversal.selection pred []) site.block.syllables ∧
      (∀ v, site.block.terminator.condVreg = some v →
        HeldAt function traversal.selection pred [] v ∨ Defines site.block.syllables v) ∧
      ∀ v, HeldAt function traversal.selection pred block.instructions v →
        HeldAt function traversal.selection pred [] v ∨ Defines site.block.syllables v := by
  rcases lowering.exists_underway isSites isLabel with ⟨block, before, after, underway, made⟩
  have straight : ∀ instruction ∈ block.instructions, isCall instruction = false :=
    fun instruction instructionMem =>
      noCalls instruction (included_block underway.isNode instruction instructionMem)
  have begun : Definite (HeldAt function traversal.selection pred []) before := by
    refine ⟨?_, fun v isCond => ?_⟩
    · rw [made.empty]
      exact covered_nil _
    · rw [made.branchless] at isCond
      cases isCond
  rcases underway.definite lowering.isSsa lowering.recorded (fun _ => mem_of_lowered) straight begun
    (fun v isHeld => .inl isHeld) with ⟨other, isAfter, definite, held⟩
  cases isAfter.symm.trans made.lowered
  refine ⟨block, underway.isNode, ?_⟩
  rw [made.isSite]
  exact ⟨definite.code, definite.cond, held⟩

/-- The sources of copies are held at the end of their edge's source. -/
theorem held_of_source (isLabel : (blockLabels function)[pred]? = some label)
    (isPred : function.blocks[pred]? = some block) {copy : PhiCopy}
    (copyMem : copy ∈ edgeCopies traversal label name) (isSrc : copy.src = .vreg v) :
    HeldAt function traversal.selection pred block.instructions v := by
  rcases mem_edgeCopies.mp copyMem with ⟨phi, phiMem, -, value, valueMem, rfl, -, isCopy⟩
  rcases lowering.phisCollected.known phiMem with ⟨-, instruction, instructionMem, phiOf⟩
  rcases phiOf.isRaw with ⟨incoming, isPhi, isRaw⟩
  rcases exists_incoming isRaw valueMem with ⟨operand, other, incomingMem, isOther, isValue⟩
  obtain rfl := Isel.index_unique lowering.distinct.blocks isOther isLabel
  rw [isValue, isSrc] at isCopy
  cases operand with
  | ref key type =>
      rcases bind_eq_ok.mp isCopy with ⟨w, found, same⟩
      cases same
      have known := known_of_incoming lowering.isSsa isPred (mem_instructions instructionMem) isPhi
        incomingMem
      exact ⟨key, known.1, .inl (expect_eq_ok.mp found)⟩
  | constInt bits value => cases isCopy
  | constAddress bits value => cases isCopy
  | constCast => cases isCopy
  | const type => cases isCopy

/-- What is held at the start of a block is held at the end of its predecessors or
brought by the phis. -/
theorem held_before (total : PhisTotal function)
    (isLabel : (blockLabels function)[pred]? = some label)
    (isName : (blockLabels function)[target]? = some name) (isVisited : name ∈ blockOrder function)
    (isPred : function.blocks[pred]? = some block) (edge : Edge function.successors pred target)
    (held : HeldAt function traversal.selection target [] v) :
    HeldAt function traversal.selection pred block.instructions v ∨
      ∃ copy ∈ edgeCopies traversal label name, copy.dst = v := by
  rcases held with ⟨key, known, isRecorded⟩
  rcases exists_block isName with ⟨targetBlock, isTarget⟩
  by_cases isPhi : ∃ instruction ∈ targetBlock.instructions, (∃ incoming,
      instruction.operation = .phi incoming) ∧ instruction.ref = key
  · right
    rcases isPhi with ⟨instruction, instructionMem, ⟨incoming, isPhi⟩, rfl⟩
    rcases total.incoming pred target targetBlock edge isTarget instruction instructionMem incoming
      isPhi with ⟨operand, incomingMem⟩
    have inBlock : instruction ∈ instructionsOf function name := by
      rwa [instructionsOf_eq (bbOf_eq_some lowering.distinct.blocks isName isTarget)]
    rcases lowering.exists_copy isLabel isVisited inBlock isPhi incomingMem with
      ⟨copy, copyMem, isBound, -⟩
    refine ⟨copy, copyMem, ?_⟩
    rcases isRecorded with isOther | ⟨offset, isFolded⟩
    · exact Option.some.inj (isBound.symm.trans isOther)
    · rw [notFolded_of_bound lowering.isSsa lowering.recorded (fun _ => mem_of_lowered) isBound]
        at isFolded
      cases isFolded
  · left
    refine ⟨key, known_before isPred edge known ?_, isRecorded⟩
    intro other isOther instruction instructionMem incoming isOperation isKey
    obtain rfl := Option.some.inj (isOther.symm.trans isTarget)
    exact isPhi ⟨instruction, instructionMem, ⟨incoming, isOperation⟩, isKey⟩

/-- A lowered block reads, after its own code, the sources of its copies. -/
theorem exists_covered {idx : Nat} {block : Block}
    (isBlock : traversal.selection.mirBlocks[idx]? = some block) :
    ∃ code, lowered.blocks[idx]? = some { block with syllables := block.syllables ++ code } ∧
      Covered (IsSource (table.copies block.label)) code ∧
      ∀ copy ∈ table.copies block.label, copy.src = .vreg copy.dst ∨ Defines code copy.dst := by
  rcases lowering.code idx block isBlock with
    ⟨code, isLowered, ⟨rfl, noCopies⟩ | ⟨nextVreg, next, -, serialized⟩⟩
  · refine ⟨[], isLowered, covered_nil _, ?_⟩
    simp [noCopies]
  · exact ⟨code, isLowered, covered_of_serializeParallelCopies serialized⟩

/-! ### Control flow -/

/-- A label denotes the block of its site. -/
theorem site_of_denotes {s : Nat} (isVisited : name ∈ blockOrder function)
    (denotes : Liveness.Denotes lowered name s) :
    ∃ front site back, sites = front ++ site :: back ∧ s = siteIndex front ∧ site.label = name := by
  rcases lowering.sited.exists_site isVisited with ⟨front, site, back, isSites, rfl⟩
  refine ⟨front, site, back, isSites, ?_, rfl⟩
  rcases Option.map_eq_some_iff.mp denotes.block with ⟨found, isFound, isLabel⟩
  have inside : s < traversal.selection.mirBlocks.length := by
    rw [← lowering.length]
    exact (List.getElem?_eq_some_iff.mp isFound).1
  have isBlock := List.getElem?_eq_getElem inside
  rcases lowering.code s _ isBlock with ⟨code, isLowered, -⟩
  apply lowering.index_unique isBlock (lowering.sited.getElem?_site isSites)
  rw [lowering.sited.label_block isSites, ← isLabel]
  cases isLowered.symm.trans isFound
  rfl

/-- Where control goes from the block of a site. -/
theorem flow_site {front back : List Site} {site : Site} {s : Nat}
    (isSites : sites = front ++ site :: back) (flow : Flow lowered (siteIndex front) s) :
    (∃ target, Latched function site.label target ∧ s = siteIndex front + 1) ∨
      ∃ front' next back', sites = front' ++ next :: back' ∧ s = siteIndex front' ∧
        Edge (successorsOf function) site.label next.label ∧
        (¬Latched function site.label next.label ∨
          (successorsOf function site.label).later = some next.label) := by
  have isBlock := lowering.sited.getElem?_site isSites
  have isVisited : site.label ∈ blockOrder function := by
    rw [lowering.sited.visited_eq isSites]
    simp
  rcases lowering.code _ _ isBlock with ⟨code, isLowered, -⟩
  have ends := lowering.endsAs isSites
  have same : ∀ {other : Block}, lowered.blocks[siteIndex front]? = some other →
      other.terminator = site.block.terminator := by
    intro other isOther
    cases isOther.symm.trans isLowered
    rfl
  have isTrue : ∀ {name : String}, (successorsOf function site.label).later = some name →
      Liveness.Denotes lowered name s → ∃ front' next back', sites = front' ++ next :: back' ∧
        s = siteIndex front' ∧ Edge (successorsOf function) site.label next.label ∧
        (¬Latched function site.label next.label ∨
          (successorsOf function site.label).later = some next.label) := by
    intro name isLater denotes
    have edge : Edge (successorsOf function) site.label name := .inr isLater
    rcases lowering.site_of_denotes
      (mem_blockOrder_of_edge lowering.isSsa.entry isVisited edge) denotes with
      ⟨front', next, back', isNext, isIndex, rfl⟩
    exact ⟨front', next, back', isNext, isIndex, edge, .inr isLater⟩
  unfold EndsAs at ends
  cases flow with
  | taken found isBranch denotes =>
      rw [same found] at isBranch
      split at ends
      · rename_i isSuccessors
        rcases ends with ⟨cond, isTerminator⟩
        cases isTerminator.symm.trans isBranch
        exact .inr (isTrue (by rw [isSuccessors]) denotes)
      · cases ends.symm.trans isBranch
      · cases ends.symm.trans isBranch
  | fallThrough found isBranch isNext inside =>
      rw [same found] at isBranch
      split at ends
      · rename_i falseLabel trueLabel isSuccessors
        have isFalse : (successorsOf function site.label).next = some falseLabel := by
          rw [isSuccessors]
        rcases lowering.latch_eq isSites isFalse with
          ⟨isLatched, -⟩ | ⟨notLatched, isLatch, next, rest, isBack, rfl⟩
        · exact .inl ⟨falseLabel, isLatched, isNext⟩
        · refine .inr ⟨front ++ [site], next, rest, ?_, ?_, .inl isFalse, .inl notLatched⟩
          · rw [isSites, isBack, List.append_assoc]
            rfl
          · rw [isNext, siteIndex, siteIndex, List.flatMap_append, List.length_append,
              List.flatMap_singleton, Site.blocks, isLatch]
            rfl
      · cases ends.symm.trans isBranch
      · cases ends.symm.trans isBranch
  | jump found isJump denotes =>
      rw [same found] at isJump
      split at ends
      · rcases ends with ⟨cond, isTerminator⟩
        cases isTerminator.symm.trans isJump
      · rename_i isSuccessors
        cases ends.symm.trans isJump
        exact .inr (isTrue (by rw [isSuccessors]) denotes)
      · cases ends.symm.trans isJump
  | continuation found isCall denotes =>
      rw [same found] at isCall
      exact absurd isCall (lowering.not_call (List.mem_of_getElem? isBlock) _ _)

/-- A latch leads to the target of its edge. -/
theorem flow_latch {front back : List Site} {site : Site} {s : Nat}
    (isSites : sites = front ++ site :: back) (isLatched : Latched function site.label name)
    (flow : Flow lowered (siteIndex front + 1) s) :
    ∃ front' next back', sites = front' ++ next :: back' ∧ s = siteIndex front' ∧
      next.label = name := by
  rcases lowering.code _ _ (lowering.getElem?_latch isSites isLatched) with ⟨code, isLowered, -⟩
  have isVisited : site.label ∈ blockOrder function := by
    rw [lowering.sited.visited_eq isSites]
    simp
  have isTarget := mem_blockOrder_of_edge lowering.isSsa.entry isVisited (.inl isLatched.1)
  have same : ∀ {other : Block}, lowered.blocks[siteIndex front + 1]? = some other →
      other.terminator = .jump name := by
    intro other isOther
    cases isOther.symm.trans isLowered
    rfl
  cases flow with
  | jump found isJump denotes =>
      cases (same found).symm.trans isJump
      exact lowering.site_of_denotes isTarget denotes
  | taken found isOther => cases (same found).symm.trans isOther
  | fallThrough found isOther => cases (same found).symm.trans isOther
  | continuation found isOther => cases (same found).symm.trans isOther

/-! ### Live registers -/

/-- Live registers at the start of a site are held there, those at the start of a
latch at the end of its source. -/
structure LiveHeld (function : Llvm.Function) (traversal : Traversal) (sites : List Site)
    (v i : Nat) : Prop where
  site : ∀ front site back, sites = front ++ site :: back → i = siteIndex front → ∀ node,
    (blockLabels function)[node]? = some site.label →
      HeldAt function traversal.selection node [] v
  latch : ∀ front site back target, sites = front ++ site :: back → i = siteIndex front + 1 →
    Latched function site.label target → ∀ node block,
      (blockLabels function)[node]? = some site.label → function.blocks[node]? = some block →
        HeldAt function traversal.selection node block.instructions v

/-- The lowered block of a site reads what is held before it or defined in it. -/
theorem covered_site (noCalls : NoCalls function) {front back : List Site} {site : Site}
    (isSites : sites = front ++ site :: back)
    (isLabel : (blockLabels function)[pred]? = some site.label) :
    ∃ block code, function.blocks[pred]? = some block ∧
      lowered.blocks[siteIndex front]? = some { site.block with syllables := code } ∧
      Covered (HeldAt function traversal.selection pred []) code ∧
      (∀ v, site.block.terminator.condVreg = some v →
        HeldAt function traversal.selection pred [] v ∨ Defines code v) ∧
      (∀ v, HeldAt function traversal.selection pred block.instructions v →
        HeldAt function traversal.selection pred [] v ∨ Defines code v) ∧
      ∀ copy ∈ table.copies site.label, copy.src = .vreg copy.dst ∨ Defines code copy.dst := by
  have isVisited : site.label ∈ blockOrder function := by
    rw [lowering.sited.visited_eq isSites]
    simp
  rcases lowering.definite_site noCalls isSites isLabel with ⟨block, isBlock, covered, cond, held⟩
  rcases lowering.exists_covered (lowering.sited.getElem?_site isSites) with
    ⟨code, isLowered, copied, written⟩
  rw [lowering.sited.label_block isSites] at copied written
  have early : ∀ {v}, Defines site.block.syllables v → Defines (site.block.syllables ++ code) v :=
    fun defines => defines_append.mpr (.inl defines)
  refine ⟨block, site.block.syllables ++ code, isBlock, isLowered, covered.append ?_, ?_, ?_, ?_⟩
  · apply copied.mono
    rintro v ⟨copy, copyMem, isSrc⟩
    rcases (lowering.mem_copies_site isVisited copy).mp copyMem with ⟨target, -, inEdge⟩
    exact held v (lowering.held_of_source isLabel isBlock inEdge isSrc)
  · exact fun v isCond => (cond v isCond).imp_right early
  · exact fun v isHeld => (held v isHeld).imp_right early
  · exact fun copy copyMem => (written copy copyMem).imp_right fun defines =>
      defines_append.mpr (.inr defines)

section

variable (noCalls : NoCalls function) (total : PhisTotal function)
  (oneWay : ∀ pred target, pred ∈ blockOrder function → Latched function pred target →
    (successorsOf function pred).later = some target → edgeCopies traversal pred target = [])

include noCalls

theorem held_of_exposed {i : Nat} {block : Block} (found : lowered.blocks[i]? = some block)
    (exposed : Exposed block.terminator v block.syllables) :
    LiveHeld function traversal sites v i := by
  refine ⟨?_, ?_⟩
  · rintro front site back isSites rfl node isLabel
    rcases lowering.covered_site noCalls isSites isLabel with
      ⟨source, code, -, isLowered, covered, cond, -⟩
    cases isLowered.symm.trans found
    exact covered.available_of_exposed cond exposed
  · rintro front site back target isSites rfl isLatched node source isLabel isSource
    have isVisited : site.label ∈ blockOrder function := by
      rw [lowering.sited.visited_eq isSites]
      simp
    rcases lowering.exists_covered (lowering.getElem?_latch isSites isLatched) with
      ⟨code, isLowered, covered, -⟩
    cases isLowered.symm.trans found
    rcases covered.available_of_exposed (by rintro w ⟨⟩) exposed with ⟨copy, copyMem, isSrc⟩
    exact lowering.held_of_source isLabel isSource
      ((lowering.mem_copies_latch isVisited isLatched copy).mp copyMem) isSrc

include total oneWay

/-- One step against the direction of control. -/
theorem held_of_flow {i s : Nat} {block : Block} (found : lowered.blocks[i]? = some block)
    (kept : ¬Defines block.syllables v) (flow : Flow lowered i s)
    (after : LiveHeld function traversal sites v s) : LiveHeld function traversal sites v i := by
  refine ⟨?_, ?_⟩
  · rintro front site back isSites rfl node isLabel
    have isVisited : site.label ∈ blockOrder function := by
      rw [lowering.sited.visited_eq isSites]
      simp
    rcases lowering.covered_site noCalls isSites isLabel with
      ⟨source, code, isSource, isLowered, -, -, held, written⟩
    cases isLowered.symm.trans found
    have atEnd : HeldAt function traversal.selection node source.instructions v →
        HeldAt function traversal.selection node [] v :=
      fun isHeld => (held v isHeld).resolve_right kept
    rcases lowering.flow_site isSites flow with
      ⟨target, isLatched, isNext⟩ | ⟨front', next, back', isNext, isIndex, edge, isDirect⟩
    · exact atEnd (after.latch front site back target isSites isNext isLatched node source isLabel
        isSource)
    · rcases exists_index_of_edge lowering.isSsa
        (found_of_nodup lowering.distinct.blocks isLabel) edge with
        ⟨target, isEdge, isName⟩
      have atNext := after.site front' next back' isNext isIndex target isName
      rcases lowering.held_before total isLabel isName
        (mem_blockOrder_of_edge lowering.isSsa.entry isVisited edge) isSource isEdge atNext with
        isHeld | ⟨copy, copyMem, rfl⟩
      · exact atEnd isHeld
      · have notLatched : ¬Latched function site.label next.label := by
          intro isLatched
          rw [oneWay _ _ isVisited isLatched (isDirect.resolve_left (not_not_intro isLatched))]
            at copyMem
          cases copyMem
        rcases written copy ((lowering.mem_copies_site isVisited copy).mpr
          ⟨next.label, notLatched, copyMem⟩) with isSelf | defines
        · exact atEnd (lowering.held_of_source isLabel isSource copyMem isSelf)
        · exact absurd defines kept
  · rintro front site back target isSites rfl isLatched node source isLabel isSource
    have isVisited : site.label ∈ blockOrder function := by
      rw [lowering.sited.visited_eq isSites]
      simp
    rcases lowering.exists_covered (lowering.getElem?_latch isSites isLatched) with
      ⟨code, isLowered, -, written⟩
    cases isLowered.symm.trans found
    rcases lowering.flow_latch isSites isLatched flow with
      ⟨front', next, back', isNext, isIndex, rfl⟩
    have edge : Edge (successorsOf function) site.label next.label := .inl isLatched.1
    rcases exists_index_of_edge lowering.isSsa
        (found_of_nodup lowering.distinct.blocks isLabel) edge with
      ⟨target, isEdge, isName⟩
    have atNext := after.site front' next back' isNext isIndex target isName
    rcases lowering.held_before total isLabel isName
      (mem_blockOrder_of_edge lowering.isSsa.entry isVisited edge) isSource isEdge atNext with
      isHeld | ⟨copy, copyMem, rfl⟩
    · exact isHeld
    · rcases written copy ((lowering.mem_copies_latch isVisited isLatched copy).mpr copyMem) with
        isSelf | defines
      · exact lowering.held_of_source isLabel isSource copyMem isSelf
      · exact absurd defines kept

theorem liveHeld {i : Nat} (live : LiveAt lowered v i) : LiveHeld function traversal sites v i := by
  induction live with
  | use found exposed => exact lowering.held_of_exposed noCalls found exposed
  | through found kept succ _ ih =>
      exact lowering.held_of_flow noCalls total oneWay found kept
        ((Liveness.mem_successors found).mp succ) ih

/-- A register that is live at the entry is that of a parameter. -/
theorem param_of_liveAt (live : LiveAt lowered v 0) : v < function.params.length := by
  rcases exists_label (List.length_pos_of_ne_nil lowering.isSsa.entry) with ⟨entry, isEntry⟩
  rcases blockOrder_head isEntry with ⟨rest, isOrder⟩
  rcases List.map_eq_cons_iff.mp (lowering.sited.labels.trans isOrder) with
    ⟨site, back, isSites, rfl, -⟩
  rcases (lowering.liveHeld noCalls total oneWay live).site [] site back isSites rfl 0 isEntry with
    ⟨key, known, isRecorded⟩
  cases known with
  | param isParam =>
      have loop := loopState_of_selectFunction lowering.isSsa.entry lowering.isSelected
      rcases isRecorded with isBound | ⟨offset, isFolded⟩
      · rcases loop.param_of_bound lowering.isSsa isParam isBound with ⟨param, isArgument, -⟩
        exact (List.getElem?_eq_some_iff.mp isArgument).1
      · rcases lowering.recorded.exists_folds isFolded with ⟨folded, foldedMem, -, rfl⟩
        exact absurd isParam (ref_ne_param lowering.isSsa (mem_of_lowered foldedMem))
  | above differ dominates isBlock defines =>
      have onPath := dominates [0] .start
      exact absurd (List.mem_singleton.mp onPath) differ
  | phi isBlock instructionMem isPhi isKey =>
      exact absurd isPhi (total.entry _ isBlock _ instructionMem _)
  | earlier defines =>
      rcases defines with ⟨definition, definitionMem, -⟩
      cases definitionMem

end

end CallFreeLowering

/-- On every path from the entry of a lowered function without calls, a virtual
register other than that of a parameter is defined before it is read. -/
theorem param_of_liveAt_entry {order : CopyOrder} {module : Llvm.Module} {memorySize : Nat}
    {function : Llvm.Function} {traversal : Traversal} {lowered : Mir.Function}
    (isSsa : function.IsSsa) (wellFormed : WellFormed function)
    (distinct : LabelsDistinct function) (noCalls : NoCalls function) (total : PhisTotal function)
    (isSelected : selectFunction module memorySize function = .ok traversal)
    (isLowered : lowerFunction order module memorySize function = .ok lowered)
    (oneWay : ∀ pred target, pred ∈ blockOrder function → Latched function pred target →
      (successorsOf function pred).later = some target → edgeCopies traversal pred target = [])
    {v : Nat} (live : LiveAt lowered v 0) : v < function.params.length := by
  rcases exists_callFreeLowering isSsa wellFormed distinct noCalls isSelected isLowered with
    ⟨table, sites, lowering⟩
  exact lowering.param_of_liveAt noCalls total oneWay live

/-- The pointer to the array is read in the entry block. -/
theorem param_of_liveAt_entry_accumulate :
    ∃ lowered, lowerFunction insertionOrder [accumulate] 65536 accumulate = .ok lowered ∧
      LiveAt lowered 0 0 ∧ ∀ v, LiveAt lowered v 0 → v < 2 := by
  have selects : (selectFunction [accumulate] 65536 accumulate).map
      (fun traversal => decide (EdgeCertificate accumulate traversal accumulateLive)) =
        .ok true := by decide +kernel
  have lowers : (lowerFunction insertionOrder [accumulate] 65536 accumulate).map
      (fun lowered => (lowered.blocks.head?.bind (·.syllables.head?)).map (·.sourceVregs)) =
        .ok (some [0]) := by decide +kernel
  rcases map_eq_ok.mp selects with ⟨traversal, isSelected, certified⟩
  rcases map_eq_ok.mp lowers with ⟨lowered, isLowered, reads⟩
  have apart := EdgesApart.of_certificate isSelected (by decide) (of_decide_eq_true certified)
  refine ⟨lowered, isLowered, ?_, fun v live => ?_⟩
  · rcases Option.map_eq_some_iff.mp reads with ⟨syllable, isFirst, isSources⟩
    rcases Option.bind_eq_some_iff.mp isFirst with ⟨block, isBlock, isFirst⟩
    rcases List.head?_eq_some_iff.mp isFirst with ⟨rest, isCode⟩
    rw [List.head?_eq_getElem?] at isBlock
    refine .use isBlock ?_
    rw [isCode]
    exact .inl (by simp [isSources])
  · exact param_of_liveAt_entry (Llvm.Function.isSsa_of_checkSsa (by decide +kernel))
      wellFormed_accumulate ⟨by decide +kernel, by decide +kernel, by decide +kernel⟩
      (by decide +kernel) (phisTotal_of_check (by decide +kernel)) isSelected isLowered
      apart.oneWay live

end VliwCompiler.Isel
