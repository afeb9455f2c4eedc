import VliwCompiler.Isel.EdgeCode
import VliwCompiler.Machine.LockStep

/-!
# Lowered phis

A lowered function without calls does what its blocks do with the phis on their
edges.  The copies that the source of an edge executes may reach other registers
as well, those of the phis of another edge; they are harmless when the edges are
apart.
-/

namespace VliwCompiler.Isel

open Asm (Opcode Copies)
open Mir (Reg Syllable Terminator Block BlockId Config blockAt execSyllables jumpTarget
  fallThrough returnBlock follow)
open Machine
open Worklist (Edge Successors)

/-! ### What can be seen -/

/-- What can be seen between two blocks: the label of the next one, the needed
registers, and everything else but registers. -/
structure View where
  label : Option String
  vreg : Nat → Option Word
  preg : UInt8 → Word
  pred : Reg → Bool
  mem : Memory

section

variable (function : Llvm.Function) (traversal : Traversal)

open Classical in
noncomputable def view (label : Option String) (state : State Reg) : View where
  label := label
  vreg v :=
    if ∃ name, label = some name ∧ NeededAt function traversal v name then
      some (state.gpr (.vreg v))
    else none
  preg n := state.gpr (.preg n)
  pred := state.pred
  mem := state.mem

noncomputable def edgeView (config : EdgeConfig) : View :=
  view function traversal config.label config.state

/-- A lowered function shows its state where it begins the code of an LLVM block
and where it has returned.  Latches show nothing. -/
noncomputable def blockView (functions : List Mir.Function) (config : Config) : Option View :=
  match config.block with
  | none => some (view function traversal none config.state)
  | some id =>
      (blockAt functions id).bind fun block =>
        if block.label ∈ blockOrder function then
          some (view function traversal (some block.label) config.state)
        else none

/-- States that agree on needed registers look the same. -/
theorem view_congr {label : Option String} {state state' : State Reg}
    (same : SameOn (fun v => ∃ name, label = some name ∧ NeededAt function traversal v name)
      state state') : view function traversal label state' = view function traversal label state := by
  unfold view
  congr 1
  · funext v
    split
    · rename_i needed
      rw [same.vreg v needed]
    · rfl
  · funext n
    exact same.preg n
  · exact same.pred
  · exact same.mem

end

/-! ### Executing copies -/

section

variable {copies : List PhiCopy} {nextVreg : Nat} {needed : Nat → Prop}
  {state state' final : State Reg}

/-- Executed copies bring the values of an edge when they include those of the
edge and no other copy reaches a needed register. -/
theorem SameOn.assigned {own : List PhiCopy} (same : SameOn needed state state')
    (assigned : Assigned copies nextVreg state' final) (agree : Agree own)
    {after : Nat → Prop} (bounded : ∀ v, after v → v < nextVreg)
    (included : ∀ copy ∈ own, copy ∈ copies)
    (sources : ∀ copy ∈ own, ∀ v, copy.src = .vreg v → needed v)
    (others : ∀ v, after v → (∀ copy ∈ own, copy.dst ≠ v) →
      needed v ∧ ∀ copy ∈ copies, copy.dst ≠ v) :
    SameOn after (assign own state) final := by
  refine ⟨fun v isAfter => ?_, fun n => ?_, ?_, ?_⟩
  · by_cases isOwn : ∃ copy ∈ own, copy.dst = v
    · obtain ⟨copy, copyMem, rfl⟩ := isOwn
      rw [assign_dst agree copyMem, assigned.dst copy (included copy copyMem)]
      cases isSrc : copy.src with
      | const value => rfl
      | vreg src => exact same.vreg src (sources copy copyMem src isSrc)
    · have other : ∀ copy ∈ own, copy.dst ≠ v := by simpa using isOwn
      obtain ⟨isNeeded, apart⟩ := others v isAfter other
      rw [assign_other other, assigned.other v (bounded v isAfter) apart, same.vreg v isNeeded]
  · rw [assign_preg, assigned.fixed, same.preg]
  · exact assigned.pred.trans same.pred
  · exact assigned.mem.trans same.mem

theorem assign_nil : assign [] state = state := rfl

/-- Executed copies keep a register that none of them reaches. -/
theorem SameOn.spared (same : SameOn needed state state')
    (assigned : Assigned copies nextVreg state' final) (bounded : ∀ v, needed v → v < nextVreg)
    (apart : ∀ copy ∈ copies, ¬needed copy.dst) : SameOn needed state final := by
  rw [← @assign_nil state]
  refine same.assigned assigned ?_ bounded ?_ ?_ ?_
  · simp [Agree]
  · simp
  · simp
  · intro v isNeeded _
    refine ⟨isNeeded, fun copy copyMem isDst => apart copy copyMem ?_⟩
    rw [isDst]
    exact isNeeded

end

/-! ### Edges -/

/-- The ways out of a block. -/
theorem nextLabel_cases {function : Llvm.Function} {label : String} (state : State Reg)
    {terminator : Terminator} (ends : EndsAs (successorsOf function label) terminator) :
    (∃ target, nextLabel function label state terminator = some (some target) ∧
      (successorsOf function label).later = some target ∧
        (terminator = .jump target ∨
          ∃ cond, terminator = .branch cond target ∧ state.pred cond = true)) ∨
      (∃ target cond other, nextLabel function label state terminator = some (some target) ∧
        (successorsOf function label).next = some target ∧ terminator = .branch cond other ∧
          state.pred cond = false) ∨
      (nextLabel function label state terminator = some none ∧ terminator = .ret) := by
  unfold EndsAs at ends
  split at ends
  · rename_i falseLabel trueLabel isSuccessors
    obtain ⟨cond, rfl⟩ := ends
    cases chosen : state.pred cond with
    | true =>
        refine .inl ⟨trueLabel, ?_, by rw [isSuccessors], .inr ⟨cond, rfl, chosen⟩⟩
        exact if_pos chosen
    | false =>
        refine .inr (.inl ⟨falseLabel, cond, trueLabel, ?_, by rw [isSuccessors], rfl, chosen⟩)
        rw [nextLabel, isSuccessors, chosen]
        rfl
  · rename_i target isSuccessors
    subst ends
    exact .inl ⟨target, rfl, by rw [isSuccessors], .inl rfl⟩
  · subst ends
    exact .inr (.inr ⟨rfl, rfl⟩)

namespace CallFreeLowering

variable {module : Llvm.Module} {memorySize : Nat} {function : Llvm.Function}
  {traversal : Traversal} {table : CopyTable} {sites : List Site} {lowered : Mir.Function}
  {label target : String} {state state' middle middle' final : State Reg} {isa : Isa Opcode}
  (lowering : CallFreeLowering module memorySize function traversal table sites lowered)
  (apart : EdgesApart function traversal)

/-- The register is needed on some edge that leaves the block. -/
def NeededAfter (function : Llvm.Function) (traversal : Traversal) (label : String) (v : Nat) :
    Prop :=
  ∃ target, Edge (successorsOf function) label target ∧ NeededOn function traversal label target v

include lowering

theorem lt_of_neededOn (isVisited : label ∈ blockOrder function)
    (edge : Edge (successorsOf function) label target) {v : Nat}
    (needed : NeededOn function traversal label target v) : v < traversal.selection.nextVreg := by
  rcases needed with ⟨copy, copyMem, isSrc⟩ | ⟨needed, -⟩
  · by_cases isLatched : Latched function label target
    · exact (lowering.orderly _).src copy
        ((lowering.mem_copies_latch isVisited isLatched copy).mpr copyMem) v isSrc
    · exact (lowering.orderly _).src copy
        ((lowering.mem_copies_site isVisited copy).mpr ⟨target, isLatched, copyMem⟩) v isSrc
  · exact lowering.lt_of_needed (mem_blockOrder_of_edge lowering.isSsa.entry isVisited edge) needed

/-- The code of a block keeps what is needed after it in agreement. -/
theorem same_after {front back : List Site} {site : Site} (isSites : sites = front ++ site :: back)
    (same : SameOn (NeededAt function traversal · site.label) state state')
    (executed : execSyllables isa site.block.syllables state = some middle) :
    ∃ middle', execSyllables isa site.block.syllables state' = some middle' ∧
      SameOn (NeededAfter function traversal site.label) middle middle' := by
  refine SameOn.execSyllables isa (same.mono ?_) executed
  have isBlock := lowering.siteBlock_eq isSites
  rintro v (reads | ⟨kept, target, edge, needed⟩)
  · exact .read isBlock reads
  · exact needed_of_neededOn isBlock kept edge needed

include apart

/-- An edge without a latch. -/
theorem same_direct (isVisited : label ∈ blockOrder function)
    (edge : Edge (successorsOf function) label target) (notLatched : ¬Latched function label target)
    (same : SameOn (NeededAfter function traversal label) middle middle')
    (assigned : Assigned (table.copies label) traversal.selection.nextVreg middle' final) :
    SameOn (NeededAt function traversal · target)
      (assign (edgeCopies traversal label target) middle) final := by
  refine same.assigned assigned (lowering.agree_edgeCopies isVisited) ?_ ?_ ?_ ?_
  · intro v needed
    exact lowering.lt_of_needed (mem_blockOrder_of_edge lowering.isSsa.entry isVisited edge) needed
  · intro copy copyMem
    exact (lowering.mem_copies_site isVisited copy).mpr ⟨target, notLatched, copyMem⟩
  · intro copy copyMem v isSrc
    exact ⟨target, edge, .inl ⟨copy, copyMem, isSrc⟩⟩
  · intro v needed other
    refine ⟨⟨target, edge, .inr ⟨needed, other⟩⟩, fun copy copyMem isDst => ?_⟩
    obtain ⟨otherTarget, otherNotLatched, inEdge⟩ :=
      (lowering.mem_copies_site isVisited copy).mp copyMem
    obtain ⟨own, ownMem, isOwn⟩ := apart.direct label target otherTarget isVisited edge notLatched
      otherNotLatched copy inEdge (isDst ▸ needed)
    exact other own ownMem (isOwn.trans isDst)

/-- The copies that the source of a latch executes for its other edge are
harmless. -/
theorem same_spared (isVisited : label ∈ blockOrder function)
    (edge : Edge (successorsOf function) label target) (isLatched : Latched function label target)
    (same : SameOn (NeededAfter function traversal label) middle middle')
    (assigned : Assigned (table.copies label) traversal.selection.nextVreg middle' final) :
    SameOn (NeededOn function traversal label target) middle final := by
  refine (same.mono fun v needed => ⟨target, edge, needed⟩).spared assigned ?_ ?_
  · exact fun v needed => lowering.lt_of_neededOn isVisited edge needed
  · intro copy copyMem
    obtain ⟨other, notLatched, inEdge⟩ := (lowering.mem_copies_site isVisited copy).mp copyMem
    exact apart.latched label target other isVisited isLatched notLatched copy inEdge

omit apart in
/-- The copies of a latch. -/
theorem same_latch (isVisited : label ∈ blockOrder function)
    (edge : Edge (successorsOf function) label target) (isLatched : Latched function label target)
    (same : SameOn (NeededOn function traversal label target) middle middle')
    (assigned : Assigned (table.copies (label ++ "__latch__" ++ target))
      traversal.selection.nextVreg middle' final) :
    SameOn (NeededAt function traversal · target)
      (assign (edgeCopies traversal label target) middle) final := by
  refine same.assigned assigned (lowering.agree_edgeCopies isVisited) ?_ ?_ ?_ ?_
  · intro v needed
    exact lowering.lt_of_needed (mem_blockOrder_of_edge lowering.isSsa.entry isVisited edge) needed
  · intro copy copyMem
    exact (lowering.mem_copies_latch isVisited isLatched copy).mpr copyMem
  · intro copy copyMem v isSrc
    exact .inl ⟨copy, copyMem, isSrc⟩
  · intro v needed other
    refine ⟨.inr ⟨needed, other⟩, fun copy copyMem => ?_⟩
    exact other copy ((lowering.mem_copies_latch isVisited isLatched copy).mp copyMem)

/-- A true edge, also when the false edge to the same block has a latch. -/
theorem same_jump (isVisited : label ∈ blockOrder function)
    (isLater : (successorsOf function label).later = some target)
    (same : SameOn (NeededAfter function traversal label) middle middle')
    (assigned : Assigned (table.copies label) traversal.selection.nextVreg middle' final) :
    SameOn (NeededAt function traversal · target)
      (assign (edgeCopies traversal label target) middle) final := by
  by_cases isLatched : Latched function label target
  · have noCopies := apart.oneWay label target isVisited isLatched isLater
    have spared := lowering.same_spared apart isVisited (.inl isLatched.1) isLatched same assigned
    rw [noCopies, assign_nil]
    refine spared.mono fun v needed => .inr ⟨needed, ?_⟩
    rw [noCopies]
    simp
  · exact lowering.same_direct apart isVisited (.inr isLater) isLatched same assigned

/-! ### Runs -/

section

variable {functions : List Mir.Function} {func : Nat} {link : BlockId → Word}

omit lowering apart in
/-- A function about to execute the code of an LLVM block, or one that has
returned. -/
inductive EdgeRelated (function : Llvm.Function) (traversal : Traversal) (sites : List Site)
    (functions : List Mir.Function) (func : Nat) (link : BlockId → Word) :
    EdgeConfig → Config → Prop where
  | site {front back : List Site} {site : Site} {state state' : State Reg}
      (isSites : sites = front ++ site :: back)
      (same : SameOn (NeededAt function traversal · site.label) state state')
      (outside : returnBlock functions link (state.readGpr (.preg linkReg)) = none) :
      EdgeRelated function traversal sites functions func link ⟨some site.label, state⟩
        ⟨some ⟨func, siteIndex front⟩, state'⟩
  | returned {state state' : State Reg} (same : SameOn (fun _ => False) state state') :
      EdgeRelated function traversal sites functions func link ⟨none, state⟩ ⟨none, state'⟩

omit apart in
theorem exists_blockAt (isFunction : functions[func]? = some lowered) (isCopy : Copies isa)
    {idx : Nat} {block : Block} (isBlock : traversal.selection.mirBlocks[idx]? = some block) :
    ∃ code, blockAt functions ⟨func, idx⟩ =
        some { block with syllables := block.syllables ++ code } ∧
      ∀ state, ∃ final, execSyllables isa code state = some final ∧
        Assigned (table.copies block.label) traversal.selection.nextVreg state final := by
  obtain ⟨code, isLowered, runs⟩ := lowering.exists_copied isCopy isBlock
  exact ⟨code, blockAt_eq_some isFunction isLowered, runs⟩

omit apart in
/-- A block of an LLVM block shows its state, a latch does not. -/
theorem blockView_site (isFunction : functions[func]? = some lowered) {front back : List Site}
    {site : Site} (isSites : sites = front ++ site :: back) :
    blockView function traversal functions ⟨some ⟨func, siteIndex front⟩, state⟩ =
      some (view function traversal (some site.label) state) := by
  obtain ⟨code, isLowered, -⟩ := lowering.code _ _ (lowering.sited.getElem?_site isSites)
  have isVisited : site.label ∈ blockOrder function := by
    rw [lowering.sited.visited_eq isSites]
    simp
  have isBlock : blockAt functions ⟨func, siteIndex front⟩ = _ :=
    blockAt_eq_some isFunction isLowered
  unfold blockView
  dsimp only
  rw [isBlock, Option.bind_some, lowering.sited.label_block isSites, if_pos isVisited]

omit apart in
theorem blockView_latch (isFunction : functions[func]? = some lowered) {front back : List Site}
    {site : Site} (isSites : sites = front ++ site :: back)
    (isLatched : Latched function site.label target) :
    blockView function traversal functions ⟨some ⟨func, siteIndex front + 1⟩, state⟩ = none := by
  obtain ⟨code, isLowered, -⟩ := lowering.code _ _ (lowering.getElem?_latch isSites isLatched)
  have isVisited : site.label ∈ blockOrder function := by
    rw [lowering.sited.visited_eq isSites]
    simp
  have isBlock : blockAt functions ⟨func, siteIndex front + 1⟩ = _ :=
    blockAt_eq_some isFunction isLowered
  unfold blockView
  dsimp only
  rw [isBlock, Option.bind_some, if_neg]
  intro isLabel
  exact latch_not_mem_blockLabels lowering.distinct isVisited isLatched
    (lowering.mem_blockLabels isLabel)

omit lowering apart in
theorem edgeStep_site {front back : List Site} {site : Site}
    (lowering : CallFreeLowering module memorySize function traversal table sites lowered)
    (isSites : sites = front ++ site :: back) (executed :
      execSyllables isa site.block.syllables state = some middle) :
    edgeStep function traversal isa ⟨some site.label, state⟩ =
      (nextLabel function site.label middle site.block.terminator).map
        (leave traversal site.label middle) := by
  unfold edgeStep
  rw [Option.bind_some, lowering.siteBlock_eq isSites, Option.bind_some, executed, Option.bind_some]

omit lowering apart in
theorem step_eq_follow {id : BlockId} {block : Block} {code : List Syllable}
    (isBlock : blockAt functions id = some { block with syllables := block.syllables ++ code })
    (executed : execSyllables isa block.syllables state = some middle)
    (copied : execSyllables isa code middle = some final) :
    Mir.step functions isa link ⟨some id, state⟩ =
      follow functions link id final block.terminator := by
  unfold Mir.step
  rw [Option.bind_some, isBlock, Option.bind_some, Mir.execSyllables_append, executed,
    Option.bind_some, copied, Option.bind_some]

omit apart in
/-- Selected code and phi values leave the link register alone. -/
theorem readGpr_link {front back : List Site} {site : Site}
    (isSites : sites = front ++ site :: back)
    (executed : execSyllables isa site.block.syllables state = some middle) :
    middle.readGpr (.preg linkReg) = state.readGpr (.preg linkReg) := by
  refine readGpr_of_avoids (lowering.avoids ?_) executed
  exact List.mem_of_getElem? (lowering.sited.getElem?_site isSites)

omit apart in
/-- Where an edge leads to. -/
theorem related_of_edge (functions : List Mir.Function) (func : Nat) (link : BlockId → Word)
    (isVisited : label ∈ blockOrder function)
    (edge : Edge (successorsOf function) label target)
    (same : SameOn (NeededAt function traversal · target)
      (assign (edgeCopies traversal label target) middle) final)
    (outside : returnBlock functions link (middle.readGpr (.preg linkReg)) = none) :
    ∃ idx block, traversal.selection.mirBlocks[idx]? = some block ∧ block.label = target ∧
      EdgeRelated function traversal sites functions func link
        (leave traversal label middle (some target)) ⟨some ⟨func, idx⟩, final⟩ := by
  have isTarget := mem_blockOrder_of_edge lowering.isSsa.entry isVisited edge
  obtain ⟨front, site, back, isSites, rfl⟩ := lowering.sited.exists_site isTarget
  refine ⟨siteIndex front, site.block, lowering.sited.getElem?_site isSites,
    lowering.sited.label_block isSites, .site isSites same ?_⟩
  unfold State.readGpr at outside ⊢
  rw [assign_preg]
  exact outside

/-- The false edge of a branch falls through to its target or to a latch. -/
theorem follows_false (isFunction : functions[func]? = some lowered) (isCopy : Copies isa)
    {front back : List Site} {site : Site} (isSites : sites = front ++ site :: back)
    (isFalse : (successorsOf function site.label).next = some target)
    (isStep : Mir.step functions isa link ⟨some ⟨func, siteIndex front⟩, state'⟩ =
      (fallThrough functions ⟨func, siteIndex front⟩).map (⟨some ·, final⟩))
    (same : SameOn (NeededAfter function traversal site.label) middle middle')
    (assigned : Assigned (table.copies site.label) traversal.selection.nextVreg middle' final)
    (outside : returnBlock functions link (middle.readGpr (.preg linkReg)) = none) :
    ∃ concrete, Quiet (Mir.step functions isa link) (blockView function traversal functions)
        ⟨some ⟨func, siteIndex front⟩, state'⟩ concrete ∧
      EdgeRelated function traversal sites functions func link
        (leave traversal site.label middle (some target)) concrete := by
  have isVisited : site.label ∈ blockOrder function := by
    rw [lowering.sited.visited_eq isSites]
    simp
  rcases lowering.latch_eq isSites isFalse with ⟨isLatched, -⟩ | ⟨notLatched, isLatch, next, rest, isBack, rfl⟩
  · have isLatch := lowering.getElem?_latch isSites isLatched
    obtain ⟨code, isBlock, runs⟩ := lowering.exists_blockAt isFunction isCopy isLatch
    obtain ⟨last, copied, latched⟩ := runs final
    have spared := lowering.same_spared apart isVisited (.inl isFalse) isLatched same assigned
    have arrived := lowering.same_latch isVisited (.inl isFalse) isLatched spared latched
    obtain ⟨idx, block, isTarget, rfl, relatedNext⟩ :=
      lowering.related_of_edge functions func link isVisited (.inl isFalse) arrived outside
    have falls : Mir.step functions isa link ⟨some ⟨func, siteIndex front⟩, state'⟩ =
        some ⟨some ⟨func, siteIndex front + 1⟩, final⟩ := by
      rw [isStep, fallThrough, isBlock]
      rfl
    have nothing : execSyllables isa [] final = some final := rfl
    have jumps : Mir.step functions isa link ⟨some ⟨func, siteIndex front + 1⟩, final⟩ =
        some ⟨some ⟨func, idx⟩, last⟩ := by
      rw [step_eq_follow isBlock nothing copied, follow,
        lowering.jumpTarget_eq isFunction isTarget]
      rfl
    exact ⟨_, .head falls (lowering.blockView_latch isFunction isSites isLatched) (.single jumps),
      relatedNext⟩
  · have isSitesNext : sites = (front ++ [site]) ++ next :: rest := by
      rw [isSites, isBack, List.append_assoc]
      rfl
    have isIndex : siteIndex (front ++ [site]) = siteIndex front + 1 := by
      rw [siteIndex, siteIndex, List.flatMap_append, List.length_append, List.flatMap_singleton,
        Site.blocks, isLatch]
      rfl
    obtain ⟨code, isBlock, -⟩ := lowering.exists_blockAt isFunction isCopy
      (lowering.sited.getElem?_site isSitesNext)
    have arrived := lowering.same_direct apart isVisited (.inl isFalse) notLatched same assigned
    refine ⟨⟨some ⟨func, siteIndex (front ++ [site])⟩, final⟩, .single ?_,
      .site isSitesNext arrived ?_⟩
    · rw [isIndex] at isBlock
      rw [isStep, fallThrough, isBlock, isIndex]
      rfl
    · unfold State.readGpr at outside ⊢
      rw [assign_preg]
      exact outside

/-- One step between blocks is one or two steps of the lowered function. -/
theorem follows (isFunction : functions[func]? = some lowered) (isCopy : Copies isa)
    {config after : EdgeConfig} {concrete : Config}
    (related : EdgeRelated function traversal sites functions func link config concrete)
    (stepped : edgeStep function traversal isa config = some after) :
    ∃ concrete', Quiet (Mir.step functions isa link) (blockView function traversal functions)
        concrete concrete' ∧
      EdgeRelated function traversal sites functions func link after concrete' := by
  cases related with
  | returned same => cases stepped
  | @site front back site state state' isSites same outside =>
      have isVisited : site.label ∈ blockOrder function := by
        rw [lowering.sited.visited_eq isSites]
        simp
      cases executed : execSyllables isa site.block.syllables state with
      | none =>
          unfold edgeStep at stepped
          rw [Option.bind_some, lowering.siteBlock_eq isSites, Option.bind_some, executed] at stepped
          cases stepped
      | some middle =>
          rw [edgeStep_site lowering isSites executed] at stepped
          obtain ⟨middle', executed', sameAfter⟩ := lowering.same_after isSites same executed
          obtain ⟨code, isBlock, runs⟩ := lowering.exists_blockAt isFunction isCopy
            (lowering.sited.getElem?_site isSites)
          obtain ⟨final, copied, assigned⟩ := runs middle'
          rw [lowering.sited.label_block isSites] at assigned
          have isStep : Mir.step functions isa link ⟨some ⟨func, siteIndex front⟩, state'⟩ =
              follow functions link ⟨func, siteIndex front⟩ final site.block.terminator :=
            step_eq_follow isBlock executed' copied
          have samePred : final.pred = middle.pred := assigned.pred.trans sameAfter.pred
          rw [← lowering.readGpr_link isSites executed] at outside
          rcases nextLabel_cases middle (lowering.endsAs isSites) with
            ⟨target, isNext, isLater, isTrue⟩ | ⟨target, cond, other, isNext, isFalse, isBranch, chosen⟩ |
              ⟨isNext, isRet⟩
          · rw [isNext] at stepped
            obtain rfl := Option.some.inj stepped
            have arrived := lowering.same_jump apart isVisited isLater sameAfter assigned
            obtain ⟨idx, block, isTarget, rfl, relatedNext⟩ :=
              lowering.related_of_edge functions func link isVisited (.inr isLater) arrived outside
            refine ⟨_, .single ?_, relatedNext⟩
            rw [isStep]
            have isJump := lowering.jumpTarget_eq isFunction isTarget
            rcases isTrue with isJumps | ⟨cond, isBranch, chosen⟩
            · rw [isJumps, follow, isJump]
              rfl
            · rw [isBranch, follow, samePred, if_pos chosen, isJump]
              rfl
          · rw [isNext] at stepped
            obtain rfl := Option.some.inj stepped
            refine lowering.follows_false apart isFunction isCopy isSites isFalse ?_ sameAfter assigned
              outside
            rw [isStep, isBranch, follow, samePred, chosen]
            rfl
          · rw [isNext] at stepped
            obtain rfl := Option.some.inj stepped
            refine ⟨⟨none, final⟩, .single ?_, .returned ?_⟩
            · have sameLink : final.readGpr (.preg linkReg) = middle.readGpr (.preg linkReg) := by
                unfold State.readGpr
                rw [assigned.fixed, sameAfter.preg]
              rw [isStep, isRet, follow, sameLink, outside]
            · exact ⟨fun v nothing => nothing.elim, fun n => (assigned.fixed n).trans (sameAfter.preg n),
                samePred, assigned.mem.trans sameAfter.mem⟩

end

section

variable {functions : List Mir.Function} {func : Nat} {link : BlockId → Word}

omit apart in
/-- Code without meaning stops the lowered function as well. -/
theorem halts (isFunction : functions[func]? = some lowered) (isCopy : Copies isa)
    {config : EdgeConfig} {concrete : Config}
    (related : EdgeRelated function traversal sites functions func link config concrete)
    (halted : edgeStep function traversal isa config = none) :
    Mir.step functions isa link concrete = none := by
  cases related with
  | returned same => rfl
  | @site front back site state state' isSites same outside =>
      obtain ⟨code, isBlock, -⟩ := lowering.exists_blockAt isFunction isCopy
        (lowering.sited.getElem?_site isSites)
      cases denotes : site.block.syllables.mapM Syllable.action with
      | none =>
          have stuck : execSyllables isa site.block.syllables state' = none := by
            rw [execSyllables, denotes]
            rfl
          unfold Mir.step
          rw [Option.bind_some, isBlock, Option.bind_some, Mir.execSyllables_append, stuck]
          rfl
      | some actions =>
          have executed : execSyllables isa site.block.syllables state =
              some (Action.execAll isa actions state) := by
            rw [execSyllables, denotes]
            rfl
          rw [edgeStep_site lowering isSites executed] at halted
          rcases nextLabel_cases _ (lowering.endsAs isSites) with
            ⟨target, isNext, -⟩ | ⟨target, cond, other, isNext, -⟩ | ⟨isNext, -⟩
          · rw [isNext] at halted
            cases halted
          · rw [isNext] at halted
            cases halted
          · rw [isNext] at halted
            cases halted

theorem lockStep (isFunction : functions[func]? = some lowered) (isCopy : Copies isa) :
    LockStep (Mir.step functions isa link) (blockView function traversal functions)
      (edgeStep function traversal isa) (edgeView function traversal)
      (EdgeRelated function traversal sites functions func link) where
  shown := by
    intro config concrete related
    cases related with
    | @site front back site state state' isSites same outside =>
        rw [lowering.blockView_site isFunction isSites, edgeView]
        refine congrArg some (view_congr function traversal (same.mono ?_))
        rintro v ⟨name, isName, needed⟩
        cases isName
        exact needed
    | returned same =>
        refine congrArg some (view_congr function traversal (same.mono ?_))
        rintro v ⟨name, isName, -⟩
        cases isName
  follows := fun related stepped => lowering.follows apart isFunction isCopy related stepped
  halts := fun related halted => .now (lowering.halts isFunction isCopy related halted)

end

end CallFreeLowering

theorem blockOrder_head {function : Llvm.Function} {entry : String}
    (isEntry : (blockLabels function)[0]? = some entry) :
    ∃ rest, blockOrder function = entry :: rest := by
  rw [blockOrder, take_one_blockLabels isEntry, traversalFuel, Worklist.order, if_neg (by simp)]
  exact Worklist.exists_order_eq_append _ _ _ _

/-- A lowered function without calls does what its blocks do with phis on their
edges when the edges are apart: it passes the same blocks with the same needed
registers, fixed registers, predicates and memory, and returns with the same. -/
theorem sameVisits_of_edgesApart {order : CopyOrder} {module : Llvm.Module} {memorySize : Nat}
    {function : Llvm.Function} {traversal : Traversal} {lowered : Mir.Function}
    {isa : Isa Opcode} (isCopy : Copies isa) (isSsa : function.IsSsa)
    (wellFormed : WellFormed function) (distinct : LabelsDistinct function)
    (noCalls : NoCalls function)
    (isSelected : selectFunction module memorySize function = .ok traversal)
    (isLowered : lowerFunction order module memorySize function = .ok lowered)
    (apart : EdgesApart function traversal) {functions : List Mir.Function} {func : Nat}
    (isFunction : functions[func]? = some lowered) {entry : String}
    (isEntry : (blockLabels function)[0]? = some entry) {link : BlockId → Word}
    {state : State Reg}
    (outside : returnBlock functions link (state.readGpr (.preg linkReg)) = none) :
    SameVisits (Mir.step functions isa link) (blockView function traversal functions)
      ⟨some ⟨func, 0⟩, state⟩ (edgeStep function traversal isa)
      (some ∘ edgeView function traversal) ⟨some entry, state⟩ := by
  obtain ⟨table, sites, lowering⟩ :=
    exists_callFreeLowering isSsa wellFormed distinct noCalls isSelected isLowered
  obtain ⟨rest, isOrder⟩ := blockOrder_head isEntry
  obtain ⟨site, back, isSites, rfl, -⟩ :=
    List.map_eq_cons_iff.mp (lowering.sited.labels.trans isOrder)
  have related : CallFreeLowering.EdgeRelated function traversal sites functions func link
      ⟨some site.label, state⟩ ⟨some ⟨func, siteIndex []⟩, state⟩ :=
    .site isSites (.refl _ state) outside
  exact (lowering.lockStep apart isFunction isCopy).sameVisits related

/-! ### Certificates -/

instance (syllable : Syllable) (v : Nat) : Decidable (ReadsGpr syllable v) :=
  inferInstanceAs (Decidable (_ ∧ _))

instance (syllable : Syllable) (v : Nat) : Decidable (WritesGpr syllable v) :=
  inferInstanceAs (Decidable (_ ∧ _))

instance decidableReadFirst (v : Nat) : (code : List Syllable) → Decidable (ReadFirst v code)
  | [] => inferInstanceAs (Decidable False)
  | syllable :: rest =>
      have := decidableReadFirst v rest
      inferInstanceAs (Decidable (ReadsGpr syllable v ∨ (¬WritesGpr syllable v ∧ ReadFirst v rest)))

instance (v : Nat) (code : List Syllable) : Decidable (Keeps v code) :=
  inferInstanceAs (Decidable (∀ syllable ∈ code, ¬WritesGpr syllable v))

/-- The blocks that edges lead to. -/
def edgeTargets (function : Llvm.Function) (label : String) : List String :=
  (successorsOf function label).next.toList ++ (successorsOf function label).later.toList

theorem mem_edgeTargets {function : Llvm.Function} {label target : String} :
    target ∈ edgeTargets function label ↔ Edge (successorsOf function) label target := by
  simp [edgeTargets, Edge]

/-- A certificate that edges are apart: registers that include the needed ones.  It
can be checked. -/
@[mk_iff]
structure EdgeCertificate (function : Llvm.Function) (traversal : Traversal)
    (live : String → List Nat) : Prop where
  read : ∀ label ∈ blockOrder function, ∀ block ∈ siteBlock traversal label,
    ∀ syllable ∈ block.syllables, ∀ v ∈ syllable.sourceVregs,
      ReadFirst v block.syllables → v ∈ live label
  copied : ∀ label ∈ blockOrder function, ∀ block ∈ siteBlock traversal label,
    ∀ target ∈ edgeTargets function label, ∀ copy ∈ edgeCopies traversal label target,
      ∀ v ∈ copy.src.reg?, Keeps v block.syllables → v ∈ live label
  passed : ∀ label ∈ blockOrder function, ∀ block ∈ siteBlock traversal label,
    ∀ target ∈ edgeTargets function label, ∀ v ∈ live target, Keeps v block.syllables →
      v ∈ live label ∨ ∃ copy ∈ edgeCopies traversal label target, copy.dst = v
  apart : ∀ pred ∈ blockOrder function, ∀ target ∈ edgeTargets function pred,
    ∀ other ∈ blockOrder function, ¬Latched function pred other →
      ∀ copy ∈ edgeCopies traversal pred other,
        (copy.dst ∈ live target → ∃ own ∈ edgeCopies traversal pred target, own.dst = copy.dst) ∧
        (Latched function pred target →
          ∀ own ∈ edgeCopies traversal pred target, own.src ≠ .vreg copy.dst)
  oneWay : ∀ pred ∈ blockOrder function, ∀ target ∈ edgeTargets function pred,
    Latched function pred target → (successorsOf function pred).later = some target →
      edgeCopies traversal pred target = []

instance (function : Llvm.Function) (traversal : Traversal) (live : String → List Nat) :
    Decidable (EdgeCertificate function traversal live) :=
  decidable_of_iff' _ (edgeCertificate_iff function traversal live)

section

variable {module : Llvm.Module} {memorySize : Nat} {function : Llvm.Function}
  {traversal : Traversal} {live : String → List Nat} {label : String}

theorem EdgeCertificate.live_of_needed (certificate : EdgeCertificate function traversal live)
    (hasEntry : function.blocks ≠ []) {v : Nat} (isVisited : label ∈ blockOrder function)
    (needed : NeededAt function traversal v label) : v ∈ live label := by
  induction needed with
  | @read label block isBlock reads =>
      obtain ⟨syllable, syllableMem, -, inSources⟩ := reads.exists_reads
      exact certificate.read label isVisited block isBlock syllable syllableMem v inSources reads
  | @copied label target block copy isBlock kept edge copyMem isSrc =>
      exact certificate.copied label isVisited block isBlock target (mem_edgeTargets.mpr edge) copy
        copyMem v (reg?_eq_some.mpr isSrc) kept
  | @passed label target block isBlock kept edge other _ ih =>
      have isLive := ih (mem_blockOrder_of_edge hasEntry isVisited edge)
      rcases certificate.passed label isVisited block isBlock target (mem_edgeTargets.mpr edge) v
        isLive kept with here | ⟨copy, copyMem, isDst⟩
      · exact here
      · exact absurd isDst (other copy copyMem)

theorem EdgesApart.of_certificate
    (isSelected : selectFunction module memorySize function = .ok traversal)
    (hasEntry : function.blocks ≠ []) (certificate : EdgeCertificate function traversal live) :
    EdgesApart function traversal := by
  obtain ⟨laidOut, isVisited⟩ := laidOut_of_selectFunction isSelected
  have isOther : ∀ pred other, ∀ copy ∈ edgeCopies traversal pred other,
      other ∈ blockOrder function := by
    intro pred other copy copyMem
    obtain ⟨phi, phiMem, rfl, -⟩ := mem_edgeCopies.mp copyMem
    rw [← isVisited]
    exact (laidOut.fromPhi phi phiMem).1
  refine ⟨?_, ?_, ?_⟩
  · intro pred target other isPred edge _ otherNotLatched copy copyMem needed
    exact (certificate.apart pred isPred target (mem_edgeTargets.mpr edge) other
      (isOther pred other copy copyMem) otherNotLatched copy copyMem).1
      (certificate.live_of_needed hasEntry (mem_blockOrder_of_edge hasEntry isPred edge) needed)
  · intro pred target other isPred isLatched otherNotLatched copy copyMem needed
    have edge : Edge (successorsOf function) pred target := .inl isLatched.1
    obtain ⟨covered, unread⟩ := certificate.apart pred isPred target (mem_edgeTargets.mpr edge)
      other (isOther pred other copy copyMem) otherNotLatched copy copyMem
    rcases needed with ⟨own, ownMem, isSrc⟩ | ⟨needed, uncovered⟩
    · exact unread isLatched own ownMem isSrc
    · obtain ⟨own, ownMem, isOwn⟩ := covered
        (certificate.live_of_needed hasEntry (mem_blockOrder_of_edge hasEntry isPred edge) needed)
      exact uncovered own ownMem isOwn
  · intro pred target isPred isLatched isLater
    exact certificate.oneWay pred isPred target (mem_edgeTargets.mpr (.inl isLatched.1)) isLatched
      isLater

/-- The registers that the visited blocks and the phis on their edges read. -/
def readRegisters (function : Llvm.Function) (traversal : Traversal) : List Nat :=
  (blockOrder function).flatMap fun label =>
    ((siteBlock traversal label).toList.flatMap fun block =>
      block.syllables.flatMap Syllable.sourceVregs) ++
    (edgeTargets function label).flatMap fun target =>
      (edgeCopies traversal label target).filterMap (·.src.reg?)

theorem mem_readRegisters_of_needed (hasEntry : function.blocks ≠ []) {v : Nat}
    (isVisited : label ∈ blockOrder function) (needed : NeededAt function traversal v label) :
    v ∈ readRegisters function traversal := by
  induction needed with
  | @read label block isBlock reads =>
      obtain ⟨syllable, syllableMem, -, inSources⟩ := reads.exists_reads
      refine List.mem_flatMap.mpr ⟨label, isVisited, List.mem_append_left _ ?_⟩
      refine List.mem_flatMap.mpr ⟨block, by simp [isBlock], ?_⟩
      exact List.mem_flatMap.mpr ⟨syllable, syllableMem, inSources⟩
  | @copied label target block copy isBlock kept edge copyMem isSrc =>
      refine List.mem_flatMap.mpr ⟨label, isVisited, List.mem_append_right _ ?_⟩
      refine List.mem_flatMap.mpr ⟨target, mem_edgeTargets.mpr edge, ?_⟩
      exact List.mem_filterMap.mpr ⟨copy, copyMem, reg?_eq_some.mpr isSrc⟩
  | @passed label target block isBlock kept edge other _ ih =>
      exact ih (mem_blockOrder_of_edge hasEntry isVisited edge)

open Classical in
/-- The needed registers are a certificate. -/
theorem EdgesApart.certificate (hasEntry : function.blocks ≠ [])
    (apart : EdgesApart function traversal) :
    EdgeCertificate function traversal fun label =>
      (readRegisters function traversal).filter fun v => NeededAt function traversal v label := by
  have isLive : ∀ {label v}, label ∈ blockOrder function → NeededAt function traversal v label →
      v ∈ (readRegisters function traversal).filter fun v => NeededAt function traversal v label :=
    fun isVisited needed => List.mem_filter.mpr
      ⟨mem_readRegisters_of_needed hasEntry isVisited needed, decide_eq_true needed⟩
  refine ⟨?_, ?_, ?_, ?_, ?_⟩
  · intro label isVisited block isBlock syllable _ v _ reads
    exact isLive isVisited (.read isBlock reads)
  · intro label isVisited block isBlock target isTarget copy copyMem v isSrc kept
    exact isLive isVisited (.copied isBlock kept (mem_edgeTargets.mp isTarget) copyMem
      (reg?_eq_some.mp isSrc))
  · intro label isVisited block isBlock target isTarget v isNeeded kept
    have needed := of_decide_eq_true (List.mem_filter.mp isNeeded).2
    by_cases covered : ∃ copy ∈ edgeCopies traversal label target, copy.dst = v
    · exact .inr covered
    · refine .inl (isLive isVisited (.passed isBlock kept (mem_edgeTargets.mp isTarget) ?_ needed))
      exact fun copy copyMem isDst => covered ⟨copy, copyMem, isDst⟩
  · intro pred isPred target isTarget other _ otherNotLatched copy copyMem
    have edge := mem_edgeTargets.mp isTarget
    constructor
    · intro isNeeded
      have needed := of_decide_eq_true (List.mem_filter.mp isNeeded).2
      by_cases isLatched : Latched function pred target
      · by_contra uncovered
        exact apart.latched pred target other isPred isLatched otherNotLatched copy copyMem
          (.inr ⟨needed, fun own ownMem isOwn => uncovered ⟨own, ownMem, isOwn⟩⟩)
      · exact apart.direct pred target other isPred edge isLatched otherNotLatched copy copyMem needed
    · intro isLatched own ownMem isSrc
      exact apart.latched pred target other isPred isLatched otherNotLatched copy copyMem
        (.inl ⟨own, ownMem, isSrc⟩)
  · intro pred isPred target _ isLatched isLater
    exact apart.oneWay pred target isPred isLatched isLater

/-- Edges are apart exactly when some certificate passes its check. -/
theorem edgesApart_iff_certificate
    (isSelected : selectFunction module memorySize function = .ok traversal)
    (hasEntry : function.blocks ≠ []) :
    EdgesApart function traversal ↔ ∃ live, EdgeCertificate function traversal live :=
  ⟨fun apart => ⟨_, apart.certificate hasEntry⟩, fun certified =>
    certified.elim fun _ => EdgesApart.of_certificate isSelected hasEntry⟩

end

/-- A loop whose true edge leads back, so that its copies are executed on the way
out as well. -/
def countUp : Llvm.Function where
  name := "count_up"
  params := [⟨0, .int 64⟩]
  returnType := .int 64
  blocks :=
    [⟨"entry", [⟨1, .void, .br 1⟩]⟩,
      ⟨"loop", [⟨2, .int 64, .phi [(.constInt 64 0, 0), (.ref 3 (.int 64), 1)]⟩,
        ⟨3, .int 64, .binary .add (.ref 2 (.int 64)) (.constInt 64 1)⟩,
        ⟨4, .int 1, .icmp .slt (.ref 3 (.int 64)) (.ref 0 (.int 64))⟩,
        ⟨5, .void, .condBr (.ref 4 (.int 1)) 1 2⟩]⟩,
      ⟨"exit", [⟨6, .void, .ret (some (.ref 0 (.int 64)))⟩]⟩]

/-- The registers needed in the loop. -/
def countUpLive (label : String) : List Nat := if label = "loop" then [0, 1] else [0]

theorem sameVisits_of_edgesApart_countUp :
    ∃ traversal lowered, selectFunction [countUp] 65536 countUp = .ok traversal ∧
      lowerFunction insertionOrder [countUp] 65536 countUp = .ok lowered ∧
      SameVisits (Mir.step [lowered] Asm.moveIsa smallLink)
        (blockView countUp traversal [lowered]) ⟨some ⟨0, 0⟩, default⟩
        (edgeStep countUp traversal Asm.moveIsa) (some ∘ edgeView countUp traversal)
        ⟨some "entry", default⟩ := by
  have selects : (selectFunction [countUp] 65536 countUp).map
      (fun traversal => decide (EdgeCertificate countUp traversal countUpLive)) = .ok true := by
    decide +kernel
  have lowers : (lowerFunction insertionOrder [countUp] 65536 countUp).map
      (fun lowered => (returnBlock [lowered] smallLink 0).isNone) = .ok true := by decide +kernel
  obtain ⟨traversal, isSelected, certified⟩ := map_eq_ok.mp selects
  obtain ⟨lowered, isLowered, outside⟩ := map_eq_ok.mp lowers
  have isFunction : [lowered][0]? = some lowered := rfl
  refine ⟨traversal, lowered, isSelected, isLowered, ?_⟩
  exact sameVisits_of_edgesApart Asm.copies_moveIsa
    (Llvm.Function.isSsa_of_checkSsa (by decide +kernel))
    (wellFormed_of_pointerFree (by decide +kernel) (by decide +kernel) (by decide +kernel)
      (by decide +kernel) (by decide +kernel))
    ⟨by decide +kernel, by decide +kernel, by decide +kernel⟩ (by decide +kernel) isSelected
    isLowered (EdgesApart.of_certificate isSelected (by decide) (of_decide_eq_true certified))
    isFunction rfl (Option.isNone_iff_eq_none.mp outside)

end VliwCompiler.Isel
