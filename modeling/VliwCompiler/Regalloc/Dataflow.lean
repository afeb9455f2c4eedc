import VliwCompiler.Regalloc.Liveness

/-!
# Exactness of the liveness analysis

A virtual register is live at the start of a block when some path along the
control-flow graph reaches a read of it before a definition.  The analysis
computes exactly these registers: its result solves the dataflow equations, and
iteration from empty sets never adds a register that is not live.
-/

namespace VliwCompiler.Liveness

open Mir (Reg Value Syllable Terminator Block Function)

/-! ### Paths -/

/-- Some path through the remaining code of a block reads the register before
defining it. -/
def Exposed (terminator : Terminator) (v : Nat) : List Syllable → Prop
  | [] => terminator.condVreg = some v
  | syllable :: rest =>
      v ∈ syllable.sourceVregs ∨ (syllable.dstVreg ≠ some v ∧ Exposed terminator v rest)

/-- Some syllable defines the register. -/
def Defines (syllables : List Syllable) (v : Nat) : Prop :=
  ∃ syllable ∈ syllables, syllable.dstVreg = some v

/-- The register is live at the start of a block. -/
inductive LiveAt (function : Function) (v : Nat) : Nat → Prop where
  | use {i : Nat} {block : Block} (found : function.blocks[i]? = some block)
      (exposed : Exposed block.terminator v block.syllables) : LiveAt function v i
  | through {i s : Nat} {block : Block} (found : function.blocks[i]? = some block)
      (kept : ¬Defines block.syllables v) (succ : s ∈ successors function i block)
      (live : LiveAt function v s) : LiveAt function v i

/-- The register is live at the end of a block. -/
def LiveAfter (function : Function) (v i : Nat) : Prop :=
  ∃ block s, function.blocks[i]? = some block ∧ s ∈ successors function i block ∧
    LiveAt function v s

theorem defines_cons {syllable : Syllable} {rest : List Syllable} {v : Nat} :
    Defines (syllable :: rest) v ↔ syllable.dstVreg = some v ∨ Defines rest v := by
  simp [Defines]

/-! ### The first pass -/

theorem scanVreg_spec {info result : BlockInfo} {idx : Nat}
    (done : scanVreg info idx = .ok result) :
    idx < 64 ∧ result.defs = info.defs ∧ result.liveIn = info.liveIn ∧
      result.liveOut = info.liveOut ∧ ∀ v, result.useBeforeDef.contains v = true ↔
        info.useBeforeDef.contains v = true ∨ (info.defs.contains v = false ∧ v = idx) := by
  unfold scanVreg at done
  split at done
  · cases done
    rename_i known
    refine ⟨?_, rfl, rfl, rfl, fun v => ⟨.inl, ?_⟩⟩
    · rw [LiveSet.contains_eq] at known
      exact BitVec.lt_of_getLsbD known
    · rintro (used | ⟨fresh, rfl⟩)
      · exact used
      · rw [known] at fresh
        cases fresh
  · rename_i fresh
    obtain ⟨uses, inserted, rfl⟩ := map_eq_ok.mp done
    refine ⟨LiveSet.lt_of_insert inserted, rfl, rfl, rfl, fun v => ?_⟩
    rw [LiveSet.contains_insert inserted, Bool.or_eq_true, beq_iff_eq]
    constructor
    · rintro (used | rfl)
      · exact .inl used
      · exact .inr ⟨Bool.eq_false_iff.mpr fresh, rfl⟩
    · rintro (used | ⟨-, rfl⟩)
      · exact .inl used
      · exact .inr rfl

theorem scanSources_spec {srcs : List Value} {info result : BlockInfo}
    (done : srcs.foldlM scanSource info = .ok result) :
    (∀ v ∈ srcs.filterMap Value.vreg?, v < 64) ∧ result.defs = info.defs ∧
      result.liveIn = info.liveIn ∧ result.liveOut = info.liveOut ∧
      ∀ v, result.useBeforeDef.contains v = true ↔ info.useBeforeDef.contains v = true ∨
        (info.defs.contains v = false ∧ v ∈ srcs.filterMap Value.vreg?) := by
  induction srcs generalizing info with
  | nil =>
      cases done
      simp
  | cons src srcs ih =>
      rw [List.foldlM_cons] at done
      obtain ⟨middle, first, others⟩ := bind_eq_ok.mp done
      obtain ⟨small, defsEq, inEq, outEq, uses⟩ := ih others
      by_cases isVreg : ∃ idx, src = .reg (.vreg idx)
      · obtain ⟨idx, rfl⟩ := isVreg
        obtain ⟨idxSmall, defsEq', inEq', outEq', uses'⟩ := scanVreg_spec first
        refine ⟨?_, defsEq.trans defsEq', inEq.trans inEq', outEq.trans outEq', ?_⟩
        · rw [List.filterMap_cons_some (f := Value.vreg?) rfl, List.forall_mem_cons]
          exact ⟨idxSmall, small⟩
        · intro v
          rw [uses, uses', defsEq']
          simp only [List.filterMap_cons, Value.vreg?, List.mem_cons]
          tauto
      · have unread : src.vreg? = none := by
          cases src with
          | reg reg =>
              cases reg with
              | vreg idx => exact absurd ⟨idx, rfl⟩ isVreg
              | preg n => rfl
          | imm value => rfl
          | stack address => rfl
        have same : middle = info := by
          cases src with
          | reg reg =>
              cases reg with
              | vreg idx => exact absurd ⟨idx, rfl⟩ isVreg
              | preg n => exact (Except.ok.inj first).symm
          | imm value => exact (Except.ok.inj first).symm
          | stack address => exact (Except.ok.inj first).symm
        subst same
        rw [List.filterMap_cons_none unread]
        exact ⟨small, defsEq, inEq, outEq, uses⟩

theorem scanSyllable_spec {info result : BlockInfo} {syllable : Syllable}
    (done : scanSyllable info syllable = .ok result) :
    (∀ v ∈ syllable.sourceVregs, v < 64) ∧ (∀ v, syllable.dstVreg = some v → v < 64) ∧
      result.liveIn = info.liveIn ∧ result.liveOut = info.liveOut ∧
      (∀ v, result.useBeforeDef.contains v = true ↔ info.useBeforeDef.contains v = true ∨
        (info.defs.contains v = false ∧ v ∈ syllable.sourceVregs)) ∧
      ∀ v, result.defs.contains v = true ↔
        info.defs.contains v = true ∨ syllable.dstVreg = some v := by
  obtain ⟨middle, sources, rest⟩ := bind_eq_ok.mp done
  obtain ⟨small, defsEq, inEq, outEq, uses⟩ := scanSources_spec sources
  split at rest
  · rename_i idx isDst
    obtain ⟨defs, inserted, rfl⟩ := map_eq_ok.mp rest
    refine ⟨small, ?_, inEq, outEq, uses, ?_⟩
    · intro v isV
      rw [Syllable.dstVreg_eq_some, isDst] at isV
      cases isV
      exact LiveSet.lt_of_insert inserted
    · intro v
      rw [LiveSet.contains_insert inserted, defsEq, Bool.or_eq_true, beq_iff_eq,
        Syllable.dstVreg_eq_some, isDst, Option.some.injEq, Reg.vreg.injEq, eq_comm (a := v)]
  · rename_i noVreg
    cases rest
    have none : ∀ v, syllable.dstVreg ≠ some v := fun v isV =>
      noVreg v (Syllable.dstVreg_eq_some.mp isV)
    refine ⟨small, fun v isV => absurd isV (none v), inEq, outEq, uses, fun v => ?_⟩
    rw [defsEq]
    exact ⟨.inl, fun either => either.resolve_right (none v)⟩

/-- The first pass over the syllables of a block. -/
theorem scanSyllables_spec {syllables : List Syllable} {info result : BlockInfo}
    {terminator : Terminator} {final : BlockInfo}
    (done : syllables.foldlM scanSyllable info = .ok result)
    (ended : scanTerminator result terminator = .ok final) :
    (∀ syllable ∈ syllables, (∀ v ∈ syllable.sourceVregs, v < 64) ∧
        ∀ v, syllable.dstVreg = some v → v < 64) ∧
      (∀ v, terminator.condVreg = some v → v < 64) ∧
      final.liveIn = info.liveIn ∧ final.liveOut = info.liveOut ∧
      (∀ v, final.useBeforeDef.contains v = true ↔ info.useBeforeDef.contains v = true ∨
        (info.defs.contains v = false ∧ Exposed terminator v syllables)) ∧
      ∀ v, final.defs.contains v = true ↔ info.defs.contains v = true ∨ Defines syllables v := by
  induction syllables generalizing info with
  | nil =>
      cases done
      refine ⟨by simp, ?_⟩
      by_cases reads : ∃ idx label, terminator = .branch (.vreg idx) label
      · obtain ⟨idx, label, rfl⟩ := reads
        obtain ⟨small, defsEq, inEq, outEq, uses⟩ := scanVreg_spec ended
        refine ⟨?_, inEq, outEq, fun v => ?_, fun v => by simp [defsEq, Defines]⟩
        · rintro v isV
          cases isV
          exact small
        · rw [uses, Exposed, Terminator.condVreg, Option.some.injEq, eq_comm (a := v)]
      · have none : ∀ v, terminator.condVreg ≠ some v := fun v isV =>
          reads ⟨v, Terminator.condVreg_eq_some.mp isV⟩
        have same : result = final := by
          unfold scanTerminator at ended
          split at ended
          · rename_i idx label
            exact absurd ⟨idx, label, rfl⟩ reads
          · exact Except.ok.inj ended
        subst same
        refine ⟨fun v isV => absurd isV (none v), rfl, rfl, fun v => ?_, fun v => ?_⟩
        · simp [Exposed, none v]
        · simp [Defines]
  | cons syllable syllables ih =>
      rw [List.foldlM_cons] at done
      obtain ⟨middle, first, others⟩ := bind_eq_ok.mp done
      obtain ⟨small, dstSmall, inEq, outEq, uses, defs⟩ := scanSyllable_spec first
      obtain ⟨restSmall, condSmall, inEq', outEq', uses', defs'⟩ := ih others
      refine ⟨List.forall_mem_cons.mpr ⟨⟨small, dstSmall⟩, restSmall⟩, condSmall,
        inEq'.trans inEq, outEq'.trans outEq, fun v => ?_, fun v => ?_⟩
      · have undefined : middle.defs.contains v = false ↔
            info.defs.contains v = false ∧ syllable.dstVreg ≠ some v := by
          rw [Bool.eq_false_iff, Bool.eq_false_iff, Ne, defs, not_or]
        rw [uses', uses, undefined, Exposed]
        tauto
      · rw [defs', defs, defines_cons, or_assoc]

/-- The sets of the first pass. -/
structure Scanned (block : Block) (info : BlockInfo) : Prop where
  uses : ∀ v, info.useBeforeDef.contains v = true ↔ Exposed block.terminator v block.syllables
  defs : ∀ v, info.defs.contains v = true ↔ Defines block.syllables v
  small : (∀ syllable ∈ block.syllables, (∀ v ∈ syllable.sourceVregs, v < 64) ∧
    ∀ v, syllable.dstVreg = some v → v < 64) ∧ ∀ v, block.terminator.condVreg = some v → v < 64

theorem scanBlock_spec {block : Block} {info : BlockInfo} (done : scanBlock block = .ok info) :
    Scanned block info ∧ info.liveIn = {} ∧ info.liveOut = {} := by
  obtain ⟨middle, syllables, ended⟩ := bind_eq_ok.mp done
  obtain ⟨small, condSmall, inEq, outEq, uses, defs⟩ := scanSyllables_spec syllables ended
  refine ⟨⟨fun v => ?_, fun v => ?_, small, condSmall⟩, inEq, outEq⟩
  · simpa using uses v
  · simpa using defs v

/-! ### The fixpoint -/

/-- The sets of a block, empty where there is none. -/
def infoAt (infos : List BlockInfo) (i : Nat) : BlockInfo := infos[i]?.getD {}

/-- The live-out set that follows from the sets of the successors. -/
def joinSuccessors (function : Function) (infos : List BlockInfo) (i : Nat) (block : Block) :
    LiveSet :=
  (successors function i block).foldl (fun acc s => acc.union (infoAt infos s).liveIn) {}

theorem contains_joinSuccessors {function : Function} {infos : List BlockInfo} {i : Nat}
    {block : Block} {v : Nat} :
    (joinSuccessors function infos i block).contains v = true ↔
      ∃ s ∈ successors function i block, (infoAt infos s).liveIn.contains v = true := by
  have general : ∀ (succs : List Nat) (init : LiveSet),
      (succs.foldl (fun acc s => acc.union (infoAt infos s).liveIn) init).contains v = true ↔
        init.contains v = true ∨ ∃ s ∈ succs, (infoAt infos s).liveIn.contains v = true := by
    intro succs
    induction succs with
    | nil => simp
    | cons s succs ih =>
        intro init
        rw [List.foldl_cons, ih, LiveSet.contains_union, Bool.or_eq_true, or_assoc]
        simp
  simpa [joinSuccessors] using general (successors function i block) {}

/-- The sets of one block solve its dataflow equations. -/
structure Solved (function : Function) (infos : List BlockInfo) (i : Nat) (block : Block)
    (info : BlockInfo) : Prop where
  out : info.liveOut = joinSuccessors function infos i block
  entry : info.liveIn = info.useBeforeDef.union (info.liveOut.difference info.defs)

/-- The sets of a block computed from those of its successors. -/
def recompute (function : Function) (infos : List BlockInfo) (i : Nat) (block : Block)
    (info : BlockInfo) : BlockInfo :=
  { info with
    liveOut := joinSuccessors function infos i block
    liveIn := info.useBeforeDef.union
      ((joinSuccessors function infos i block).difference info.defs) }

/-- Recomputing a block either changes nothing because its equations hold, or
replaces its sets. -/
theorem updateBlock_cases (function : Function) (infos : List BlockInfo) (changed : Bool) (i : Nat)
    {block : Block} {info : BlockInfo} (atBlock : function.blocks[i]? = some block)
    (atInfo : infos[i]? = some info) :
    (updateBlock function (infos, changed) i = (infos, changed) ∧
        Solved function infos i block info) ∨
      (updateBlock function (infos, changed) i =
          (infos.set i (recompute function infos i block info), true) ∧
        ¬Solved function infos i block info) := by
  unfold updateBlock
  simp only [atBlock, atInfo]
  split
  · rename_i different
    refine .inr ⟨rfl, fun solved => ?_⟩
    rcases different with otherOut | otherIn
    · exact otherOut solved.out.symm
    · refine otherIn ?_
      rw [solved.entry, solved.out]
      rfl
  · rename_i same
    push Not at same
    refine .inl ⟨rfl, same.1.symm, ?_⟩
    rw [← same.1]
    exact same.2.symm

theorem updateBlock_of_none (function : Function) (infos : List BlockInfo) (changed : Bool)
    {i : Nat} (outside : infos[i]? = none) :
    updateBlock function (infos, changed) i = (infos, changed) := by
  unfold updateBlock
  simp [outside]

/-- A property of the sets of every block that recomputing keeps. -/
structure Kept (function : Function) (holds : Nat → BlockInfo → Prop) (infos : List BlockInfo) :
    Prop where
  length : infos.length = function.blocks.length
  all : ∀ i info, infos[i]? = some info → holds i info

section Induction

variable {function : Function} {holds : Nat → BlockInfo → Prop}
  (step : ∀ (infos : List BlockInfo) i block info, Kept function holds infos →
    function.blocks[i]? = some block → infos[i]? = some info →
      holds i (recompute function infos i block info))
include step

theorem kept_updateBlock {infos : List BlockInfo} (kept : Kept function holds infos)
    (changed : Bool) (i : Nat) :
    Kept function holds (updateBlock function (infos, changed) i).1 := by
  cases atInfo : infos[i]? with
  | none =>
      rw [updateBlock_of_none function infos changed atInfo]
      exact kept
  | some info =>
      have inside : i < function.blocks.length :=
        kept.length ▸ (List.getElem?_eq_some_iff.mp atInfo).1
      have atBlock := List.getElem?_eq_getElem inside
      rcases updateBlock_cases function infos changed i atBlock atInfo with ⟨same, -⟩ | ⟨replaced, -⟩
      · rw [same]
        exact kept
      · rw [replaced]
        refine ⟨by rw [List.length_set, kept.length], ?_⟩
        intro j other found
        rw [List.getElem?_set] at found
        split at found
        · rename_i same
          subst same
          split at found
          · cases found
            exact step infos i _ _ kept atBlock atInfo
          · cases found
        · exact kept.all j other found

theorem kept_foldl (order : List Nat) (state : List BlockInfo × Bool)
    (kept : Kept function holds state.1) :
    Kept function holds (order.foldl (updateBlock function) state).1 := by
  induction order generalizing state with
  | nil => exact kept
  | cons i order ih => exact ih _ (kept_updateBlock step kept state.2 i)

theorem kept_iterate {fuel : Nat} {infos result : List BlockInfo}
    (done : iterate function fuel infos = .ok result) (kept : Kept function holds infos) :
    Kept function holds result := by
  induction fuel generalizing infos with
  | zero => cases done
  | succ fuel ih =>
      have next : Kept function holds (sweep function infos).1 :=
        kept_foldl step _ (infos, false) kept
      simp only [iterate] at done
      split at done
      · exact ih done next
      · cases done
        exact next

end Induction

/-- Recomputing a block changes nothing or marks the change. -/
theorem updateBlock_unchanged_or (function : Function) (infos : List BlockInfo) (changed : Bool)
    (i : Nat) :
    (updateBlock function (infos, changed) i = (infos, changed) ∧
      ∀ block info, function.blocks[i]? = some block → infos[i]? = some info →
        Solved function infos i block info) ∨
      (updateBlock function (infos, changed) i).2 = true := by
  cases atInfo : infos[i]? with
  | none =>
      exact .inl ⟨updateBlock_of_none function infos changed atInfo, by simp⟩
  | some info =>
      cases atBlock : function.blocks[i]? with
      | none =>
          left
          constructor
          · simp [updateBlock, atBlock]
          · simp
      | some block =>
          rcases updateBlock_cases function infos changed i atBlock atInfo with
            ⟨same, solved⟩ | ⟨replaced, -⟩
          · left
            refine ⟨same, ?_⟩
            rintro _ _ ⟨⟩ ⟨⟩
            exact solved
          · right
            rw [replaced]

theorem foldl_updateBlock_changed (function : Function) (order : List Nat)
    (state : List BlockInfo × Bool) (changed : state.2 = true) :
    (order.foldl (updateBlock function) state).2 = true := by
  induction order generalizing state with
  | nil => exact changed
  | cons i order ih =>
      refine ih _ ?_
      obtain ⟨infos, flag⟩ := state
      rcases updateBlock_unchanged_or function infos flag i with ⟨same, -⟩ | marked
      · rw [same]
        exact changed
      · exact marked

/-- Nothing is marked as changed only when every equation holds. -/
theorem solved_of_unchanged {function : Function} (order : List Nat) {infos result : List BlockInfo}
    (done : order.foldl (updateBlock function) (infos, false) = (result, false)) :
    result = infos ∧ ∀ i ∈ order, ∀ block info, function.blocks[i]? = some block →
      infos[i]? = some info → Solved function infos i block info := by
  induction order with
  | nil =>
      cases done
      exact ⟨rfl, by simp⟩
  | cons i order ih =>
      rw [List.foldl_cons] at done
      rcases updateBlock_unchanged_or function infos false i with ⟨same, solved⟩ | marked
      · rw [same] at done
        obtain ⟨unchanged, rest⟩ := ih done
        exact ⟨unchanged, List.forall_mem_cons.mpr ⟨solved, rest⟩⟩
      · have flag := foldl_updateBlock_changed function order _ marked
        rw [done] at flag
        cases flag

theorem solved_of_iterate {function : Function} {fuel : Nat} {infos result : List BlockInfo}
    (done : iterate function fuel infos = .ok result) {i : Nat} {block : Block} {info : BlockInfo}
    (atBlock : function.blocks[i]? = some block) (atInfo : result[i]? = some info) :
    Solved function result i block info := by
  induction fuel generalizing infos with
  | zero => cases done
  | succ fuel ih =>
      simp only [iterate] at done
      split at done
      · exact ih done
      · rename_i unchanged
        cases done
        have last : sweep function infos = ((sweep function infos).1, false) :=
          Prod.ext rfl (Bool.eq_false_iff.mpr unchanged)
        obtain ⟨same, solved⟩ := solved_of_unchanged _ last
        rw [same] at atInfo ⊢
        refine solved i ?_ block info atBlock atInfo
        simp [(List.getElem?_eq_some_iff.mp atInfo).1]

/-! ### Exactness -/

section Exact

variable {function : Function} {infos : List BlockInfo} (done : compute function = .ok infos)
include done

/-- The result has the sets of the first pass, and nothing in it is live
without a path. -/
theorem kept_of_compute :
    Kept function (fun i info => ∀ block, function.blocks[i]? = some block →
      Scanned block info ∧ (∀ v, info.liveIn.contains v = true → LiveAt function v i) ∧
        ∀ v, info.liveOut.contains v = true → LiveAfter function v i) infos := by
  obtain ⟨initial, scanned, iterated⟩ := bind_eq_ok.mp done
  have related := mapM_eq_ok_iff.mp scanned
  refine kept_iterate ?_ iterated ⟨related.length_eq.symm, ?_⟩
  · intro current i block info kept atBlock atInfo other atOther
    cases atBlock.symm.trans atOther
    obtain ⟨isScanned, -, -⟩ := kept.all i info atInfo block atBlock
    have after : ∀ v, (joinSuccessors function current i block).contains v = true →
        LiveAfter function v i := by
      intro v isOut
      obtain ⟨s, isSucc, isLive⟩ := contains_joinSuccessors.mp isOut
      refine ⟨block, s, atBlock, isSucc, ?_⟩
      cases atSucc : current[s]? with
      | none => simp [infoAt, atSucc] at isLive
      | some next =>
          have inside : s < function.blocks.length :=
            kept.length ▸ (List.getElem?_eq_some_iff.mp atSucc).1
          simp only [infoAt, atSucc, Option.getD_some] at isLive
          exact (kept.all s next atSucc _ (List.getElem?_eq_getElem inside)).2.1 v isLive
    refine ⟨⟨isScanned.uses, isScanned.defs, isScanned.small⟩, fun v isIn => ?_, after⟩
    simp only [recompute, LiveSet.contains_union, LiveSet.contains_difference, Bool.or_eq_true,
      Bool.and_eq_true, Bool.not_eq_true'] at isIn
    rcases isIn with used | ⟨isOut, undefined⟩
    · exact .use atBlock ((isScanned.uses v).mp used)
    · obtain ⟨other, s, atOther, isSucc, live⟩ := after v isOut
      cases atBlock.symm.trans atOther
      refine .through atBlock (fun defined => ?_) isSucc live
      rw [(isScanned.defs v).mpr defined] at undefined
      cases undefined
  · intro i info atInfo block atBlock
    obtain ⟨other, atOther, isScan⟩ := getElem?_of_forall₂ related atInfo
    cases atBlock.symm.trans atOther
    obtain ⟨isScanned, noIn, noOut⟩ := scanBlock_spec isScan
    refine ⟨isScanned, fun v isIn => ?_, fun v isOut => ?_⟩
    · simp [noIn] at isIn
    · simp [noOut] at isOut

/-- The sets of a block in the result. -/
theorem compute_spec {i : Nat} {block : Block} (atBlock : function.blocks[i]? = some block) :
    ∃ info, infos[i]? = some info ∧ Scanned block info ∧ Solved function infos i block info := by
  have kept := kept_of_compute done
  have inside : i < infos.length := kept.length ▸ (List.getElem?_eq_some_iff.mp atBlock).1
  have atInfo := List.getElem?_eq_getElem inside
  obtain ⟨initial, -, iterated⟩ := bind_eq_ok.mp done
  exact ⟨_, atInfo, (kept.all i _ atInfo block atBlock).1,
    solved_of_iterate iterated atBlock atInfo⟩

/-- A register is in the live-in set of a block exactly when it is live at its
start. -/
theorem contains_liveIn {v i : Nat} :
    (infoAt infos i).liveIn.contains v = true ↔ LiveAt function v i := by
  constructor
  · intro isIn
    cases atInfo : infos[i]? with
    | none => simp [infoAt, atInfo] at isIn
    | some info =>
        have kept := kept_of_compute done
        have inside : i < function.blocks.length :=
          kept.length ▸ (List.getElem?_eq_some_iff.mp atInfo).1
        simp only [infoAt, atInfo, Option.getD_some] at isIn
        exact (kept.all i info atInfo _ (List.getElem?_eq_getElem inside)).2.1 v isIn
  · intro live
    induction live with
    | use found exposed =>
        obtain ⟨info, atInfo, scanned, solved⟩ := compute_spec done found
        simp only [infoAt, atInfo, Option.getD_some]
        rw [solved.entry, LiveSet.contains_union, (scanned.uses v).mpr exposed, Bool.true_or]
    | through found kept succ _ ih =>
        obtain ⟨info, atInfo, scanned, solved⟩ := compute_spec done found
        have isOut : info.liveOut.contains v = true := by
          rw [solved.out]
          exact contains_joinSuccessors.mpr ⟨_, succ, ih⟩
        have undefined : info.defs.contains v = false := by
          rw [Bool.eq_false_iff, Ne, scanned.defs]
          exact kept
        simp only [infoAt, atInfo, Option.getD_some]
        rw [solved.entry, LiveSet.contains_union, LiveSet.contains_difference, isOut, undefined]
        simp

/-- A register is in the live-out set of a block exactly when it is live at its
end. -/
theorem contains_liveOut {v i : Nat} :
    (infoAt infos i).liveOut.contains v = true ↔ LiveAfter function v i := by
  constructor
  · intro isOut
    cases atInfo : infos[i]? with
    | none => simp [infoAt, atInfo] at isOut
    | some info =>
        have kept := kept_of_compute done
        have inside : i < function.blocks.length :=
          kept.length ▸ (List.getElem?_eq_some_iff.mp atInfo).1
        simp only [infoAt, atInfo, Option.getD_some] at isOut
        exact (kept.all i info atInfo _ (List.getElem?_eq_getElem inside)).2.2 v isOut
  · rintro ⟨block, s, found, succ, live⟩
    obtain ⟨info, atInfo, -, solved⟩ := compute_spec done found
    simp only [infoAt, atInfo, Option.getD_some]
    rw [solved.out]
    exact contains_joinSuccessors.mpr ⟨s, succ, (contains_liveIn done).mpr live⟩

/-- Only small register indices pass the analysis. -/
theorem small_of_compute {i : Nat} {block : Block} (atBlock : function.blocks[i]? = some block) :
    (∀ syllable ∈ block.syllables, (∀ v ∈ syllable.sourceVregs, v < 64) ∧
      ∀ v, syllable.dstVreg = some v → v < 64) ∧
      ∀ v, block.terminator.condVreg = some v → v < 64 := by
  obtain ⟨info, -, scanned, -⟩ := compute_spec done atBlock
  exact scanned.small

end Exact

end VliwCompiler.Liveness
