import VliwCompiler.Regalloc.ControlFlow
import VliwCompiler.Regalloc.Dataflow
import Mathlib.Algebra.Order.BigOperators.Group.List

/-!
# Liveness is exact

The backward iteration ends because every pass that changes something adds an
element to one of the sets, and the sets it ends with describe the paths of the
control-flow graph from a program point to a read.
-/

namespace VliwCompiler

open Mir (Reg Value Syllable Terminator Block Function)

namespace Liveness

/-! ### Termination -/

namespace LiveSet

/-- Number of elements. -/
def size (set : LiveSet) : Nat := ((List.range 64).filter set.contains).length

/-- Every element of the first set is one of the second. -/
def Included (set other : LiveSet) : Prop :=
  ∀ idx, set.contains idx = true → other.contains idx = true

theorem size_le (set : LiveSet) : set.size ≤ 64 := by
  have bounded := List.length_filter_le set.contains (List.range 64)
  rwa [List.length_range] at bounded

theorem lt_of_contains {set : LiveSet} {idx : Nat} (isElement : set.contains idx = true) :
    idx < 64 := by
  rw [contains_eq] at isElement
  exact BitVec.lt_of_getLsbD isElement

theorem eq_of_contains {set other : LiveSet}
    (same : ∀ idx, set.contains idx = other.contains idx) : set = other := by
  obtain ⟨bits⟩ := set
  obtain ⟨bits'⟩ := other
  refine congrArg LiveSet.mk (BitVec.eq_of_getLsbD_eq fun idx _ => ?_)
  rw [← contains_eq ⟨bits⟩, ← contains_eq ⟨bits'⟩, same]

theorem size_le_of_included {set other : LiveSet} (included : set.Included other) :
    set.size ≤ other.size := by
  unfold size
  exact (List.monotone_filter_right _ included).length_le

/-- A larger set with the same number of elements is the same set. -/
theorem eq_of_size_le {set other : LiveSet} (included : set.Included other)
    (few : other.size ≤ set.size) : set = other := by
  have sub : ((List.range 64).filter set.contains).Sublist
      ((List.range 64).filter other.contains) := List.monotone_filter_right _ included
  have sameElements := sub.eq_of_length_le few
  refine eq_of_contains fun idx => ?_
  rw [Bool.eq_iff_iff]
  refine ⟨included idx, fun isElement => ?_⟩
  have isMem : idx ∈ (List.range 64).filter other.contains :=
    List.mem_filter.mpr ⟨List.mem_range.mpr (lt_of_contains isElement), isElement⟩
  rw [← sameElements] at isMem
  exact (List.mem_filter.mp isMem).2

end LiveSet

open LiveSet (Included)

/-- The sets grow: each is contained in what its block would be given next. -/
structure Ascending (function : Function) (infos : List BlockInfo) : Prop where
  length : infos.length = function.blocks.length
  out : ∀ i block, function.blocks[i]? = some block →
    Included (infoAt infos i).liveOut (joinSuccessors function infos i block)
  entry : ∀ i, Included (infoAt infos i).liveIn
    ((infoAt infos i).useBeforeDef.union ((infoAt infos i).liveOut.difference (infoAt infos i).defs))

/-- Total number of elements. -/
def totalSize (infos : List BlockInfo) : Nat :=
  (infos.map fun info => info.liveIn.size + info.liveOut.size).sum

theorem totalSize_le (infos : List BlockInfo) : totalSize infos ≤ 128 * infos.length := by
  induction infos with
  | nil => exact Nat.le_refl 0
  | cons info infos ih =>
      have first := info.liveIn.size_le
      have second := info.liveOut.size_le
      simp only [totalSize, List.map_cons, List.sum_cons, List.length_cons] at ih ⊢
      omega

theorem totalSize_set {infos : List BlockInfo} {i : Nat} {info : BlockInfo} (next : BlockInfo)
    (found : infos[i]? = some info) :
    totalSize (infos.set i next) + (info.liveIn.size + info.liveOut.size) =
      totalSize infos + (next.liveIn.size + next.liveOut.size) := by
  induction infos generalizing i with
  | nil => cases found
  | cons first infos ih =>
      cases i with
      | zero =>
          cases found
          simp only [totalSize, List.set_cons_zero, List.map_cons, List.sum_cons]
          omega
      | succ i =>
          have inRest := ih found
          simp only [totalSize, List.set_cons_succ, List.map_cons, List.sum_cons] at inRest ⊢
          omega

theorem infoAt_eq {infos : List BlockInfo} {i : Nat} {info : BlockInfo}
    (found : infos[i]? = some info) : infoAt infos i = info := by
  rw [infoAt, found]
  rfl

theorem infoAt_set {infos : List BlockInfo} {i : Nat} {info : BlockInfo} (next : BlockInfo)
    (found : infos[i]? = some info) (k : Nat) :
    infoAt (infos.set i next) k = if k = i then next else infoAt infos k := by
  unfold infoAt
  by_cases same : k = i
  · subst same
    rw [if_pos rfl, List.getElem?_set_self (List.getElem?_eq_some_iff.mp found).1]
    rfl
  · rw [if_neg same, List.getElem?_set_ne (Ne.symm same)]

/-- Recomputing a block only adds elements. -/
theorem ascending_recompute {function : Function} {infos : List BlockInfo} {i : Nat} {block : Block}
    {info : BlockInfo} (ascending : Ascending function infos)
    (atBlock : function.blocks[i]? = some block) (atInfo : infos[i]? = some info) :
    Ascending function (infos.set i (recompute function infos i block info)) ∧
      Included info.liveOut (recompute function infos i block info).liveOut ∧
      Included info.liveIn (recompute function infos i block info).liveIn := by
  have outGrows : Included info.liveOut (recompute function infos i block info).liveOut := by
    have grows := ascending.out i block atBlock
    rwa [infoAt_eq atInfo] at grows
  have inGrows : Included info.liveIn (recompute function infos i block info).liveIn := by
    intro idx isElement
    have grows := ascending.entry i
    rw [infoAt_eq atInfo] at grows
    have inUnion := grows idx isElement
    simp only [recompute, LiveSet.contains_union, LiveSet.contains_difference, Bool.or_eq_true,
      Bool.and_eq_true] at inUnion ⊢
    exact inUnion.imp_right fun both => ⟨outGrows idx both.1, both.2⟩
  have joinGrows : ∀ k other, Included (joinSuccessors function infos k other)
      (joinSuccessors function (infos.set i (recompute function infos i block info)) k other) := by
    intro k other idx isElement
    obtain ⟨s, isSucc, isLive⟩ := contains_joinSuccessors.mp isElement
    refine contains_joinSuccessors.mpr ⟨s, isSucc, ?_⟩
    rw [infoAt_set _ atInfo]
    split
    · rename_i same
      rw [same, infoAt_eq atInfo] at isLive
      exact inGrows idx isLive
    · exact isLive
  refine ⟨⟨by rw [List.length_set, ascending.length], ?_, ?_⟩, outGrows, inGrows⟩
  · intro k other isOther idx isElement
    rw [infoAt_set _ atInfo] at isElement
    split at isElement
    · rename_i same
      subst same
      obtain rfl := Option.some.inj (atBlock.symm.trans isOther)
      exact joinGrows k block idx isElement
    · exact joinGrows k other idx (ascending.out k other isOther idx isElement)
  · intro k
    rw [infoAt_set _ atInfo]
    split
    · exact fun idx isElement => isElement
    · exact ascending.entry k

/-- Recomputing a block that changes it adds an element. -/
theorem totalSize_recompute {function : Function} {infos : List BlockInfo} {i : Nat} {block : Block}
    {info : BlockInfo} (ascending : Ascending function infos)
    (atBlock : function.blocks[i]? = some block) (atInfo : infos[i]? = some info)
    (changes : ¬Solved function infos i block info) :
    totalSize infos < totalSize (infos.set i (recompute function infos i block info)) := by
  obtain ⟨-, outGrows, inGrows⟩ := ascending_recompute ascending atBlock atInfo
  have outLe := LiveSet.size_le_of_included outGrows
  have inLe := LiveSet.size_le_of_included inGrows
  have balance := totalSize_set (recompute function infos i block info) atInfo
  by_contra notLess
  have sameOut := LiveSet.eq_of_size_le outGrows (by omega)
  have sameIn := LiveSet.eq_of_size_le inGrows (by omega)
  refine changes ⟨sameOut, sameIn.trans ?_⟩
  change info.useBeforeDef.union ((recompute function infos i block info).liveOut.difference
    info.defs) = _
  rw [← sameOut]

theorem ascending_updateBlock {function : Function} {infos : List BlockInfo}
    (ascending : Ascending function infos) (changed : Bool) (i : Nat) :
    Ascending function (updateBlock function (infos, changed) i).1 ∧
      totalSize infos ≤ totalSize (updateBlock function (infos, changed) i).1 ∧
      ((updateBlock function (infos, changed) i).2 = true → changed = true ∨
        totalSize infos < totalSize (updateBlock function (infos, changed) i).1) := by
  cases atInfo : infos[i]? with
  | none =>
      rw [updateBlock_of_none function infos changed atInfo]
      exact ⟨ascending, Nat.le_refl _, .inl⟩
  | some info =>
      have inside := (List.getElem?_eq_some_iff.mp atInfo).1
      rw [ascending.length] at inside
      have atBlock := List.getElem?_eq_getElem inside
      rcases updateBlock_cases function infos changed i atBlock atInfo with
        ⟨same, -⟩ | ⟨replaced, changes⟩
      · rw [same]
        exact ⟨ascending, Nat.le_refl _, .inl⟩
      · rw [replaced]
        have grows := totalSize_recompute ascending atBlock atInfo changes
        exact ⟨(ascending_recompute ascending atBlock atInfo).1, Nat.le_of_lt grows,
          fun _ => .inr grows⟩

theorem ascending_foldl {function : Function} (order : List Nat) (state : List BlockInfo × Bool)
    (ascending : Ascending function state.1) :
    Ascending function (order.foldl (updateBlock function) state).1 ∧
      totalSize state.1 ≤ totalSize (order.foldl (updateBlock function) state).1 ∧
      ((order.foldl (updateBlock function) state).2 = true → state.2 = true ∨
        totalSize state.1 < totalSize (order.foldl (updateBlock function) state).1) := by
  induction order generalizing state with
  | nil => exact ⟨ascending, Nat.le_refl _, .inl⟩
  | cons i order ih =>
      obtain ⟨infos, changed⟩ := state
      obtain ⟨next, grows, changes⟩ := ascending_updateBlock ascending changed i
      obtain ⟨final, growsLater, changesLater⟩ :=
        ih (updateBlock function (infos, changed) i) next
      refine ⟨final, Nat.le_trans grows growsLater, fun isChanged => ?_⟩
      rcases changesLater isChanged with before | later
      · rcases changes before with already | here
        · exact .inl already
        · exact .inr (Nat.lt_of_lt_of_le here growsLater)
      · exact .inr (Nat.lt_of_le_of_lt grows later)

/-- A pass that changes something adds an element. -/
theorem ascending_sweep {function : Function} {infos : List BlockInfo}
    (ascending : Ascending function infos) :
    Ascending function (sweep function infos).1 ∧
      ((sweep function infos).2 = true → totalSize infos < totalSize (sweep function infos).1) := by
  obtain ⟨next, -, changes⟩ :=
    ascending_foldl (List.range infos.length).reverse (infos, false) ascending
  exact ⟨next, fun isChanged => (changes isChanged).resolve_left Bool.false_ne_true⟩

/-- With enough fuel the iteration ends. -/
theorem exists_iterate {function : Function} {fuel : Nat} {infos : List BlockInfo}
    (ascending : Ascending function infos)
    (enough : 128 * function.blocks.length < totalSize infos + fuel) :
    ∃ result, iterate function fuel infos = .ok result := by
  induction fuel generalizing infos with
  | zero =>
      have bound := totalSize_le infos
      rw [ascending.length] at bound
      omega
  | succ fuel ih =>
      obtain ⟨next, grows⟩ := ascending_sweep ascending
      simp only [iterate]
      by_cases isChanged : (sweep function infos).2 = true
      · rw [if_pos isChanged]
        refine ih next ?_
        have more := grows isChanged
        omega
      · rw [if_neg isChanged]
        exact ⟨_, rfl⟩

/-- Every virtual register of the block has an index below 64. -/
def SmallIndices (block : Block) : Prop :=
  (∀ syllable ∈ block.syllables, (∀ v ∈ syllable.sourceVregs, v < 64) ∧
    ∀ v, syllable.dstVreg = some v → v < 64) ∧
    ∀ v, block.terminator.condVreg = some v → v < 64

theorem exists_scanVreg (info : BlockInfo) {idx : Nat} (small : idx < 64) :
    ∃ result, scanVreg info idx = .ok result := by
  unfold scanVreg
  split
  · exact ⟨info, rfl⟩
  · unfold LiveSet.insert
    rw [if_pos small]
    exact ⟨_, rfl⟩

theorem exists_scanSyllable (info : BlockInfo) {syllable : Syllable}
    (sources : ∀ v ∈ syllable.sourceVregs, v < 64)
    (dst : ∀ v, syllable.dstVreg = some v → v < 64) :
    ∃ result, scanSyllable info syllable = .ok result := by
  obtain ⟨middle, scanned⟩ : ∃ middle, syllable.srcs.foldlM scanSource info = .ok middle := by
    refine exists_foldlM_ok ?_ info
    intro acc value valueMem
    unfold scanSource
    split
    · rename_i idx
      exact exists_scanVreg acc (sources idx (Mir.Syllable.mem_sourceVregs.mpr valueMem))
    · exact ⟨acc, rfl⟩
  unfold scanSyllable
  rw [scanned]
  simp only [bind, Except.bind]
  split
  · rename_i idx isDst
    unfold LiveSet.insert
    rw [if_pos (dst idx (Mir.Syllable.dstVreg_eq_some.mpr isDst))]
    exact ⟨_, rfl⟩
  · exact ⟨middle, rfl⟩

/-- The first pass over a block fails on an index of 64 or more only. -/
theorem exists_scanBlock {block : Block} :
    (∃ info, scanBlock block = .ok info) ↔ SmallIndices block := by
  constructor
  · rintro ⟨info, scanned⟩
    exact (scanBlock_spec scanned).1.small
  · rintro ⟨syllables, cond⟩
    obtain ⟨middle, scanned⟩ : ∃ middle, block.syllables.foldlM scanSyllable {} = .ok middle :=
      exists_foldlM_ok (fun acc syllable syllableMem =>
        exists_scanSyllable acc (syllables syllable syllableMem).1
          (syllables syllable syllableMem).2) {}
    unfold scanBlock scanTerminator
    rw [scanned]
    simp only [bind, Except.bind]
    split
    · rename_i idx label isBranch
      exact exists_scanVreg middle (cond idx (Mir.Terminator.condVreg_eq_some.mpr ⟨label, isBranch⟩))
    · exact ⟨middle, rfl⟩

/-- The analysis runs to its end exactly on functions with small indices. -/
theorem exists_compute {function : Function} :
    (∃ infos, compute function = .ok infos) ↔ ∀ block ∈ function.blocks, SmallIndices block := by
  constructor
  · rintro ⟨infos, computed⟩ block blockMem
    obtain ⟨i, found⟩ := List.mem_iff_getElem?.mp blockMem
    exact small_of_compute computed found
  · intro small
    obtain ⟨initial, scanned⟩ := exists_mapM_ok fun block blockMem =>
      exists_scanBlock.mpr (small block blockMem)
    have related := mapM_eq_ok_iff.mp scanned
    have empty : ∀ i, (infoAt initial i).liveIn = {} ∧ (infoAt initial i).liveOut = {} := by
      intro i
      cases atInfo : initial[i]? with
      | none => simp [infoAt, atInfo]
      | some info =>
          rw [infoAt_eq atInfo]
          obtain ⟨block, -, isScan⟩ := exists_mem_of_forall₂ related (List.mem_of_getElem? atInfo)
          exact (scanBlock_spec isScan).2
    have ascending : Ascending function initial := by
      refine ⟨related.length_eq.symm, ?_, ?_⟩
      · intro i block _ idx isElement
        rw [(empty i).2] at isElement
        simp at isElement
      · intro i idx isElement
        rw [(empty i).1] at isElement
        simp at isElement
    obtain ⟨infos, iterated⟩ :=
      exists_iterate ascending (Nat.lt_of_lt_of_le (Nat.lt_succ_self _) (Nat.le_add_left _ _))
    exact ⟨infos, bind_eq_ok.mpr ⟨initial, scanned, iterated⟩⟩

/-! ### Paths of program points -/

/-- The register is read at a program point.  A point is a block and a position
in it; the position after the last syllable is that of the terminator. -/
structure ReadsAt (function : Function) (v : Nat) (point : Nat × Nat) (block : Block) : Prop where
  found : function.blocks[point.1]? = some block
  reads : (∃ syllable, block.syllables[point.2]? = some syllable ∧ v ∈ syllable.sourceVregs) ∨
    (point.2 = block.syllables.length ∧ block.terminator.condVreg = some v)

/-- Control passes from one point to the next without defining the register. -/
inductive Passes (function : Function) (v : Nat) : Nat × Nat → Nat × Nat → Prop where
  | syllable {i j : Nat} {block : Block} {syllable : Syllable}
      (found : function.blocks[i]? = some block) (here : block.syllables[j]? = some syllable)
      (kept : syllable.dstVreg ≠ some v) : Passes function v (i, j) (i, j + 1)
  | edge {i s : Nat} {block : Block} (found : function.blocks[i]? = some block)
      (flow : Flow function i s) : Passes function v (i, block.syllables.length) (s, 0)

/-- Some path from the point reads the register before defining it. -/
def ReadLater (function : Function) (v : Nat) (point : Nat × Nat) : Prop :=
  ∃ last block, Relation.ReflTransGen (Passes function v) point last ∧
    ReadsAt function v last block

theorem ReadLater.head {function : Function} {v : Nat} {point next : Nat × Nat}
    (step : Passes function v point next) (later : ReadLater function v next) :
    ReadLater function v point := by
  obtain ⟨last, block, path, reads⟩ := later
  exact ⟨last, block, .head step path, reads⟩

/-- An exposed read in the rest of a block is the end of a path inside it. -/
theorem readLater_of_exposed {function : Function} {v i : Nat} {block : Block}
    (found : function.blocks[i]? = some block) (rest : List Syllable) (j : Nat)
    (isRest : block.syllables.drop j = rest) (inside : j ≤ block.syllables.length)
    (exposed : Exposed block.terminator v rest) : ReadLater function v (i, j) := by
  induction rest generalizing j with
  | nil =>
      have isEnd : j = block.syllables.length :=
        Nat.le_antisymm inside (List.drop_eq_nil_iff.mp isRest)
      exact ⟨(i, j), block, .refl, found, .inr ⟨isEnd, exposed⟩⟩
  | cons syllable rest ih =>
      have here : block.syllables[j]? = some syllable := by
        rw [← List.head?_drop, isRest]
        rfl
      have more : j < block.syllables.length := (List.getElem?_eq_some_iff.mp here).1
      rcases exposed with reads | ⟨kept, later⟩
      · exact ⟨(i, j), block, .refl, found, .inl ⟨syllable, here, reads⟩⟩
      · refine ReadLater.head (.syllable found here kept) (ih (j + 1) ?_ more later)
        rw [← List.tail_drop, isRest]
        rfl

/-- A path crosses the rest of a block that does not define the register. -/
theorem readLater_of_kept {function : Function} {v i s : Nat} {block : Block}
    (found : function.blocks[i]? = some block) (flow : Flow function i s)
    (later : ReadLater function v (s, 0)) (rest : List Syllable) (j : Nat)
    (isRest : block.syllables.drop j = rest) (inside : j ≤ block.syllables.length)
    (kept : ¬Defines rest v) : ReadLater function v (i, j) := by
  induction rest generalizing j with
  | nil =>
      obtain rfl : j = block.syllables.length :=
        Nat.le_antisymm inside (List.drop_eq_nil_iff.mp isRest)
      exact ReadLater.head (.edge found flow) later
  | cons syllable rest ih =>
      have here : block.syllables[j]? = some syllable := by
        rw [← List.head?_drop, isRest]
        rfl
      rw [defines_cons, not_or] at kept
      refine ReadLater.head (.syllable found here kept.1)
        (ih (j + 1) ?_ (List.getElem?_eq_some_iff.mp here).1 kept.2)
      rw [← List.tail_drop, isRest]
      rfl

/-- The register is live inside a block. -/
structure LiveInside (function : Function) (v : Nat) (point : Nat × Nat) (block : Block) :
    Prop where
  found : function.blocks[point.1]? = some block
  live : Exposed block.terminator v (block.syllables.drop point.2) ∨
    (¬Defines (block.syllables.drop point.2) v ∧ LiveAfter function v point.1)

theorem LiveInside.liveAt {function : Function} {v i : Nat} {block : Block}
    (inside : LiveInside function v (i, 0) block) : LiveAt function v i := by
  rcases inside.live with exposed | ⟨kept, other, s, found, succ, live⟩
  · exact .use inside.found exposed
  · obtain rfl := Option.some.inj (found.symm.trans inside.found)
    exact .through found kept succ live

theorem drop_eq_cons {syllables : List Syllable} {j : Nat} {syllable : Syllable}
    (here : syllables[j]? = some syllable) :
    syllables.drop j = syllable :: syllables.drop (j + 1) := by
  obtain ⟨inside, rfl⟩ := List.getElem?_eq_some_iff.mp here
  exact List.drop_eq_getElem_cons inside

theorem liveInside_of_readLater {function : Function} {v : Nat} {point : Nat × Nat}
    (later : ReadLater function v point) : ∃ block, LiveInside function v point block := by
  obtain ⟨last, block, path, reads⟩ := later
  induction path using Relation.ReflTransGen.head_induction_on with
  | refl =>
      refine ⟨block, reads.found, .inl ?_⟩
      rcases reads.reads with ⟨syllable, here, isRead⟩ | ⟨isEnd, isCond⟩
      · rw [drop_eq_cons here]
        exact .inl isRead
      · rw [isEnd, List.drop_length]
        exact isCond
  | head step _ ih =>
      obtain ⟨next, inside⟩ := ih
      cases step with
      | syllable found here kept =>
          obtain rfl := Option.some.inj (found.symm.trans inside.found)
          refine ⟨_, found, ?_⟩
          rw [drop_eq_cons here, defines_cons]
          rcases inside.live with exposed | ⟨keptLater, after⟩
          · exact .inl (.inr ⟨kept, exposed⟩)
          · exact .inr ⟨not_or.mpr ⟨kept, keptLater⟩, after⟩
      | edge found flow =>
          refine ⟨_, found, .inr ⟨?_, _, _, found, (mem_successors found).mpr flow, inside.liveAt⟩⟩
          rw [List.drop_length]
          simp [Defines]

theorem liveAt_iff_readLater {function : Function} {v i : Nat} :
    LiveAt function v i ↔ ReadLater function v (i, 0) := by
  constructor
  · intro live
    induction live with
    | use found exposed =>
        exact readLater_of_exposed found _ 0 List.drop_zero (Nat.zero_le _) exposed
    | through found kept succ _ ih =>
        exact readLater_of_kept found ((mem_successors found).mp succ) ih _ 0 List.drop_zero
          (Nat.zero_le _) kept
  · intro later
    obtain ⟨block, inside⟩ := liveInside_of_readLater later
    exact inside.liveAt

theorem liveAfter_iff_readLater {function : Function} {v i : Nat} :
    LiveAfter function v i ↔ ∃ s, Flow function i s ∧ ReadLater function v (s, 0) := by
  constructor
  · rintro ⟨block, s, found, succ, live⟩
    exact ⟨s, (mem_successors found).mp succ, liveAt_iff_readLater.mp live⟩
  · rintro ⟨s, flow, later⟩
    obtain ⟨block, found⟩ := flow.source
    exact ⟨block, s, found, (mem_successors found).mpr flow, liveAt_iff_readLater.mpr later⟩

/-- The analysis ends, and a register is in a live set exactly when some path
from there reads it before defining it. -/
theorem compute_exact {function : Function}
    (small : ∀ block ∈ function.blocks, SmallIndices block) :
    ∃ infos, compute function = .ok infos ∧ infos.length = function.blocks.length ∧
      ∀ i info, infos[i]? = some info → ∀ v,
        (info.liveIn.contains v = true ↔ ReadLater function v (i, 0)) ∧
        (info.liveOut.contains v = true ↔
          ∃ s, Flow function i s ∧ ReadLater function v (s, 0)) := by
  obtain ⟨infos, computed⟩ := exists_compute.mpr small
  refine ⟨infos, computed, (kept_of_compute computed).length, ?_⟩
  intro i info atInfo v
  rw [← infoAt_eq atInfo, ← liveAt_iff_readLater, ← liveAfter_iff_readLater]
  exact ⟨contains_liveIn computed, contains_liveOut computed⟩

/-- A loop of two blocks. -/
def simpleLoop : Function :=
  ⟨"simple_loop",
    [⟨"header",
        [⟨.add, some (.vreg 0), [.reg (.vreg 0), .imm 1]⟩,
          ⟨.cmpEq, some (.vreg 1), [.reg (.vreg 0), .imm 10]⟩],
        .branch (.vreg 1) "body"⟩,
      ⟨"body", [], .jump "header"⟩]⟩

theorem simpleLoop_small : ∀ block ∈ simpleLoop.blocks, SmallIndices block := by
  simp [simpleLoop, SmallIndices, Syllable.sourceVregs, Syllable.dstVreg, Value.vreg?,
    Terminator.condVreg]

theorem compute_exact_simpleLoop :
    ∃ infos, compute simpleLoop = .ok infos ∧ infos.length = 2 ∧
      ∀ i info, infos[i]? = some info → ∀ v,
        (info.liveIn.contains v = true ↔ ReadLater simpleLoop v (i, 0)) ∧
        (info.liveOut.contains v = true ↔
          ∃ s, Flow simpleLoop i s ∧ ReadLater simpleLoop v (s, 0)) :=
  compute_exact simpleLoop_small

end Liveness

end VliwCompiler
