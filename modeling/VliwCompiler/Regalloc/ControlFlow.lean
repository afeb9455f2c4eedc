import VliwCompiler.Regalloc.Liveness

/-!
# Control flow of a function

The control-flow graph behind the successor lists: a branch goes to the block
its label denotes or falls through, a jump and a call continue at the block
their label denotes.
-/

namespace VliwCompiler

open Mir (Block Function Terminator)

namespace Liveness

/-- The block a label denotes.  If a label is used twice, the later block
counts. -/
structure Denotes (function : Function) (label : String) (s : Nat) : Prop where
  block : function.blocks[s]?.map (·.label) = some label
  last : ∀ t, s < t → function.blocks[t]?.map (·.label) ≠ some label

/-- Control can go from the end of block `i` to the start of block `s`. -/
inductive Flow (function : Function) (i s : Nat) : Prop where
  | taken {block : Block} {cond : Mir.Reg} {label : String}
      (found : function.blocks[i]? = some block)
      (isBranch : block.terminator = .branch cond label)
      (target : Denotes function label s) : Flow function i s
  | fallThrough {block : Block} {cond : Mir.Reg} {label : String}
      (found : function.blocks[i]? = some block)
      (isBranch : block.terminator = .branch cond label) (next : s = i + 1)
      (inside : s < function.blocks.length) : Flow function i s
  | jump {block : Block} {label : String} (found : function.blocks[i]? = some block)
      (isJump : block.terminator = .jump label) (target : Denotes function label s) :
      Flow function i s
  | continuation {block : Block} {callee label : String}
      (found : function.blocks[i]? = some block)
      (isCall : block.terminator = .directCall callee label)
      (target : Denotes function label s) : Flow function i s

theorem Flow.source {function : Function} {i s : Nat} (flow : Flow function i s) :
    ∃ block, function.blocks[i]? = some block := by
  cases flow with
  | taken found _ _ | fallThrough found _ _ _ | jump found _ _ | continuation found _ _ =>
      exact ⟨_, found⟩

/-- The label table of a list of blocks. -/
def indexLabels (blocks : List Block) : HashMap String Nat :=
  blocks.zipIdx.foldl (fun map (block, i) => map.insert block.label i) ∅

theorem indexLabels_append_singleton (blocks : List Block) (block : Block) :
    indexLabels (blocks ++ [block]) = (indexLabels blocks).insert block.label blocks.length := by
  unfold indexLabels
  rw [List.zipIdx_append, List.foldl_append]
  simp

theorem lookup_indexLabels {blocks : List Block} {label : String} {s : Nat} :
    (indexLabels blocks).lookup label = some s ↔
      blocks[s]?.map (·.label) = some label ∧
        ∀ t, s < t → blocks[t]?.map (·.label) ≠ some label := by
  induction blocks using List.reverseRecOn with
  | nil => simp [indexLabels]
  | append_singleton blocks block ih =>
      rw [indexLabels_append_singleton]
      have atEnd : ∀ t, blocks.length < t → (blocks ++ [block])[t]? = none := fun t beyond => by
        rw [List.getElem?_eq_none_iff, List.length_append, List.length_singleton]
        omega
      have before : ∀ t, t < blocks.length → (blocks ++ [block])[t]? = blocks[t]? := fun t inside =>
        List.getElem?_append_left inside
      have here : (blocks ++ [block])[blocks.length]? = some block := List.getElem?_concat_length
      by_cases same : label = block.label
      · subst same
        rw [AList.lookup_insert, Option.some.injEq]
        constructor
        · rintro rfl
          refine ⟨by rw [here]; rfl, fun t beyond => ?_⟩
          rw [atEnd t beyond]
          exact Option.some_ne_none _ |>.symm
        · rintro ⟨isLabel, last⟩
          rcases Nat.lt_trichotomy s blocks.length with below | isEnd | beyond
          · exact absurd (by rw [here]; rfl) (last blocks.length below)
          · exact isEnd.symm
          · rw [atEnd s beyond] at isLabel
            cases isLabel
      · rw [AList.lookup_insert_ne same, ih]
        have other : (blocks ++ [block])[blocks.length]?.map (·.label) ≠ some label := by
          rw [here]
          exact fun isLabel => same (Option.some.inj isLabel).symm
        constructor
        · rintro ⟨isLabel, last⟩
          have inside : s < blocks.length := by
            obtain ⟨found, isFound, -⟩ := Option.map_eq_some_iff.mp isLabel
            exact (List.getElem?_eq_some_iff.mp isFound).1
          refine ⟨by rwa [before s inside], fun t above => ?_⟩
          rcases Nat.lt_trichotomy t blocks.length with below | rfl | beyond
          · rw [before t below]
            exact last t above
          · exact other
          · rw [atEnd t beyond]
            exact Option.some_ne_none _ |>.symm
        · rintro ⟨isLabel, last⟩
          have inside : s < blocks.length := by
            rcases Nat.lt_trichotomy s blocks.length with below | rfl | beyond
            · exact below
            · exact absurd isLabel other
            · rw [atEnd s beyond] at isLabel
              cases isLabel
          refine ⟨by rwa [before s inside] at isLabel, fun t above isLater => ?_⟩
          have insideT : t < blocks.length := by
            obtain ⟨found, isFound, -⟩ := Option.map_eq_some_iff.mp isLater
            exact (List.getElem?_eq_some_iff.mp isFound).1
          exact last t above (by rwa [before t insideT])

theorem lookup_labelToIdx {function : Function} {label : String} {s : Nat} :
    (labelToIdx function).lookup label = some s ↔ Denotes function label s := by
  rw [show labelToIdx function = indexLabels function.blocks from rfl, lookup_indexLabels]
  exact ⟨fun both => ⟨both.1, both.2⟩, fun denotes => ⟨denotes.block, denotes.last⟩⟩

/-- A label denotes a block of the function. -/
theorem Denotes.inside {function : Function} {label : String} {s : Nat}
    (denotes : Denotes function label s) : s < function.blocks.length := by
  obtain ⟨block, found, -⟩ := Option.map_eq_some_iff.mp denotes.block
  exact (List.getElem?_eq_some_iff.mp found).1

/-- The successor lists describe the control flow. -/
theorem mem_successors {function : Function} {i s : Nat} {block : Block}
    (found : function.blocks[i]? = some block) :
    s ∈ successors function i block ↔ Flow function i s := by
  have same : ∀ {other}, function.blocks[i]? = some other → other = block := fun isOther =>
    Option.some.inj (isOther.symm.trans found)
  unfold successors
  cases isTerminator : block.terminator with
  | branch cond label =>
      have isFlow : Flow function i s ↔
          Denotes function label s ∨ (s = i + 1 ∧ i + 1 < function.blocks.length) := by
        constructor
        · intro flow
          cases flow with
          | taken isBlock isBranch target =>
              rw [same isBlock, isTerminator] at isBranch
              cases isBranch
              exact .inl target
          | fallThrough isBlock isBranch next inside => exact .inr ⟨next, next ▸ inside⟩
          | jump isBlock isJump target =>
              rw [same isBlock, isTerminator] at isJump
              cases isJump
          | continuation isBlock isCall target =>
              rw [same isBlock, isTerminator] at isCall
              cases isCall
        · rintro (target | ⟨next, inside⟩)
          · exact .taken found isTerminator target
          · exact .fallThrough found isTerminator next (next ▸ inside)
      rw [isFlow, ← lookup_labelToIdx]
      dsimp only
      by_cases falls : i + 1 < function.blocks.length ∧
          i + 1 ∉ ((labelToIdx function).lookup label).toList
      · rw [if_pos falls]
        simp [falls.1]
      · rw [if_neg falls]
        rw [Option.mem_toList]
        constructor
        · exact .inl
        · rintro (target | ⟨rfl, inside⟩)
          · exact target
          · by_contra absent
            exact falls ⟨inside, by rwa [Option.mem_toList]⟩
  | jump label =>
      dsimp only
      rw [Option.mem_toList, lookup_labelToIdx]
      constructor
      · exact .jump found isTerminator
      · intro flow
        cases flow with
        | taken isBlock isBranch target | fallThrough isBlock isBranch next inside =>
            rw [same isBlock, isTerminator] at isBranch
            cases isBranch
        | jump isBlock isJump target =>
            rw [same isBlock, isTerminator] at isJump
            cases isJump
            exact target
        | continuation isBlock isCall target =>
            rw [same isBlock, isTerminator] at isCall
            cases isCall
  | ret =>
      refine ⟨fun impossible => (by cases impossible), fun flow => ?_⟩
      cases flow with
      | taken isBlock isEnd target | fallThrough isBlock isEnd next inside
      | jump isBlock isEnd target | continuation isBlock isEnd target =>
          rw [same isBlock, isTerminator] at isEnd
          cases isEnd
  | directCall callee label =>
      dsimp only
      rw [Option.mem_toList, lookup_labelToIdx]
      constructor
      · exact .continuation found isTerminator
      · intro flow
        cases flow with
        | taken isBlock isBranch target | fallThrough isBlock isBranch next inside =>
            rw [same isBlock, isTerminator] at isBranch
            cases isBranch
        | jump isBlock isJump target =>
            rw [same isBlock, isTerminator] at isJump
            cases isJump
        | continuation isBlock isCall target =>
            rw [same isBlock, isTerminator] at isCall
            cases isCall
            exact target

end Liveness

end VliwCompiler
