import VliwCompiler.Mir.Semantics
import Mathlib.Data.List.Nodup

/-!
# Blocks and labels of a module

The blocks of a module in layout order and the labels that name them.  When no
label is defined twice, every way of resolving a label agrees.
-/

namespace VliwCompiler.Mir

open Machine

/-- The blocks of functions numbered from `offset`. -/
theorem getElem?_blockIds_from {functions : List Function} {offset index : Nat} {id : BlockId}
    (found : ((functions.zipIdx offset).flatMap fun (function, func) =>
      (List.range function.blocks.length).map (BlockId.mk func))[index]? = some id) :
    ∃ function, offset ≤ id.func ∧ functions[id.func - offset]? = some function ∧
      id.block < function.blocks.length ∧
      (id.block + 1 < function.blocks.length →
        ((functions.zipIdx offset).flatMap fun (function, func) =>
          (List.range function.blocks.length).map (BlockId.mk func))[index + 1]? =
            some ⟨id.func, id.block + 1⟩) := by
  induction functions generalizing offset index with
  | nil => simp at found
  | cons function rest ih =>
      rw [List.zipIdx_cons, List.flatMap_cons] at found ⊢
      by_cases here : index < function.blocks.length
      · rw [List.getElem?_append_left (by simpa using here)] at found
        simp only [List.getElem?_map, List.getElem?_range here, Option.map_some,
          Option.some.injEq] at found
        subst found
        refine ⟨function, Nat.le_refl _, by simp, here, ?_⟩
        intro next
        rw [List.getElem?_append_left (by simpa using next)]
        simp only [List.getElem?_map, List.getElem?_range next, Option.map_some]
      · rw [List.getElem?_append_right (by simpa using here)] at found
        obtain ⟨other, above, isOther, inside, next⟩ := ih found
        refine ⟨other, by omega, ?_, inside, ?_⟩
        · rw [show id.func - offset = id.func - (offset + 1) + 1 by omega]
          exact isOther
        · intro more
          rw [List.getElem?_append_right (by simp; omega)]
          have shifted := next more
          simp only [List.length_map, List.length_range] at shifted ⊢
          rwa [show index + 1 - function.blocks.length = index - function.blocks.length + 1 by
            omega]

section Module

variable {functions : List Function}

/-- A block of the layout exists in its function. -/
theorem blockAt_of_getElem?_blockIds {index : Nat} {id : BlockId}
    (found : (blockIds functions)[index]? = some id) :
    ∃ function block, functions[id.func]? = some function ∧
      function.blocks[id.block]? = some block ∧ blockAt functions id = some block := by
  obtain ⟨function, -, isFunction, inside, -⟩ := getElem?_blockIds_from found
  rw [Nat.sub_zero] at isFunction
  have isBlock := List.getElem?_eq_getElem inside
  exact ⟨function, _, isFunction, isBlock, by simp [blockAt, isFunction, isBlock]⟩

/-- The fall-through successor is the next block of the layout. -/
theorem getElem?_blockIds_succ {index : Nat} {id next : BlockId}
    (found : (blockIds functions)[index]? = some id)
    (falls : fallThrough functions id = some next) :
    (blockIds functions)[index + 1]? = some next := by
  obtain ⟨function, -, isFunction, -, following⟩ := getElem?_blockIds_from found
  rw [Nat.sub_zero] at isFunction
  obtain ⟨block, isBlock, rfl⟩ := Option.map_eq_some_iff.mp falls
  simp only [blockAt, isFunction, Option.bind_some] at isBlock
  exact following (List.getElem?_eq_some_iff.mp isBlock).1

/-- Blocks that exist are in the layout. -/
theorem mem_blockIds_of_blockAt {id : BlockId} {block : Block}
    (found : blockAt functions id = some block) : id ∈ blockIds functions := by
  obtain ⟨function, isFunction, isBlock⟩ := Option.bind_eq_some_iff.mp found
  unfold blockIds
  rw [List.mem_flatMap]
  refine ⟨(function, id.func), List.mk_mem_zipIdx_iff_getElem?.mpr isFunction, ?_⟩
  exact List.mem_map.mpr
    ⟨id.block, List.mem_range.mpr (List.getElem?_eq_some_iff.mp isBlock).1, rfl⟩

theorem blockAt_of_mem_blockIds {id : BlockId} (idMem : id ∈ blockIds functions) :
    ∃ block, blockAt functions id = some block := by
  obtain ⟨index, found⟩ := List.mem_iff_getElem?.mp idMem
  obtain ⟨_, block, -, -, isBlock⟩ := blockAt_of_getElem?_blockIds found
  exact ⟨block, isBlock⟩

/-- Only the return addresses of blocks matter. -/
theorem step_congr_link (isa : Isa Asm.Opcode) {link link' : BlockId → Word}
    (agree : ∀ id ∈ blockIds functions, link id = link' id) :
    step functions isa link = step functions isa link' := by
  have returns : returnBlock functions link = returnBlock functions link' := by
    funext address
    unfold returnBlock
    have pointwise : ∀ ids : List BlockId, (∀ id ∈ ids, link id = link' id) →
        ids.find? (fun id => link id = address) = ids.find? fun id => link' id = address := by
      intro ids same
      induction ids with
      | nil => rfl
      | cons id ids ih =>
          obtain ⟨first, others⟩ := List.forall_mem_cons.mp same
          rw [List.find?_cons, List.find?_cons, first, ih others]
    exact pointwise _ agree
  have follows : ∀ id state terminator,
      follow functions link id state terminator = follow functions link' id state terminator := by
    intro id state terminator
    cases terminator with
    | branch cond label => rfl
    | jump label => rfl
    | ret => simp only [follow, returns]
    | directCall target cont =>
        simp only [follow]
        cases found : labelledBlock functions id.func cont with
        | none => rfl
        | some continuation =>
            obtain ⟨function, isFunction, isIndex⟩ := Option.bind_eq_some_iff.mp found
            obtain ⟨index, isFound, rfl⟩ := Option.map_eq_some_iff.mp isIndex
            obtain ⟨bound, -, -⟩ := List.findIdx?_eq_some_iff_getElem.mp isFound
            have isBlock : blockAt functions ⟨id.func, index⟩ = some function.blocks[index] := by
              simp [blockAt, isFunction, List.getElem?_eq_getElem bound]
            rw [Option.bind_some, Option.bind_some, agree _ (mem_blockIds_of_blockAt isBlock)]
  funext config
  unfold step
  simp only [follows]

/-! ### Targets -/

section

variable (functions)

/-- A branch or jump names a block of its function, a call a function with code. -/
def hasTarget (func : Nat) : Terminator → Bool
  | .branch _ label | .jump label => (labelledBlock functions func label).isSome
  | .directCall name _ => (entryBlock functions name).isSome
  | .ret => true

/-- All control transfers of a module have targets. -/
def TargetsDefined : Prop :=
  ∀ id ∈ blockIds functions, ∀ block ∈ blockAt functions id,
    hasTarget functions id.func block.terminator = true

instance : Decidable (TargetsDefined functions) :=
  inferInstanceAs (Decidable (∀ id ∈ blockIds functions, ∀ block ∈ blockAt functions id,
    hasTarget functions id.func block.terminator = true))

end

/-! ### Labels -/

variable (functions) in
/-- All labels of a module in layout order. -/
def moduleLabels : List String := (blockIds functions).flatMap (blockLabels functions)

theorem mem_blockLabels {id : BlockId} {block : Block} (found : blockAt functions id = some block) :
    block.label ∈ blockLabels functions id := by
  simp [blockLabels, found]

variable (distinct : (moduleLabels functions).Nodup)
include distinct

/-- A label that is defined once names one block. -/
theorem index_unique {name : String} {first second : Nat} {left right : BlockId}
    (atFirst : (blockIds functions)[first]? = some left)
    (atSecond : (blockIds functions)[second]? = some right)
    (inLeft : name ∈ blockLabels functions left)
    (inRight : name ∈ blockLabels functions right) : first = second := by
  have apart := (List.nodup_flatMap.mp distinct).2
  rw [List.pairwise_iff_getElem] at apart
  obtain ⟨firstBound, rfl⟩ := List.getElem?_eq_some_iff.mp atFirst
  obtain ⟨secondBound, rfl⟩ := List.getElem?_eq_some_iff.mp atSecond
  rcases Nat.lt_trichotomy first second with less | same | greater
  · exact (apart first second firstBound secondBound less inLeft inRight).elim
  · exact same
  · exact (apart second first secondBound firstBound greater inRight inLeft).elim

theorem namedBlock_eq_some {name : String} {id : BlockId} (idMem : id ∈ blockIds functions)
    (labelMem : name ∈ blockLabels functions id) : namedBlock functions name = some id := by
  have present : (namedBlock functions name).isSome := by
    unfold namedBlock
    rw [List.find?_isSome]
    exact ⟨id, idMem, by simpa using labelMem⟩
  obtain ⟨other, isOther⟩ := Option.isSome_iff_exists.mp present
  have otherMem := List.mem_of_find?_eq_some isOther
  have otherLabel : name ∈ blockLabels functions other := by
    simpa using List.find?_some isOther
  obtain ⟨first, atFirst⟩ := List.mem_iff_getElem?.mp idMem
  obtain ⟨second, atSecond⟩ := List.mem_iff_getElem?.mp otherMem
  obtain rfl := index_unique distinct atFirst atSecond labelMem otherLabel
  rw [isOther]
  exact atSecond.symm.trans atFirst

theorem labelledBlock_eq_some {id : BlockId} {block : Block}
    (found : blockAt functions id = some block) :
    labelledBlock functions id.func block.label = some id := by
  obtain ⟨function, isFunction, isBlock⟩ := Option.bind_eq_some_iff.mp found
  have present : (function.blocks.findIdx? (·.label = block.label)).isSome := by
    rw [List.findIdx?_isSome, List.any_eq_true]
    exact ⟨block, List.mem_of_getElem? isBlock, by simp⟩
  obtain ⟨other, isOther⟩ := Option.isSome_iff_exists.mp present
  obtain ⟨bound, sameLabel, -⟩ := List.findIdx?_eq_some_iff_getElem.mp isOther
  have otherAt : blockAt functions ⟨id.func, other⟩ = some function.blocks[other] := by
    simp [blockAt, isFunction, List.getElem?_eq_getElem bound]
  have otherLabel := mem_blockLabels otherAt
  rw [of_decide_eq_true sameLabel] at otherLabel
  have named := namedBlock_eq_some distinct (mem_blockIds_of_blockAt otherAt) otherLabel
  have named' := namedBlock_eq_some distinct (mem_blockIds_of_blockAt found)
    (mem_blockLabels found)
  rw [named] at named'
  unfold labelledBlock
  rw [isFunction, Option.bind_some, isOther, Option.map_some]
  exact named'

theorem namedBlock_of_labelledBlock {func : Nat} {label : String} {id : BlockId}
    (found : labelledBlock functions func label = some id) :
    namedBlock functions label = some id := by
  obtain ⟨function, isFunction, isIndex⟩ := Option.bind_eq_some_iff.mp found
  obtain ⟨index, isFound, rfl⟩ := Option.map_eq_some_iff.mp isIndex
  obtain ⟨bound, sameLabel, -⟩ := List.findIdx?_eq_some_iff_getElem.mp isFound
  have isBlock : blockAt functions ⟨func, index⟩ = some function.blocks[index] := by
    simp [blockAt, isFunction, List.getElem?_eq_getElem bound]
  have labelMem := mem_blockLabels isBlock
  rw [of_decide_eq_true sameLabel] at labelMem
  exact namedBlock_eq_some distinct (mem_blockIds_of_blockAt isBlock) labelMem

theorem namedBlock_of_entryBlock {name : String} {id : BlockId}
    (found : entryBlock functions name = some id) : namedBlock functions name = some id := by
  obtain ⟨func, isFound, rfl⟩ := Option.map_eq_some_iff.mp found
  obtain ⟨bound, accepted, -⟩ := List.findIdx?_eq_some_iff_getElem.mp isFound
  obtain ⟨sameName, nonempty⟩ := of_decide_eq_true accepted
  have inside : 0 < functions[func].blocks.length := List.length_pos_iff.mpr nonempty
  have isBlock : blockAt functions ⟨func, 0⟩ = some functions[func].blocks[0] := by
    simp [blockAt, List.getElem?_eq_getElem bound, List.getElem?_eq_getElem inside]
  refine namedBlock_eq_some distinct (mem_blockIds_of_blockAt isBlock) ?_
  simp [blockLabels, List.getElem?_eq_getElem bound, sameName]

/-- Without repeated labels a jump resolves its label in the whole module. -/
theorem jumpTarget_eq_namedBlock (func : Nat) (label : String) :
    jumpTarget functions func label = namedBlock functions label := by
  unfold jumpTarget
  cases found : labelledBlock functions func label with
  | none => rfl
  | some id => exact (namedBlock_of_labelledBlock distinct found).symm

/-- Without repeated labels a call resolves its label in the whole module. -/
theorem callTarget_eq_namedBlock (name : String) :
    callTarget functions name = namedBlock functions name := by
  unfold callTarget
  cases found : entryBlock functions name with
  | none => rfl
  | some id => exact (namedBlock_of_entryBlock distinct found).symm

end Module

end VliwCompiler.Mir
