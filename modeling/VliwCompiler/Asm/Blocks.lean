import VliwCompiler.Asm.Run
import VliwCompiler.Machine.LockStep
import VliwCompiler.Data.MapM

/-!
# Programs made of blocks

Emitted programs are sequences of blocks: labels, bundles without control
transfers and one last bundle that transfers control.  This file locates the
blocks of such a program and runs the straight-line part of a block.
-/

namespace VliwCompiler.Asm

open Machine

/-! ### Labels -/

/-- The label defined by an item. -/
def Item.label? : Item → Option String
  | .label name => some name
  | .bundle _ => none

/-- All labels of a program in the order of their definitions. -/
def programLabels (items : List Item) : List String := items.filterMap Item.label?

theorem mem_programLabels {items : List Item} {name : String} :
    name ∈ programLabels items ↔ Item.label name ∈ items := by
  unfold programLabels
  rw [List.mem_filterMap]
  constructor
  · rintro ⟨item, itemMem, isLabel⟩
    cases item with
    | label other =>
        cases isLabel
        exact itemMem
    | bundle bundle => cases isLabel
  · intro itemMem
    exact ⟨_, itemMem, rfl⟩

/-- The bundle of an item. -/
def Item.bundle? : Item → Option Bundle
  | .label _ => none
  | .bundle body => some body

/-- All bundles of a program in layout order. -/
def programBundles (items : List Item) : List Bundle := items.filterMap Item.bundle?

theorem programBundles_append (first second : List Item) :
    programBundles (first ++ second) = programBundles first ++ programBundles second :=
  List.filterMap_append

@[simp]
theorem programBundles_map_bundle (bundles : List Bundle) :
    programBundles (bundles.map .bundle) = bundles := by
  unfold programBundles
  rw [List.filterMap_map]
  exact List.filterMap_some

theorem mem_programBundles {items : List Item} {bundle : Bundle} :
    bundle ∈ programBundles items ↔ Item.bundle bundle ∈ items := by
  unfold programBundles
  rw [List.mem_filterMap]
  constructor
  · rintro ⟨item, itemMem, isBundle⟩
    cases item with
    | label name => cases isBundle
    | bundle other =>
        cases isBundle
        exact itemMem
  · intro itemMem
    exact ⟨_, itemMem, rfl⟩

/-- A label that is defined once has one position. -/
theorem position_unique {items : List Item} (nodup : (programLabels items).Nodup) {name : String}
    {first second : Nat} (atFirst : items[first]? = some (.label name))
    (atSecond : items[second]? = some (.label name)) : first = second := by
  induction items generalizing first second with
  | nil => simp at atFirst
  | cons head tail ih =>
      have tailNodup : (programLabels tail).Nodup := by
        cases head with
        | label other => exact (List.nodup_cons.mp nodup).2
        | bundle bundle => exact nodup
      have headFresh : ∀ position : Nat, tail[position]? = some (Item.label name) →
          head ≠ Item.label name := by
        rintro position atPosition rfl
        exact (List.nodup_cons.mp nodup).1
          (mem_programLabels.mpr (List.mem_of_getElem? atPosition))
      cases first with
      | zero =>
          cases second with
          | zero => rfl
          | succ second =>
              simp only [List.getElem?_cons_zero, Option.some.injEq] at atFirst
              exact absurd atFirst (headFresh second atSecond)
      | succ first =>
          cases second with
          | zero =>
              simp only [List.getElem?_cons_zero, Option.some.injEq] at atSecond
              exact absurd atSecond (headFresh first atFirst)
          | succ second => exact congrArg Nat.succ (ih tailNodup atFirst atSecond)

/-- The position found for a label that is defined once. -/
theorem labelPosition_eq_some {items : List Item} (nodup : (programLabels items).Nodup)
    {name : String} {position : Nat} (found : items[position]? = some (.label name)) :
    labelPosition items name = some position := by
  have present : (labelPosition items name).isSome := by
    unfold labelPosition
    rw [List.findIdx?_isSome, List.any_eq_true]
    exact ⟨_, List.mem_of_getElem? found, by simp⟩
  obtain ⟨other, isOther⟩ := Option.isSome_iff_exists.mp present
  have atOther : items[other]? = some (.label name) := by
    obtain ⟨bound, same, -⟩ := List.findIdx?_eq_some_iff_getElem.mp isOther
    rw [List.getElem?_eq_getElem bound, of_decide_eq_true same]
  rw [isOther, position_unique nodup atOther found]

theorem labelPosition_eq_none {items : List Item} {name : String}
    (absent : name ∉ programLabels items) : labelPosition items name = none := by
  unfold labelPosition
  rw [List.findIdx?_eq_none_iff]
  intro item itemMem
  by_contra same
  simp only [Bool.not_eq_false, decide_eq_true_eq] at same
  exact absent (mem_programLabels.mpr (same ▸ itemMem))

/-! ### Blocks -/

/-- The code of one block: an optional function name, the block's label, the
bundles that do not transfer control and the one that does. -/
structure BlockCode where
  name : Option String
  label : String
  body : List Bundle
  last : Bundle

namespace BlockCode

/-- The labels of a block. -/
def labels (code : BlockCode) : List String := code.name.toList ++ [code.label]

/-- The items of a block. -/
def items (code : BlockCode) : List Item :=
  code.labels.map .label ++ (code.body ++ [code.last]).map .bundle

/-- Offset of the label of a block within its items. -/
def labelOffset (code : BlockCode) : Nat := code.name.toList.length

@[simp]
theorem length_items (code : BlockCode) :
    code.items.length = code.labelOffset + 1 + code.body.length + 1 := by
  simp [items, labels, labelOffset]
  omega

theorem items_getElem?_label (code : BlockCode) :
    code.items[code.labelOffset]? = some (.label code.label) := by
  simp [items, labels, labelOffset]

/-- The first item of a block is a label. -/
theorem exists_first_label (code : BlockCode) :
    ∃ name, code.items[0]? = some (.label name) := by
  unfold items labels
  cases code.name with
  | none => exact ⟨code.label, rfl⟩
  | some name => exact ⟨name, rfl⟩

theorem items_getElem?_body (code : BlockCode) (index : Nat) :
    code.items[code.labelOffset + 1 + index]? =
      ((code.body ++ [code.last])[index]?).map .bundle := by
  unfold items
  rw [List.getElem?_append_right (by simp [labels, labelOffset]), ← List.getElem?_map]
  simp [labels, labelOffset]

/-- Every label of a block stands before or at the block's own label. -/
theorem offset_le_of_label {code : BlockCode} {offset : Nat} {name : String}
    (found : code.items[offset]? = some (.label name)) :
    offset ≤ code.labelOffset ∧ name ∈ code.labels := by
  have bound : offset < code.labels.length := by
    by_contra outside
    unfold items at found
    rw [List.getElem?_append_right (by simpa using outside), List.getElem?_map] at found
    obtain ⟨bundle, -, same⟩ := Option.map_eq_some_iff.mp found
    cases same
  constructor
  · simp only [labels, List.length_append, List.length_singleton] at bound
    exact Nat.lt_succ_iff.mp bound
  · unfold items at found
    rw [List.getElem?_append_left (by simpa using bound), List.getElem?_map] at found
    obtain ⟨other, isOther, same⟩ := Option.map_eq_some_iff.mp found
    cases same
    exact List.mem_of_getElem? isOther

/-- A block without a function name starts with its label. -/
theorem labelOffset_eq_zero {code : BlockCode} (unnamed : code.name = none) :
    code.labelOffset = 0 := by
  simp [labelOffset, unnamed]

theorem programLabels_items (code : BlockCode) : programLabels code.items = code.labels := by
  have onLabels : ∀ names : List String,
      (names.map Item.label).filterMap Item.label? = names := by
    intro names
    rw [List.filterMap_map]
    exact List.filterMap_some
  have onBundles : ∀ bundles : List Bundle,
      (bundles.map Item.bundle).filterMap Item.label? = [] := by
    intro bundles
    rw [List.filterMap_map, List.filterMap_eq_nil_iff]
    exact fun _ _ => rfl
  unfold programLabels items
  rw [List.filterMap_append, onLabels, onBundles, List.append_nil]

end BlockCode

/-- The items of a sequence of blocks. -/
def blockItems (codes : List BlockCode) : List Item := codes.flatMap BlockCode.items

/-- The position of the first item of a block. -/
def blockStart (codes : List BlockCode) (index : Nat) : Nat :=
  (blockItems (codes.take index)).length

theorem programLabels_blockItems (codes : List BlockCode) :
    programLabels (blockItems codes) = codes.flatMap BlockCode.labels := by
  induction codes with
  | nil => rfl
  | cons code rest ih =>
      change (code.items ++ blockItems rest).filterMap Item.label? = _
      rw [List.filterMap_append, List.flatMap_cons]
      exact congrArg₂ (· ++ ·) (BlockCode.programLabels_items code) ih

theorem blockStart_succ {codes : List BlockCode} {index : Nat} {code : BlockCode}
    (found : codes[index]? = some code) :
    blockStart codes (index + 1) = blockStart codes index + code.items.length := by
  unfold blockStart blockItems
  rw [List.take_add_one, found, List.flatMap_append, List.length_append]
  simp

theorem blockStart_mono (codes : List BlockCode) {first second : Nat} (le : first ≤ second) :
    blockStart codes first ≤ blockStart codes second := by
  have taken : codes.take first = (codes.take second).take first := by
    rw [List.take_take, Nat.min_eq_left le]
  unfold blockStart
  rw [taken]
  conv_rhs => rw [← List.take_append_drop first (codes.take second)]
  unfold blockItems
  rw [List.flatMap_append, List.length_append]
  exact Nat.le_add_right _ _

theorem blockItems_split {codes : List BlockCode} {index : Nat} {code : BlockCode}
    (found : codes[index]? = some code) :
    blockItems codes =
      blockItems (codes.take index) ++ (code.items ++ blockItems (codes.drop (index + 1))) := by
  obtain ⟨bound, rfl⟩ := List.getElem?_eq_some_iff.mp found
  have split : codes = codes.take index ++ codes[index] :: codes.drop (index + 1) := by
    rw [← List.drop_eq_getElem_cons bound, List.take_append_drop]
  unfold blockItems
  conv_lhs => rw [split]
  rw [List.flatMap_append, List.flatMap_cons]

theorem blockItems_head (codes : List BlockCode) :
    ∀ item ∈ (blockItems codes).head?, item.isBundle = false := by
  intro item isHead
  cases codes with
  | nil => cases isHead
  | cons code codes =>
      obtain ⟨name, isLabel⟩ := code.exists_first_label
      have isFirst : (blockItems (code :: codes))[0]? = some (.label name) := by
        unfold blockItems
        rw [List.flatMap_cons, List.getElem?_append_left (by simp), isLabel]
      rw [List.head?_eq_getElem?, isFirst] at isHead
      cases isHead
      rfl

/-- The labels of a block end where its bundles begin, and the bundles where the next
block begins. -/
theorem items_append_injective {code other : BlockCode} {codes others : List BlockCode}
    (same : code.items ++ blockItems codes = other.items ++ blockItems others) :
    code.labels.map Item.label = other.labels.map Item.label ∧
      (code.body ++ [code.last]).map Item.bundle = (other.body ++ [other.last]).map Item.bundle ∧
      blockItems codes = blockItems others := by
  unfold BlockCode.items at same
  rw [List.append_assoc, List.append_assoc] at same
  have isLabel : ∀ names : List String, ∀ item ∈ names.map Item.label,
      (!item.isBundle) = true := by
    intro names item itemMem
    obtain ⟨name, -, rfl⟩ := List.mem_map.mp itemMem
    rfl
  have isBundle : ∀ bundles : List Bundle, ∀ item ∈ bundles.map Item.bundle,
      item.isBundle = true := by
    intro bundles item itemMem
    obtain ⟨bundle, -, rfl⟩ := List.mem_map.mp itemMem
    rfl
  have firstBundle : ∀ (code : BlockCode) (rest : List Item),
      ∀ item ∈ ((code.body ++ [code.last]).map Item.bundle ++ rest).head?,
        (!item.isBundle) = false := by
    intro code rest item isHead
    cases isBody : code.body with
    | nil =>
        rw [isBody] at isHead
        cases isHead
        rfl
    | cons bundle body =>
        rw [isBody] at isHead
        cases isHead
        rfl
  obtain ⟨labels, rest⟩ := append_inj_of_forall (isLabel _) (isLabel _)
    (firstBundle code _) (firstBundle other _) same
  exact ⟨labels, append_inj_of_forall (isBundle _) (isBundle _) (blockItems_head codes)
    (blockItems_head others) rest⟩

theorem items_ne_nil (code : BlockCode) (rest : List Item) : code.items ++ rest ≠ [] := by
  obtain ⟨name, isLabel⟩ := code.exists_first_label
  intro empty
  rw [(List.append_eq_nil_iff.mp empty).1] at isLabel
  cases isLabel

/-- A block is determined by its labels and its bundles. -/
theorem blockCode_ext {code other : BlockCode}
    (labels : code.labels.map Item.label = other.labels.map Item.label)
    (bundles : (code.body ++ [code.last]).map Item.bundle =
      (other.body ++ [other.last]).map Item.bundle) : code = other := by
  obtain ⟨names, label⟩ := List.append_inj' (List.map_injective_iff.mpr
    (fun _ _ equal => Item.label.inj equal) labels) rfl
  obtain ⟨body, last⟩ := List.append_inj' (List.map_injective_iff.mpr
    (fun _ _ equal => Item.bundle.inj equal) bundles) rfl
  have name : code.name = other.name := by
    have heads := congrArg List.head? names
    rwa [Option.head?_toList, Option.head?_toList] at heads
  cases code
  cases other
  cases name
  cases body
  cases label
  cases last
  rfl

/-- The blocks of a program can be read off its items. -/
theorem blockItems_injective {codes others : List BlockCode}
    (same : blockItems codes = blockItems others) : codes = others := by
  induction codes generalizing others with
  | nil =>
      cases others with
      | nil => rfl
      | cons other others => exact absurd same.symm (items_ne_nil other _)
  | cons code codes ih =>
      cases others with
      | nil => exact absurd same (items_ne_nil code _)
      | cons other others =>
          obtain ⟨labels, bundles, rest⟩ := items_append_injective same
          rw [blockCode_ext labels bundles, ih rest]

/-- The items of a block within the program. -/
theorem blockItems_getElem? {codes : List BlockCode} {index offset : Nat} {code : BlockCode}
    (found : codes[index]? = some code) (bound : offset < code.items.length) :
    (blockItems codes)[blockStart codes index + offset]? = code.items[offset]? := by
  rw [blockItems_split found]
  unfold blockStart
  rw [List.getElem?_append_right (by omega), Nat.add_sub_cancel_left,
    List.getElem?_append_left bound]

/-- Every position lies in a block. -/
theorem exists_block_of_position {codes : List BlockCode} {position : Nat}
    (bound : position < (blockItems codes).length) :
    ∃ index code offset, codes[index]? = some code ∧ offset < code.items.length ∧
      position = blockStart codes index + offset := by
  induction codes generalizing position with
  | nil => simp [blockItems] at bound
  | cons code rest ih =>
      by_cases here : position < code.items.length
      · exact ⟨0, code, position, rfl, here, by simp [blockStart, blockItems]⟩
      · have lengthEq : (blockItems (code :: rest)).length =
            code.items.length + (blockItems rest).length := by
          simp only [blockItems, List.flatMap_cons, List.length_append]
        have later : position - code.items.length < (blockItems rest).length := by omega
        obtain ⟨index, other, offset, found, inside, same⟩ := ih later
        refine ⟨index + 1, other, offset, found, inside, ?_⟩
        have startEq : blockStart (code :: rest) (index + 1) =
            code.items.length + blockStart rest index := by
          simp only [blockStart, blockItems, List.take_succ_cons, List.flatMap_cons,
            List.length_append]
        omega

/-- Every label of the program is a label of one of its blocks. -/
theorem exists_block_of_label {codes : List BlockCode} {position : Nat} {name : String}
    (found : (blockItems codes)[position]? = some (.label name)) :
    ∃ index code offset, codes[index]? = some code ∧ offset ≤ code.labelOffset ∧
      name ∈ code.labels ∧ position = blockStart codes index + offset := by
  obtain ⟨bound, -⟩ := List.getElem?_eq_some_iff.mp found
  obtain ⟨index, code, offset, atIndex, inside, rfl⟩ := exists_block_of_position bound
  rw [blockItems_getElem? atIndex inside] at found
  obtain ⟨before, isLabel⟩ := BlockCode.offset_le_of_label found
  exact ⟨index, code, offset, atIndex, before, isLabel, rfl⟩

/-- No bundle stands between the first item of a block and its label. -/
theorem bundleNumber_label {codes : List BlockCode} {index offset : Nat} {code : BlockCode}
    (found : codes[index]? = some code) (before : offset ≤ code.labelOffset) :
    bundleNumber (blockItems codes) (blockStart codes index + offset) =
      bundleNumber (blockItems codes) (blockStart codes index) := by
  unfold bundleNumber
  rw [blockItems_split found]
  unfold blockStart
  rw [List.take_length_add_append, List.take_left, List.countP_append]
  suffices none : ((code.items ++ blockItems (codes.drop (index + 1))).take offset).countP
      Item.isBundle = 0 by
    rw [none, Nat.add_zero]
  rw [List.countP_eq_zero]
  intro item itemMem
  have short : offset ≤ (code.labels.map Item.label).length := by
    simp only [BlockCode.labelOffset] at before
    simp only [BlockCode.labels, List.length_map, List.length_append, List.length_singleton]
    omega
  unfold BlockCode.items at itemMem
  rw [List.append_assoc, List.take_append_of_le_length short] at itemMem
  obtain ⟨name, -, rfl⟩ := List.mem_map.mp (List.mem_of_mem_take itemMem)
  simp [Item.isBundle]

/-! ### Bundles of blocks -/

/-- The bundles of a block. -/
def BlockCode.bundles (code : BlockCode) : List Bundle := code.body ++ [code.last]

/-- The number of the first bundle of a block. -/
def firstBundle (codes : List BlockCode) (index : Nat) : Nat :=
  ((codes.take index).flatMap BlockCode.bundles).length

@[simp]
theorem BlockCode.length_bundles (code : BlockCode) :
    code.bundles.length = code.body.length + 1 := by
  simp [bundles]

theorem programBundles_blockItems (codes : List BlockCode) :
    programBundles (blockItems codes) = codes.flatMap BlockCode.bundles := by
  induction codes with
  | nil => rfl
  | cons code codes ih =>
      have onLabels : programBundles (code.labels.map Item.label) = [] := by
        unfold programBundles
        rw [List.filterMap_map, List.filterMap_eq_nil_iff]
        exact fun _ _ => rfl
      change programBundles (code.items ++ blockItems codes) = _
      rw [programBundles_append, ih, List.flatMap_cons]
      unfold BlockCode.items
      rw [programBundles_append, onLabels, programBundles_map_bundle, List.nil_append]
      rfl

theorem firstBundle_succ {codes : List BlockCode} {index : Nat} {code : BlockCode}
    (found : codes[index]? = some code) :
    firstBundle codes (index + 1) = firstBundle codes index + code.body.length + 1 := by
  unfold firstBundle
  rw [List.take_add_one, found, List.flatMap_append, List.length_append]
  simp
  omega

theorem bundles_getElem? {codes : List BlockCode} {index offset : Nat} {code : BlockCode}
    (found : codes[index]? = some code) (inside : offset ≤ code.body.length) :
    (programBundles (blockItems codes))[firstBundle codes index + offset]? =
      code.bundles[offset]? := by
  obtain ⟨bound, rfl⟩ := List.getElem?_eq_some_iff.mp found
  have split : codes = codes.take index ++ codes[index] :: codes.drop (index + 1) := by
    rw [← List.drop_eq_getElem_cons bound, List.take_append_drop]
  rw [programBundles_blockItems]
  conv_lhs => rw [split]
  unfold firstBundle
  rw [List.flatMap_append, List.flatMap_cons, ← split, List.getElem?_append_right (by omega),
    Nat.add_sub_cancel_left,
    List.getElem?_append_left (by rw [BlockCode.length_bundles]; omega)]

/-- Every bundle belongs to a block. -/
theorem exists_block_of_bundle {codes : List BlockCode} {position : Nat} {bundle : Bundle}
    (found : (programBundles (blockItems codes))[position]? = some bundle) :
    ∃ index code offset, codes[index]? = some code ∧ offset ≤ code.body.length ∧
      code.bundles[offset]? = some bundle ∧ position = firstBundle codes index + offset := by
  rw [programBundles_blockItems] at found
  obtain ⟨bound, rfl⟩ := List.getElem?_eq_some_iff.mp found
  have split : codes.flatMap BlockCode.bundles =
      (codes.flatMap BlockCode.bundles).take position ++
        (codes.flatMap BlockCode.bundles)[position] ::
          (codes.flatMap BlockCode.bundles).drop (position + 1) := by
    rw [← List.drop_eq_getElem_cons bound, List.take_append_drop]
  obtain ⟨front, code, back, left, right, whole, isCode, before, -⟩ :=
    exists_split_of_flatMap split
  have length : left.length + right.length + 1 = code.body.length + 1 := by
    rw [← BlockCode.length_bundles, isCode, List.length_append, List.length_cons]
    omega
  refine ⟨front.length, code, left.length, by rw [whole]; simp, by omega, ?_, ?_⟩
  · rw [isCode]
    simp
  · have isPosition := congrArg List.length before
    rw [List.length_take, List.length_append] at isPosition
    unfold firstBundle
    rw [whole, List.take_left]
    omega

theorem bundleNumber_blockStart (codes : List BlockCode) (index : Nat) :
    bundleNumber (blockItems codes) (blockStart codes index) = firstBundle codes index := by
  have counts : ∀ items : List Item, items.countP Item.isBundle = (programBundles items).length := by
    intro items
    induction items with
    | nil => rfl
    | cons item items ih =>
        cases item with
        | label name => rwa [List.countP_cons_of_neg (by simp [Item.isBundle])]
        | bundle bundle =>
            rw [List.countP_cons_of_pos (by rfl), ih]
            rfl
  have split : blockItems codes = blockItems (codes.take index) ++ blockItems (codes.drop index) := by
    unfold blockItems
    rw [← List.flatMap_append, List.take_append_drop]
  unfold bundleNumber blockStart firstBundle
  rw [split, List.take_left, counts, programBundles_blockItems]

/-- A label leads to the first block that carries it. -/
theorem exists_block_of_labelPosition {codes : List BlockCode} {position : Nat} {name : String}
    (found : labelPosition (blockItems codes) name = some position) :
    ∃ index, codes.findIdx? (name ∈ ·.labels) = some index ∧
      bundleNumber (blockItems codes) position = firstBundle codes index := by
  obtain ⟨bound, same, first⟩ := List.findIdx?_eq_some_iff_getElem.mp found
  have atPosition : (blockItems codes)[position]? = some (.label name) := by
    rw [List.getElem?_eq_getElem bound, of_decide_eq_true same]
  obtain ⟨index, code, offset, isCode, before, isLabel, rfl⟩ := exists_block_of_label atPosition
  refine ⟨index, ?_, by rw [bundleNumber_label isCode before, bundleNumber_blockStart]⟩
  obtain ⟨inside, rfl⟩ := List.getElem?_eq_some_iff.mp isCode
  refine List.findIdx?_eq_some_iff_getElem.mpr ⟨inside, by simpa using isLabel, ?_⟩
  intro other less carries
  have otherCode : codes[other]? = some codes[other] := List.getElem?_eq_getElem (by omega)
  have isItem : Item.label name ∈ codes[other].items :=
    List.mem_append_left _ (List.mem_map_of_mem (of_decide_eq_true carries))
  obtain ⟨at', atItem⟩ := List.getElem?_of_mem isItem
  obtain ⟨short, -⟩ := List.getElem?_eq_some_iff.mp atItem
  have earlier := blockItems_getElem? otherCode short
  have next : blockStart codes (other + 1) ≤ blockStart codes index := blockStart_mono codes less
  have length := blockStart_succ otherCode
  rw [atItem] at earlier
  obtain ⟨otherBound, isOther⟩ := List.getElem?_eq_some_iff.mp earlier
  have before : blockStart codes other + at' < blockStart codes index + offset := by omega
  exact first _ before (by simpa using isOther)

theorem exists_labelPosition {codes : List BlockCode} {index : Nat} {name : String}
    (found : codes.findIdx? (name ∈ ·.labels) = some index) :
    ∃ position, labelPosition (blockItems codes) name = some position ∧
      bundleNumber (blockItems codes) position = firstBundle codes index := by
  obtain ⟨bound, carries, -⟩ := List.findIdx?_eq_some_iff_getElem.mp found
  have isItem : Item.label name ∈ blockItems codes :=
    List.mem_flatMap.mpr ⟨codes[index], List.getElem_mem bound,
      List.mem_append_left _ (List.mem_map_of_mem (of_decide_eq_true carries))⟩
  obtain ⟨position, isPosition⟩ : ∃ position,
      labelPosition (blockItems codes) name = some position := by
    refine Option.isSome_iff_exists.mp ?_
    unfold labelPosition
    rw [List.findIdx?_isSome, List.any_eq_true]
    exact ⟨_, isItem, by simp⟩
  obtain ⟨other, isOther, number⟩ := exists_block_of_labelPosition isPosition
  rw [found, Option.some.injEq] at isOther
  exact ⟨position, isPosition, isOther ▸ number⟩

/-! ### Straight-line code -/

/-- Issue a bundle without control transfers. -/
def Bundle.exec (isa : Isa Opcode) (bundle : Bundle) (state : State UInt8) :
    Option (State UInt8) :=
  (bundle.syllables.mapM Syllable.action).map fun actions => Action.issue isa actions state

/-- Issue bundles one after another. -/
def execBundles (isa : Isa Opcode) (bundles : List Bundle) (state : State UInt8) :
    Option (State UInt8) :=
  bundles.foldlM (fun current bundle => bundle.exec isa current) state

theorem execBundles_cons {isa : Isa Opcode} {bundle : Bundle} {rest : List Bundle}
    {state final : State UInt8} :
    execBundles isa (bundle :: rest) state = some final ↔
      ∃ next, bundle.exec isa state = some next ∧ execBundles isa rest next = some final :=
  Option.bind_eq_some_iff

/-- A syllable with an action does not transfer control. -/
theorem Syllable.control_eq_none {syllable : Syllable} (straight : syllable.action.isSome) :
    syllable.control = none := by
  have noAction : ∀ opcode, Opcode.fromMnemonic syllable.opcode = some opcode →
      opcode.behavior ≠ .control := by
    intro opcode isOpcode
    obtain ⟨action, denotes⟩ := Option.isSome_iff_exists.mp straight
    rw [Syllable.action, isOpcode] at denotes
    exact behavior_ne_control denotes
  unfold Syllable.control
  split
  · exact absurd rfl (noAction .branch ‹_›)
  · exact absurd rfl (noAction .jump ‹_›)
  · exact absurd rfl (noAction .call ‹_›)
  · exact absurd rfl (noAction .ret ‹_›)
  · rfl

section Steps

variable {items : List Item} {isa : Isa Opcode} {link : Nat → Word}

/-- Executing a bundle without control transfers goes on with the next item. -/
theorem stepBundle_of_exec {pc : Nat} {bundle : Bundle} {state next : State UInt8}
    (executed : bundle.exec isa state = some next) :
    stepBundle items isa link pc bundle state = some ⟨some (pc + 1), next⟩ := by
  obtain ⟨actions, denotes, rfl⟩ := Option.map_eq_some_iff.mp executed
  have straight : ∀ syllable ∈ bundle.syllables, syllable.control = none := by
    intro syllable syllableMem
    exact Syllable.control_eq_none
      (mapM_isSome_iff.mp (Option.isSome_of_eq_some denotes) syllable syllableMem)
  have all : bundle.syllables.filter (·.control.isNone) = bundle.syllables :=
    List.filter_eq_self.mpr fun syllable syllableMem => by simp [straight syllable syllableMem]
  have noControl : bundle.syllables.filterMap Syllable.control = [] :=
    List.filterMap_eq_nil_iff.mpr straight
  unfold stepBundle
  simp only [all, denotes, noControl, Option.bind_some]

/-- A bundle with nothing but a control transfer. -/
theorem stepBundle_of_control {pc : Nat} {bundle : Bundle} {syllable : Syllable}
    {control : Control} {state : State UInt8} (only : bundle.syllables = [syllable])
    (isControl : syllable.control = some control) :
    stepBundle items isa link pc bundle state = transfer items link pc state state control := by
  unfold stepBundle
  simp [only, isControl, Action.issue]

theorem step_label {pc : Nat} {name : String} {state : State UInt8}
    (found : items[pc]? = some (.label name)) :
    step items isa link ⟨some pc, state⟩ = some ⟨some (pc + 1), state⟩ := by
  simp [step, found]

theorem step_bundle {pc : Nat} {bundle : Bundle} {state : State UInt8}
    (found : items[pc]? = some (.bundle bundle)) :
    step items isa link ⟨some pc, state⟩ = stepBundle items isa link pc bundle state := by
  simp [step, found]

/-- A silent path is extended by straight-line bundles. -/
theorem quiet_execBundles {O : Type} {observe : Config → Option O} {first : Config}
    (hidden : ∀ pc bundle state, items[pc]? = some (.bundle bundle) →
      observe ⟨some pc, state⟩ = none)
    {bundles : List Bundle} {last : Bundle} {pc : Nat} {state final : State UInt8}
    (path : Quiet (step items isa link) observe first ⟨some pc, state⟩)
    (found : ∀ index, index < (bundles ++ [last]).length →
      items[pc + index]? = ((bundles ++ [last])[index]?).map .bundle)
    (executed : Asm.execBundles isa bundles state = some final) :
    Quiet (step items isa link) observe first ⟨some (pc + bundles.length), final⟩ := by
  induction bundles generalizing pc state with
  | nil =>
      cases executed
      exact path
  | cons bundle rest ih =>
      obtain ⟨next, firstExec, restExec⟩ := execBundles_cons.mp executed
      have atFirst : items[pc]? = some (.bundle bundle) := found 0 (by simp)
      have taken : step items isa link ⟨some pc, state⟩ = some ⟨some (pc + 1), next⟩ := by
        rw [step_bundle atFirst, stepBundle_of_exec firstExec]
      have longer := path.trans (hidden pc bundle state atFirst) (.single taken)
      have extended := ih longer (fun index bound => by
        have shifted := found (index + 1) (by simpa using bound)
        rw [Nat.add_assoc, Nat.add_comm 1 index, shifted]
        rfl) restExec
      rwa [List.length_cons, Nat.add_comm rest.length 1, ← Nat.add_assoc]

end Steps

end VliwCompiler.Asm
