import VliwCompiler.Asm.Blocks
import VliwCompiler.Codegen.Lowering
import VliwCompiler.Mir.Layout

/-!
# Block code simulates MIR

A program whose blocks compute what the MIR blocks compute, under the labels of
the MIR module and in its layout order, visits the same blocks with the same
state.  Neither the number of bundles of a block nor what shares a bundle
matters here, so the result serves every emission strategy.
-/

namespace VliwCompiler.Codegen

open Asm (Opcode Item Control BlockCode blockItems blockStart labelPosition bundleNumber
  returnPosition execBundles)
open Mir (Reg BlockId Block Function Terminator blockAt blockIds blockLabels moduleLabels
  namedBlock returnBlock fallThrough execSyllables)
open Machine

/-! ### Observations -/

/-- The block that carries a label as its own. -/
def labelOwner (functions : List Function) (name : String) : Option BlockId :=
  (blockIds functions).find? fun id => (blockAt functions id).any (·.label = name)

/-- What is seen of a running program: the block at whose label it is, if any,
and the state; leaving the program is seen as well. -/
def boundary (functions : List Function) (items : List Item) (config : Asm.Config) :
    Option (Option BlockId × State UInt8) :=
  match config.pc with
  | none => some (none, config.state)
  | some pc =>
      match items[pc]? with
      | some (.label name) => (labelOwner functions name).map fun id => (some id, config.state)
      | _ => none

/-- What is seen of a running module. -/
def mirBoundary (config : Mir.Config) : Option BlockId × State UInt8 :=
  (config.block, config.state.comap Reg.preg)

/-- The position of the label of a block. -/
def blockPosition (functions : List Function) (items : List Item) (id : BlockId) : Option Nat :=
  (blockAt functions id).bind fun block => labelPosition items block.label

/-- The code address of a block. -/
def blockAddress (functions : List Function) (items : List Item) (link : Nat → Word)
    (id : BlockId) : Word :=
  link (bundleNumber items ((blockPosition functions items id).getD items.length))

/-! ### Block code -/

/-- The control transfer that implements a terminator. -/
def terminatorControl : Terminator → Option Control
  | .branch (.preg cond) label => some (.branch cond label)
  | .branch (.vreg _) _ => none
  | .jump label => some (.jump label)
  | .ret => some .ret
  | .directCall target _ => some (.call target)

/-- The code of a block computes what the block computes and ends with the
transfer of its terminator. -/
structure Implements (block : Block) (code : BlockCode) : Prop where
  label : code.label = block.label
  body : ∀ isa (state : State Reg), ∃ final,
    execSyllables isa block.syllables state = some final ∧
      execBundles isa code.body (state.comap Reg.preg) = some (final.comap Reg.preg)
  last : ∃ syllable control, code.last.syllables = [syllable] ∧
    syllable.control = some control ∧ terminatorControl block.terminator = some control

/-- The code carries the labels of a block of a module: its own and, for an
entry block, the name of the function. -/
structure Labelled (functions : List Function) (id : BlockId) (code : BlockCode) : Prop where
  name : code.name = if id.block = 0 then functions[id.func]?.map (·.name) else none
  block : ∃ block, blockAt functions id = some block ∧ code.label = block.label

/-- The code stands for a block of a module: an entry block also carries the
name of its function. -/
structure Realizes (functions : List Function) (id : BlockId) (code : BlockCode) : Prop where
  name : code.name = if id.block = 0 then functions[id.func]?.map (·.name) else none
  block : ∃ block, blockAt functions id = some block ∧ Implements block code

/-- Every branch has a next block to fall through to, and every call is
followed by its continuation. -/
def LaidOut (functions : List Function) : Prop :=
  ∀ id block, blockAt functions id = some block →
    match block.terminator with
    | .branch _ _ => ∃ next, fallThrough functions id = some next
    | .directCall _ cont => ∃ next continuation, fallThrough functions id = some next ∧
        blockAt functions next = some continuation ∧ continuation.label = cont
    | .jump _ => True
    | .ret => True

theorem Realizes.labelled {functions : List Function} {id : BlockId} {code : BlockCode}
    (realizes : Realizes functions id code) : Labelled functions id code := by
  obtain ⟨block, found, implements⟩ := realizes.block
  exact ⟨realizes.name, block, found, implements.label⟩

theorem Labelled.labels {functions : List Function} {id : BlockId} {code : BlockCode}
    (labelled : Labelled functions id code) : code.labels = blockLabels functions id := by
  obtain ⟨block, found, sameLabel⟩ := labelled.block
  simp [BlockCode.labels, blockLabels, labelled.name, found, sameLabel]

theorem flatMap_labels {functions : List Function} {ids : List BlockId} {codes : List BlockCode}
    (labelled : List.Forall₂ (Labelled functions) ids codes) :
    codes.flatMap BlockCode.labels = ids.flatMap (blockLabels functions) := by
  induction labelled with
  | nil => rfl
  | cons first _ ih => rw [List.flatMap_cons, List.flatMap_cons, first.labels, ih]

section Simulation

variable {functions : List Function} {codes : List BlockCode}
  (distinct : (moduleLabels functions).Nodup)
  (labelled : List.Forall₂ (Labelled functions) (blockIds functions) codes)
  (realized : List.Forall₂ (Realizes functions) (blockIds functions) codes)

include labelled in
theorem programLabels_eq : Asm.programLabels (blockItems codes) = moduleLabels functions := by
  rw [Asm.programLabels_blockItems, flatMap_labels labelled]
  rfl

theorem labelled_of_realizes {ids : List BlockId}
    (realized : List.Forall₂ (Realizes functions) ids codes) :
    List.Forall₂ (Labelled functions) ids codes :=
  realized.imp fun _ _ => Realizes.labelled

/-- The code of each block. -/
theorem exists_code {related : BlockId → BlockCode → Prop} {ids : List BlockId}
    (realized : List.Forall₂ related ids codes) {index : Nat} {id : BlockId}
    (found : ids[index]? = some id) : ∃ code, codes[index]? = some code ∧ related id code := by
  obtain ⟨bound, rfl⟩ := List.getElem?_eq_some_iff.mp found
  have bound' : index < codes.length := realized.length_eq ▸ bound
  exact ⟨codes[index], List.getElem?_eq_getElem bound', realized.get bound bound'⟩

/-- The block of each code. -/
theorem exists_id {related : BlockId → BlockCode → Prop} {ids : List BlockId}
    (realized : List.Forall₂ related ids codes) {index : Nat} {code : BlockCode}
    (found : codes[index]? = some code) : ∃ id, ids[index]? = some id ∧ related id code := by
  obtain ⟨bound, rfl⟩ := List.getElem?_eq_some_iff.mp found
  have bound' : index < ids.length := realized.length_eq ▸ bound
  exact ⟨ids[index], List.getElem?_eq_getElem bound', realized.get bound' bound⟩

variable (functions codes) in
/-- The position is at one of the labels of the block. -/
def ArrivesAt (id : BlockId) (position : Nat) : Prop :=
  ∃ index code offset, (blockIds functions)[index]? = some id ∧ codes[index]? = some code ∧
    offset ≤ code.labelOffset ∧ position = blockStart codes index + offset

variable (functions codes) in
/-- The program is at one of the labels of the block the module is at. -/
def Arrived (mir : Mir.Config) (asm : Asm.Config) : Prop :=
  asm.state = mir.state.comap Reg.preg ∧ Option.Rel (ArrivesAt functions codes) mir.block asm.pc

variable (functions codes) in
/-- The program is at the label of the block the module is at. -/
def Related (mir : Mir.Config) (asm : Asm.Config) : Prop :=
  asm.state = mir.state.comap Reg.preg ∧
    Option.Rel (fun id position => ∃ index code, (blockIds functions)[index]? = some id ∧
      codes[index]? = some code ∧ position = blockStart codes index + code.labelOffset)
      mir.block asm.pc

theorem items_label {index : Nat} {code : BlockCode} (found : codes[index]? = some code) :
    (blockItems codes)[blockStart codes index + code.labelOffset]? = some (.label code.label) := by
  rw [Asm.blockItems_getElem? found (by rw [BlockCode.length_items]; omega),
    BlockCode.items_getElem?_label]

theorem items_body {index : Nat} {code : BlockCode} (found : codes[index]? = some code)
    (offset : Nat) (bound : offset < (code.body ++ [code.last]).length) :
    (blockItems codes)[blockStart codes index + code.labelOffset + 1 + offset]? =
      ((code.body ++ [code.last])[offset]?).map .bundle := by
  rw [List.length_append, List.length_singleton] at bound
  have inside : code.labelOffset + 1 + offset < code.items.length := by
    rw [BlockCode.length_items]
    omega
  rw [← BlockCode.items_getElem?_body, ← Asm.blockItems_getElem? found inside]
  congr 1
  omega

/-! ### Labels and addresses -/

include distinct labelled in
theorem labelPosition_of_items {position : Nat} {name : String}
    (found : (blockItems codes)[position]? = some (.label name)) :
    labelPosition (blockItems codes) name = some position := by
  apply Asm.labelPosition_eq_some _ found
  rw [programLabels_eq labelled]
  exact distinct

theorem labelOwner_cases {name : String} {id : BlockId} (owner : labelOwner functions name = some id) :
    ∃ block, blockAt functions id = some block ∧ block.label = name := by
  have accepted := List.find?_some owner
  cases found : blockAt functions id with
  | none => simp [found] at accepted
  | some block => exact ⟨block, rfl, by simpa [found] using accepted⟩

/-- A label that belongs to a block as its own is seen as that block. -/
theorem labelOwner_eq_some (distinct : (moduleLabels functions).Nodup) {id : BlockId}
    {block : Block} (found : blockAt functions id = some block) :
    labelOwner functions block.label = some id := by
  have present : (labelOwner functions block.label).isSome := by
    unfold labelOwner
    rw [List.find?_isSome]
    exact ⟨id, Mir.mem_blockIds_of_blockAt found, by simp [found]⟩
  obtain ⟨other, isOther⟩ := Option.isSome_iff_exists.mp present
  obtain ⟨otherBlock, otherFound, sameLabel⟩ := labelOwner_cases isOther
  have named := Mir.namedBlock_eq_some distinct (Mir.mem_blockIds_of_blockAt otherFound)
    (Mir.mem_blockLabels otherFound)
  rw [sameLabel, Mir.namedBlock_eq_some distinct (Mir.mem_blockIds_of_blockAt found)
    (Mir.mem_blockLabels found)] at named
  rw [isOther, Option.some.inj named]

/-- The name of a function is not the label of a block. -/
theorem labelOwner_name (distinct : (moduleLabels functions).Nodup) {id : BlockId}
    {code : BlockCode} (realizes : Realizes functions id code) {name : String}
    (named : code.name = some name) : labelOwner functions name = none := by
  cases owner : labelOwner functions name with
  | none => rfl
  | some other =>
      obtain ⟨block, found, implements⟩ := realizes.block
      obtain ⟨otherBlock, otherFound, sameLabel⟩ := labelOwner_cases owner
      have idMem := Mir.mem_blockIds_of_blockAt found
      have inLabels : name ∈ blockLabels functions id := by
        rw [← realizes.labelled.labels]
        simp [BlockCode.labels, named]
      have target := Mir.namedBlock_eq_some distinct (Mir.mem_blockIds_of_blockAt otherFound)
        (Mir.mem_blockLabels otherFound)
      rw [sameLabel, Mir.namedBlock_eq_some distinct idMem inLabels, Option.some.injEq] at target
      subst target
      have nodup := (List.nodup_flatMap.mp distinct).1 id idMem
      rw [found, Option.some.injEq] at otherFound
      rw [← realizes.labelled.labels] at nodup
      simp [BlockCode.labels, named, implements.label, otherFound, sameLabel] at nodup

include distinct realized in
theorem blockPosition_eq_some {index : Nat} {id : BlockId} {code : BlockCode}
    (atId : (blockIds functions)[index]? = some id) (atCode : codes[index]? = some code) :
    blockPosition functions (blockItems codes) id =
      some (blockStart codes index + code.labelOffset) := by
  obtain ⟨other, atOther, realizes⟩ := exists_code realized atId
  rw [atCode, Option.some.injEq] at atOther
  subst atOther
  obtain ⟨block, found, implements⟩ := realizes.block
  unfold blockPosition
  rw [found, Option.bind_some, ← implements.label]
  exact labelPosition_of_items distinct (labelled_of_realizes realized) (items_label atCode)

include distinct realized in
theorem blockAddress_eq (link : Nat → Word) {index : Nat} {id : BlockId} {code : BlockCode}
    (atId : (blockIds functions)[index]? = some id) (atCode : codes[index]? = some code) :
    blockAddress functions (blockItems codes) link id =
      link (bundleNumber (blockItems codes) (blockStart codes index)) := by
  unfold blockAddress
  rw [blockPosition_eq_some distinct realized atId atCode, Option.getD_some,
    Asm.bundleNumber_label atCode (Nat.le_refl _)]

include distinct labelled in
/-- A label leads the program and the module to the same block. -/
theorem target_rel (name : String) :
    Option.Rel (ArrivesAt functions codes) (namedBlock functions name)
      (labelPosition (blockItems codes) name) := by
  by_cases present : name ∈ Asm.programLabels (blockItems codes)
  · obtain ⟨position, atPosition⟩ :=
      List.mem_iff_getElem?.mp (Asm.mem_programLabels.mp present)
    obtain ⟨index, code, offset, atCode, before, inLabels, rfl⟩ :=
      Asm.exists_block_of_label atPosition
    obtain ⟨id, atId, isLabelled⟩ := exists_id labelled atCode
    rw [isLabelled.labels] at inLabels
    rw [labelPosition_of_items distinct labelled atPosition,
      Mir.namedBlock_eq_some distinct (List.mem_of_getElem? atId) inLabels]
    exact .some ⟨index, code, offset, atId, atCode, before, rfl⟩
  · have unnamed : namedBlock functions name = none := by
      unfold namedBlock
      rw [List.find?_eq_none]
      intro id idMem named
      apply present
      rw [programLabels_eq labelled]
      exact List.mem_flatMap.mpr ⟨id, idMem, of_decide_eq_true named⟩
    rw [unnamed, Asm.labelPosition_eq_none present]
    exact .none

include distinct realized in
/-- A return leads the program and the module to the same block. -/
theorem return_rel (link : Nat → Word) (address : Word) :
    Option.Rel (ArrivesAt functions codes)
      (returnBlock functions (blockAddress functions (blockItems codes) link) address)
      (returnPosition (blockItems codes) link address) := by
  have labelled : ∀ position, (blockItems codes)[position]?.any (!·.isBundle) = true →
      ∃ index code id offset, codes[index]? = some code ∧
        (blockIds functions)[index]? = some id ∧ offset ≤ code.labelOffset ∧
        position = blockStart codes index + offset ∧
        blockAddress functions (blockItems codes) link id =
          link (bundleNumber (blockItems codes) position) := by
    intro position isLabel
    cases atPosition : (blockItems codes)[position]? with
    | none => simp [atPosition] at isLabel
    | some item =>
        cases item with
        | bundle bundle => simp [atPosition, Item.isBundle] at isLabel
        | label name =>
            obtain ⟨index, code, offset, atCode, before, -, rfl⟩ :=
              Asm.exists_block_of_label atPosition
            obtain ⟨id, atId, -⟩ := exists_id realized atCode
            exact ⟨index, code, id, offset, atCode, atId, before, rfl, by
              rw [blockAddress_eq distinct realized link atId atCode,
                Asm.bundleNumber_label atCode before]⟩
  cases found : returnBlock functions (blockAddress functions (blockItems codes) link) address with
  | none =>
      have nowhere : returnPosition (blockItems codes) link address = none := by
        unfold returnPosition
        rw [List.find?_eq_none]
        intro position _ accepted
        obtain ⟨isLabel, sameAddress⟩ := Bool.and_eq_true_iff.mp accepted
        obtain ⟨index, code, id, offset, -, atId, -, -, addressEq⟩ := labelled position isLabel
        refine List.find?_eq_none.mp found id (List.mem_of_getElem? atId) ?_
        rw [addressEq]
        exact sameAddress
      rw [nowhere]
      exact .none
  | some id =>
      obtain ⟨sameAddress, index, bound, rfl, earlier⟩ := List.find?_eq_some_iff_getElem.mp found
      have atId := List.getElem?_eq_getElem bound
      obtain ⟨code, atCode, -⟩ := exists_code realized atId
      have here : returnPosition (blockItems codes) link address =
          some (blockStart codes index) := by
        obtain ⟨name, isFirst⟩ := code.exists_first_label
        have atStart : (blockItems codes)[blockStart codes index]? = some (.label name) := by
          rw [← isFirst, ← Asm.blockItems_getElem? atCode (by rw [BlockCode.length_items]; omega)]
          rfl
        unfold returnPosition
        rw [List.find?_range_eq_some]
        refine ⟨?_, List.mem_range.mpr (List.getElem?_eq_some_iff.mp atStart).1, ?_⟩
        · rw [blockAddress_eq distinct realized link atId atCode] at sameAddress
          simpa [atStart, Item.isBundle] using sameAddress
        · intro position before
          by_contra accepted
          rw [Bool.not_eq_true, Bool.not_eq_false'] at accepted
          obtain ⟨isLabel, sameAddress'⟩ := Bool.and_eq_true_iff.mp accepted
          obtain ⟨index', code', id', offset, -, atId', -, rfl, addressEq⟩ :=
            labelled position isLabel
          have less : index' < index := by
            by_contra notLess
            have := Asm.blockStart_mono codes (Nat.le_of_not_lt notLess)
            omega
          have refused := earlier index' less
          obtain ⟨bound', rfl⟩ := List.getElem?_eq_some_iff.mp atId'
          rw [addressEq] at refused
          simp only [Bool.not_eq_true'] at refused
          rw [refused] at sameAddress'
          cases sameAddress'
      rw [here]
      exact .some ⟨index, code, 0, atId, atCode, Nat.zero_le _, rfl⟩

/-! ### Running a block -/

/-- Nothing is seen at a bundle. -/
theorem boundary_bundle {items : List Item} {pc : Nat} {bundle : Asm.Bundle}
    (state : State UInt8) (found : items[pc]? = some (.bundle bundle)) :
    boundary functions items ⟨some pc, state⟩ = none := by
  simp [boundary, found]

include distinct realized in
theorem boundary_label {index : Nat} {id : BlockId} {code : BlockCode}
    (atId : (blockIds functions)[index]? = some id) (atCode : codes[index]? = some code)
    (state : State UInt8) :
    boundary functions (blockItems codes)
      ⟨some (blockStart codes index + code.labelOffset), state⟩ = some (some id, state) := by
  obtain ⟨other, atOther, realizes⟩ := exists_code realized atId
  rw [atCode, Option.some.injEq] at atOther
  subst atOther
  obtain ⟨block, found, implements⟩ := realizes.block
  unfold boundary
  simp only [items_label atCode]
  rw [implements.label, labelOwner_eq_some distinct found]
  rfl

include distinct realized in
/-- A program that has arrived at a block goes on to its label silently. -/
theorem exists_related (isa : Isa Opcode) (link : Nat → Word) {mir : Mir.Config}
    {asm : Asm.Config} (arrived : Arrived functions codes mir asm) :
    Related functions codes mir asm ∨
      boundary functions (blockItems codes) asm = none ∧ ∃ next,
        Asm.step (blockItems codes) isa link asm = some next ∧
          Related functions codes mir next := by
  obtain ⟨sameState, sameBlock⟩ := arrived
  obtain ⟨block, state⟩ := mir
  obtain ⟨pc, asmState⟩ := asm
  cases sameBlock with
  | none => exact .inl ⟨sameState, .none⟩
  | some arrives =>
      obtain ⟨index, code, offset, atId, atCode, before, rfl⟩ := arrives
      rcases Nat.lt_or_eq_of_le before with less | rfl
      · right
        obtain ⟨other, atOther, realizes⟩ := exists_code realized atId
        rw [atCode, Option.some.injEq] at atOther
        subst atOther
        cases named : code.name with
        | none =>
            rw [BlockCode.labelOffset_eq_zero named] at less
            exact absurd less (Nat.not_lt_zero _)
        | some name =>
            have one : code.labelOffset = 1 := by simp [BlockCode.labelOffset, named]
            obtain rfl : offset = 0 := by omega
            have atName : (blockItems codes)[blockStart codes index + 0]? =
                some (.label name) := by
              rw [Asm.blockItems_getElem? atCode (by rw [BlockCode.length_items]; omega)]
              simp [BlockCode.items, BlockCode.labels, named]
            refine ⟨?_, _, Asm.step_label atName, sameState, ?_⟩
            · unfold boundary
              simp only [atName, labelOwner_name distinct realizes named, Option.map_none]
            · exact .some ⟨index, code, atId, atCode, by rw [one]⟩
      · exact .inl ⟨sameState, .some ⟨index, code, atId, atCode, rfl⟩⟩

include distinct realized in
/-- The transfer of the last bundle of a block follows its terminator. -/
theorem transfer_rel (laidOut : LaidOut functions) (link : Nat → Word) {index : Nat}
    {id : BlockId} {block : Block} {control : Control} (state : State Reg)
    (atId : (blockIds functions)[index]? = some id) (found : blockAt functions id = some block)
    (isControl : terminatorControl block.terminator = some control) {pc : Nat}
    (following : pc + 1 = blockStart codes (index + 1)) :
    Option.Rel (Arrived functions codes)
      (Mir.follow functions (blockAddress functions (blockItems codes) link) id state
        block.terminator)
      (Asm.transfer (blockItems codes) link pc (state.comap Reg.preg) (state.comap Reg.preg)
        control) := by
  have jump : ∀ label (mirState : State Reg), Option.Rel (Arrived functions codes)
      ((namedBlock functions label).map fun id => Mir.Config.mk (some id) mirState)
      ((labelPosition (blockItems codes) label).map fun position =>
        Asm.Config.mk (some position) (mirState.comap Reg.preg)) := by
    intro label mirState
    have target := target_rel distinct (labelled_of_realizes realized) label
    generalize namedBlock functions label = block at target ⊢
    generalize labelPosition (blockItems codes) label = position at target ⊢
    cases target with
    | none => exact .none
    | some arrives => exact .some ⟨rfl, .some arrives⟩
  have next : ∀ {nextId}, fallThrough functions id = some nextId →
      ArrivesAt functions codes nextId (pc + 1) ∧
        blockAddress functions (blockItems codes) link nextId =
          link (bundleNumber (blockItems codes) (pc + 1)) := by
    intro nextId falls
    have atNext := Mir.getElem?_blockIds_succ atId falls
    obtain ⟨nextCode, atNextCode, -⟩ := exists_code realized atNext
    rw [following]
    exact ⟨⟨index + 1, nextCode, 0, atNext, atNextCode, Nat.zero_le _, rfl⟩,
      blockAddress_eq distinct realized link atNext atNextCode⟩
  have layout := laidOut id block found
  cases isTerminator : block.terminator with
  | ret =>
      rw [isTerminator] at isControl
      cases isControl
      simp only [Mir.follow, Asm.transfer]
      rw [State.readGpr_comap preg_injective preg_zero]
      exact .some ⟨rfl, return_rel distinct realized link _⟩
  | jump label =>
      rw [isTerminator] at isControl
      cases isControl
      simp only [Mir.follow, Asm.transfer]
      rw [Mir.jumpTarget_eq_namedBlock distinct]
      exact jump label state
  | branch cond label =>
      rw [isTerminator] at isControl layout
      cases cond with
      | vreg v => cases isControl
      | preg cond =>
          cases isControl
          obtain ⟨nextId, falls⟩ := layout
          simp only [Mir.follow, Asm.transfer]
          rw [Mir.jumpTarget_eq_namedBlock distinct, falls]
          change Option.Rel _ (if state.pred (.preg cond) then _ else _)
            (if state.pred (.preg cond) then _ else _)
          by_cases taken : state.pred (.preg cond) = true
          · rw [if_pos taken, if_pos taken]
            exact jump label state
          · rw [if_neg taken, if_neg taken]
            exact .some ⟨rfl, .some (next falls).1⟩
  | directCall target cont =>
      rw [isTerminator] at isControl layout
      cases isControl
      obtain ⟨nextId, continuation, falls, isContinuation, rfl⟩ := layout
      have labelled := Mir.labelledBlock_eq_some distinct isContinuation
      have sameFunc : nextId.func = id.func := by
        obtain ⟨_, -, rfl⟩ := Option.map_eq_some_iff.mp falls
        rfl
      rw [sameFunc] at labelled
      simp only [Mir.follow, Asm.transfer]
      rw [labelled, Option.bind_some, Mir.callTarget_eq_namedBlock distinct, (next falls).2,
        ← State.writeGpr_comap preg_injective preg_zero]
      exact jump target _

variable (functions) in
/-- Running the code of a block. -/
theorem exists_last (isa : Isa Opcode) (link : Nat → Word) {index : Nat} {code : BlockCode}
    {block : Block} (state : State Reg)
    (atCode : codes[index]? = some code) (implements : Implements block code) :
    ∃ final control pc, execSyllables isa block.syllables state = some final ∧
      terminatorControl block.terminator = some control ∧
      pc + 1 = blockStart codes (index + 1) ∧
      Quiet (Asm.step (blockItems codes) isa link) (boundary functions (blockItems codes))
        ⟨some (blockStart codes index + code.labelOffset), state.comap Reg.preg⟩
        ⟨some pc, final.comap Reg.preg⟩ ∧
      boundary functions (blockItems codes) ⟨some pc, final.comap Reg.preg⟩ = none ∧
      Asm.step (blockItems codes) isa link ⟨some pc, final.comap Reg.preg⟩ =
        Asm.transfer (blockItems codes) link pc (final.comap Reg.preg) (final.comap Reg.preg)
          control := by
  obtain ⟨final, executed, bundlesExecuted⟩ := implements.body isa state
  obtain ⟨syllable, control, only, isControl, isTerminator⟩ := implements.last
  have atLast : (blockItems codes)[blockStart codes index + code.labelOffset + 1 +
      code.body.length]? = some (.bundle code.last) := by
    rw [items_body atCode _ (by simp)]
    simp
  refine ⟨final, control, blockStart codes index + code.labelOffset + 1 + code.body.length,
    executed, isTerminator, ?_, ?_, boundary_bundle _ atLast, ?_⟩
  · rw [Asm.blockStart_succ atCode, BlockCode.length_items]
    omega
  · exact Asm.quiet_execBundles (fun pc bundle state => boundary_bundle state)
      (.single (Asm.step_label (items_label atCode))) (items_body atCode) bundlesExecuted
  · rw [Asm.step_bundle atLast, Asm.stepBundle_of_control only isControl]

include distinct realized in
/-- The last bundle of a block leads the program where the module goes. -/
theorem exists_follow (laidOut : LaidOut functions) (isa : Isa Opcode) (link : Nat → Word)
    {index : Nat} {id : BlockId} {code : BlockCode} (state : State Reg)
    (atId : (blockIds functions)[index]? = some id) (atCode : codes[index]? = some code) :
    ∃ last, Quiet (Asm.step (blockItems codes) isa link) (boundary functions (blockItems codes))
        ⟨some (blockStart codes index + code.labelOffset), state.comap Reg.preg⟩ last ∧
      boundary functions (blockItems codes) last = none ∧
      Option.Rel (Arrived functions codes)
        (Mir.step functions isa (blockAddress functions (blockItems codes) link)
          ⟨some id, state⟩)
        (Asm.step (blockItems codes) isa link last) := by
  obtain ⟨other, atOther, realizes⟩ := exists_code realized atId
  rw [atCode, Option.some.injEq] at atOther
  subst atOther
  obtain ⟨block, found, implements⟩ := realizes.block
  obtain ⟨final, control, pc, executed, isControl, following, path, hidden, stepEq⟩ :=
    exists_last functions isa link state atCode implements
  refine ⟨_, path, hidden, ?_⟩
  have mirStep : Mir.step functions isa (blockAddress functions (blockItems codes) link)
      ⟨some id, state⟩ = Mir.follow functions
        (blockAddress functions (blockItems codes) link) id final block.terminator := by
    simp [Mir.step, found, executed]
  rw [stepEq, mirStep]
  exact transfer_rel distinct realized laidOut link final atId found isControl following

include distinct realized in
theorem lockStep (laidOut : LaidOut functions) (isa : Isa Opcode) (link : Nat → Word) :
    LockStep (Asm.step (blockItems codes) isa link) (boundary functions (blockItems codes))
      (Mir.step functions isa (blockAddress functions (blockItems codes) link)) mirBoundary
      (Related functions codes) where
  shown := by
    rintro ⟨block, state⟩ ⟨pc, asmState⟩ ⟨rfl, sameBlock⟩
    cases sameBlock with
    | none => rfl
    | some at' =>
        obtain ⟨index, code, atId, atCode, rfl⟩ := at'
        exact boundary_label distinct realized atId atCode _
  follows := by
    rintro ⟨block, state⟩ ⟨pc, asmState⟩ next ⟨rfl, sameBlock⟩ stepped
    cases sameBlock with
    | none => cases stepped
    | some at' =>
        obtain ⟨index, code, atId, atCode, rfl⟩ := at'
        obtain ⟨final, path, hidden, transferred⟩ :=
          exists_follow distinct realized laidOut isa link state atId atCode
        rw [stepped] at transferred
        generalize stepEq : Asm.step _ isa link _ = target at transferred
        cases transferred with
        | some arrived =>
            have path := path.trans hidden (.single stepEq)
            rcases exists_related distinct realized isa link arrived with
              related | ⟨silent, last, taken, related⟩
            · exact ⟨_, path, related⟩
            · exact ⟨last, path.trans silent (.single taken), related⟩
  halts := by
    rintro ⟨block, state⟩ ⟨pc, asmState⟩ ⟨rfl, sameBlock⟩ stepped
    cases sameBlock with
    | none => exact .now rfl
    | some at' =>
        obtain ⟨index, code, atId, atCode, rfl⟩ := at'
        obtain ⟨final, path, hidden, transferred⟩ :=
          exists_follow distinct realized laidOut isa link state atId atCode
        rw [stepped] at transferred
        generalize stepEq : Asm.step _ isa link _ = target at transferred
        cases transferred
        exact path.halt hidden (.now stepEq)

include distinct realized in
/-- From every label of the program, the program visits the blocks the module
visits, with the same registers, predicates and memory. -/
theorem sameVisits_of_realizes (laidOut : LaidOut functions) (isa : Isa Opcode)
    (link : Nat → Word) (state : State Reg) {name : String} {id : BlockId}
    (named : namedBlock functions name = some id) :
    ∃ position, labelPosition (blockItems codes) name = some position ∧
      SameVisits (Asm.step (blockItems codes) isa link) (boundary functions (blockItems codes))
        ⟨some position, state.comap Reg.preg⟩
        (Mir.step functions isa (blockAddress functions (blockItems codes) link))
        (some ∘ mirBoundary) ⟨some id, state⟩ := by
  have target := target_rel distinct (labelled_of_realizes realized) name
  rw [named] at target
  generalize labelPosition (blockItems codes) name = found at target ⊢
  obtain ⟨position⟩ : ∃ position, found = some position := by
    cases target with
    | some arrives => exact ⟨_, rfl⟩
  subst found
  refine ⟨position, rfl, ?_⟩
  have simulation := lockStep distinct realized laidOut isa link
  have arrived : Arrived functions codes ⟨some id, state⟩
      ⟨some position, state.comap Reg.preg⟩ := ⟨rfl, target⟩
  rcases exists_related distinct realized isa link arrived with
    related | ⟨silent, next, taken, related⟩
  · exact simulation.sameVisits related
  · exact (simulation.sameVisits related).of_quiet (.single taken) silent

end Simulation

end VliwCompiler.Codegen
