import VliwCompiler.Pack.Labels
import VliwCompiler.Pack.Return

/-!
# Paths through emitted code

A path follows the bundles of a function from one to the next, or from a branch or
jump to its label.  Ready cycles are counted in layout order, so that a path without
taken transfers never reads a result too early.  A taken transfer skips or repeats
bundles: the only results still pending then are those of the bundle before the
transfer, and the only bundle that may be too early is the first one at the label.
-/

namespace VliwCompiler.Pack

open Asm (Opcode Operand Bundle BlockCode Item Processor Program blockItems blockStart bundleNumber
  firstBundle labelPosition programBundles)
open Codegen (Op InOrderBundles ScalarBody ScalarCode blockOps functionOps scalarProgram)
open Mir (Block BlockId Function Terminator blockAt blockIds blockLabels namedBlock)
open Schedule (RegKey sourceRegKeys)

/-! ### Paths -/

/-- The label a syllable may go to within its function. -/
def branchLabel (asm : Asm.Syllable) : Option String :=
  match asm.control with
  | some (.jump label) => some label
  | some (.branch _ label) => some label
  | _ => none

/-- Control may pass from the bundle to the next one; after a call it does so when
the callee has returned. -/
def PassesOn (bundle : Bundle) : Prop :=
  ∀ asm ∈ bundle.syllables, asm.control ≠ some .ret ∧ ∀ label, asm.control ≠ some (.jump label)

/-- A branch or jump of the bundle with the number `source` leads to the bundle with
the number `target`. -/
def Taken (items : List Item) (source target : Nat) : Prop :=
  ∃ asm label position, Issued (programBundles items) source asm ∧ branchLabel asm = some label ∧
    labelPosition items label = some position ∧ target = bundleNumber items position

/-- Control may pass from one bundle to another. -/
inductive Edge (items : List Item) (source : Nat) : Nat → Prop where
  | next {bundle : Bundle} (found : (programBundles items)[source]? = some bundle)
      (falls : PassesOn bundle) : Edge items source (source + 1)
  | taken {target : Nat} (isTaken : Taken items source target) : Edge items source target

/-- The register is written by the syllable; a call writes the link register. -/
def WritesKey (asm : Asm.Syllable) (key : RegKey) : Prop :=
  asmDest asm = some key ∨ (∃ label, asm.control = some (.call label)) ∧ key = linkKey

/-- On every path, a register is read only when the result of its last writer on that
path is available. -/
def StallFree (items : List Item) : Prop :=
  ∀ (path : List Nat) (i j first last : Nat) (writer reader : Asm.Syllable) (key : RegKey),
    path.IsChain (Edge items) → path[i]? = some first → path[j]? = some last → i < j →
    Issued (programBundles items) first writer → WritesKey writer key →
    Issued (programBundles items) last reader → key ∈ asmKeys reader →
    (∀ (m between : Nat) (other : Asm.Syllable), i < m → m < j → path[m]? = some between →
      Issued (programBundles items) between other → ¬WritesKey other key) →
    i + asmLatency writer ≤ j

/-! ### Layout order -/

/-- In layout order, registers are read only when the result of their last writer is
available. -/
def Spaced (bundles : List Bundle) : Prop :=
  ∀ (written position : Nat) (writer reader : Asm.Syllable) (key : RegKey), written < position →
    Issued bundles written writer → asmDest writer = some key → Issued bundles position reader →
    key ∈ asmKeys reader →
    (∀ (between : Nat) (other : Asm.Syllable), written < between → between < position →
      Issued bundles between other → asmDest other ≠ some key) →
    written + asmLatency writer ≤ position

/-- What the emitters promise of their bundles. -/
structure Regular (bundles : List Bundle) : Prop where
  spaced : Spaced bundles
  alone : ∀ {position : Nat} {asm other : Asm.Syllable}, Issued bundles position asm →
    asm.control.isSome → Issued bundles position other → other = asm
  quick : ∀ {position : Nat} {asm : Asm.Syllable}, Issued bundles position asm →
    asmLatency asm ≤ 3

/-- A transfer that is taken too early for a result of the bundle before it. -/
def TooEarly (items : List Item) : Prop :=
  ∃ (written target : Nat) (writer reader : Asm.Syllable) (key : RegKey),
    Taken items (written + 1) target ∧ Issued (programBundles items) written writer ∧
    asmLatency writer = 3 ∧ asmDest writer = some key ∧
    Issued (programBundles items) target reader ∧ key ∈ asmKeys reader

theorem latency_cases {opcode : Opcode} (quick : opcode.latency ≤ 3) :
    opcode.latency = 3 ∨ opcode.latency ≤ 1 := by
  cases opcode <;> simp_all [Opcode.latency]

theorem asmLatency_cases {asm : Asm.Syllable} (quick : asmLatency asm ≤ 3) :
    asmLatency asm = 3 ∨ asmLatency asm ≤ 1 := by
  unfold asmLatency at quick ⊢
  cases known : Opcode.fromMnemonic asm.opcode with
  | none => exact .inr (Nat.zero_le 1)
  | some opcode =>
      rw [known] at quick
      exact latency_cases quick

/-- Control transfers name no register as destination and take one cycle. -/
theorem control_effects {asm : Asm.Syllable} (isControl : asm.control.isSome) :
    asmDest asm = none ∧ asmLatency asm = 1 ∧
      ∀ key ∈ asmKeys asm, ∃ n, key = ⟨.pred, .preg n⟩ := by
  obtain ⟨control, isControl⟩ := Option.isSome_iff_exists.mp isControl
  unfold Asm.Syllable.control at isControl
  unfold asmDest asmLatency asmKeys
  split at isControl
  · rename_i cond target known isOperands
    rw [known, isOperands]
    refine ⟨rfl, rfl, fun key keyMem => ⟨cond, ?_⟩⟩
    exact List.mem_singleton.mp keyMem
  · rename_i target known isOperands
    rw [known, isOperands]
    exact ⟨rfl, rfl, fun key keyMem => by cases keyMem⟩
  · rename_i target known isOperands
    rw [known, isOperands]
    exact ⟨rfl, rfl, fun key keyMem => by cases keyMem⟩
  · rename_i known isOperands
    rw [known, isOperands]
    exact ⟨rfl, rfl, fun key keyMem => by cases keyMem⟩
  · cases isControl

theorem branchLabel_eq_some {asm : Asm.Syllable} {label : String}
    (isLabel : branchLabel asm = some label) :
    asm.control = some (.jump label) ∨ ∃ cond, asm.control = some (.branch cond label) := by
  unfold branchLabel at isLabel
  split at isLabel
  · rename_i other isControl
    cases isLabel
    exact .inl isControl
  · rename_i cond other isControl
    cases isLabel
    exact .inr ⟨cond, isControl⟩
  · cases isLabel

theorem control_of_branchLabel {asm : Asm.Syllable} {label : String}
    (isLabel : branchLabel asm = some label) :
    asm.control.isSome ∧ ∀ target, asm.control ≠ some (.call target) := by
  rcases branchLabel_eq_some isLabel with isJump | ⟨cond, isBranch⟩
  · rw [isJump]
    exact ⟨rfl, fun target same => by cases same⟩
  · rw [isBranch]
    exact ⟨rfl, fun target same => by cases same⟩

section Regular

variable {items : List Item} (regular : Regular (programBundles items))
include regular

/-- A bundle with an operation of three cycles does not transfer control. -/
theorem straight_of_slow {position : Nat} {writer other : Asm.Syllable}
    (issued : Issued (programBundles items) position writer) (slow : asmLatency writer = 3)
    (otherIssued : Issued (programBundles items) position other) : other.control = none := by
  by_contra transfers
  have isControl := Option.isSome_iff_ne_none.mpr transfers
  have same := regular.alone otherIssued isControl issued
  have one := (control_effects isControl).2.1
  rw [← same] at one
  omega

theorem next_of_slow {position target : Nat} {writer : Asm.Syllable}
    (edge : Edge items position target) (issued : Issued (programBundles items) position writer)
    (slow : asmLatency writer = 3) : target = position + 1 := by
  cases edge with
  | next found falls => rfl
  | taken isTaken =>
      obtain ⟨asm, label, _, asmIssued, isLabel, -, -⟩ := isTaken
      have straight := straight_of_slow regular issued slow asmIssued
      have transfers := (control_of_branchLabel isLabel).1
      rw [straight] at transfers
      cases transfers

theorem edge_of_slow {position : Nat} {writer : Asm.Syllable}
    (issued : Issued (programBundles items) position writer) (slow : asmLatency writer = 3) :
    Edge items position (position + 1) := by
  obtain ⟨bundle, found, writerMem⟩ := issued
  refine .next found ?_
  intro other otherMem
  have straight := straight_of_slow regular ⟨bundle, found, writerMem⟩ slow
    ⟨bundle, found, otherMem⟩
  rw [straight]
  exact ⟨fun same => (by cases same), fun label same => (by cases same)⟩

/-- Regular code is free of stalls unless a transfer is taken too early. -/
theorem stallFree_iff_not_tooEarly : StallFree items ↔ ¬TooEarly items := by
  constructor
  · rintro free ⟨written, target, writer, reader, key, isTaken, issued, slow, writes, readerIssued,
      reads⟩
    have chain : [written, written + 1, target].IsChain (Edge items) :=
      .cons_cons (edge_of_slow regular issued slow) (.cons_cons (.taken isTaken) (.singleton _))
    have late := free _ 0 2 written target writer reader key chain rfl rfl (by omega) issued
      (.inl writes) readerIssued reads
    have enough : 0 + asmLatency writer ≤ 2 := by
      apply late
      intro m between other after before found otherIssued
      obtain rfl : m = 1 := by omega
      obtain rfl : written + 1 = between := Option.some.inj found
      obtain ⟨asm, label, _, asmIssued, isLabel, -, -⟩ := isTaken
      obtain ⟨isControl, noCall⟩ := control_of_branchLabel isLabel
      rw [regular.alone asmIssued isControl otherIssued]
      rintro (isDest | ⟨⟨callee, isCall⟩, -⟩)
      · rw [(control_effects isControl).1] at isDest
        cases isDest
      · exact noCall callee isCall
    omega
  · intro inTime path i j first last writer reader key chain isFirst isLast less issued writes
      readerIssued reads none
    have links : ∀ (m source target : Nat), path[m]? = some source → path[m + 1]? = some target →
        Edge items source target := by
      intro m source target isSource isTarget
      obtain ⟨bound, rfl⟩ := List.getElem?_eq_some_iff.mp isTarget
      obtain ⟨_, rfl⟩ := List.getElem?_eq_some_iff.mp isSource
      exact List.isChain_iff_getElem.mp chain m bound
    rcases asmLatency_cases (regular.quick issued) with slow | fast
    swap
    · omega
    have dest : asmDest writer = some key := by
      rcases writes with isDest | ⟨⟨callee, isCall⟩, -⟩
      · exact isDest
      · have straight := straight_of_slow regular issued slow issued
        rw [isCall] at straight
        cases straight
    by_contra tooEarly
    obtain ⟨bound, -⟩ := List.getElem?_eq_some_iff.mp isLast
    obtain ⟨middle, isMiddle⟩ : ∃ middle, path[i + 1]? = some middle :=
      ⟨_, List.getElem?_eq_getElem (by omega)⟩
    obtain rfl := next_of_slow regular (links i first middle isFirst isMiddle) issued slow
    by_cases adjacent : j = i + 1
    · rw [adjacent, isMiddle, Option.some.injEq] at isLast
      subst isLast
      have late := regular.spaced first (first + 1) writer reader key (Nat.lt_succ_self _) issued
        dest readerIssued reads fun between other after before => by omega
      omega
    · obtain rfl : j = i + 1 + 1 := by omega
      cases links (i + 1) (first + 1) last isMiddle isLast with
      | next found falls =>
          have late := regular.spaced first (first + 1 + 1) writer reader key (by omega) issued
            dest readerIssued reads fun between other after before otherIssued isDest => by
              obtain rfl : between = first + 1 := by omega
              exact none (i + 1) (first + 1) other (by omega) (by omega) isMiddle otherIssued
                (.inl isDest)
          omega
      | taken isTaken =>
          exact inTime ⟨first, last, writer, reader, key, isTaken, issued, slow, dest,
            readerIssued, reads⟩

end Regular

/-! ### Blocks -/

section Blocks

variable {codes : List BlockCode} {index : Nat} {code : BlockCode} {asm : Asm.Syllable}
  (found : codes[index]? = some code)
include found

theorem issued_body {offset : Nat} (inside : offset < code.body.length) :
    Issued (programBundles (blockItems codes)) (firstBundle codes index + offset) asm ↔
      ∃ bundle, code.body[offset]? = some bundle ∧ asm ∈ bundle.syllables := by
  unfold Issued
  rw [Asm.bundles_getElem? found (Nat.le_of_lt inside)]
  unfold BlockCode.bundles
  rw [List.getElem?_append_left inside]

theorem issued_last :
    Issued (programBundles (blockItems codes)) (firstBundle codes index + code.body.length) asm ↔
      asm ∈ code.last.syllables := by
  unfold Issued
  rw [Asm.bundles_getElem? found (Nat.le_refl _)]
  unfold BlockCode.bundles
  rw [List.getElem?_concat_length]
  simp

end Blocks

/-! ### Functions -/

/-- The label a terminator may go to within its function. -/
def terminatorLabel : Terminator → Option String
  | .jump label => some label
  | .branch _ label => some label
  | .ret => none
  | .directCall _ _ => none

/-- The blocks of a function as they are emitted: control is transferred by the last
bundle of each one only. -/
structure FunctionCode (function : Function) (codes : List BlockCode) : Prop where
  emitted : List.Forall₂ (Emitted [function]) (blockIds [function]) codes
  straight : ∀ code ∈ codes, ∀ bundle ∈ code.body, ∀ asm ∈ bundle.syllables, asm.control = none

theorem blockIds_singleton (function : Function) :
    blockIds [function] = (List.range function.blocks.length).map (BlockId.mk 0) := by
  simp [blockIds]

theorem getElem?_blockIds_singleton {function : Function} {index : Nat} {id : BlockId} :
    (blockIds [function])[index]? = some id ↔ index < function.blocks.length ∧ id = ⟨0, index⟩ := by
  rw [blockIds_singleton, List.getElem?_map, Option.map_eq_some_iff]
  constructor
  · rintro ⟨other, isOther, rfl⟩
    obtain ⟨bound, rfl⟩ := List.getElem?_eq_some_iff.mp isOther
    simp at bound
    simp [bound]
  · rintro ⟨bound, rfl⟩
    exact ⟨index, by simp [bound], rfl⟩

theorem blockAt_singleton (function : Function) (index : Nat) :
    blockAt [function] ⟨0, index⟩ = function.blocks[index]? := rfl

theorem branchLabel_of_terminator {asm : Asm.Syllable} {control : Asm.Control}
    {terminator : Terminator} (isControl : asm.control = some control)
    (isTerminator : Codegen.terminatorControl terminator = some control) :
    branchLabel asm = terminatorLabel terminator := by
  unfold branchLabel
  rw [isControl]
  cases terminator with
  | ret =>
      cases isTerminator
      rfl
  | jump label =>
      cases isTerminator
      rfl
  | branch cond label =>
      cases cond with
      | vreg n => cases isTerminator
      | preg n =>
          cases isTerminator
          rfl
  | directCall target cont =>
      cases isTerminator
      rfl

namespace FunctionCode

variable {function : Function} {codes : List BlockCode} (isCode : FunctionCode function codes)
include isCode

theorem exists_code {index : Nat} {block : Block} (found : function.blocks[index]? = some block) :
    ∃ code, codes[index]? = some code ∧ Emitted [function] ⟨0, index⟩ code := by
  obtain ⟨bound, -⟩ := List.getElem?_eq_some_iff.mp found
  exact Codegen.exists_code isCode.emitted (getElem?_blockIds_singleton.mpr ⟨bound, rfl⟩)

theorem exists_block {index : Nat} {code : BlockCode} (found : codes[index]? = some code) :
    ∃ block, function.blocks[index]? = some block ∧ Emitted [function] ⟨0, index⟩ code := by
  obtain ⟨id, isId, emitted⟩ := Codegen.exists_id isCode.emitted found
  obtain ⟨bound, rfl⟩ := getElem?_blockIds_singleton.mp isId
  exact ⟨_, List.getElem?_eq_getElem bound, emitted⟩

/-- The block a label leads to. -/
theorem namedBlock_iff {label : String} {goal : Nat} :
    namedBlock [function] label = some ⟨0, goal⟩ ↔
      codes.findIdx? (label ∈ ·.labels) = some goal := by
  have labels : ∀ {index : Nat} {code : BlockCode}, codes[index]? = some code →
      index < function.blocks.length ∧ code.labels = blockLabels [function] ⟨0, index⟩ := by
    intro index code found
    obtain ⟨block, isBlock, emitted⟩ := isCode.exists_block found
    exact ⟨(List.getElem?_eq_some_iff.mp isBlock).1, emitted.labelled.labels⟩
  have sameLength : codes.length = function.blocks.length := by
    rw [← isCode.emitted.length_eq, blockIds_singleton, List.length_map, List.length_range]
  unfold namedBlock
  rw [blockIds_singleton, List.find?_map, List.findIdx?_eq_some_iff_getElem]
  constructor
  · intro found
    obtain ⟨index, isIndex, same⟩ := Option.map_eq_some_iff.mp found
    cases same
    obtain ⟨carries, first⟩ := List.find?_range_eq_some.mp isIndex
    obtain ⟨bound, first⟩ := first
    have inside : goal < codes.length := by
      rw [sameLength]
      exact List.mem_range.mp bound
    refine ⟨inside, ?_, ?_⟩
    · rw [(labels (List.getElem?_eq_getElem inside)).2]
      exact carries
    · intro other less
      rw [(labels (List.getElem?_eq_getElem (by omega))).2]
      simpa using first other less
  · rintro ⟨inside, carries, first⟩
    refine Option.map_eq_some_iff.mpr ⟨goal, List.find?_range_eq_some.mpr ⟨?_, ?_, ?_⟩, rfl⟩
    · rw [(labels (List.getElem?_eq_getElem inside)).2] at carries
      exact carries
    · rw [List.mem_range, ← sameLength]
      exact inside
    · intro other less
      have none := first other less
      rw [(labels (List.getElem?_eq_getElem (by omega))).2] at none
      simpa using none

theorem exists_target {label : String} {goal : Nat}
    (named : namedBlock [function] label = some ⟨0, goal⟩) :
    ∃ code, codes[goal]? = some code := by
  obtain ⟨bound, -, -⟩ := List.findIdx?_eq_some_iff_getElem.mp (isCode.namedBlock_iff.mp named)
  exact ⟨_, List.getElem?_eq_getElem bound⟩

/-- The last bundle of a block is a control transfer. -/
theorem exists_last {index : Nat} {code : BlockCode} (found : codes[index]? = some code) :
    ∃ asm, code.last.syllables = [asm] ∧ asm.control.isSome := by
  obtain ⟨-, -, emitted⟩ := isCode.exists_block found
  obtain ⟨-, asm, control, -, only, isControl, -⟩ := emitted.last
  exact ⟨asm, only, by rw [isControl]; rfl⟩

theorem control_of_last {index : Nat} {code : BlockCode} (found : codes[index]? = some code)
    {asm : Asm.Syllable} (asmMem : asm ∈ code.last.syllables) : asm.control.isSome := by
  obtain ⟨other, only, isControl⟩ := isCode.exists_last found
  rw [only, List.mem_singleton] at asmMem
  rwa [asmMem]

/-- A bundle that transfers control is the last one of its block. -/
theorem last_of_control {position : Nat} {asm : Asm.Syllable}
    (issued : Issued (programBundles (blockItems codes)) position asm)
    (isControl : asm.control.isSome) :
    ∃ index code, codes[index]? = some code ∧ code.last.syllables = [asm] ∧
      position = firstBundle codes index + code.body.length := by
  obtain ⟨index, code, offset, found, inside, -, rfl⟩ :=
    Asm.exists_block_of_bundle issued.choose_spec.1
  refine ⟨index, code, found, ?_⟩
  by_cases body : offset < code.body.length
  · obtain ⟨bundle, isBundle, asmMem⟩ := (issued_body found body).mp issued
    rw [isCode.straight code (List.mem_of_getElem? found) bundle (List.mem_of_getElem? isBundle)
      asm asmMem] at isControl
    cases isControl
  · obtain rfl : offset = code.body.length := by omega
    obtain ⟨other, only, -⟩ := isCode.exists_last found
    have asmMem := (issued_last found).mp issued
    rw [only, List.mem_singleton] at asmMem
    exact ⟨asmMem ▸ only, rfl⟩

/-- What stands before the last bundle of a block is the end of its body. -/
theorem issued_before_last {written index : Nat} {code : BlockCode} {writer : Asm.Syllable}
    (found : codes[index]? = some code)
    (isBefore : written + 1 = firstBundle codes index + code.body.length)
    (issued : Issued (programBundles (blockItems codes)) written writer)
    (straight : writer.control = none) :
    ∃ bundle, code.body.getLast? = some bundle ∧ writer ∈ bundle.syllables := by
  by_cases empty : code.body.length = 0
  · cases index with
    | zero =>
        have start : firstBundle codes 0 = 0 := rfl
        omega
    | succ before =>
        obtain ⟨bound, -⟩ := List.getElem?_eq_some_iff.mp found
        have isFound : codes[before]? = some codes[before] := List.getElem?_eq_getElem (by omega)
        have next := Asm.firstBundle_succ isFound
        have isWritten : written = firstBundle codes before + codes[before].body.length := by omega
        rw [isWritten, issued_last isFound] at issued
        have transfers := isCode.control_of_last isFound issued
        rw [straight] at transfers
        cases transfers
  · have isWritten : written = firstBundle codes index + (code.body.length - 1) := by omega
    rw [isWritten, issued_body found (by omega)] at issued
    rwa [List.getLast?_eq_getElem?]

/-- The first bundle of a block is the start of its body, or transfers control. -/
theorem issued_first {index : Nat} {code : BlockCode} {reader : Asm.Syllable}
    (found : codes[index]? = some code)
    (issued : Issued (programBundles (blockItems codes)) (firstBundle codes index) reader)
    (straight : reader.control = none) :
    ∃ bundle, code.body.head? = some bundle ∧ reader ∈ bundle.syllables := by
  rw [← Nat.add_zero (firstBundle codes index)] at issued
  by_cases empty : code.body.length = 0
  · rw [← empty, issued_last found] at issued
    have transfers := isCode.control_of_last found issued
    rw [straight] at transfers
    cases transfers
  · rw [issued_body found (Nat.pos_of_ne_zero empty)] at issued
    rwa [List.head?_eq_getElem?]

/-- The last bundle of a block writes no register that is named. -/
theorem unwritten_last {index : Nat} {code : BlockCode} {asm : Asm.Syllable} {key : RegKey}
    (found : codes[index]? = some code)
    (issued : Issued (programBundles (blockItems codes))
      (firstBundle codes index + code.body.length) asm) : asmDest asm ≠ some key := by
  have transfers := isCode.control_of_last found ((issued_last found).mp issued)
  rw [(control_effects transfers).1]
  exact fun contra => (by cases contra)

/-- The transfers of a function. -/
theorem taken_iff {source target : Nat} :
    Taken (blockItems codes) source target ↔ ∃ index block code label goal,
      function.blocks[index]? = some block ∧ codes[index]? = some code ∧
      terminatorLabel block.terminator = some label ∧
      namedBlock [function] label = some ⟨0, goal⟩ ∧
      source = firstBundle codes index + code.body.length ∧ target = firstBundle codes goal := by
  constructor
  · rintro ⟨asm, label, position, issued, isLabel, isPosition, rfl⟩
    obtain ⟨index, code, found, only, rfl⟩ :=
      isCode.last_of_control issued (control_of_branchLabel isLabel).1
    obtain ⟨block, isBlock, emitted⟩ := isCode.exists_block found
    obtain ⟨other, syllable, control, isOther, isOnly, isControl, isTerminator⟩ := emitted.last
    rw [blockAt_singleton, isBlock, Option.some.injEq] at isOther
    subst isOther
    rw [only, List.singleton_inj] at isOnly
    subst isOnly
    obtain ⟨goal, isGoal, number⟩ := Asm.exists_block_of_labelPosition isPosition
    refine ⟨index, block, code, label, goal, isBlock, found, ?_, isCode.namedBlock_iff.mpr isGoal,
      rfl, number⟩
    rw [← branchLabel_of_terminator isControl isTerminator, isLabel]
  · rintro ⟨index, block, code, label, goal, isBlock, found, isLabel, named, rfl, rfl⟩
    obtain ⟨position, isPosition, number⟩ :=
      Asm.exists_labelPosition (isCode.namedBlock_iff.mp named)
    obtain ⟨-, -, emitted⟩ := isCode.exists_block found
    obtain ⟨other, asm, control, isOther, only, isControl, isTerminator⟩ := emitted.last
    rw [blockAt_singleton, isBlock, Option.some.injEq] at isOther
    subst isOther
    refine ⟨asm, label, position, (issued_last found).mpr (by rw [only]; exact List.mem_cons_self),
      ?_, isPosition, number.symm⟩
    rw [branchLabel_of_terminator isControl isTerminator, isLabel]

end FunctionCode

end VliwCompiler.Pack
