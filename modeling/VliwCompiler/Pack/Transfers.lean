import VliwCompiler.Pack.Paths

/-!
# Transfers with pending results

A block that ends with a load or a product leaves its result pending for one more
cycle behind its control transfer.  Blocks are padded for the results that are
pending in layout order; a branch or jump can lead to a block that was not padded
for the result of the block it comes from.
-/

namespace VliwCompiler.Pack

open Asm (Bundle BlockCode Item Processor Program blockItems firstBundle programBundles)
open Codegen (Op InOrderBundles ScalarBody functionOps scalarProgram)
open Mir (Block Function namedBlock)
open Schedule (RegKey sourceRegKeys)

/-! ### Scalar code in layout order -/

/-- An empty bundle stands before an operation that waits for a result. -/
def Tight (bundles : List Bundle) : Prop :=
  ∀ (position : Nat) (bundle : Bundle), bundles[position]? = some bundle → bundle.syllables = [] →
    ∃ (written next : Nat) (writer reader : Asm.Syllable) (key : RegKey), written < position ∧
      position < next ∧ Issued bundles written writer ∧ asmDest writer = some key ∧
      position < written + asmLatency writer ∧ Issued bundles next reader ∧
      key ∈ asmKeys reader ∧
      ∀ between other, position ≤ between → between < next → ¬Issued bundles between other

theorem asmKeys_of_names {op : Op} {asm : Asm.Syllable} (names : Codegen.Names op asm) :
    asmKeys asm = Codegen.operandKeys op.opcode.writesGpr op.opcode.writesPred asm.operands := by
  unfold asmKeys
  rw [names.mnemonic]

theorem asmDest_of_names {op : Op} {asm : Asm.Syllable} (names : Codegen.Names op asm) :
    asmDest asm = op.dest := by
  unfold asmDest
  rw [names.mnemonic, Option.bind_some, names.dest]

theorem asmLatency_of_names {op : Op} {asm : Asm.Syllable} (names : Codegen.Names op asm) :
    asmLatency asm = op.opcode.latency := by
  unfold asmLatency
  rw [names.mnemonic]
  rfl

section Scalar

variable {ops : List Op} {cycles : List Nat} {bundles : List Bundle}
  (inOrder : InOrderBundles ops cycles bundles) (fits : ∀ op ∈ ops, op.Fits)
include inOrder fits

theorem spaced_of_inOrder : Spaced bundles := by
  intro written position writer reader key less issued writes readerIssued reads last
  have schedule := inOrder.schedule
  obtain ⟨w, writerOp, isWritten, isWriter, writerLowered⟩ := (issued_iff inOrder).mp issued
  obtain ⟨r, readerOp, isPosition, isReader, readerLowered⟩ := (issued_iff inOrder).mp readerIssued
  have writerNames :=
    Codegen.names_of_lower writerLowered (fits _ (List.mem_of_getElem? isWriter))
  have readerNames :=
    Codegen.names_of_lower readerLowered (fits _ (List.mem_of_getElem? isReader))
  rw [asmDest_of_names writerNames] at writes
  rw [asmLatency_of_names writerNames]
  have isSource : key ∈ readerOp.sources := by
    rw [asmKeys_of_names readerNames] at reads
    rcases readerNames.read key reads with rfl | isSource
    · exact absurd writes writerOp.dest_ne_zero
    · exact isSource
  have inside := (schedule.lt_iff isWritten isPosition).mp less
  have isReady := schedule.ready_le (getElem?_issue isReader) isPosition isSource
  rw [InOrder.readyAt_of_lastWriter inside (getElem?_issue isWriter) isWritten writes] at isReady
  · exact isReady
  · intro between after before isWrite
    obtain ⟨issue, isIssue, isDest⟩ := Option.bind_eq_some_iff.mp isWrite
    obtain ⟨op, isOp, rfl⟩ :=
      Option.map_eq_some_iff.mp ((List.getElem?_map ..).symm.trans isIssue)
    obtain ⟨cycle, isCycle⟩ := schedule.exists_cycle isIssue
    obtain ⟨asm, -, lowered, -⟩ := inOrder.issued between cycle op isCycle isOp
    refine last cycle asm ((schedule.lt_iff isWritten isCycle).mpr after)
      ((schedule.lt_iff isCycle isPosition).mpr before)
      ((issued_iff inOrder).mpr ⟨between, op, isCycle, isOp, lowered⟩) ?_
    rw [asmDest_of_names (Codegen.names_of_lower lowered (fits _ (List.mem_of_getElem? isOp)))]
    exact isDest

theorem tight_of_inOrder : Tight bundles := by
  intro position bundle found empty
  have schedule := inOrder.schedule
  have notIssued : position ∉ cycles := by
    intro isCycle
    obtain ⟨index, isIndex⟩ := List.getElem?_of_mem isCycle
    obtain ⟨op, isOp⟩ := exists_op inOrder isIndex
    obtain ⟨asm, other, -, isOther, only⟩ := inOrder.issued index position op isIndex isOp
    rw [found, Option.some.injEq] at isOther
    rw [← isOther, empty] at only
    cases only
  obtain ⟨bound, -⟩ := List.getElem?_eq_some_iff.mp found
  have later : ∃ index : Nat, ∃ cycle, cycles[index]? = some cycle ∧ position < cycle := by
    rw [inOrder.length] at bound
    rcases List.eq_nil_or_concat cycles with rfl | ⟨front, last, rfl⟩
    · cases bound
    · rw [List.concat_eq_append] at bound notIssued ⊢
      rw [InOrder.nextCycle_append] at bound
      refine ⟨front.length, last, List.getElem?_concat_length, ?_⟩
      have different : position ≠ last := fun same => notIssued (by simp [same])
      omega
  classical
  obtain ⟨next, isNext, after⟩ := Nat.find_spec later
  have first : ∀ {index cycle : Nat}, index < Nat.find later → cycles[index]? = some cycle →
      cycle < position := by
    intro index cycle less isCycle
    by_contra notBefore
    have different : cycle ≠ position := fun same => notIssued (same ▸ List.mem_of_getElem? isCycle)
    exact Nat.find_min later less ⟨cycle, isCycle, by omega⟩
  obtain ⟨op, isOp⟩ := exists_op inOrder isNext
  obtain ⟨reader, -, lowered, -⟩ := inOrder.issued _ next op isNext isOp
  have names := Codegen.names_of_lower lowered (fits _ (List.mem_of_getElem? isOp))
  have isCycle := schedule.cycle _ _ (getElem?_issue isOp)
  rw [isNext, Option.some.injEq] at isCycle
  have early : InOrder.nextCycle (cycles.take (Nat.find later)) ≤ position := by
    cases isFirst : Nat.find later with
    | zero => exact Nat.zero_le position
    | succ before =>
        obtain ⟨inside, -⟩ := List.getElem?_eq_some_iff.mp isNext
        have isBefore : cycles[before]? = some cycles[before] :=
          List.getElem?_eq_getElem (by omega)
        rw [InOrder.nextCycle_take isBefore]
        exact first (by omega) isBefore
  have waits : position < (op.sources.map
      (InOrder.readyAt (ops.map Op.issue) cycles (Nat.find later))).foldl max 0 := by
    unfold InOrder.issueCycle at isCycle
    change next = max _ ((op.sources.map _).foldl max 0) at isCycle
    omega
  obtain ⟨ready, readyMem, late⟩ := InOrder.lt_foldl_max.mp waits
  obtain ⟨key, keyMem, rfl⟩ := List.mem_map.mp readyMem
  rcases InOrder.readyAt_cases (ops.map Op.issue) schedule.length (Nat.find later) key with
    never | ⟨writer, written, issue, inside, isIssue, isWritten, writes, -, isReady⟩
  · omega
  · obtain ⟨writerOp, isWriterOp, rfl⟩ :=
      Option.map_eq_some_iff.mp ((List.getElem?_map ..).symm.trans isIssue)
    obtain ⟨asm, -, writerLowered, -⟩ := inOrder.issued writer written writerOp isWritten isWriterOp
    have writerNames :=
      Codegen.names_of_lower writerLowered (fits _ (List.mem_of_getElem? isWriterOp))
    refine ⟨written, next, asm, reader, key, first inside isWritten, after,
      (issued_iff inOrder).mpr ⟨writer, writerOp, isWritten, isWriterOp, writerLowered⟩, ?_, ?_,
      (issued_iff inOrder).mpr ⟨_, op, isNext, isOp, lowered⟩, ?_, ?_⟩
    · rw [asmDest_of_names writerNames]
      exact writes
    · rw [asmLatency_of_names writerNames]
      rw [isReady] at late
      exact late
    · rw [asmKeys_of_names names]
      exact names.source key keyMem
    · intro between other notBefore less issued
      obtain ⟨index, -, isIndex, -⟩ := (issued_iff inOrder).mp issued
      have earlier := (schedule.lt_iff isIndex isNext).mp less
      have contra := first earlier isIndex
      omega

end Scalar

/-- The result of an operation of three cycles is not in a predicate register. -/
theorem not_control_of_slow {writer reader : Asm.Syllable} {key : RegKey}
    (slow : asmLatency writer = 3) (writes : asmDest writer = some key)
    (reads : key ∈ asmKeys reader) : reader.control = none := by
  by_contra transfers
  obtain ⟨n, rfl⟩ := (control_effects (Option.isSome_iff_ne_none.mpr transfers)).2.2 key reads
  have quick := asmLatency_of_pred writes
  omega

/-! ### Bodies of scalar code -/

theorem syllables_nil_of_body {width : Nat} {syllables : List Mir.Syllable}
    (body : ScalarBody width syllables []) : syllables = [] := by
  cases body
  rfl

/-- The last bundle of a body, if it is not empty, issues the last syllable. -/
theorem getLast_of_body {width : Nat} {syllables : List Mir.Syllable} {bundles : List Bundle}
    (body : ScalarBody width syllables bundles) {bundle : Bundle} {asm : Asm.Syllable}
    (isLast : bundles.getLast? = some bundle) (asmMem : asm ∈ bundle.syllables) :
    ∃ syllable, syllables.getLast? = some syllable ∧
      Codegen.lowerSyllable syllable = .ok asm := by
  induction body with
  | nil => cases isLast
  | @wait syllables bundles rest ih =>
      cases bundles with
      | nil =>
          obtain rfl : ⟨[]⟩ = bundle := Option.some.inj isLast
          cases asmMem
      | cons next others => exact ih isLast
  | @issue syllable syllables other issued bundles lowered only fits rest ih =>
      cases bundles with
      | nil =>
          obtain rfl : issued = bundle := Option.some.inj isLast
          rw [syllables_nil_of_body rest]
          rw [only, List.mem_singleton] at asmMem
          exact ⟨syllable, rfl, asmMem ▸ lowered⟩
      | cons next others =>
          obtain ⟨last, isFound, isLowered⟩ := ih isLast
          refine ⟨last, ?_, isLowered⟩
          rw [List.getLast?_cons, isFound]
          rfl

/-- The first bundle of a body that is not empty issues the first syllable. -/
theorem head_of_body {width : Nat} {syllables : List Mir.Syllable} {bundles : List Bundle}
    (body : ScalarBody width syllables bundles) {offset : Nat} {bundle : Bundle}
    {asm : Asm.Syllable} (found : bundles[offset]? = some bundle) (asmMem : asm ∈ bundle.syllables)
    (waits : ∀ (earlier : Nat) (other : Bundle), earlier < offset →
      bundles[earlier]? = some other → other.syllables = []) :
    ∃ syllable, syllables.head? = some syllable ∧ Codegen.lowerSyllable syllable = .ok asm := by
  induction body generalizing offset with
  | nil => cases found
  | wait rest ih =>
      cases offset with
      | zero =>
          obtain rfl : ⟨[]⟩ = bundle := Option.some.inj found
          cases asmMem
      | succ offset =>
          exact ih found fun earlier other less isOther =>
            waits (earlier + 1) other (Nat.succ_lt_succ less) isOther
  | @issue syllable syllables other issued bundles lowered only fits rest ih =>
      cases offset with
      | zero =>
          obtain rfl : issued = bundle := Option.some.inj found
          rw [only, List.mem_singleton] at asmMem
          exact ⟨syllable, rfl, asmMem ▸ lowered⟩
      | succ offset =>
          have empty := waits 0 issued (Nat.succ_pos _) rfl
          rw [only] at empty
          cases empty

/-! ### When transfers are safe -/

/-- What selection and allocation promise of the syllables of a function: control
transfers only end blocks, no operation takes more than three cycles, and a syllable
has a destination when its opcode writes one. -/
structure PlainSyllable (syllable : Mir.Syllable) : Prop where
  fits : (Op.syllable syllable).Fits
  straight : syllable.opcode.behavior ≠ .control
  quick : syllable.opcode.latency ≤ 3
  proper : syllable.opcode ≠ .nop

instance (syllable : Mir.Syllable) : Decidable (PlainSyllable syllable) :=
  decidable_of_iff ((Op.syllable syllable).Fits ∧ syllable.opcode.behavior ≠ .control ∧
      syllable.opcode.latency ≤ 3 ∧ syllable.opcode ≠ .nop)
    ⟨fun ⟨fits, straight, quick, proper⟩ => ⟨fits, straight, quick, proper⟩,
      fun plain => ⟨plain.fits, plain.straight, plain.quick, plain.proper⟩⟩

/-- Every syllable of the function keeps to the conventions. -/
def PlainCode (function : Function) : Prop :=
  ∀ block ∈ function.blocks, ∀ syllable ∈ block.syllables, PlainSyllable syllable

/-- The register whose value is still pending when the block transfers control: the
block ends with a load or a product. -/
def pendingKey (block : Block) : Option RegKey :=
  block.syllables.getLast?.bind fun last =>
    if last.opcode.latency = 3 then (Op.syllable last).dest else none

/-- The first syllable of a block waits for a result that the block before it in
layout order leaves pending. -/
def Padded (function : Function) (index : Nat) : Prop :=
  ∃ before block first key, function.blocks[index]? = some before ∧
    function.blocks[index + 1]? = some block ∧ pendingKey before = some key ∧
    block.syllables.head? = some first ∧ key ∈ sourceRegKeys first

/-- No branch or jump leads from a block with a pending result to a block that begins
with a syllable that reads it, unless that block begins with an empty bundle.  The
syllables at the beginning of a block are given by `begins`. -/
def Settled (begins : Block → Mir.Syllable → Prop) (function : Function) : Prop :=
  ∀ block ∈ function.blocks, ∀ (label : String) (goal : Nat) (target : Block) (key : RegKey)
    (syllable : Mir.Syllable), terminatorLabel block.terminator = some label →
    namedBlock [function] label = some ⟨0, goal⟩ → function.blocks[goal]? = some target →
    pendingKey block = some key → begins target syllable → key ∈ sourceRegKeys syllable →
    ∃ before, goal = before + 1 ∧ Padded function before

theorem pendingKey_eq_some {block : Block} {key : RegKey} :
    pendingKey block = some key ↔ ∃ last, block.syllables.getLast? = some last ∧
      last.opcode.latency = 3 ∧ (Op.syllable last).dest = some key := by
  unfold pendingKey
  rw [Option.bind_eq_some_iff]
  refine exists_congr fun last => and_congr_right fun _ => ?_
  by_cases slow : last.opcode.latency = 3
  · rw [if_pos slow]
    simp [slow]
  · rw [if_neg slow]
    simp [slow]

/-- The scalar code of a function. -/
structure ScalarFunction (width : Nat) (function : Function) (codes : List BlockCode) : Prop where
  isCode : FunctionCode function codes
  body : ∀ {index : Nat} {block : Block} {code : BlockCode}, function.blocks[index]? = some block →
    codes[index]? = some code → ScalarBody width block.syllables code.body
  inOrder : ∃ cycles, InOrderBundles (functionOps function) cycles
    (programBundles (blockItems codes))

theorem PlainCode.fits {function : Function} (plain : PlainCode function) :
    Codegen.DestinationsFit function := by
  intro op opMem
  obtain ⟨block, blockMem, inBlock⟩ := List.mem_flatMap.mp opMem
  rcases List.mem_append.mp inBlock with inBody | isLast
  · obtain ⟨syllable, syllableMem, rfl⟩ := List.mem_map.mp inBody
    exact (plain block blockMem syllable syllableMem).fits
  · rw [List.mem_singleton.mp isLast]
    trivial

theorem PlainSyllable.names {syllable : Mir.Syllable} (plain : PlainSyllable syllable)
    {asm : Asm.Syllable} (lowered : Codegen.lowerSyllable syllable = .ok asm) :
    Codegen.Names (.syllable syllable) asm :=
  @Codegen.names_of_lower (.syllable syllable) asm lowered plain.fits

/-- A key that a syllable writes is read by the lowered form of those that name it. -/
theorem mem_asmKeys_iff {syllable : Mir.Syllable} {writer : Op} (plain : PlainSyllable syllable)
    {asm : Asm.Syllable} (lowered : Codegen.lowerSyllable syllable = .ok asm) {key : RegKey}
    (writes : writer.dest = some key) : key ∈ asmKeys asm ↔ key ∈ sourceRegKeys syllable := by
  have names := plain.names lowered
  rw [asmKeys_of_names names]
  constructor
  · intro reads
    rcases names.read key reads with rfl | isSource
    · exact absurd writes writer.dest_ne_zero
    · exact isSource
  · exact names.source key

namespace ScalarFunction

variable {width : Nat} {function : Function} {codes : List BlockCode}
  (scalar : ScalarFunction width function codes) (plain : PlainCode function)
include scalar plain

theorem regular : Regular (programBundles (blockItems codes)) := by
  obtain ⟨cycles, inOrder⟩ := scalar.inOrder
  refine ⟨spaced_of_inOrder inOrder plain.fits, ?_, ?_⟩
  · intro position asm other issued isControl otherIssued
    obtain ⟨index, code, found, only, rfl⟩ := scalar.isCode.last_of_control issued isControl
    rw [issued_last found, only, List.mem_singleton] at otherIssued
    exact otherIssued
  · intro position asm issued
    obtain ⟨index, op, -, isOp, lowered⟩ := (issued_iff inOrder).mp issued
    have opMem := List.mem_of_getElem? isOp
    rw [asmLatency_of_names (Codegen.names_of_lower lowered (plain.fits op opMem))]
    obtain ⟨block, blockMem, inBlock⟩ := List.mem_flatMap.mp opMem
    rcases List.mem_append.mp inBlock with inBody | isLast
    · obtain ⟨syllable, syllableMem, rfl⟩ := List.mem_map.mp inBody
      exact (plain block blockMem syllable syllableMem).quick
    · rw [List.mem_singleton.mp isLast]
      cases block.terminator <;> exact Nat.le_of_ble_eq_true rfl

theorem tight : Tight (programBundles (blockItems codes)) := by
  obtain ⟨cycles, inOrder⟩ := scalar.inOrder
  exact tight_of_inOrder inOrder plain.fits

section Block

variable {index : Nat} {block : Block} {code : BlockCode} {key : RegKey}
  (isBlock : function.blocks[index]? = some block) (found : codes[index]? = some code)
include isBlock found

/-- What a body ends with is its last syllable. -/
theorem pending_of_last {bundle : Bundle} {writer : Asm.Syllable}
    (isLast : code.body.getLast? = some bundle) (writerMem : writer ∈ bundle.syllables)
    (slow : asmLatency writer = 3) (writes : asmDest writer = some key) :
    pendingKey block = some key := by
  obtain ⟨last, isFound, lowered⟩ := getLast_of_body (scalar.body isBlock found) isLast writerMem
  have names := (plain block (List.mem_of_getElem? isBlock) last
    (List.mem_of_getLast? isFound)).names lowered
  rw [asmLatency_of_names names] at slow
  rw [asmDest_of_names names] at writes
  exact pendingKey_eq_some.mpr ⟨last, isFound, slow, writes⟩

/-- A pending result is issued right before the control transfer. -/
theorem exists_pending (pending : pendingKey block = some key) :
    ∃ written writer, written + 1 = firstBundle codes index + code.body.length ∧
      Issued (programBundles (blockItems codes)) written writer ∧ asmLatency writer = 3 ∧
      asmDest writer = some key := by
  obtain ⟨last, isLast, slow, writes⟩ := pendingKey_eq_some.mp pending
  have body := scalar.body isBlock found
  have full : code.body ≠ [] := by
    intro empty
    rw [empty] at body
    rw [syllables_nil_of_body body] at isLast
    cases isLast
  have positive : 0 < code.body.length := List.length_pos_iff.mpr full
  obtain ⟨bundle, isBundle⟩ : ∃ bundle, code.body.getLast? = some bundle :=
    ⟨_, List.getLast?_eq_some_getLast full⟩
  have isFound : code.body[code.body.length - 1]? = some bundle := by
    rw [← List.getLast?_eq_getElem?, isBundle]
  obtain ⟨asm, asmMem⟩ : ∃ asm, asm ∈ bundle.syllables := by
    apply List.exists_mem_of_ne_nil
    intro empty
    have atLast : (programBundles (blockItems codes))[firstBundle codes index +
        (code.body.length - 1)]? = some bundle := by
      rw [Asm.bundles_getElem? found (by omega)]
      unfold BlockCode.bundles
      rw [List.getElem?_append_left (by omega), isFound]
    obtain ⟨written, next, writer, reader, other, before, after, -, isDest, late, readerIssued,
      reads, none⟩ := scalar.tight plain _ bundle atLast empty
    obtain ⟨syllable, only, transfers⟩ := scalar.isCode.exists_last found
    have lastIssued : Issued (programBundles (blockItems codes))
        (firstBundle codes index + code.body.length) syllable := by
      rw [issued_last found, only]
      exact List.mem_cons_self
    have isNext : next = firstBundle codes index + code.body.length := by
      by_contra different
      exact none (firstBundle codes index + code.body.length) syllable (by omega) (by omega)
        lastIssued
    rw [isNext] at readerIssued
    rw [(scalar.regular plain).alone lastIssued transfers readerIssued] at reads
    obtain ⟨n, rfl⟩ := (control_effects transfers).2.2 other reads
    rw [asmLatency_of_pred isDest] at late
    omega
  obtain ⟨same, isSame, lowered⟩ := getLast_of_body body isBundle asmMem
  rw [isLast, Option.some.injEq] at isSame
  subst isSame
  have names := (plain block (List.mem_of_getElem? isBlock) last
    (List.mem_of_getLast? isLast)).names lowered
  refine ⟨firstBundle codes index + (code.body.length - 1), asm, by omega, ?_, ?_, ?_⟩
  · rw [issued_body found (by omega)]
    exact ⟨bundle, isFound, asmMem⟩
  · rw [asmLatency_of_names names]
    exact slow
  · rw [asmDest_of_names names]
    exact writes

end Block

/-- A block whose first syllable waits begins with an empty bundle. -/
theorem empty_of_padded {index : Nat} (padded : Padded function index) {code : BlockCode}
    (found : codes[index + 1]? = some code) {bundle : Bundle}
    (isFirst : code.body.head? = some bundle) : bundle.syllables = [] := by
  obtain ⟨before, block, first, key, isBefore, isBlock, pending, isHead, isSource⟩ := padded
  obtain ⟨beforeCode, beforeFound, -⟩ := scalar.isCode.exists_code isBefore
  obtain ⟨written, writer, isWritten, issued, slow, writes⟩ :=
    scalar.exists_pending plain isBefore beforeFound pending
  obtain ⟨last, -, -, isDest⟩ := pendingKey_eq_some.mp pending
  have start := Asm.firstBundle_succ beforeFound
  by_contra full
  obtain ⟨asm, asmMem⟩ := List.exists_mem_of_ne_nil _ full
  rw [List.head?_eq_getElem?] at isFirst
  obtain ⟨same, isSame, lowered⟩ := head_of_body (scalar.body isBlock found) isFirst asmMem
    fun earlier other less => absurd less (Nat.not_lt_zero _)
  rw [isHead, Option.some.injEq] at isSame
  subst isSame
  have plainFirst := plain block (List.mem_of_getElem? isBlock) first (List.mem_of_head? isHead)
  have reads := (mem_asmKeys_iff plainFirst lowered isDest).mpr isSource
  obtain ⟨inside, -⟩ := List.getElem?_eq_some_iff.mp isFirst
  have asmIssued : Issued (programBundles (blockItems codes))
      (firstBundle codes (index + 1) + 0) asm := by
    rw [issued_body found inside]
    exact ⟨bundle, isFirst, asmMem⟩
  have late := (scalar.regular plain).spaced written _ writer asm key (by omega) issued writes
    asmIssued reads fun between other after less otherIssued => by
      obtain rfl : between = firstBundle codes index + beforeCode.body.length := by omega
      exact scalar.isCode.unwritten_last beforeFound otherIssued
  omega

end ScalarFunction

end VliwCompiler.Pack
