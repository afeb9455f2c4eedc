import VliwCompiler.Pack.Places
import VliwCompiler.Pack.MemoryOrder

/-!
# Returns after calls

The continuation of a call restores the link register with a load.  A return
reads this register without naming it, so that neither the emitter nor the packer
waits for the load: the distance between the two depends on what stands between
them.
-/

namespace VliwCompiler.Pack

open Asm (Opcode Operand Bundle Processor Program programBundles)
open Codegen (Op InOrderBundles Names Placed blockOps functionOps scalarProgram zeroKey)
open InOrder (Writes readyAt)
open Mir (Function)
open Schedule (RegKey destRegKey)

/-- The key of the link register. -/
def linkKey : RegKey := ⟨.gpr, .preg linkReg⟩

/-- The syllable is `ldd r31`. -/
def IsRestore (asm : Asm.Syllable) : Prop :=
  asm.opcode = Opcode.loadD.mnemonic ∧ asm.operands.head? = some (.reg linkReg)

/-- The syllable is `ret`. -/
def IsReturn (asm : Asm.Syllable) : Prop := asm.opcode = Opcode.ret.mnemonic

/-- Every return is issued when the result of the last load of the link register
before it is available. -/
def ReturnsWait (bundles : List Bundle) : Prop :=
  ∀ {restored returned : Nat} {first last : Asm.Syllable}, Issued bundles restored first →
    IsRestore first → Issued bundles returned last → IsReturn last → restored < returned →
    (∀ between other, restored < between → between < returned → Issued bundles between other →
      ¬IsRestore other) →
    restored + Opcode.loadD.latency ≤ returned

/-- What selection and allocation promise of the syllables of a function: control
transfers only end blocks, no opcode takes longer than a load, and the link
register is written by loads from a fixed address. -/
structure LinkSyllable (syllable : Mir.Syllable) : Prop where
  fits : (Op.syllable syllable).Fits
  straight : syllable.opcode.behavior ≠ .control
  quick : syllable.opcode.latency ≤ 3
  link : destRegKey syllable = some linkKey →
    syllable.opcode = .loadD ∧ ∃ address, syllable.srcs = [.imm address]

/-- Every syllable of the function keeps to the conventions. -/
def LinkCode (function : Function) : Prop :=
  ∀ block ∈ function.blocks, ∀ syllable ∈ block.syllables, LinkSyllable syllable

/-- The operation loads the link register. -/
def Restores (op : Op) : Prop := op.dest = some linkKey

/-- The operation behind a load of the link register has to wait: it reads the link
register, or the result of an operation of three cycles right before the load. -/
def WaitsBehind (ops : List Op) (restored : Nat) : Prop :=
  ∃ middle, ops[restored + 1]? = some middle ∧
    (linkKey ∈ middle.sources ∨ ∃ before key, 0 < restored ∧ ops[restored - 1]? = some before ∧
      before.opcode.latency = 3 ∧ before.dest = some key ∧ key ∈ middle.sources)

/-- Between the last load of the link register and a return there are two
operations, or one that has to wait. -/
def RoomBeforeReturn (ops : List Op) : Prop :=
  ∀ {restored returned : Nat} {op : Op}, ops[restored]? = some op → Restores op →
    ops[returned]? = some (.terminator .ret) → restored < returned →
    (∀ between other, restored < between → between < returned → ops[between]? = some other →
      ¬Restores other) →
    restored + 3 ≤ returned ∨ returned = restored + 2 ∧ WaitsBehind ops restored

/-! ### Operations and their syllables -/

/-- The conventions for an operation. -/
def LinkOp : Op → Prop
  | .syllable body => LinkSyllable body
  | .terminator _ => True

theorem LinkOp.fits {op : Op} (link : LinkOp op) : op.Fits := by
  cases op with
  | syllable body => exact LinkSyllable.fits link
  | terminator terminator => trivial

theorem LinkOp.quick {op : Op} (link : LinkOp op) : op.opcode.latency ≤ 3 := by
  cases op with
  | syllable body => exact LinkSyllable.quick link
  | terminator terminator => cases terminator <;> exact Nat.le_of_ble_eq_true rfl

theorem LinkOp.restores {op : Op} (link : LinkOp op) (restores : Restores op) :
    op.opcode = .loadD ∧ op.sources = [] := by
  cases op with
  | syllable body =>
      obtain ⟨isLoad, address, isSrcs⟩ :=
        LinkSyllable.link link (Option.filter_eq_some_iff.mp restores).1
      refine ⟨isLoad, ?_⟩
      change Schedule.sourceRegKeys body = []
      rw [Codegen.sourceRegKeys_eq, isSrcs]
      rfl
  | terminator terminator => cases restores

theorem mnemonic_of_lower {op : Op} {asm : Asm.Syllable} (lowered : op.lower = .ok asm) :
    asm.opcode = op.opcode.mnemonic := by
  cases op with
  | syllable body => exact Codegen.mnemonic_of_lowerSyllable lowered
  | terminator terminator =>
      cases terminator with
      | ret =>
          cases lowered
          rfl
      | jump label =>
          cases lowered
          rfl
      | branch cond label =>
          obtain ⟨pred, -, rfl⟩ := map_eq_ok.mp lowered
          rfl
      | directCall target cont =>
          cases lowered
          rfl

theorem isRestore_iff {op : Op} {asm : Asm.Syllable} (link : LinkOp op)
    (lowered : op.lower = .ok asm) : IsRestore asm ↔ Restores op := by
  have names := Codegen.names_of_lower lowered link.fits
  unfold IsRestore Restores
  rw [mnemonic_of_lower lowered, ← names.dest]
  constructor
  · rintro ⟨isLoad, isHead⟩
    rw [Opcode.mnemonic_injective isLoad, isHead]
    rfl
  · intro isDest
    have isLoad := (link.restores (names.dest.symm.trans isDest)).1
    rw [isLoad] at isDest ⊢
    refine ⟨rfl, ?_⟩
    unfold Codegen.operandDest at isDest
    split at isDest
    · rename_i n _ isHead
      split at isDest
      · cases isDest
        exact isHead
      · cases isDest
    · rename_i isPred _
      cases isPred
    · cases isDest

theorem isReturn_iff {op : Op} {asm : Asm.Syllable} (link : LinkOp op)
    (lowered : op.lower = .ok asm) : IsReturn asm ↔ op = .terminator .ret := by
  unfold IsReturn
  rw [mnemonic_of_lower lowered, Opcode.mnemonic_injective.eq_iff]
  cases op with
  | syllable body =>
      constructor
      · intro isRet
        change body.opcode = .ret at isRet
        have straight := LinkSyllable.straight link
        rw [isRet] at straight
        exact absurd rfl straight
      · intro isRet
        cases isRet
  | terminator terminator => cases terminator <;> simp [Op.opcode]

/-! ### Scalar code -/

section Scalar

variable {ops : List Op} {cycles : List Nat} {bundles : List Bundle}

theorem exists_op (inOrder : InOrderBundles ops cycles bundles) {index cycle : Nat}
    (isCycle : cycles[index]? = some cycle) : ∃ op, ops[index]? = some op := by
  obtain ⟨issue, isIssue⟩ := inOrder.schedule.exists_issue isCycle
  obtain ⟨op, isOp, -⟩ := Option.map_eq_some_iff.mp ((List.getElem?_map ..).symm.trans isIssue)
  exact ⟨op, isOp⟩

theorem getElem?_issue {index : Nat} {op : Op} (isOp : ops[index]? = some op) :
    (ops.map Op.issue)[index]? = some op.issue := by
  rw [List.getElem?_map, isOp]
  rfl

/-- The syllables of scalar code are those of the operations. -/
theorem issued_iff (inOrder : InOrderBundles ops cycles bundles) {position : Nat}
    {asm : Asm.Syllable} :
    Issued bundles position asm ↔ ∃ (index : Nat) (op : Op), cycles[index]? = some position ∧
      ops[index]? = some op ∧ op.lower = .ok asm := by
  constructor
  · rintro ⟨bundle, found, asmMem⟩
    by_cases issued : position ∈ cycles
    · obtain ⟨index, isCycle⟩ := List.getElem?_of_mem issued
      obtain ⟨op, isOp⟩ := exists_op inOrder isCycle
      obtain ⟨other, same, lowered, isSame, only⟩ := inOrder.issued index position op isCycle isOp
      rw [found, Option.some.injEq] at isSame
      rw [isSame, only, List.mem_singleton] at asmMem
      exact ⟨index, op, isCycle, isOp, asmMem ▸ lowered⟩
    · rw [inOrder.waits position bundle found issued] at asmMem
      cases asmMem
  · rintro ⟨index, op, isCycle, isOp, lowered⟩
    obtain ⟨other, bundle, otherLowered, found, only⟩ :=
      inOrder.issued index position op isCycle isOp
    rw [lowered, Except.ok.injEq] at otherLowered
    exact ⟨bundle, found, by rw [only, otherLowered]; exact List.mem_cons_self⟩

/-- The operation behind a load of the link register waits in the cases named by
`WaitsBehind`. -/
theorem waits_iff (inOrder : InOrderBundles ops cycles bundles) (link : ∀ op ∈ ops, LinkOp op)
    {restored cycle : Nat} {op middle : Op} (isOp : ops[restored]? = some op)
    (restores : Restores op) (isCycle : cycles[restored]? = some cycle)
    (isMiddle : ops[restored + 1]? = some middle) :
    (∃ key ∈ middle.sources, cycle + 1 < readyAt (ops.map Op.issue) cycles (restored + 1) key) ↔
      WaitsBehind ops restored := by
  obtain ⟨isLoad, noSources⟩ := (link op (List.mem_of_getElem? isOp)).restores restores
  have schedule := inOrder.schedule
  have isNext : ∀ {before : Nat}, 0 < restored → cycles[restored - 1]? = some before →
      cycle = before + 1 := by
    intro before positive isBefore
    have same : restored - 1 + 1 = restored := by omega
    have step := schedule.cycle_succ isBefore (by rw [same]; exact getElem?_issue isOp)
      (by rw [same]; exact isCycle)
    rw [step, show op.issue.sources = [] from noSources]
    exact Nat.max_eq_left (Nat.zero_le _)
  constructor
  · rintro ⟨key, keyMem, late⟩
    refine ⟨middle, isMiddle, ?_⟩
    rcases InOrder.readyAt_cases (ops.map Op.issue) schedule.length (restored + 1) key with
      never | ⟨writer, written, issue, inside, isIssue, isWritten, writes, -, isReady⟩
    · omega
    · rw [isReady] at late
      obtain ⟨other, isOther, rfl⟩ :=
        Option.map_eq_some_iff.mp ((List.getElem?_map ..).symm.trans isIssue)
      have quick : other.issue.latency ≤ 3 := (link other (List.mem_of_getElem? isOther)).quick
      have distance := schedule.apart (Nat.le_of_lt_succ inside) isWritten isCycle
      by_cases same : writer = restored
      · rw [same, isOp] at isOther
        cases isOther
        rw [show op.issue.dest = some linkKey from restores, Option.some.injEq] at writes
        exact .inl (writes ▸ keyMem)
      · have adjacent : writer = restored - 1 := by omega
        rw [adjacent] at isWritten isOther
        have step := isNext (by omega) isWritten
        exact .inr ⟨other, key, by omega, isOther, by
          change other.issue.latency = 3
          omega, writes, keyMem⟩
  · rintro ⟨other, isOther, room⟩
    rw [isMiddle, Option.some.injEq] at isOther
    subst isOther
    have own : ∀ between, restored < between → between < restored + 1 →
        ∀ key, ¬Writes (ops.map Op.issue) between key := by
      intro between after before
      omega
    have isLink : readyAt (ops.map Op.issue) cycles (restored + 1) linkKey = cycle + 3 := by
      have ready := InOrder.readyAt_of_lastWriter (Nat.lt_succ_self restored)
        (getElem?_issue isOp) isCycle (show op.issue.dest = some linkKey from restores)
        fun between after before => own between after before linkKey
      rw [ready, show op.issue.latency = 3 by
        change op.opcode.latency = 3
        rw [isLoad]
        rfl]
    rcases room with isSource | ⟨before, key, positive, isBefore, slow, isDest, isSource⟩
    · exact ⟨linkKey, isSource, by omega⟩
    · by_cases same : key = linkKey
      · exact ⟨linkKey, same ▸ isSource, by omega⟩
      · refine ⟨key, isSource, ?_⟩
        obtain ⟨written, isWritten⟩ := schedule.exists_cycle (getElem?_issue isBefore)
        have step := isNext positive isWritten
        have last : ∀ between, restored - 1 < between → between < restored + 1 →
            ¬Writes (ops.map Op.issue) between key := by
          intro between after less writes
          obtain rfl : between = restored := by omega
          unfold Writes at writes
          rw [getElem?_issue isOp, Option.bind_some,
            show op.issue.dest = some linkKey from restores, Option.some.injEq] at writes
          exact same writes.symm
        rw [InOrder.readyAt_of_lastWriter (by omega) (getElem?_issue isBefore) isWritten isDest
          last, show before.issue.latency = 3 from slow]
        omega

/-- The distance of a return from a load of the link register in scalar code. -/
theorem distance_iff (inOrder : InOrderBundles ops cycles bundles) (link : ∀ op ∈ ops, LinkOp op)
    {restored returned cycle last : Nat} {op : Op} (isOp : ops[restored]? = some op)
    (restores : Restores op) (isRet : ops[returned]? = some (.terminator .ret))
    (less : restored < returned) (isCycle : cycles[restored]? = some cycle)
    (isLast : cycles[returned]? = some last) :
    cycle + 3 ≤ last ↔
      restored + 3 ≤ returned ∨ returned = restored + 2 ∧ WaitsBehind ops restored := by
  have schedule := inOrder.schedule
  have adjacent : ∀ {index before : Nat}, returned = index + 1 → cycles[index]? = some before →
      last = before + 1 := by
    intro index before isIndex isBefore
    rw [isIndex] at isRet isLast
    rw [schedule.cycle_succ isBefore (getElem?_issue isRet) isLast]
    exact Nat.max_eq_left (Nat.zero_le _)
  have distance := schedule.apart (Nat.le_of_lt less) isCycle isLast
  by_cases far : restored + 3 ≤ returned
  · exact ⟨fun _ => .inl far, fun _ => by omega⟩
  · by_cases two : returned = restored + 2
    · have bound := (List.getElem?_eq_some_iff.mp isLast).1
      have isMiddleCycle : cycles[restored + 1]? = some cycles[restored + 1] :=
        List.getElem?_eq_getElem (by omega)
      obtain ⟨middle, isMiddle⟩ := exists_op inOrder isMiddleCycle
      have step := schedule.cycle_succ isCycle (getElem?_issue isMiddle) isMiddleCycle
      have isNext := adjacent two isMiddleCycle
      have waits := waits_iff inOrder link isOp restores isCycle isMiddle
      have largest : cycle + 1 < ((middle.issue.sources.map
          (readyAt (ops.map Op.issue) cycles (restored + 1))).foldl max 0) ↔
            WaitsBehind ops restored := by
        rw [← waits, InOrder.lt_foldl_max]
        simp only [List.mem_map, exists_exists_and_eq_and]
        rfl
      constructor
      · intro late
        exact .inr ⟨two, largest.mp (by omega)⟩
      · rintro (contra | ⟨-, waiting⟩)
        · exact absurd contra far
        · have later := largest.mpr waiting
          omega
    · have one : returned = restored + 1 := by omega
      have isNext := adjacent one isCycle
      constructor
      · intro late
        omega
      · rintro (contra | ⟨contra, -⟩)
        · exact absurd contra far
        · exact absurd contra two

/-- Scalar code waits before returns exactly when there is room. -/
theorem returnsWait_scalar (inOrder : InOrderBundles ops cycles bundles)
    (link : ∀ op ∈ ops, LinkOp op) : ReturnsWait bundles ↔ RoomBeforeReturn ops := by
  have schedule := inOrder.schedule
  constructor
  · intro waits restored returned op isOp restores isRet less none
    obtain ⟨cycle, isCycle⟩ := schedule.exists_cycle (getElem?_issue isOp)
    obtain ⟨last, isLast⟩ := schedule.exists_cycle (getElem?_issue isRet)
    obtain ⟨first, -, firstLowered, -⟩ := inOrder.issued restored cycle op isCycle isOp
    have isFirst : Issued bundles cycle first :=
      (issued_iff inOrder).mpr ⟨restored, op, isCycle, isOp, firstLowered⟩
    have isReturn : Issued bundles last ⟨"ret", []⟩ :=
      (issued_iff inOrder).mpr ⟨returned, _, isLast, isRet, rfl⟩
    refine (distance_iff inOrder link isOp restores isRet less isCycle isLast).mp
      (waits isFirst ((isRestore_iff (link op (List.mem_of_getElem? isOp)) firstLowered).mpr
        restores) isReturn rfl ((schedule.lt_iff isCycle isLast).mpr less) ?_)
    intro between other after before isOther restore
    obtain ⟨index, otherOp, isIndex, isOtherOp, lowered⟩ := (issued_iff inOrder).mp isOther
    exact none index otherOp ((schedule.lt_iff isCycle isIndex).mp after)
      ((schedule.lt_iff isIndex isLast).mp before) isOtherOp
      ((isRestore_iff (link otherOp (List.mem_of_getElem? isOtherOp)) lowered).mp restore)
  · intro room restored returned first last isFirst restore isLast isReturn less none
    obtain ⟨j, op, isCycle, isOp, firstLowered⟩ := (issued_iff inOrder).mp isFirst
    obtain ⟨i, ret, isLastCycle, isRet, lastLowered⟩ := (issued_iff inOrder).mp isLast
    rw [isReturn_iff (link ret (List.mem_of_getElem? isRet)) lastLowered] at isReturn
    rw [isRestore_iff (link op (List.mem_of_getElem? isOp)) firstLowered] at restore
    subst isReturn
    have before := (schedule.lt_iff isCycle isLastCycle).mp less
    refine (distance_iff inOrder link isOp restore isRet before isCycle isLastCycle).mpr
      (room isOp restore isRet before ?_)
    intro between other after less' isOther restores
    obtain ⟨cycle, isBetween⟩ := schedule.exists_cycle (getElem?_issue isOther)
    obtain ⟨asm, -, lowered, -⟩ := inOrder.issued between cycle other isBetween isOther
    exact none cycle asm ((schedule.lt_iff isCycle isBetween).mpr after)
      ((schedule.lt_iff isBetween isLastCycle).mpr less')
      ((issued_iff inOrder).mpr ⟨between, other, isBetween, isOther, lowered⟩)
      ((isRestore_iff (link other (List.mem_of_getElem? isOther)) lowered).mpr restores)

/-- The bundle of an operation. -/
theorem exists_issue (inOrder : InOrderBundles ops cycles bundles) (link : ∀ op ∈ ops, LinkOp op)
    {index position : Nat} {op : Op} (isCycle : cycles[index]? = some position)
    (isOp : ops[index]? = some op) :
    ∃ bundle asm, bundles[position]? = some bundle ∧ Names op asm ∧
      bundleIssue bundle = ⟨asmKeys asm, op.dest, op.opcode.latency⟩ := by
  obtain ⟨asm, bundle, lowered, found, only⟩ := inOrder.issued index position op isCycle isOp
  have names := Codegen.names_of_lower lowered (link op (List.mem_of_getElem? isOp)).fits
  refine ⟨bundle, asm, found, names, ?_⟩
  rw [bundleIssue_of_single only]
  unfold asmDest asmLatency
  rw [names.mnemonic, Option.bind_some, names.dest]
  rfl

theorem writes_iff (inOrder : InOrderBundles ops cycles bundles) (link : ∀ op ∈ ops, LinkOp op)
    {position : Nat} {key : RegKey} :
    Writes (bundles.map bundleIssue) position key ↔
      ∃ index : Nat, cycles[index]? = some position ∧ Writes (ops.map Op.issue) index key := by
  unfold Writes
  constructor
  · intro writes
    obtain ⟨issue, isIssue, isDest⟩ := Option.bind_eq_some_iff.mp writes
    obtain ⟨bundle, found, rfl⟩ :=
      Option.map_eq_some_iff.mp ((List.getElem?_map ..).symm.trans isIssue)
    by_cases issued : position ∈ cycles
    · obtain ⟨index, isCycle⟩ := List.getElem?_of_mem issued
      obtain ⟨op, isOp⟩ := exists_op inOrder isCycle
      obtain ⟨other, asm, isOther, -, same⟩ := exists_issue inOrder link isCycle isOp
      rw [found, Option.some.injEq] at isOther
      rw [isOther, same] at isDest
      exact ⟨index, isCycle, by rw [getElem?_issue isOp]; exact isDest⟩
    · rw [bundleIssue_of_empty (inOrder.waits position bundle found issued)] at isDest
      cases isDest
  · rintro ⟨index, isCycle, writes⟩
    obtain ⟨op, isOp⟩ := exists_op inOrder isCycle
    obtain ⟨bundle, asm, found, -, same⟩ := exists_issue inOrder link isCycle isOp
    rw [getElem?_issue isOp] at writes
    rw [List.getElem?_map, found, Option.map_some, Option.bind_some, same]
    exact writes

/-- In scalar code the results a bundle reads are available. -/
theorem ready_of_inOrder (inOrder : InOrderBundles ops cycles bundles)
    (link : ∀ op ∈ ops, LinkOp op) {written position : Nat} {writer bundle : Bundle} {key : RegKey}
    (less : written < position) (isWriter : bundles[written]? = some writer)
    (found : bundles[position]? = some bundle) (writes : (bundleIssue writer).dest = some key)
    (reads : key ∈ (bundleIssue bundle).sources)
    (last : ∀ between, written < between → between < position →
      ¬Writes (bundles.map bundleIssue) between key) :
    written + (bundleIssue writer).latency ≤ position := by
  have schedule := inOrder.schedule
  have isWrite : Writes (bundles.map bundleIssue) written key := by
    unfold Writes
    rw [List.getElem?_map, isWriter]
    exact writes
  obtain ⟨w, isWritten, opWrites⟩ := (writes_iff inOrder link).mp isWrite
  obtain ⟨writerOp, isWriterOp⟩ := exists_op inOrder isWritten
  obtain ⟨other, writerAsm, isOther, -, sameWriter⟩ :=
    exists_issue inOrder link isWritten isWriterOp
  rw [isWriter, Option.some.injEq] at isOther
  subst isOther
  by_cases issued : position ∈ cycles
  · obtain ⟨r, isCycle⟩ := List.getElem?_of_mem issued
    obtain ⟨op, isOp⟩ := exists_op inOrder isCycle
    obtain ⟨other, asm, isOther, names, same⟩ := exists_issue inOrder link isCycle isOp
    rw [found, Option.some.injEq] at isOther
    subst isOther
    rw [same] at reads
    rw [sameWriter] at writes ⊢
    have isKey : key ∈ op.sources := by
      have isRead : key ∈ Codegen.operandKeys op.opcode.writesGpr op.opcode.writesPred
          asm.operands := by
        change key ∈ asmKeys asm at reads
        unfold asmKeys at reads
        rwa [names.mnemonic] at reads
      rcases names.read key isRead with isZero | isSource
      · rw [isZero] at writes
        exact absurd writes writerOp.dest_ne_zero
      · exact isSource
    have readyBefore := schedule.ready_le (getElem?_issue isOp) isCycle isKey
    rwa [InOrder.readyAt_of_lastWriter ((schedule.lt_iff isWritten isCycle).mp less)
      (getElem?_issue isWriterOp) isWritten writes] at readyBefore
    intro between after before isBetween
    obtain ⟨issue, isIssue, -⟩ := Option.bind_eq_some_iff.mp isBetween
    obtain ⟨cycle, isBetweenCycle⟩ := schedule.exists_cycle isIssue
    exact last cycle ((schedule.lt_iff isWritten isBetweenCycle).mpr after)
      ((schedule.lt_iff isBetweenCycle isCycle).mpr before)
      ((writes_iff inOrder link).mpr ⟨between, isBetweenCycle, isBetween⟩)
  · rw [bundleIssue_of_empty (inOrder.waits position bundle found issued)] at reads
    cases reads

end Scalar

/-! ### Packed code -/

section Packed

variable {ops : List Op} {cycles : List Nat} {processor : Processor}
  {base done out : List Bundle} {places : List Nat}

/-- Sources that are ready in scalar code are ready when the bundle is packed right
after the one before it. -/
theorem Traced.ready_succ (traced : Traced processor base done out places)
    (inOrder : InOrderBundles ops cycles done) (link : ∀ op ∈ ops, LinkOp op)
    {index place : Nat} {bundle : Bundle} (isPlace : places[index]? = some place)
    (found : done[index + 1]? = some bundle) :
    ∀ key ∈ (bundleIssue bundle).sources,
      readyAt (done.map bundleIssue) places (index + 1) key ≤ place + 1 := by
  intro key keyMem
  have sameLength : places.length = (done.map bundleIssue).length := by
    rw [traced.length, List.length_map]
  rcases InOrder.readyAt_cases (done.map bundleIssue) sameLength (index + 1) key with
    never | ⟨writer, written, issue, inside, isIssue, isWritten, writes, last, isReady⟩
  · omega
  · obtain ⟨other, isOther, rfl⟩ :=
      Option.map_eq_some_iff.mp ((List.getElem?_map ..).symm.trans isIssue)
    have ready := ready_of_inOrder inOrder link inside isOther found writes keyMem last
    have spaced := traced.spaced (Nat.le_of_lt_succ inside) isWritten isPlace isOther writes
      fun between after before => last between after (by omega)
    omega

theorem bundleIsTerminator_of_return {bundle : Bundle} {asm : Asm.Syllable}
    (asmMem : asm ∈ bundle.syllables) (isReturn : IsReturn asm) :
    bundleIsTerminator bundle = true := by
  refine List.any_eq_true.mpr ⟨asm, asmMem, ?_⟩
  unfold syllableIsTerminator
  rw [isReturn, Opcode.fromMnemonic_mnemonic]

/-- A load of the link register as the packer sees it. -/
theorem issue_of_restore (inOrder : InOrderBundles ops cycles done) (link : ∀ op ∈ ops, LinkOp op)
    {position : Nat} {asm : Asm.Syllable} (issued : Issued done position asm)
    (restore : IsRestore asm) :
    ∃ bundle, done[position]? = some bundle ∧ (bundleIssue bundle).dest = some linkKey ∧
      (bundleIssue bundle).latency = 3 := by
  obtain ⟨index, op, isCycle, isOp, lowered⟩ := (issued_iff inOrder).mp issued
  have isLink := link op (List.mem_of_getElem? isOp)
  rw [isRestore_iff isLink lowered] at restore
  obtain ⟨bundle, other, found, -, same⟩ := exists_issue inOrder link isCycle isOp
  refine ⟨bundle, found, by rw [same]; exact restore, ?_⟩
  rw [same]
  change op.opcode.latency = 3
  rw [(isLink.restores restore).1]
  rfl

/-- A bundle that writes the link register is a load of it. -/
theorem restore_of_writes (inOrder : InOrderBundles ops cycles done)
    (link : ∀ op ∈ ops, LinkOp op) {position : Nat}
    (writes : Writes (done.map bundleIssue) position linkKey) :
    ∃ asm, Issued done position asm ∧ IsRestore asm := by
  obtain ⟨index, isCycle, opWrites⟩ := (writes_iff inOrder link).mp writes
  obtain ⟨op, isOp⟩ := exists_op inOrder isCycle
  unfold Writes at opWrites
  rw [getElem?_issue isOp] at opWrites
  obtain ⟨asm, -, lowered, -⟩ := inOrder.issued index position op isCycle isOp
  exact ⟨asm, (issued_iff inOrder).mpr ⟨index, op, isCycle, isOp, lowered⟩,
    (isRestore_iff (link op (List.mem_of_getElem? isOp)) lowered).mpr opWrites⟩

/-- The place of a return behind a load of the link register. -/
theorem Traced.return_far (traced : Traced processor base done out places)
    (inOrder : InOrderBundles ops cycles done) (link : ∀ op ∈ ops, LinkOp op)
    {restored returned place last : Nat} {first asm : Asm.Syllable}
    (isFirst : Issued done restored first) (restore : IsRestore first)
    (isLast : Issued done returned asm) (isReturn : IsReturn asm)
    (none : ∀ between other, restored < between → between < returned →
      Issued done between other → ¬IsRestore other)
    (isPlace : places[restored]? = some place) (isLastPlace : places[returned]? = some last)
    (far : restored + 3 ≤ returned) : place + 3 ≤ last := by
  obtain ⟨bundle, found, writes, slow⟩ := issue_of_restore inOrder link isFirst restore
  obtain ⟨ret, isRet, retMem⟩ := isLast
  have bound := (List.getElem?_eq_some_iff.mp isLastPlace).1
  have isMiddle : places[restored + 2]? = some places[restored + 2] :=
    List.getElem?_eq_getElem (by omega)
  have isBefore : places[returned - 1]? = some places[returned - 1] :=
    List.getElem?_eq_getElem (by omega)
  have spaced := traced.spaced (by omega) isPlace isMiddle found writes (by
    intro between after before isBetween
    obtain ⟨other, isOther, isRestore⟩ := restore_of_writes inOrder link isBetween
    exact none between other after (by omega) isOther isRestore)
  have same : returned - 1 + 1 = returned := by omega
  have next := traced.transfer_succ isBefore (by rw [same]; exact isLastPlace)
    (by rw [same]; exact isRet) (bundleIsTerminator_of_return retMem isReturn)
  have mono := traced.mono (show restored + 2 ≤ returned - 1 by omega) isMiddle isBefore
  rw [slow] at spaced
  omega

theorem Traced.return_near (traced : Traced processor base done out places)
    (inOrder : InOrderBundles ops cycles done) (link : ∀ op ∈ ops, LinkOp op)
    {restored returned place last : Nat} {asm : Asm.Syllable}
    (isLast : Issued done returned asm) (isReturn : IsReturn asm) (less : restored < returned)
    (isPlace : places[restored]? = some place) (isLastPlace : places[returned]? = some last)
    (near : returned < restored + 3) : place < last ∧ last < place + 3 := by
  obtain ⟨ret, isRet, retMem⟩ := isLast
  have transfers := bundleIsTerminator_of_return retMem isReturn
  by_cases one : returned = restored + 1
  · rw [one] at isRet isLastPlace
    have next := traced.transfer_succ isPlace isLastPlace isRet transfers
    omega
  · obtain rfl : returned = restored + 2 := by omega
    have bound := (List.getElem?_eq_some_iff.mp isLastPlace).1
    have isMiddle : places[restored + 1]? = some places[restored + 1] :=
      List.getElem?_eq_getElem (by omega)
    obtain ⟨middle, found⟩ := traced.exists_bundle isMiddle
    have next := traced.transfer_succ isMiddle isLastPlace isRet transfers
    have early := traced.le_of_ready isPlace isMiddle found
      (traced.ready_succ inOrder link isPlace found)
    have late := traced.le_succ isPlace isMiddle
    omega

/-- Packing keeps whether returns wait. -/
theorem returnsWait_packed (traced : Traced processor base done out places)
    (inOrder : InOrderBundles ops cycles done) (link : ∀ op ∈ ops, LinkOp op) :
    ReturnsWait out ↔ ReturnsWait done := by
  constructor
  · intro waits restored returned first last isFirst restore isLast isReturn less none
    have ⟨firstBundle, foundFirst, _⟩ := isFirst
    have ⟨lastBundle, foundLast, _⟩ := isLast
    obtain ⟨place, isPlace⟩ := traced.exists_place foundFirst
    obtain ⟨lastPlace, isLastPlace⟩ := traced.exists_place foundLast
    have inside := traced.inside isPlace
    have lastInside := traced.inside isLastPlace
    by_contra short
    have near := traced.return_near inOrder link isLast isReturn less isPlace isLastPlace
      (Nat.lt_of_not_le short)
    have apart := waits
      ((traced.content (place - base.length) first).mpr
        ⟨restored, by rw [isPlace]; congr 1; omega, isFirst⟩) restore
      ((traced.content (lastPlace - base.length) last).mpr
        ⟨returned, by rw [isLastPlace]; congr 1; omega, isLast⟩) isReturn (by omega) ?_
    · have distance : place - base.length + 3 ≤ lastPlace - base.length := apart
      omega
    · intro between other after before isOther restores
      obtain ⟨index, isBetween, issued⟩ := (traced.content between other).mp isOther
      refine none index other ?_ ?_ issued restores
      · by_contra notAfter
        have mono := traced.mono (Nat.le_of_not_lt notAfter) isBetween isPlace
        omega
      · by_contra notBefore
        have mono := traced.mono (Nat.le_of_not_lt notBefore) isLastPlace isBetween
        omega
  · intro waits restored returned first last isFirst restore isLast isReturn less none
    obtain ⟨j, isPlace, issuedFirst⟩ := (traced.content restored first).mp isFirst
    obtain ⟨i, isLastPlace, issuedLast⟩ := (traced.content returned last).mp isLast
    have before : j < i := by
      by_contra notBefore
      have mono := traced.mono (Nat.le_of_not_lt notBefore) isLastPlace isPlace
      omega
    have between : ∀ index other, j < index → index < i → Issued done index other →
        ¬IsRestore other := by
      intro index other after less' issued restores
      have ⟨bundle, found, _⟩ := issued
      obtain ⟨middle, isMiddle⟩ := traced.exists_place found
      have inside := traced.inside isMiddle
      have later : base.length + restored < middle := by
        obtain ⟨firstBundle, foundFirst, writes, slow⟩ :=
          issue_of_restore inOrder link issuedFirst restore
        have bound := (List.getElem?_eq_some_iff.mp isMiddle).1
        have isNext : places[j + 1]? = some places[j + 1] := List.getElem?_eq_getElem (by omega)
        have spaced := traced.spaced (Nat.le_succ j) isPlace isNext foundFirst writes (by omega)
        have mono := traced.mono after isNext isMiddle
        rw [slow] at spaced
        omega
      have earlier : middle < base.length + returned := by
        have ⟨ret, isRet, retMem⟩ := issuedLast
        have bound := (List.getElem?_eq_some_iff.mp isLastPlace).1
        have isBefore : places[i - 1]? = some places[i - 1] :=
          List.getElem?_eq_getElem (by omega)
        have same : i - 1 + 1 = i := by omega
        have next := traced.transfer_succ isBefore (by rw [same]; exact isLastPlace)
          (by rw [same]; exact isRet) (bundleIsTerminator_of_return retMem isReturn)
        have mono := traced.mono (show index ≤ i - 1 by omega) isMiddle isBefore
        omega
      exact none (middle - base.length) other (by omega) (by omega)
        ((traced.content (middle - base.length) other).mpr
          ⟨index, by rw [isMiddle]; congr 1; omega, issued⟩) restores
    have far := waits issuedFirst restore issuedLast isReturn before between
    have distance := traced.return_far inOrder link issuedFirst restore issuedLast isReturn between
      isPlace isLastPlace far
    change restored + 3 ≤ returned
    omega

end Packed

/-! ### Functions of a module -/

theorem linkOp_of_linkCode {function : Function} (link : LinkCode function) :
    ∀ op ∈ functionOps function, LinkOp op := by
  intro op opMem
  obtain ⟨block, blockMem, inBlock⟩ := List.mem_flatMap.mp opMem
  rcases List.mem_append.mp inBlock with inBody | isLast
  · obtain ⟨syllable, syllableMem, rfl⟩ := List.mem_map.mp inBody
    exact link block blockMem syllable syllableMem
  · rw [List.mem_singleton.mp isLast]
    trivial

/-- The last operation of a function is a terminator. -/
theorem terminator_of_getLast? {function : Function} {op : Op}
    (isLast : (functionOps function).getLast? = some op) :
    ∃ terminator, op = .terminator terminator := by
  unfold functionOps at isLast
  rcases List.eq_nil_or_concat function.blocks with empty | ⟨front, block, whole⟩
  · rw [empty] at isLast
    cases isLast
  · rw [whole, List.concat_eq_append, List.flatMap_append, List.flatMap_singleton] at isLast
    unfold blockOps at isLast
    rw [← List.append_assoc, List.getLast?_concat] at isLast
    exact ⟨_, (Option.some.inj isLast).symm⟩

section Function

variable {function : Function} {cycles : List Nat} {bundles : List Bundle}

/-- The last bundle of a function issues its last terminator. -/
theorem exists_last (inOrder : InOrderBundles (functionOps function) cycles bundles)
    (full : bundles ≠ []) :
    ∃ (index : Nat) (terminator : Mir.Terminator), index + 1 = (functionOps function).length ∧
      cycles[index]? = some (bundles.length - 1) ∧
      (functionOps function)[index]? = some (.terminator terminator) := by
  have sameLength : cycles.length = (functionOps function).length := by
    simpa using inOrder.schedule.length
  have length := inOrder.length
  rcases List.eq_nil_or_concat cycles with rfl | ⟨front, last, rfl⟩
  · exact absurd (List.length_eq_zero_iff.mp length) full
  · rw [List.concat_eq_append] at length sameLength ⊢
    rw [InOrder.nextCycle_append] at length
    rw [List.length_append, List.length_singleton] at sameLength
    obtain ⟨op, isOp⟩ : ∃ op, (functionOps function)[front.length]? = some op :=
      ⟨_, List.getElem?_eq_getElem (by omega)⟩
    have isLast : (functionOps function).getLast? = some op := by
      rw [List.getLast?_eq_getElem?, ← sameLength, Nat.add_sub_cancel, isOp]
    obtain ⟨terminator, rfl⟩ := terminator_of_getLast? isLast
    refine ⟨front.length, terminator, sameLength, ?_, isOp⟩
    rw [List.getElem?_concat_length, length, Nat.add_sub_cancel]

theorem closed_of_inOrder (inOrder : InOrderBundles (functionOps function) cycles bundles) :
    Closed bundles := by
  intro bundle isLast
  have full : bundles ≠ [] := by
    rintro rfl
    cases isLast
  obtain ⟨index, terminator, -, isCycle, isOp⟩ := exists_last inOrder full
  obtain ⟨asm, other, lowered, found, only⟩ := inOrder.issued _ _ _ isCycle isOp
  rw [← List.getLast?_eq_getElem?, isLast, Option.some.injEq] at found
  refine List.any_eq_true.mpr ⟨asm, by rw [found, only]; exact List.mem_cons_self, ?_⟩
  unfold syllableIsTerminator
  rw [mnemonic_of_lower lowered, Opcode.fromMnemonic_mnemonic]
  cases terminator <;> rfl

/-- The results of a function are ready soon after its last terminator. -/
theorem quiet_of_traced {processor : Processor} {base out : List Bundle} {places : List Nat}
    (inOrder : InOrderBundles (functionOps function) cycles bundles)
    (link : ∀ op ∈ functionOps function, LinkOp op)
    (traced : Traced processor base bundles out places) (full : bundles ≠ []) :
    Quiet (base ++ out) := by
  intro key
  have sameLength : places.length = (bundles.map bundleIssue).length := by
    rw [traced.length, List.length_map]
  have positive : 0 < bundles.length := List.length_pos_iff.mpr full
  obtain ⟨lastIndex, terminator, isEnd, isCycle, isOp⟩ := exists_last inOrder full
  obtain ⟨asm, bundle, -, found, -⟩ := inOrder.issued _ _ _ isCycle isOp
  obtain ⟨last, isLast⟩ := traced.exists_place found
  have length : last + 1 = (base ++ out).length := by
    have whole : bundles.length - 1 + 1 = places.length := by
      rw [traced.length]
      omega
    rw [← traced.frontier, ← frontier_take base.length isLast, whole, List.take_length]
  refine (traced.upper key).trans (Nat.max_le.mpr ⟨?_, ?_⟩)
  · rcases InOrder.readyAt_cases (bundles.map bundleIssue) sameLength bundles.length key with
      never | ⟨writer, place, issue, inside, isIssue, isPlace, writes, -, isReady⟩
    · omega
    · have isWrite : Writes (bundles.map bundleIssue) writer key := by
        unfold Writes
        rw [isIssue]
        exact writes
      obtain ⟨index, isWritten, opWrites⟩ := (writes_iff inOrder link).mp isWrite
      obtain ⟨op, isWriterOp⟩ := exists_op inOrder isWritten
      obtain ⟨other, otherAsm, isOther, -, same⟩ := exists_issue inOrder link isWritten isWriterOp
      rw [List.getElem?_map, isOther, Option.map_some, Option.some.injEq] at isIssue
      have quick : issue.latency ≤ 3 := by
        rw [← isIssue, same]
        exact (link op (List.mem_of_getElem? isWriterOp)).quick
      have before : writer ≠ bundles.length - 1 := by
        rintro rfl
        have sameIndex : index = lastIndex := by
          by_contra different
          have ordered := inOrder.schedule.lt_iff isWritten isCycle
          have reversed := inOrder.schedule.lt_iff isCycle isWritten
          omega
        rw [sameIndex, isOp, Option.some.injEq] at isWriterOp
        unfold Writes at opWrites
        rw [sameIndex, getElem?_issue isOp] at opWrites
        cases opWrites
      have bound := (List.getElem?_eq_some_iff.mp isLast).1
      have isBefore : places[bundles.length - 2]? = some places[bundles.length - 2] :=
        List.getElem?_eq_getElem (by omega)
      have successor : bundles.length - 2 + 1 = bundles.length - 1 := by omega
      have next := traced.transfer_succ isBefore (by rw [successor]; exact isLast)
        (by rw [successor]; exact found) (closed_of_inOrder inOrder bundle (by
          rw [List.getLast?_eq_getElem?, found]))
      have mono := traced.mono (show writer ≤ bundles.length - 2 by omega) isPlace isBefore
      omega
  · rw [List.length_append]
    omega

end Function

/-- Packing moves syllables between bundles and nothing else. -/
theorem Packs.perm {processor : Processor} {base done out : List Bundle} (closed : Closed base)
    (sound : ∀ bundle ∈ base, Sound processor bundle)
    (placed : ∀ bundle ∈ done, Placed processor bundle) (packs : Packs processor base done out) :
    (∀ bundle ∈ base ++ out, Sound processor bundle) ∧
      (out.flatMap (·.syllables)).Perm (done.flatMap (·.syllables)) := by
  induction packs with
  | nil => exact ⟨by rwa [List.append_nil], .refl _⟩
  | @step done out out' bundle _ straight step ih =>
      obtain ⟨placedBefore, placedLast⟩ := List.forall_mem_append.mp placed
      have placedBundle := List.forall_mem_singleton.mp placedLast
      obtain ⟨soundBefore, perm⟩ := ih placedBefore
      have after := step.sound placedBundle straight soundBefore
      refine ⟨after, ?_⟩
      rw [List.flatMap_append, List.flatMap_singleton]
      generalize isFinal : base ++ out' = final at step
      cases step with
      | keep empty =>
          rw [List.append_assoc] at isFinal
          rw [List.append_cancel_left isFinal, List.flatMap_append, List.flatMap_singleton]
          exact perm.append_right _
      | @merge front last candidate full isOut lastFull lastStraight settled sourcesReady merged
          accepted =>
          obtain ⟨middle, rfl, rfl⟩ := closed.merge isOut lastStraight
          rw [List.append_assoc] at isFinal
          obtain rfl := List.append_cancel_left isFinal
          obtain ⟨asm, only⟩ := exists_single_of_placed placedBundle full
          have fits := (soundBefore last (by simp)).fits
          have whole := perm_of_mergeBundles fits only merged
          rw [List.flatMap_append, List.flatMap_singleton] at perm ⊢
          rw [only]
          refine (whole.symm.append_left _).trans ?_
          rw [← List.append_assoc]
          exact perm.append_right _
      | issue count full sourcesReady tight =>
          rw [List.append_assoc, List.append_assoc] at isFinal
          have none : (List.replicate count (⟨[]⟩ : Bundle)).flatMap (·.syllables) = [] := by
            rw [List.flatMap_eq_nil_iff]
            intro other otherMem
            rw [List.eq_of_mem_replicate otherMem]
            rfl
          rw [List.append_cancel_left isFinal, List.flatMap_append, List.flatMap_append, none,
            List.nil_append, List.flatMap_singleton]
          exact perm.append_right _
  | @transfer done out bundle _ transfers ih =>
      obtain ⟨placedBefore, placedLast⟩ := List.forall_mem_append.mp placed
      obtain ⟨soundBefore, perm⟩ := ih placedBefore
      refine ⟨?_, ?_⟩
      · rw [← List.append_assoc]
        exact List.forall_mem_append.mpr ⟨soundBefore, List.forall_mem_singleton.mpr
          (sound_of_placed (List.forall_mem_singleton.mp placedLast))⟩
      · rw [List.flatMap_append, List.flatMap_append]
        exact perm.append_right _

/-- The bundles of a function issue its lowered operations. -/
def PartOf (function : Function) (part : List Bundle) : Prop :=
  ∃ asms, List.Forall₂ (fun op asm => Op.lower op = .ok asm) (functionOps function) asms ∧
    (part.flatMap (·.syllables)).Perm asms

/-- The bundles of a function, and when its returns wait. -/
structure ReturnPart (function : Function) (part : List Bundle) : Prop where
  partOf : PartOf function part
  waits : ReturnsWait part ↔ RoomBeforeReturn (functionOps function)

theorem returnParts_of_packs {processor : Processor} {functions : List Function}
    {parts : List (List Bundle)}
    (related : List.Forall₂ (fun function part => ∃ cycles,
      InOrderBundles (functionOps function) cycles part) functions parts)
    (link : ∀ function ∈ functions, LinkCode function)
    (placed : ∀ bundle ∈ parts.flatten, Placed processor bundle) {base out : List Bundle}
    (closed : Closed base) (sound : ∀ bundle ∈ base, Sound processor bundle) (quiet : Quiet base)
    (packs : Packs processor base parts.flatten out) :
    ∃ packedParts, out = packedParts.flatten ∧
      List.Forall₂ ReturnPart functions packedParts := by
  induction related generalizing base out with
  | nil => exact ⟨[], packs_nil packs, .nil⟩
  | @cons function part functions parts inOrder _ ih =>
      obtain ⟨cycles, inOrder⟩ := inOrder
      obtain ⟨linkFirst, linkOthers⟩ := List.forall_mem_cons.mp link
      rw [List.flatten_cons] at packs placed
      obtain ⟨placedFirst, placedOthers⟩ := List.forall_mem_append.mp placed
      have closedFirst := closed_of_inOrder inOrder
      have linkOps := linkOp_of_linkCode linkFirst
      obtain ⟨left, right, rfl, packsFirst, packsOthers⟩ := packs.split closed closedFirst
      obtain ⟨places, traced⟩ := exists_traced closed sound quiet placedFirst packsFirst
      obtain ⟨soundAfter, perm⟩ := packsFirst.perm closed sound placedFirst
      have quietAfter : Quiet (base ++ left) := by
        by_cases empty : part = []
        · subst empty
          rw [packs_nil packsFirst, List.append_nil]
          exact quiet
        · exact quiet_of_traced inOrder linkOps traced empty
      obtain ⟨packedParts, rfl, related⟩ := ih linkOthers placedOthers
        (closed.packs closedFirst packsFirst) soundAfter quietAfter packsOthers
      refine ⟨left :: packedParts, rfl, .cons ⟨⟨_, inOrder.inOrder, perm⟩, ?_⟩ related⟩
      rw [returnsWait_packed traced inOrder linkOps, returnsWait_scalar inOrder linkOps]

theorem LinkCode.scheduled {functions scheduled : List Function}
    (link : ∀ function ∈ functions, LinkCode function)
    (related : List.Forall₂ ScheduledFunction functions scheduled) :
    ∀ function ∈ scheduled, LinkCode function := by
  intro function functionMem block blockMem syllable syllableMem
  obtain ⟨original, originalMem, isScheduled⟩ := exists_mem_of_forall₂ related functionMem
  obtain ⟨originalBlock, originalBlockMem, blockScheduled⟩ :=
    exists_mem_of_forall₂ isScheduled.blocks blockMem
  obtain ⟨order, valid, same⟩ := blockScheduled.syllables
  rw [same] at syllableMem
  exact link original originalMem originalBlock originalBlockMem syllable
    ((Schedule.perm_of_validOrder valid).mem_iff.mp syllableMem)

/-- In the scalar program and in the packed one, the returns of a function wait for
the link register exactly when there is room before them: in the function itself, and
in the function as it was scheduled. -/
theorem returnsWait_iff_room {functions : List Function} {processor : Processor}
    {scalar packed : Program} (link : ∀ function ∈ functions, LinkCode function)
    (emitted : scalarProgram functions processor = .ok scalar)
    (isPacked : packedProgram functions processor = .ok packed) :
    (∃ parts, programBundles scalar.items = parts.flatten ∧
      List.Forall₂ ReturnPart functions parts) ∧
    ∃ scheduled parts, functions.mapM Schedule.listScheduleFunction = .ok scheduled ∧
      programBundles packed.items = parts.flatten ∧ List.Forall₂ ReturnPart scheduled parts := by
  have fits : ∀ {functions : List Function}, (∀ function ∈ functions, LinkCode function) →
      ∀ function ∈ functions, Codegen.DestinationsFit function := fun link function functionMem op
      opMem => (linkOp_of_linkCode (link function functionMem) op opMem).fits
  constructor
  · obtain ⟨parts, whole, related⟩ := Codegen.inOrderModule_of_scalarProgram (fits link) emitted
    refine ⟨parts, whole, ((List.forall₂_and_left _ _).mpr ⟨link, related⟩).imp ?_⟩
    rintro function part ⟨linkFunction, cycles, inOrder⟩
    exact ⟨⟨_, inOrder.inOrder, .refl _⟩,
      returnsWait_scalar inOrder (linkOp_of_linkCode linkFunction)⟩
  · obtain ⟨program, isScheduled, done⟩ := packedProgram_eq_ok.mp isPacked
    obtain ⟨scheduled, isList, scheduledEmitted⟩ := exists_listScheduled isScheduled
    have linkScheduled := LinkCode.scheduled link (scheduled_of_mapM isList)
    obtain ⟨parts, whole, related⟩ :=
      Codegen.inOrderModule_of_scalarProgram (fits linkScheduled) scheduledEmitted
    obtain ⟨placed, -⟩ := Codegen.allPlaced_of_scalarProgram scheduledEmitted
    have packs := packs_of_packScalarProgram done
    have placedBundles := AllPlaced.bundles placed
    rw [whole] at packs placedBundles
    have closed : Closed [] := fun bundle isLast => nomatch isLast
    have quiet : Quiet [] := by
      intro key
      match key with
      | ⟨.gpr, .preg _⟩ => exact Nat.zero_le _
      | ⟨.pred, .preg _⟩ => exact Nat.zero_le _
      | ⟨.gpr, .vreg _⟩ => exact Nat.zero_le _
      | ⟨.pred, .vreg _⟩ => exact Nat.zero_le _
    obtain ⟨packedParts, isFlatten, packedRelated⟩ := returnParts_of_packs related linkScheduled
      placedBundles closed (fun bundle bundleMem => nomatch bundleMem) quiet packs
    exact ⟨scheduled, packedParts, isList, isFlatten, packedRelated⟩

/-- A function that calls itself and returns one more than the result. -/
def callThenAdd : List Function :=
  [⟨"main", [
    ⟨"entry", [⟨.storeD, none, [.imm 56, .reg (.preg linkReg)]⟩], .directCall "main" "cont"⟩,
    ⟨"cont", [⟨.loadD, some (.preg linkReg), [.imm 56]⟩,
      ⟨.mov, some (.preg 2), [.reg (.preg retvalReg)]⟩,
      ⟨.add, some (.preg retvalReg), [.reg (.preg 2), .imm 1]⟩], .ret⟩]⟩]

theorem linkCode_callThenAdd : ∀ function ∈ callThenAdd, LinkCode function := by
  have conventions : ∀ function ∈ callThenAdd, ∀ block ∈ function.blocks,
      ∀ syllable ∈ block.syllables, (Op.syllable syllable).Fits ∧
        syllable.opcode.behavior ≠ .control ∧ syllable.opcode.latency ≤ 3 ∧
          (destRegKey syllable = some linkKey →
            syllable.opcode = .loadD ∧ syllable.srcs = [.imm 56]) := by
    decide
  intro function functionMem block blockMem syllable syllableMem
  rcases conventions function functionMem block blockMem syllable syllableMem with
    ⟨fits, straight, quick, link⟩
  exact ⟨fits, straight, quick, fun isLink => ⟨(link isLink).1, 56, (link isLink).2⟩⟩

theorem roomBeforeReturn_callThenAdd :
    ∀ function ∈ callThenAdd, RoomBeforeReturn (functionOps function) := by
  have places : ∀ function ∈ callThenAdd, (functionOps function).length = 6 ∧ ∀ index < 6,
      ((functionOps function)[index]?.bind Op.dest = some linkKey → index = 2) ∧
        ((functionOps function)[index]?.map Op.opcode = some .ret → index = 5) := by
    decide
  intro function functionMem restored returned op isOp restores isRet _ _
  rcases places function functionMem with ⟨isLength, isPlace⟩
  have isLoad := (isPlace restored (isLength ▸ (List.getElem?_eq_some_iff.mp isOp).1)).1
    (by rw [isOp]; exact restores)
  have isLast := (isPlace returned (isLength ▸ (List.getElem?_eq_some_iff.mp isRet).1)).2
    (by rw [isRet]; rfl)
  exact .inl (by omega)

theorem returnsWait_iff_room_callThenAdd :
    ∃ scalar packed, scalarProgram callThenAdd .default = .ok scalar ∧
      packedProgram callThenAdd .default = .ok packed ∧
      ReturnsWait (programBundles scalar.items) ∧ ReturnsWait (programBundles packed.items) := by
  obtain ⟨scalar, emitted⟩ : ∃ scalar, scalarProgram callThenAdd .default = .ok scalar :=
    exists_of_isOk (by decide +kernel)
  obtain ⟨packed, isPacked⟩ : ∃ packed, packedProgram callThenAdd .default = .ok packed :=
    exists_of_isOk (by decide +kernel)
  have isScheduled : callThenAdd.mapM Schedule.listScheduleFunction = .ok callThenAdd := by
    decide +kernel
  rcases returnsWait_iff_room linkCode_callThenAdd emitted isPacked with
    ⟨⟨parts, isBundles, related⟩, scheduled, packedParts, isList, isPackedBundles, packedRelated⟩
  cases isList.symm.trans isScheduled
  refine ⟨scalar, packed, emitted, isPacked, ?_, ?_⟩
  · cases related with
    | cons part rest =>
        cases rest
        rw [isBundles, List.flatten_singleton]
        exact part.waits.mpr (roomBeforeReturn_callThenAdd _ List.mem_cons_self)
  · cases packedRelated with
    | cons part rest =>
        cases rest
        rw [isPackedBundles, List.flatten_singleton]
        exact part.waits.mpr (roomBeforeReturn_callThenAdd _ List.mem_cons_self)

/-- A function that calls itself and returns. -/
def callThenReturn : List Function :=
  [⟨"main", [
    ⟨"entry", [⟨.storeD, none, [.imm 56, .reg (.preg linkReg)]⟩], .directCall "main" "cont"⟩,
    ⟨"cont", [⟨.loadD, some (.preg linkReg), [.imm 56]⟩], .ret⟩]⟩]

theorem not_returnsWait_of_adjacent {bundles : List Bundle} {restored : Nat}
    {first last : Asm.Syllable}
    (isFirst : (bundles.map (·.syllables))[restored]? = some [first]) (restore : IsRestore first)
    (isLast : (bundles.map (·.syllables))[restored + 1]? = some [last])
    (isReturn : IsReturn last) : ¬ReturnsWait bundles := by
  have issued : ∀ {position : Nat} {asm : Asm.Syllable},
      (bundles.map (·.syllables))[position]? = some [asm] → Issued bundles position asm := by
    intro position asm found
    rw [List.getElem?_map] at found
    obtain ⟨bundle, isBundle, only⟩ := Option.map_eq_some_iff.mp found
    exact ⟨bundle, isBundle, by rw [only]; exact List.mem_cons_self⟩
  intro waits
  have late := waits (issued isFirst) restore (issued isLast) isReturn (Nat.lt_succ_self _)
    fun between other after before => absurd before (Nat.not_lt.mpr after)
  have distance : restored + 3 ≤ restored + 1 := late
  omega

/-- The syllables of the bundles of `callThenReturn`. -/
def callThenReturnSyllables : List (List Asm.Syllable) :=
  [[⟨"std", [.memAddr 0 56, .reg linkReg]⟩], [⟨"call", [.label "main"]⟩],
    [⟨"ldd", [.reg linkReg, .memAddr 0 56]⟩], [⟨"ret", []⟩]]

/-- The return is issued right after the load of the link register. -/
theorem not_returnsWait_callThenReturn :
    ∃ scalar packed, scalarProgram callThenReturn .default = .ok scalar ∧
      packedProgram callThenReturn .default = .ok packed ∧
      ¬ReturnsWait (programBundles scalar.items) ∧ ¬ReturnsWait (programBundles packed.items) := by
  obtain ⟨scalar, emitted, scalarSyllables⟩ :=
    map_eq_ok.mp (show (scalarProgram callThenReturn .default).map (fun scalar =>
      (programBundles scalar.items).map (·.syllables)) = .ok callThenReturnSyllables by
        decide +kernel)
  obtain ⟨packed, isPacked, packedSyllables⟩ :=
    map_eq_ok.mp (show (packedProgram callThenReturn .default).map (fun packed =>
      (programBundles packed.items).map (·.syllables)) = .ok callThenReturnSyllables by
        decide +kernel)
  have isLoad : callThenReturnSyllables[2]? = some [⟨"ldd", [.reg linkReg, .memAddr 0 56]⟩] := rfl
  have isRet : callThenReturnSyllables[3]? = some [⟨"ret", []⟩] := rfl
  have isReturn : IsReturn ⟨"ret", []⟩ := rfl
  refine ⟨scalar, packed, emitted, isPacked, ?_, ?_⟩
  · exact not_returnsWait_of_adjacent (by rw [scalarSyllables]; exact isLoad) ⟨rfl, rfl⟩
      (by rw [scalarSyllables]; exact isRet) isReturn
  · exact not_returnsWait_of_adjacent (by rw [packedSyllables]; exact isLoad) ⟨rfl, rfl⟩
      (by rw [packedSyllables]; exact isRet) isReturn

end VliwCompiler.Pack
