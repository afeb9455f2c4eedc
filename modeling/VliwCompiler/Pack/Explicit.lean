import VliwCompiler.Pack.Legality

/-!
# The rules for explicit operands

The verifier collects register accesses and compares them.  This file states
what it is meant to decide without mentioning how: which unit kinds a slot has,
which operand of a syllable is its destination and which registers it reads.
Both directions hold, and an error names a place where a rule is broken.
-/

namespace VliwCompiler.Pack

open Asm (Opcode Operand UnitKind Bundle Processor HazardError gprWrite gprReads visitSlot findWaw
  findRaw Accesses verifyBundle unitKindMap slotUnitKinds)

/-! ### The rules -/

/-- The kind of a unit: the last declaration of its name with a known kind. -/
def declaredKind (processor : Processor) (name : String) : Option UnitKind :=
  (processor.units.reverse.filter (·.name = name)).findSome? (UnitKind.fromKindStr ·.kind)

/-- Some unit of the slot has the given kind. -/
def HasKind (processor : Processor) (slot : Nat) (kind : UnitKind) : Prop :=
  ∃ names, processor.slotUnits[slot]? = some names ∧
    ∃ name ∈ names, declaredKind processor name = some kind

/-- A slot below the width holds a syllable. -/
def Occupies (processor : Processor) (bundle : Bundle) (slot : Nat) (syllable : Asm.Syllable) :
    Prop :=
  slot < processor.width ∧ bundle.slots[slot]? = some (some syllable)

/-- A slot below the width holds an operation other than `nop`. -/
def Issues (processor : Processor) (bundle : Bundle) (slot : Nat) (opcode : Opcode)
    (operands : List Operand) : Prop :=
  ∃ syllable, Occupies processor bundle slot syllable ∧
    Opcode.fromMnemonic syllable.opcode = some opcode ∧ opcode ≠ .nop ∧
    syllable.operands = operands

/-- The destination of an operation that writes a general-purpose register is
its first operand. -/
def DestinationOperand (opcode : Opcode) (operands : List Operand) (reg : UInt8) : Prop :=
  opcode.writesGpr = true ∧ operands[0]? = some (.reg reg)

/-- The other register operands and the bases of addresses are sources. -/
def SourceOperand (opcode : Opcode) (operands : List Operand) (reg : UInt8) : Prop :=
  ∃ position, (operands[position]? = some (.reg reg) ∧
      ¬(opcode.writesGpr = true ∧ position = 0)) ∨
    ∃ displacement, operands[position]? = some (.memAddr reg displacement)

/-- Operations that write a register carry it as first operand; a call may
carry only a label. -/
def ExplicitDestinations (processor : Processor) (bundle : Bundle) : Prop :=
  ∀ slot opcode operands, Issues processor bundle slot opcode operands →
    opcode.writesGpr = true →
      (∃ reg rest, operands = .reg reg :: rest) ∨
        (opcode = .call ∧ ∃ label, operands = [.label label])

/-- What the verifier is meant to accept. -/
structure ExplicitRules (processor : Processor) (bundle : Bundle) : Prop where
  legal : ∀ slot syllable, Occupies processor bundle slot syllable →
    ∃ opcode, Opcode.fromMnemonic syllable.opcode = some opcode ∧
      (opcode = .nop ∨ ∃ kind ∈ opcode.units, HasKind processor slot kind)
  destinations : ∀ i j opcode opcode' operands operands' reg,
    Issues processor bundle i opcode operands → Issues processor bundle j opcode' operands' →
      i ≠ j → DestinationOperand opcode operands reg → ¬DestinationOperand opcode' operands' reg
  sources : ∀ i j opcode opcode' operands operands' reg,
    Issues processor bundle i opcode operands → Issues processor bundle j opcode' operands' →
      i ≠ j → DestinationOperand opcode operands reg → ¬SourceOperand opcode' operands' reg

/-- The place an error names breaks the rule the error is about. -/
def Exhibits (processor : Processor) (bundle : Bundle) : HazardError → Prop
  | .unknownOpcode slot mnemonic =>
      ∃ syllable, Occupies processor bundle slot syllable ∧ syllable.opcode = mnemonic ∧
        Opcode.fromMnemonic mnemonic = none
  | .illegalSlot slot mnemonic =>
      ∃ syllable opcode, Occupies processor bundle slot syllable ∧ syllable.opcode = mnemonic ∧
        Opcode.fromMnemonic mnemonic = some opcode ∧ opcode ≠ .nop ∧
        ∀ kind ∈ opcode.units, ¬HasKind processor slot kind
  | .waw reg first second =>
      first ≠ second ∧
        (∃ opcode operands, Issues processor bundle first opcode operands ∧
          DestinationOperand opcode operands reg) ∧
        ∃ opcode operands, Issues processor bundle second opcode operands ∧
          DestinationOperand opcode operands reg
  | .raw reg writer reader =>
      writer ≠ reader ∧
        (∃ opcode operands, Issues processor bundle writer opcode operands ∧
          DestinationOperand opcode operands reg) ∧
        ∃ opcode operands, Issues processor bundle reader opcode operands ∧
          SourceOperand opcode operands reg

/-! ### Units -/

theorem lookup_unitKindMap (processor : Processor) (name : String) :
    (unitKindMap processor).lookup name = declaredKind processor name := by
  unfold unitKindMap declaredKind
  induction processor.units using List.reverseRecOn with
  | nil => rfl
  | append_singleton units unit ih =>
      rw [List.foldl_append, List.foldl_cons, List.foldl_nil, List.reverse_append,
        List.reverse_singleton, List.singleton_append, List.filter_cons]
      cases kind : UnitKind.fromKindStr unit.kind with
      | none =>
          by_cases same : unit.name = name
          · simp [same, kind, ih]
          · simp [same, ih]
      | some kind' =>
          by_cases same : unit.name = name
          · simp [same, kind]
          · rw [AList.lookup_insert_ne (Ne.symm same), ih]
            simp [same]

theorem mem_slotUnitKinds {processor : Processor} {slot : Nat} {kind : UnitKind} :
    kind ∈ slotUnitKinds processor slot ↔ HasKind processor slot kind := by
  unfold slotUnitKinds HasKind
  simp only [List.mem_filterMap, lookup_unitKindMap]
  cases processor.slotUnits[slot]? with
  | none => simp
  | some names => simp

theorem any_units_iff {processor : Processor} {slot : Nat} {opcode : Opcode} :
    (opcode.units.any (· ∈ slotUnitKinds processor slot)) = true ↔
      ∃ kind ∈ opcode.units, HasKind processor slot kind := by
  simp only [List.any_eq_true, decide_eq_true_eq, mem_slotUnitKinds]

theorem legal_iff {processor : Processor} {bundle : Bundle} :
    Legal processor bundle ↔ ∀ slot syllable, Occupies processor bundle slot syllable →
      ∃ opcode, Opcode.fromMnemonic syllable.opcode = some opcode ∧
        (opcode = .nop ∨ ∃ kind ∈ opcode.units, HasKind processor slot kind) := by
  have supported : ∀ {slot opcode}, slot < processor.width →
      (Codegen.slotSupportsOpcode slot opcode processor = true ↔
        opcode = .nop ∨ ∃ kind ∈ opcode.units, HasKind processor slot kind) := by
    intro slot opcode inside
    by_cases nop : opcode = .nop
    · unfold Codegen.slotSupportsOpcode
      rw [if_pos nop]
      simp [nop, inside]
    · rw [slotSupportsOpcode_iff nop, any_units_iff]
      simp [nop]
  constructor
  · rintro legal slot syllable ⟨inside, found⟩
    obtain ⟨opcode, known, isSupported⟩ := legal slot inside syllable found
    exact ⟨opcode, known, (supported inside).mp isSupported⟩
  · intro legal slot inside syllable found
    obtain ⟨opcode, known, rule⟩ := legal slot syllable ⟨inside, found⟩
    exact ⟨opcode, known, (supported inside).mpr rule⟩

/-! ### Operands -/

theorem gprWrite_eq_some {opcode : Opcode} {operands : List Operand} {reg : UInt8} :
    gprWrite opcode operands = some reg ↔ DestinationOperand opcode operands reg := by
  unfold gprWrite DestinationOperand
  cases opcode.writesGpr with
  | false => simp
  | true =>
      rcases operands with _ | ⟨operand, rest⟩
      · simp
      · cases operand with
        | reg n => simp
        | _ => simp

theorem mem_gprReads_false {operands : List Operand} {reg : UInt8} :
    reg ∈ gprReads false operands ↔
      ∃ position : Nat, operands[position]? = some (.reg reg) ∨
        ∃ displacement, operands[position]? = some (.memAddr reg displacement) := by
  have members : reg ∈ gprReads false operands ↔
      Operand.reg reg ∈ operands ∨
        ∃ displacement, Operand.memAddr reg displacement ∈ operands := by
    induction operands with
    | nil => simp [gprReads]
    | cons operand operands ih =>
        cases operand with
        | reg n => simp [gprReads, ih, or_assoc]
        | memAddr base displacement =>
            simp only [gprReads, List.mem_cons, ih, reduceCtorEq, false_or, Operand.memAddr.injEq]
            constructor
            · rintro (rfl | inRest | ⟨other, inRest⟩)
              · exact .inr ⟨displacement, .inl ⟨rfl, rfl⟩⟩
              · exact .inl inRest
              · exact .inr ⟨other, .inr inRest⟩
            · rintro (inRest | ⟨other, ⟨rfl, rfl⟩ | inRest⟩)
              · exact .inr (.inl inRest)
              · exact .inl rfl
              · exact .inr (.inr ⟨other, inRest⟩)
        | pred n => simp [gprReads, ih]
        | imm word => simp [gprReads, ih]
        | label name => simp [gprReads, ih]
  rw [members, List.mem_iff_getElem?]
  simp only [List.mem_iff_getElem?]
  constructor
  · rintro (⟨position, found⟩ | ⟨displacement, position, found⟩)
    · exact ⟨position, .inl found⟩
    · exact ⟨position, .inr ⟨displacement, found⟩⟩
  · rintro ⟨position, found | ⟨displacement, found⟩⟩
    · exact .inl ⟨position, found⟩
    · exact .inr ⟨displacement, position, found⟩

/-- With an explicit destination the verifier reads exactly the sources. -/
theorem mem_gprReads {opcode : Opcode} {operands : List Operand} {reg : UInt8}
    (explicit : opcode.writesGpr = true →
      (∃ reg rest, operands = .reg reg :: rest) ∨ ∃ label, operands = [.label label]) :
    reg ∈ gprReads opcode.writesGpr operands ↔ SourceOperand opcode operands reg := by
  unfold SourceOperand
  cases writes : opcode.writesGpr with
  | false => simp [mem_gprReads_false]
  | true =>
      rcases explicit writes with ⟨target, rest, rfl⟩ | ⟨label, rfl⟩
      · rw [gprReads, if_pos rfl, mem_gprReads_false]
        constructor
        · rintro ⟨position, found⟩
          refine ⟨position + 1, ?_⟩
          simpa using found
        · rintro ⟨position, found⟩
          cases position with
          | zero => simp at found
          | succ position => exact ⟨position, by simpa using found⟩
      · simp only [gprReads, List.not_mem_nil, false_iff]
        rintro ⟨position, found⟩
        cases position with
        | zero => simp at found
        | succ position => simp at found

section Accesses

variable {processor : Processor} {bundle : Bundle} {slot : Nat} {reg : UInt8}

theorem exists_destination_iff :
    (slot < processor.width ∧ ∃ syllable, bundle.slots[slot]? = some (some syllable) ∧
      gprWriteOf syllable = some reg) ↔
    ∃ opcode operands, Issues processor bundle slot opcode operands ∧
      DestinationOperand opcode operands reg := by
  unfold gprWriteOf
  constructor
  · rintro ⟨inside, syllable, found, writes⟩
    obtain ⟨opcode, known, writes⟩ := Option.bind_eq_some_iff.mp writes
    by_cases nop : opcode = .nop
    · rw [if_pos nop] at writes
      cases writes
    · rw [if_neg nop] at writes
      exact ⟨opcode, syllable.operands, ⟨syllable, ⟨inside, found⟩, known, nop, rfl⟩,
        gprWrite_eq_some.mp writes⟩
  · rintro ⟨opcode, -, ⟨syllable, ⟨inside, found⟩, known, nop, rfl⟩, writes⟩
    refine ⟨inside, syllable, found, ?_⟩
    rw [known, Option.bind_some, if_neg nop]
    exact gprWrite_eq_some.mpr writes

theorem exists_source_iff (explicit : ExplicitDestinations processor bundle) :
    (slot < processor.width ∧ ∃ syllable, bundle.slots[slot]? = some (some syllable) ∧
      reg ∈ gprReadsOf syllable) ↔
    ∃ opcode operands, Issues processor bundle slot opcode operands ∧
      SourceOperand opcode operands reg := by
  have reads : ∀ {opcode operands}, Issues processor bundle slot opcode operands →
      (reg ∈ gprReads opcode.writesGpr operands ↔ SourceOperand opcode operands reg) := by
    intro opcode operands issued
    refine mem_gprReads fun writes => ?_
    exact (explicit slot opcode operands issued writes).imp id And.right
  constructor
  · rintro ⟨inside, syllable, found, isRead⟩
    unfold gprReadsOf at isRead
    cases known : Opcode.fromMnemonic syllable.opcode with
    | none => simp [known] at isRead
    | some opcode =>
        by_cases nop : opcode = .nop
        · simp [known, nop] at isRead
        · simp only [known, if_neg nop] at isRead
          have issued : Issues processor bundle slot opcode syllable.operands :=
            ⟨syllable, ⟨inside, found⟩, known, nop, rfl⟩
          exact ⟨opcode, syllable.operands, issued, (reads issued).mp isRead⟩
  · rintro ⟨opcode, operands, issued, isSource⟩
    have isRead := (reads issued).mpr isSource
    obtain ⟨syllable, ⟨inside, found⟩, known, nop, rfl⟩ := issued
    refine ⟨inside, syllable, found, ?_⟩
    unfold gprReadsOf
    simp only [known, if_neg nop]
    exact isRead

/-- The accesses collected from all slots are explicit operands. -/
theorem collected_of_visitSlots {accesses : Accesses}
    (visited : (List.range processor.width).foldlM (visitSlot bundle processor) {} =
      .ok accesses) : Collected bundle (List.range processor.width) accesses := by
  have legal : Legal processor bundle := by
    intro slot inside
    exact legal_of_visitSlots (fun slot slotMem => List.mem_range.mp slotMem) visited slot
      (List.mem_range.mpr inside)
  have start : Collected bundle [] {} := ⟨by simp, by simp, .nil⟩
  obtain ⟨after, again, collected⟩ := exists_visitSlots legal
    (fun slot slotMem => List.mem_range.mp slotMem)
    (show ([] ++ List.range processor.width).Nodup from List.nodup_range) start
  rw [visited] at again
  cases again
  exact collected

end Accesses

/-! ### The decision -/

section Decision

variable {processor : Processor} {bundle : Bundle}

theorem verified_iff (explicit : ExplicitDestinations processor bundle) :
    Verified bundle processor.width ↔
      (∀ i j opcode opcode' operands operands' reg,
        Issues processor bundle i opcode operands → Issues processor bundle j opcode' operands' →
          i ≠ j → DestinationOperand opcode operands reg →
            ¬DestinationOperand opcode' operands' reg) ∧
      ∀ i j opcode opcode' operands operands' reg,
        Issues processor bundle i opcode operands → Issues processor bundle j opcode' operands' →
          i ≠ j → DestinationOperand opcode operands reg →
            ¬SourceOperand opcode' operands' reg := by
  constructor
  · intro verified
    constructor
    · intro i j opcode opcode' operands operands' reg first second different writes writes'
      obtain ⟨iLt, left, isLeft, leftWrites⟩ :=
        exists_destination_iff.mpr ⟨opcode, operands, first, writes⟩
      obtain ⟨jLt, right, isRight, rightWrites⟩ :=
        exists_destination_iff.mpr ⟨opcode', operands', second, writes'⟩
      exact verified.waw iLt jLt different isLeft isRight leftWrites rightWrites
    · intro i j opcode opcode' operands operands' reg first second different writes reads
      obtain ⟨iLt, left, isLeft, leftWrites⟩ :=
        exists_destination_iff.mpr ⟨opcode, operands, first, writes⟩
      obtain ⟨jLt, right, isRight, rightReads⟩ :=
        (exists_source_iff explicit).mpr ⟨opcode', operands', second, reads⟩
      exact verified.raw iLt jLt different isLeft isRight leftWrites rightReads
  · rintro ⟨destinations, sources⟩
    constructor
    · intro i j left right reg iLt jLt different isLeft isRight leftWrites rightWrites
      obtain ⟨opcode, operands, first, writes⟩ :=
        exists_destination_iff.mp ⟨iLt, left, isLeft, leftWrites⟩
      obtain ⟨opcode', operands', second, writes'⟩ :=
        exists_destination_iff.mp ⟨jLt, right, isRight, rightWrites⟩
      exact destinations i j _ _ _ _ reg first second different writes writes'
    · intro i j left right reg iLt jLt different isLeft isRight leftWrites rightReads
      obtain ⟨opcode, operands, first, writes⟩ :=
        exists_destination_iff.mp ⟨iLt, left, isLeft, leftWrites⟩
      obtain ⟨opcode', operands', second, reads⟩ :=
        (exists_source_iff explicit).mp ⟨jLt, right, isRight, rightReads⟩
      exact sources i j _ _ _ _ reg first second different writes reads

theorem explicitRules_iff (explicit : ExplicitDestinations processor bundle) :
    ExplicitRules processor bundle ↔ verifyBundle bundle processor = .ok () := by
  rw [verifyBundle_eq_ok_iff, legal_iff, verified_iff explicit]
  constructor
  · rintro ⟨legal, destinations, sources⟩
    exact ⟨legal, destinations, sources⟩
  · rintro ⟨legal, destinations, sources⟩
    exact ⟨legal, destinations, sources⟩

/-! ### The errors -/

theorem exhibits_of_visitSlot {before : Accesses} {slot : Nat} {error : HazardError}
    (inside : slot < processor.width)
    (failed : visitSlot bundle processor before slot = .error error) :
    Exhibits processor bundle error := by
  unfold visitSlot at failed
  cases found : bundle.slots[slot]?.join with
  | none =>
      rw [found] at failed
      cases failed
  | some syllable =>
      have holds : Occupies processor bundle slot syllable :=
        ⟨inside, Option.join_eq_some_iff.mp found⟩
      rw [found] at failed
      dsimp only at failed
      cases known : Opcode.fromMnemonic syllable.opcode with
      | none =>
          rw [known] at failed
          cases failed
          exact ⟨syllable, holds, rfl, known⟩
      | some opcode =>
          rw [known] at failed
          dsimp only at failed
          by_cases nop : opcode = .nop
          · rw [if_pos nop] at failed
            cases failed
          · rw [if_neg nop] at failed
            split at failed
            · cases failed
            · rename_i unsupported
              cases failed
              refine ⟨syllable, opcode, holds, rfl, known, nop, ?_⟩
              intro kind isKind hasKind
              exact unsupported (any_units_iff.mpr ⟨kind, isKind, hasKind⟩)

theorem exhibits_of_visitSlots {slots : List Nat} {before : Accesses} {error : HazardError}
    (inside : ∀ slot ∈ slots, slot < processor.width)
    (failed : slots.foldlM (visitSlot bundle processor) before = .error error) :
    Exhibits processor bundle error := by
  induction slots generalizing before with
  | nil => cases failed
  | cons slot slots ih =>
      obtain ⟨firstInside, restInside⟩ := List.forall_mem_cons.mp inside
      rw [List.foldlM_cons] at failed
      rcases bind_eq_error.mp failed with first | ⟨middle, -, others⟩
      · exact exhibits_of_visitSlot firstInside first
      · exact ih restInside others

/-- The first pair of writes to one register is reported. -/
theorem sublist_of_findWaw {writes : List (UInt8 × Nat)} {error : HazardError}
    (found : findWaw writes = some error) :
    ∃ reg first second, error = .waw reg first second ∧
      [(reg, first), (reg, second)].Sublist writes := by
  induction writes with
  | nil => cases found
  | cons write rest ih =>
      obtain ⟨reg, first⟩ := write
      rw [findWaw] at found
      cases again : rest.find? (·.1 = reg) with
      | none =>
          rw [again] at found
          obtain ⟨other, left, right, isError, sublist⟩ := ih found
          exact ⟨other, left, right, isError, sublist.cons _⟩
      | some write =>
          rw [again] at found
          cases found
          obtain ⟨other, second⟩ := write
          have matching := List.find?_some again
          obtain rfl : other = reg := of_decide_eq_true matching
          exact ⟨other, first, second, rfl,
            (List.singleton_sublist.mpr (List.mem_of_find?_eq_some again)).cons_cons _⟩

theorem mem_of_findRaw {accesses : Accesses} {error : HazardError}
    (found : findRaw accesses = some error) :
    ∃ reg writer reader, error = .raw reg writer reader ∧ writer ≠ reader ∧
      (reg, writer) ∈ accesses.writes ∧ (reg, reader) ∈ accesses.reads := by
  obtain ⟨⟨reg, reader⟩, isRead, hazard⟩ := List.exists_of_findSome?_eq_some found
  obtain ⟨⟨written, writer⟩, isWrite, rfl⟩ := Option.map_eq_some_iff.mp hazard
  have hazardous := List.find?_some isWrite
  obtain ⟨rfl, different⟩ := of_decide_eq_true hazardous
  exact ⟨_, writer, reader, rfl, different.symm, List.mem_of_find?_eq_some isWrite, isRead⟩

theorem exhibits_of_verifyBundle (explicit : ExplicitDestinations processor bundle)
    {error : HazardError} (failed : verifyBundle bundle processor = .error error) :
    Exhibits processor bundle error := by
  rcases bind_eq_error.mp failed with visiting | ⟨accesses, visited, rejected⟩
  · exact exhibits_of_visitSlots (fun slot isSlot => List.mem_range.mp isSlot) visiting
  · have collected := collected_of_visitSlots visited
    have written : ∀ {reg slot}, (reg, slot) ∈ accesses.writes → ∃ opcode operands,
        Issues processor bundle slot opcode operands ∧
          DestinationOperand opcode operands reg := by
      intro reg slot isWrite
      obtain ⟨isSlot, writes⟩ := collected.writes _ isWrite
      exact exists_destination_iff.mp ⟨List.mem_range.mp isSlot, writes⟩
    cases hazard : (findWaw accesses.writes).or (findRaw accesses) with
    | none =>
        rw [hazard] at rejected
        cases rejected
    | some found =>
        rw [hazard] at rejected
        cases rejected
        rcases Option.or_eq_some_iff.mp hazard with isWaw | ⟨-, isRaw⟩
        · obtain ⟨reg, first, second, rfl, sublist⟩ := sublist_of_findWaw isWaw
          have distinct := collected.distinct.sublist sublist
          refine ⟨?_, ?_, ?_⟩
          · exact (List.pairwise_cons.mp distinct).1 _ List.mem_cons_self
          · exact written (sublist.subset List.mem_cons_self)
          · exact written (sublist.subset (List.mem_cons_of_mem _ List.mem_cons_self))
        · obtain ⟨reg, writer, reader, rfl, different, isWrite, isRead⟩ := mem_of_findRaw isRaw
          obtain ⟨isSlot, reads⟩ := collected.reads _ isRead
          exact ⟨different, written isWrite,
            (exists_source_iff explicit).mp ⟨List.mem_range.mp isSlot, reads⟩⟩

end Decision

/-- The verifier decides the rules for explicit operands, and its errors name
places where they are broken. -/
theorem verifyBundle_decides_explicitRules (processor : Processor) (bundle : Bundle)
    (explicit : ExplicitDestinations processor bundle) :
    (verifyBundle bundle processor = .ok () ↔ ExplicitRules processor bundle) ∧
      ∀ error, verifyBundle bundle processor = .error error →
        Exhibits processor bundle error :=
  ⟨(explicitRules_iff explicit).symm, fun _ => exhibits_of_verifyBundle explicit⟩

/-- A load whose base is computed in the same bundle. -/
def dependentLoad : Bundle :=
  ⟨[some ⟨"add", [.reg 3, .reg 1, .reg 2]⟩, some ⟨"ldd", [.reg 4, .memAddr 3 8]⟩]⟩

/-- An arithmetic slot and a memory slot. -/
def loadProcessor : Processor where
  width := 2
  units := [⟨"alu", "integer_alu"⟩, ⟨"mem", "memory"⟩]
  slotAliases := []
  slotUnits := [["alu"], ["mem"]]

theorem dependentLoad_exhibits :
    ExplicitDestinations loadProcessor dependentLoad ∧
      Exhibits loadProcessor dependentLoad (.raw 3 0 1) ∧
      ¬ExplicitRules loadProcessor dependentLoad := by
  have explicit : ExplicitDestinations loadProcessor dependentLoad := by
    rintro slot opcode - ⟨syllable, ⟨inside, found⟩, -, -, rfl⟩ -
    have members : ∀ syllable ∈ dependentLoad.syllables,
        ∃ reg rest, syllable.operands = .reg reg :: rest := by
      simp [dependentLoad, Bundle.syllables]
    refine .inl (members syllable ?_)
    exact List.mem_filterMap.mpr ⟨some syllable, List.mem_of_getElem? found, rfl⟩
  have rejected : verifyBundle dependentLoad loadProcessor = .error (.raw 3 0 1) := by
    decide +kernel
  have decided := verifyBundle_decides_explicitRules loadProcessor dependentLoad explicit
  refine ⟨explicit, decided.2 _ rejected, ?_⟩
  rw [← decided.1, rejected]
  intro accepted
  cases accepted

end VliwCompiler.Pack
