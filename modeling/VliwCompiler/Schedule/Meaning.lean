import VliwCompiler.Schedule.Progress
import VliwCompiler.Mir.Semantics
import VliwCompiler.Machine.Commute
import VliwCompiler.Machine.Reorder
import VliwCompiler.Data.MapM

/-!
# List scheduling preserves the meaning of a block

Syllables that do not conflict denote independent actions, provided absolute
accesses in the two address classes the scheduler tells apart do not overlap.
The output of the scheduler therefore only exchanges commuting actions.
-/

namespace VliwCompiler.Schedule

open Asm (Opcode)
open Mir (Reg Value Syllable execSyllables loadAddress storeOperands)
open Machine

/-! ### Register keys and actions -/

/-- The write classes and unit kinds of the opcodes of each behavior class. -/
theorem behavior_table (opcode : Opcode) :
    match opcode.behavior with
    | .compute => opcode.writesGpr = true
    | .test => opcode.writesGpr = false ∧ opcode.writesPred = true
    | .load _ => opcode.writesGpr = true ∧ isMemoryOpcode opcode
    | .store _ => isMemoryOpcode opcode = true
    | .acquire => opcode.writesGpr = true ∧ isMemoryOpcode opcode
    | .release => isMemoryOpcode opcode = true
    | .inert => True
    | .control => True := by
  cases opcode <;> simp [Opcode.behavior, Opcode.writesGpr, Opcode.writesPred, isMemoryOpcode,
    Opcode.units]

theorem predicateSources_of_memory {opcode : Opcode} (memory : isMemoryOpcode opcode) :
    Mir.predicateSources opcode = false := by
  revert memory
  cases opcode <;> simp [isMemoryOpcode, Opcode.units, Mir.predicateSources]

/-- Register operands are recorded as keys of the class they are read in. -/
theorem mem_sourceRegKeys {syllable : Syllable} {reg : Reg}
    (operand : Value.reg reg ∈ syllable.srcs) :
    ⟨if Mir.predicateSources syllable.opcode then .pred else .gpr, reg⟩ ∈
      sourceRegKeys syllable :=
  List.mem_filterMap.mpr ⟨.reg reg, operand, rfl⟩

/-- Scalar operands read by an action are recorded as register keys. -/
theorem mem_sourceRegKeys_of_scalars {syllable : Syllable} {sources : List (Source Reg)}
    (scalars : syllable.srcs.mapM (Value.source (Mir.predicateSources syllable.opcode)) =
      some sources) :
    (∀ reg, Source.gpr reg ∈ sources → ⟨.gpr, reg⟩ ∈ sourceRegKeys syllable) ∧
      ∀ reg, Source.pred reg ∈ sources → ⟨.pred, reg⟩ ∈ sourceRegKeys syllable := by
  have operandOf : ∀ source ∈ sources, ∃ value ∈ syllable.srcs,
      value.source (Mir.predicateSources syllable.opcode) = some source := fun source sourceMem =>
    exists_mem_of_forall₂ (mapM_eq_some_iff.mp scalars) sourceMem
  constructor
  · intro reg sourceMem
    obtain ⟨value, valueMem, isSource⟩ := operandOf _ sourceMem
    cases value with
    | reg register =>
        have key := mem_sourceRegKeys valueMem
        cases predSrc : Mir.predicateSources syllable.opcode <;>
          simp_all [Value.source]
    | imm value => simp [Value.source] at isSource
    | stack address => simp [Value.source] at isSource
  · intro reg sourceMem
    obtain ⟨value, valueMem, isSource⟩ := operandOf _ sourceMem
    cases value with
    | reg register =>
        have key := mem_sourceRegKeys valueMem
        cases predSrc : Mir.predicateSources syllable.opcode <;>
          simp_all [Value.source]
    | imm value => simp [Value.source] at isSource
    | stack address => simp [Value.source] at isSource

/-- What the dependence analysis records covers what the action of a syllable
reads and writes.  The zero register is exempt: it is never changed. -/
structure Covers (syllable : Syllable) (action : Action Opcode Reg) : Prop where
  gprDst : ∀ reg, action.gprDst = some reg → destRegKey syllable = some ⟨.gpr, reg⟩
  predDst : ∀ reg, action.predDst = some reg → destRegKey syllable = some ⟨.pred, reg⟩
  gprSource : ∀ reg, Source.gpr reg ∈ action.sources → reg ≠ 0 →
    ⟨.gpr, reg⟩ ∈ sourceRegKeys syllable
  predSource : ∀ reg, Source.pred reg ∈ action.sources → ⟨.pred, reg⟩ ∈ sourceRegKeys syllable

theorem loadAddress_cases {srcs : List Value} {address : Reg × Word}
    (found : loadAddress srcs = some address) :
    ∃ base offset, srcs.head? = some base ∧ address = base.address offset := by
  rcases Mir.loadAddress_shape found with ⟨base, rfl, rfl⟩ | ⟨base, offset, rfl, rfl⟩
  · exact ⟨base, 0, rfl, rfl⟩
  · exact ⟨base, offset, rfl, rfl⟩

theorem storeOperands_cases {srcs : List Value} {operands : (Reg × Word) × Value}
    (found : storeOperands srcs = some operands) :
    ∃ base offset, srcs.head? = some base ∧ operands.1 = base.address offset ∧
      operands.2 ∈ srcs := by
  rcases Mir.storeOperands_shape found with ⟨base, data, rfl, rfl⟩ | ⟨base, offset, data, rfl, rfl⟩
  · exact ⟨base, 0, rfl, rfl, by simp⟩
  · exact ⟨base, offset, rfl, rfl, by simp⟩

/-- The base register of an address is a recorded source or the zero register. -/
theorem base_mem_sourceRegKeys {syllable : Syllable} {base : Value} {offset : Word}
    (gprSources : Mir.predicateSources syllable.opcode = false)
    (first : syllable.srcs.head? = some base) (nonzero : (base.address offset).1 ≠ 0) :
    ⟨.gpr, (base.address offset).1⟩ ∈ sourceRegKeys syllable := by
  cases base with
  | reg register =>
      have key := mem_sourceRegKeys (List.mem_of_mem_head? first)
      rw [gprSources] at key
      exact key
  | imm value => exact absurd rfl nonzero
  | stack address => exact absurd rfl nonzero

theorem covers_action {syllable : Syllable} {action : Action Opcode Reg}
    (denotes : syllable.action = some action) : Covers syllable action := by
  unfold Syllable.action at denotes
  simp only at denotes
  have table := behavior_table syllable.opcode
  cases behavior : syllable.opcode.behavior with
  | compute =>
      rw [behavior] at denotes table
      obtain ⟨sources, scalars, rfl⟩ := Option.map_eq_some_iff.mp denotes
      obtain ⟨gprKeys, predKeys⟩ := mem_sourceRegKeys_of_scalars scalars
      exact
        { gprDst := fun reg dst => by simp_all [destRegKey, Action.gprDst]
          predDst := fun reg dst => by simp [Action.predDst] at dst
          gprSource := fun reg sourceMem _ => gprKeys reg sourceMem
          predSource := fun reg sourceMem => predKeys reg sourceMem }
  | test =>
      rw [behavior] at denotes table
      obtain ⟨sources, scalars, rfl⟩ := Option.map_eq_some_iff.mp denotes
      obtain ⟨gprKeys, predKeys⟩ := mem_sourceRegKeys_of_scalars scalars
      exact
        { gprDst := fun reg dst => by simp [Action.gprDst] at dst
          predDst := fun reg dst => by simp_all [destRegKey, Action.predDst]
          gprSource := fun reg sourceMem _ => gprKeys reg sourceMem
          predSource := fun reg sourceMem => predKeys reg sourceMem }
  | load width =>
      rw [behavior] at denotes table
      obtain ⟨address, found, rfl⟩ := Option.map_eq_some_iff.mp denotes
      obtain ⟨base, offset, first, rfl⟩ := loadAddress_cases found
      have gprSources := predicateSources_of_memory table.2
      exact
        { gprDst := fun reg dst => by simp_all [destRegKey, Action.gprDst]
          predDst := fun reg dst => by simp [Action.predDst] at dst
          gprSource := by
            intro reg sourceMem nonzero
            simp only [Action.sources, List.mem_singleton, Source.gpr.injEq] at sourceMem
            subst sourceMem
            exact base_mem_sourceRegKeys gprSources first nonzero
          predSource := fun reg sourceMem => by simp [Action.sources] at sourceMem }
  | store width =>
      rw [behavior] at denotes table
      obtain ⟨operands, found, isData⟩ := Option.bind_eq_some_iff.mp denotes
      obtain ⟨data, dataSource, rfl⟩ := Option.map_eq_some_iff.mp isData
      obtain ⟨base, offset, first, addressEq, dataMem⟩ := storeOperands_cases found
      have gprSources := predicateSources_of_memory table
      exact
        { gprDst := fun reg dst => by simp [Action.gprDst] at dst
          predDst := fun reg dst => by simp [Action.predDst] at dst
          gprSource := by
            intro reg sourceMem nonzero
            simp only [Action.sources, List.mem_cons, Source.gpr.injEq, List.not_mem_nil,
              or_false] at sourceMem
            rcases sourceMem with rfl | rfl
            · rw [addressEq] at nonzero ⊢
              exact base_mem_sourceRegKeys gprSources first nonzero
            · cases stored : operands.2 with
              | reg register =>
                  rw [stored] at dataSource dataMem
                  have key := mem_sourceRegKeys dataMem
                  rw [gprSources] at key
                  simp only [Value.source, Bool.false_eq_true, if_false, Option.some.injEq,
                    Source.gpr.injEq] at dataSource
                  subst dataSource
                  exact key
              | imm value => simp [stored, Value.source] at dataSource
              | stack address => simp [stored, Value.source] at dataSource
          predSource := by
            intro reg sourceMem
            simp only [Action.sources, List.mem_cons, reduceCtorEq, List.not_mem_nil, or_false,
              false_or] at sourceMem
            subst sourceMem
            cases stored : operands.2 <;> simp [stored, Value.source] at dataSource }
  | acquire =>
      rw [behavior] at denotes table
      obtain ⟨sources, scalars, rfl⟩ := Option.map_eq_some_iff.mp denotes
      obtain ⟨gprKeys, predKeys⟩ := mem_sourceRegKeys_of_scalars scalars
      exact
        { gprDst := fun reg dst => by simp_all [destRegKey, Action.gprDst]
          predDst := fun reg dst => by simp [Action.predDst] at dst
          gprSource := fun reg sourceMem _ => gprKeys reg sourceMem
          predSource := fun reg sourceMem => predKeys reg sourceMem }
  | release =>
      rw [behavior] at denotes
      obtain ⟨sources, scalars, rfl⟩ := Option.map_eq_some_iff.mp denotes
      obtain ⟨gprKeys, predKeys⟩ := mem_sourceRegKeys_of_scalars scalars
      exact
        { gprDst := fun reg dst => by simp [Action.gprDst] at dst
          predDst := fun reg dst => by simp [Action.predDst] at dst
          gprSource := fun reg sourceMem _ => gprKeys reg sourceMem
          predSource := fun reg sourceMem => predKeys reg sourceMem }
  | inert =>
      rw [behavior] at denotes
      obtain ⟨sources, -, rfl⟩ := Option.map_eq_some_iff.mp denotes
      exact
        { gprDst := fun reg dst => by simp [Action.gprDst] at dst
          predDst := fun reg dst => by simp [Action.predDst] at dst
          gprSource := fun reg sourceMem _ => by simp [Action.sources] at sourceMem
          predSource := fun reg sourceMem => by simp [Action.sources] at sourceMem }
  | control =>
      rw [behavior] at denotes
      cases denotes

/-! ### Memory accesses -/

/-- The bytes accessed by a load or store at an absolute address. -/
def absoluteBytes (syllable : Syllable) : List Word :=
  match syllable.opcode.behavior with
  | .load width => ((loadAddress syllable.srcs).map fun address =>
      addresses address.2 width).getD []
  | .store width => ((storeOperands syllable.srcs).map fun operands =>
      addresses operands.1.2 width).getD []
  | _ => []

/-- No access at an immediate address touches a byte of an access at a stack
address. -/
def NoStackGlobalOverlap (syllables : List Syllable) : Prop :=
  ∀ first ∈ syllables, ∀ second ∈ syllables, memoryBucket first = .global →
    memoryBucket second = .stack → (absoluteBytes first).Disjoint (absoluteBytes second)

/-- Only memory-unit opcodes access memory. -/
theorem access_of_not_memory {syllable : Syllable} {action : Action Opcode Reg}
    (denotes : syllable.action = some action)
    (notMemory : isMemoryOpcode syllable.opcode = false) (state : State Reg) :
    action.memReads state = ∅ ∧ action.memWrites state = ∅ := by
  have table := behavior_table syllable.opcode
  unfold Syllable.action at denotes
  simp only at denotes
  cases behavior : syllable.opcode.behavior with
  | compute =>
      rw [behavior] at denotes
      obtain ⟨sources, -, rfl⟩ := Option.map_eq_some_iff.mp denotes
      exact ⟨rfl, rfl⟩
  | test =>
      rw [behavior] at denotes
      obtain ⟨sources, -, rfl⟩ := Option.map_eq_some_iff.mp denotes
      exact ⟨rfl, rfl⟩
  | inert =>
      rw [behavior] at denotes
      obtain ⟨sources, -, rfl⟩ := Option.map_eq_some_iff.mp denotes
      exact ⟨rfl, rfl⟩
  | control =>
      rw [behavior] at denotes
      cases denotes
  | load width => simp [behavior, notMemory] at table
  | store width => simp [behavior, notMemory] at table
  | acquire => simp [behavior, notMemory] at table
  | release => simp [behavior, notMemory] at table

/-- A memory operation in a known alias class is a load or store at an
absolute address. -/
theorem known_bucket_cases {syllable : Syllable} (known : memoryBucket syllable ≠ .unknown) :
    (∃ width, syllable.opcode.behavior = .load width ∨
        syllable.opcode.behavior = .store width) ∧
      ∃ base, syllable.srcs.head? = some base ∧ ∀ offset, (base.address offset).1 = 0 := by
  unfold memoryBucket at known
  cases based : memoryBaseValue syllable with
  | none => simp [based] at known
  | some base =>
      rw [based] at known
      unfold memoryBaseValue at based
      constructor
      · revert based
        cases syllable.opcode <;> simp [Opcode.behavior]
      · refine ⟨base, ?_, ?_⟩
        · revert based
          cases syllable.opcode <;> simp
        · intro offset
          cases base with
          | reg register => simp at known
          | imm value => rfl
          | stack address => rfl

/-- Accesses in a known alias class stay within the bytes of their absolute
address. -/
theorem access_of_known {syllable : Syllable} {action : Action Opcode Reg}
    (denotes : syllable.action = some action) (known : memoryBucket syllable ≠ .unknown)
    (state : State Reg) :
    (∀ cell ∈ action.memReads state, cell ∈ absoluteBytes syllable) ∧
      ∀ cell ∈ action.memWrites state, cell ∈ absoluteBytes syllable := by
  obtain ⟨⟨width, isLoad | isStore⟩, base, first, absolute⟩ := known_bucket_cases known
  · unfold Syllable.action at denotes
    simp only [isLoad] at denotes
    obtain ⟨address, found, rfl⟩ := Option.map_eq_some_iff.mp denotes
    obtain ⟨other, offset, otherFirst, rfl⟩ := loadAddress_cases found
    rw [first] at otherFirst
    cases otherFirst
    constructor
    · intro cell cellMem
      simp only [Action.memReads, absolute, State.readGpr_zero, Set.mem_ofPred_eq] at cellMem
      simpa [absoluteBytes, isLoad, found] using cellMem
    · intro cell cellMem
      exact cellMem.elim
  · unfold Syllable.action at denotes
    simp only [isStore] at denotes
    obtain ⟨operands, found, isData⟩ := Option.bind_eq_some_iff.mp denotes
    obtain ⟨data, -, rfl⟩ := Option.map_eq_some_iff.mp isData
    obtain ⟨other, offset, otherFirst, addressEq, -⟩ := storeOperands_cases found
    rw [first] at otherFirst
    cases otherFirst
    constructor
    · intro cell cellMem
      exact cellMem.elim
    · intro cell cellMem
      simp only [Action.memWrites, addressEq, absolute, State.readGpr_zero,
        Set.mem_ofPred_eq] at cellMem
      simpa [absoluteBytes, isStore, found, addressEq] using cellMem

/-! ### Independence -/

/-- Accesses of two syllables that do not conflict are disjoint. -/
theorem accesses_disjoint {first second : Syllable} {left right : Action Opcode Reg}
    (leftDenotes : first.action = some left) (rightDenotes : second.action = some right)
    (independent : ¬Conflicts first second)
    (apart : memoryBucket first = .global → memoryBucket second = .stack →
      (absoluteBytes first).Disjoint (absoluteBytes second))
    (apart' : memoryBucket second = .global → memoryBucket first = .stack →
      (absoluteBytes second).Disjoint (absoluteBytes first))
    (state : State Reg) :
    Disjoint (left.memReads state ∪ left.memWrites state)
      (right.memReads state ∪ right.memWrites state) := by
  by_cases leftMemory : isMemoryOpcode first.opcode = true
  · by_cases rightMemory : isMemoryOpcode second.opcode = true
    · have leftKnown : memoryBucket first ≠ .unknown := fun unknown =>
        independent (.unknownFirst leftMemory unknown)
      have rightKnown : memoryBucket second ≠ .unknown := fun unknown =>
        independent (.unknownSecond rightMemory unknown)
      have different : memoryBucket first ≠ memoryBucket second := fun same =>
        independent (.memory leftMemory rightMemory (by simp [memoryBucketsMayAlias, same]))
      have disjoint : (absoluteBytes first).Disjoint (absoluteBytes second) := by
        cases firstBucket : memoryBucket first <;> cases secondBucket : memoryBucket second <;>
          simp_all
        exact apart'.symm
      obtain ⟨leftReads, leftWrites⟩ := access_of_known leftDenotes leftKnown state
      obtain ⟨rightReads, rightWrites⟩ := access_of_known rightDenotes rightKnown state
      apply Set.disjoint_left.mpr
      rintro cell (inLeft | inLeft) (inRight | inRight)
      · exact disjoint (leftReads cell inLeft) (rightReads cell inRight)
      · exact disjoint (leftReads cell inLeft) (rightWrites cell inRight)
      · exact disjoint (leftWrites cell inLeft) (rightReads cell inRight)
      · exact disjoint (leftWrites cell inLeft) (rightWrites cell inRight)
    · obtain ⟨reads, writes⟩ :=
        access_of_not_memory rightDenotes (by simpa using rightMemory) state
      simp [reads, writes]
  · obtain ⟨reads, writes⟩ := access_of_not_memory leftDenotes (by simpa using leftMemory) state
    simp [reads, writes]

/-- Syllables that do not conflict denote commuting actions. -/
theorem exec_comm_of_not_conflicts (isa : Isa Opcode) {first second : Syllable}
    {left right : Action Opcode Reg} (leftDenotes : first.action = some left)
    (rightDenotes : second.action = some right) (independent : ¬Conflicts first second)
    (apart : memoryBucket first = .global → memoryBucket second = .stack →
      (absoluteBytes first).Disjoint (absoluteBytes second))
    (apart' : memoryBucket second = .global → memoryBucket first = .stack →
      (absoluteBytes second).Disjoint (absoluteBytes first))
    (state : State Reg) :
    right.exec isa (left.exec isa state) = left.exec isa (right.exec isa state) := by
  have leftCovers := covers_action leftDenotes
  have rightCovers := covers_action rightDenotes
  have memory := accesses_disjoint leftDenotes rightDenotes independent apart apart' state
  apply Action.exec_comm
  · exact
      { gpr := fun reg dst nonzero sourceMem => independent
          (.writeRead _ (leftCovers.gprDst reg dst) (rightCovers.gprSource reg sourceMem nonzero))
        pred := fun reg dst sourceMem => independent
          (.writeRead _ (leftCovers.predDst reg dst) (rightCovers.predSource reg sourceMem))
        mem := memory.mono Set.subset_union_right Set.subset_union_left }
  · exact
      { gpr := fun reg dst nonzero sourceMem => independent
          (.readWrite _ (leftCovers.gprSource reg sourceMem nonzero) (rightCovers.gprDst reg dst))
        pred := fun reg dst sourceMem => independent
          (.readWrite _ (leftCovers.predSource reg sourceMem) (rightCovers.predDst reg dst))
        mem := (memory.mono Set.subset_union_left Set.subset_union_right).symm }
  · exact
      { gpr := fun reg leftDst rightDst => absurd
          (.writeWrite _ (leftCovers.gprDst reg leftDst) (rightCovers.gprDst reg rightDst))
          independent
        pred := fun reg leftDst rightDst => independent
          (.writeWrite _ (leftCovers.predDst reg leftDst) (rightCovers.predDst reg rightDst))
        mem := memory.mono Set.subset_union_right Set.subset_union_right }

/-! ### Scheduled blocks -/

/-- Execute the action at a position. -/
def runAt (isa : Isa Opcode) (actions : List (Action Opcode Reg)) (index : Nat)
    (state : State Reg) : State Reg :=
  match actions[index]? with
  | some action => action.exec isa state
  | none => state

theorem execAll_filterMap (isa : Isa Opcode) (actions : List (Action Opcode Reg))
    (order : List Nat) (state : State Reg) :
    Action.execAll isa (order.filterMap (actions[·]?)) state =
      runOrder (runAt isa actions) order state := by
  induction order generalizing state with
  | nil => rfl
  | cons index rest ih =>
      rw [runOrder_cons, ← ih, List.filterMap_cons]
      unfold runAt
      cases actions[index]? with
      | none => rfl
      | some action => rfl

theorem perm_of_validOrder {syllables : List Syllable} {order : List Nat}
    (valid : ValidOrder syllables order) :
    (order.filterMap (syllables[·]?)).Perm syllables := by
  have permuted := valid.perm.filterMap (syllables[·]?)
  rwa [filterMap_getElem?_range] at permuted

/-- Positions inverted by a valid order hold commuting actions. -/
theorem pairwise_of_validOrder (isa : Isa Opcode) {syllables : List Syllable}
    {order : List Nat} (valid : ValidOrder syllables order)
    (apart : NoStackGlobalOverlap syllables) {actions : List (Action Opcode Reg)}
    (denotes : syllables.mapM Syllable.action = some actions) :
    order.Pairwise fun left right =>
      left ≤ right ∨ StepsCommute (runAt isa actions) left right := by
  have related := mapM_eq_some_iff.mp denotes
  have sameLength := related.length_eq
  have nodup : order.Nodup := valid.perm.nodup_iff.mpr List.nodup_range
  rw [List.pairwise_iff_getElem]
  intro p q pLt qLt before
  by_cases inverted : order[q] < order[p]
  · right
    have bound : ∀ k (kLt : k < order.length), order[k] < syllables.length := fun k kLt =>
      List.mem_range.mp (valid.perm.mem_iff.mp (List.getElem_mem kLt))
    have pBound := bound p pLt
    have qBound := bound q qLt
    have independent : ¬Conflicts syllables[order[q]] syllables[order[p]] := by
      intro conflict
      have sorted := valid.ordered order[q] order[p] _ _ inverted
        (List.getElem?_eq_getElem qBound) (List.getElem?_eq_getElem pBound) conflict
      rw [nodup.idxOf_getElem, nodup.idxOf_getElem] at sorted
      omega
    have qMem := List.getElem_mem qBound
    have pMem := List.getElem_mem pBound
    intro state
    have commute := exec_comm_of_not_conflicts isa
      (related.get qBound (by omega)) (related.get pBound (by omega)) independent
      (apart _ qMem _ pMem) (apart _ pMem _ qMem) state
    unfold runAt
    rw [List.getElem?_eq_getElem (by omega), List.getElem?_eq_getElem (by omega)]
    exact commute.symm
  · left
    omega

/-- Executing a block in a valid order gives the state of the original block. -/
theorem execSyllables_of_validOrder (isa : Isa Opcode) {syllables : List Syllable}
    {order : List Nat} (valid : ValidOrder syllables order)
    (apart : NoStackGlobalOverlap syllables) (state : State Reg) :
    execSyllables isa (order.filterMap (syllables[·]?)) state =
      execSyllables isa syllables state := by
  unfold execSyllables
  cases denotes : syllables.mapM Syllable.action with
  | none =>
      have stuck : (order.filterMap (syllables[·]?)).mapM Syllable.action = none := by
        rw [← Option.not_isSome_iff_eq_none, mapM_isSome_iff]
        intro all
        have some? : (syllables.mapM Syllable.action).isSome := mapM_isSome_iff.mpr
          fun syllable syllableMem =>
            all syllable ((perm_of_validOrder valid).mem_iff.mpr syllableMem)
        rw [denotes] at some?
        cases some?
      rw [stuck]
  | some actions =>
      rw [mapM_filterMap_getElem? denotes, Option.map_some, Option.map_some, execAll_filterMap,
        runOrder_eq_range valid.perm (pairwise_of_validOrder isa valid apart denotes),
        ← execAll_filterMap, (mapM_eq_some_iff.mp denotes).length_eq, filterMap_getElem?_range]

/-- The scheduler returns a permutation of the block in which every two
conflicting syllables keep their order; when immediate and stack accesses do
not overlap, the result computes the same state as the block. -/
theorem listScheduleSyllables_correct (syllables : List Syllable) :
    ∃ order : List Nat, order.Perm (List.range syllables.length) ∧
      listScheduleSyllables syllables = .ok (order.filterMap (syllables[·]?)) ∧
      (order.filterMap (syllables[·]?)).Perm syllables ∧
      (∀ i j first second, i < j → syllables[i]? = some first → syllables[j]? = some second →
        Conflicts first second → order.idxOf i < order.idxOf j) ∧
      (NoStackGlobalOverlap syllables → ∀ (isa : Isa Opcode) (state : State Reg),
        execSyllables isa (order.filterMap (syllables[·]?)) state =
          execSyllables isa syllables state) := by
  obtain ⟨order, valid, scheduled⟩ := exists_validOrder syllables
  exact ⟨order, valid.perm, scheduled, perm_of_validOrder valid, valid.ordered,
    fun apart isa state => execSyllables_of_validOrder isa valid apart state⟩

/-- A load from an immediate address, a store to a stack address and an
addition waiting for the load. -/
def mixedAccesses : List Syllable :=
  [⟨.loadD, some (.preg 1), [.imm 64]⟩,
    ⟨.storeD, none, [.stack 128, .reg (.preg 2)]⟩,
    ⟨.add, some (.preg 3), [.reg (.preg 1), .reg (.preg 2)]⟩]

theorem listScheduleSyllables_correct_mixedAccesses :
    NoStackGlobalOverlap mixedAccesses ∧
      ∃ scheduled, listScheduleSyllables mixedAccesses = .ok scheduled ∧
        scheduled.Perm mixedAccesses ∧
        ∀ (isa : Isa Opcode) (state : State Reg),
          execSyllables isa scheduled state = execSyllables isa mixedAccesses state := by
  have apart : NoStackGlobalOverlap mixedAccesses := by
    intro first firstMem second secondMem firstGlobal secondStack
    simp only [mixedAccesses, List.mem_cons, List.not_mem_nil, or_false] at firstMem secondMem
    have firstEq : first = ⟨.loadD, some (.preg 1), [.imm 64]⟩ := by
      rcases firstMem with rfl | rfl | rfl
      · rfl
      · exact absurd firstGlobal (by decide)
      · exact absurd firstGlobal (by decide)
    have secondEq : second = ⟨.storeD, none, [.stack 128, .reg (.preg 2)]⟩ := by
      rcases secondMem with rfl | rfl | rfl
      · exact absurd secondStack (by decide)
      · rfl
      · exact absurd secondStack (by decide)
    subst firstEq secondEq
    simp [absoluteBytes, Opcode.behavior, loadAddress, storeOperands, Value.address, addresses,
      List.range_succ]
  obtain ⟨order, -, scheduled, permuted, -, same⟩ := listScheduleSyllables_correct mixedAccesses
  exact ⟨apart, _, scheduled, permuted, same apart⟩

end VliwCompiler.Schedule
