import VliwCompiler.Pack.Segment
import VliwCompiler.Schedule.Meaning

/-!
# Packed emission against the scalar oracle

Scheduling keeps the meaning of every block, scalar emission keeps the meaning
of every syllable, and packing keeps the meaning of every segment whose merges
are safe.  Both the scalar and the packed program therefore run in lock-step
with the module, and so with each other.
-/

namespace VliwCompiler.Pack

open Asm (Opcode Bundle Item Processor Program BlockCode blockItems labelPosition execBundles)
open Mir (Reg BlockId Block Function Terminator blockAt blockIds moduleLabels namedBlock
  execSyllables)
open Codegen (ScalarBody ScalarCode ScalarRealizes Implements Realizes LaidOut WellFormedModule
  boundary mirBoundary blockAddress scalarProgram)
open Schedule (NoStackGlobalOverlap ValidOrder issueOrder)
open Machine

/-! ### Scheduled modules -/

/-- A block after list scheduling. -/
structure ScheduledBlock (block scheduled : Block) : Prop where
  label : scheduled.label = block.label
  terminator : scheduled.terminator = block.terminator
  issued : scheduled.syllables = (issueOrder block.syllables).filterMap (block.syllables[·]?)

theorem ScheduledBlock.syllables {block scheduled : Block}
    (isScheduled : ScheduledBlock block scheduled) :
    ∃ order, ValidOrder block.syllables order ∧
      scheduled.syllables = order.filterMap (block.syllables[·]?) :=
  ⟨_, (Schedule.issueOrder_correct block.syllables).1, isScheduled.issued⟩

theorem scheduledBlock_of_eq_ok {block scheduled : Block}
    (done : Schedule.listScheduleBlock block = .ok scheduled) : ScheduledBlock block scheduled := by
  obtain ⟨syllables, isScheduled, rfl⟩ := map_eq_ok.mp done
  rw [(Schedule.issueOrder_correct block.syllables).2] at isScheduled
  cases isScheduled
  exact ⟨rfl, rfl, rfl⟩

/-- A function after list scheduling. -/
structure ScheduledFunction (function scheduled : Function) : Prop where
  name : scheduled.name = function.name
  blocks : List.Forall₂ ScheduledBlock function.blocks scheduled.blocks

theorem scheduledFunction_of_eq_ok {function scheduled : Function}
    (done : Schedule.listScheduleFunction function = .ok scheduled) :
    ScheduledFunction function scheduled := by
  obtain ⟨blocks, isScheduled, rfl⟩ := map_eq_ok.mp done
  exact ⟨rfl, (mapM_eq_ok_iff.mp isScheduled).imp fun _ _ => scheduledBlock_of_eq_ok⟩

/-- Packed emission schedules every function and emits the result. -/
theorem exists_listScheduled {functions : List Function} {program result : Program}
    (emitted : functions.foldlM emitScheduledFunction program = .ok result) :
    ∃ scheduled, functions.mapM Schedule.listScheduleFunction = .ok scheduled ∧
      scheduled.foldlM Codegen.emitFunction program = .ok result := by
  simp only [mapM_eq_ok_iff]
  induction functions generalizing program with
  | nil => exact ⟨[], .nil, emitted⟩
  | cons function functions ih =>
      rw [List.foldlM_cons] at emitted
      obtain ⟨middle, first, others⟩ := bind_eq_ok.mp emitted
      obtain ⟨scheduled, isScheduled, isEmitted⟩ := bind_eq_ok.mp first
      obtain ⟨rest, related, restEmitted⟩ := ih others
      refine ⟨scheduled :: rest, .cons isScheduled related, ?_⟩
      rw [List.foldlM_cons, isEmitted]
      exact restEmitted

theorem scheduled_of_mapM {functions scheduled : List Function}
    (done : functions.mapM Schedule.listScheduleFunction = .ok scheduled) :
    List.Forall₂ ScheduledFunction functions scheduled :=
  (mapM_eq_ok_iff.mp done).imp fun _ _ => scheduledFunction_of_eq_ok

theorem exists_scheduled {functions : List Function} {program result : Program}
    (emitted : functions.foldlM emitScheduledFunction program = .ok result) :
    ∃ scheduled, List.Forall₂ ScheduledFunction functions scheduled ∧
      scheduled.foldlM Codegen.emitFunction program = .ok result := by
  obtain ⟨scheduled, done, isEmitted⟩ := exists_listScheduled emitted
  exact ⟨scheduled, scheduled_of_mapM done, isEmitted⟩

theorem blockIds_scheduled {functions scheduled : List Function}
    (related : List.Forall₂ ScheduledFunction functions scheduled) :
    blockIds scheduled = blockIds functions := by
  have general : ∀ offset, (scheduled.zipIdx offset).flatMap (fun entry =>
      (List.range entry.1.blocks.length).map (BlockId.mk entry.2)) =
        (functions.zipIdx offset).flatMap fun entry =>
          (List.range entry.1.blocks.length).map (BlockId.mk entry.2) := by
    induction related with
    | nil => exact fun _ => rfl
    | cons first _ ih =>
        intro offset
        rw [List.zipIdx_cons, List.zipIdx_cons, List.flatMap_cons, List.flatMap_cons, ih]
        simp only [first.blocks.length_eq]
  exact general 0

theorem names_scheduled {functions scheduled : List Function}
    (related : List.Forall₂ ScheduledFunction functions scheduled) (func : Nat) :
    scheduled[func]?.map (·.name) = functions[func]?.map (·.name) := by
  cases found : scheduled[func]? with
  | none =>
      rw [List.getElem?_eq_none_iff] at found
      rw [List.getElem?_eq_none (related.length_eq ▸ found)]
  | some function =>
      obtain ⟨original, isOriginal, isScheduled⟩ := getElem?_of_forall₂ related found
      rw [isOriginal, Option.map_some, Option.map_some, isScheduled.name]

theorem blockAt_scheduled {functions scheduled : List Function}
    (related : List.Forall₂ ScheduledFunction functions scheduled) {id : BlockId} {block : Block}
    (found : blockAt scheduled id = some block) :
    ∃ original, blockAt functions id = some original ∧ ScheduledBlock original block := by
  obtain ⟨function, isFunction, isBlock⟩ := Option.bind_eq_some_iff.mp found
  obtain ⟨originalFunction, isOriginal, scheduledFunction⟩ := getElem?_of_forall₂ related isFunction
  obtain ⟨original, isOriginalBlock, scheduledBlock⟩ :=
    getElem?_of_forall₂ scheduledFunction.blocks isBlock
  exact ⟨original, by simp [blockAt, isOriginal, isOriginalBlock], scheduledBlock⟩

/-! ### Packed code -/

/-- Immediate and stack accesses of a block do not overlap. -/
def NoOverlap (functions : List Function) : Prop :=
  ∀ function ∈ functions, ∀ block ∈ function.blocks, NoStackGlobalOverlap block.syllables

theorem NoOverlap.block {functions : List Function} (apart : NoOverlap functions) {id : BlockId}
    {block : Block} (found : blockAt functions id = some block) :
    NoStackGlobalOverlap block.syllables := by
  obtain ⟨function, isFunction, isBlock⟩ := Option.bind_eq_some_iff.mp found
  exact apart function (List.mem_of_getElem? isFunction) block (List.mem_of_getElem? isBlock)

theorem ScheduledBlock.wellFormed {block scheduled : Block}
    (isScheduled : ScheduledBlock block scheduled)
    (wellFormed : ∀ syllable ∈ block.syllables, syllable.WellFormed) :
    ∀ syllable ∈ scheduled.syllables, syllable.WellFormed := by
  obtain ⟨order, valid, same⟩ := isScheduled.syllables
  intro syllable syllableMem
  rw [same] at syllableMem
  exact wellFormed syllable ((Schedule.perm_of_validOrder valid).mem_iff.mp syllableMem)

theorem syllableIsTerminator_eq_false {syllable : Asm.Syllable} {opcode : Opcode}
    (known : Opcode.fromMnemonic syllable.opcode = some opcode)
    (straight : opcode.behavior ≠ .control) : syllableIsTerminator syllable = false := by
  unfold syllableIsTerminator
  rw [known]
  cases opcode <;> simp_all [Opcode.behavior]

/-- The bundles of scalar code. -/
theorem scalarBundle_of_body {width : Nat} {syllables : List Mir.Syllable}
    {bundles : List Bundle} (body : ScalarBody width syllables bundles)
    (wellFormed : ∀ syllable ∈ syllables, syllable.WellFormed) :
    ∀ bundle ∈ bundles, ScalarBundle width bundle ∧ bundleIsTerminator bundle = false := by
  induction body with
  | nil => simp
  | wait _ ih =>
      rw [List.forall_mem_cons]
      exact ⟨⟨⟨Nat.zero_le _, .inl rfl⟩, rfl⟩, ih wellFormed⟩
  | issue lowered only fits _ ih =>
      obtain ⟨first, others⟩ := List.forall_mem_cons.mp wellFormed
      rw [List.forall_mem_cons]
      obtain ⟨action, denotes⟩ := Codegen.exists_denotes lowered first
      refine ⟨⟨⟨fits.le, .inr ⟨_, action, only, denotes.action⟩⟩, ?_⟩, ih others⟩
      unfold bundleIsTerminator
      rw [only, List.any_cons, List.any_nil, Bool.or_false]
      exact syllableIsTerminator_eq_false
        (by rw [denotes.mnemonic, Opcode.fromMnemonic_mnemonic])
        (Asm.behavior_ne_control denotes.asmAction)

theorem bundleIsTerminator_of_control {bundle : Bundle} {syllable : Asm.Syllable}
    {control : Asm.Control} (only : bundle.syllables = [syllable])
    (isControl : syllable.control = some control) : bundleIsTerminator bundle = true := by
  unfold bundleIsTerminator
  rw [only, List.any_cons, List.any_nil, Bool.or_false]
  unfold syllableIsTerminator
  unfold Asm.Syllable.control at isControl
  split at isControl <;> simp_all

/-- Packed code implements the block it was scheduled from. -/
theorem implements_of_packed {program : Program} {block scheduled : Block}
    {code packed : BlockCode} (isScheduled : ScheduledBlock block scheduled)
    (isCode : ScalarCode program.processor.width scheduled code)
    (isPacked : PackedBlock program code packed) (safe : SafePacking program)
    (wellFormed : ∀ syllable ∈ block.syllables, syllable.WellFormed)
    (apart : NoStackGlobalOverlap block.syllables) : Implements block packed where
  label := by rw [isPacked.label, isCode.label, isScheduled.label]
  body := by
    intro isa state
    have scheduledWellFormed := isScheduled.wellFormed wellFormed
    have scalar := scalarBundle_of_body isCode.body scheduledWellFormed
    have same := isPacked.body safe (fun bundle bundleMem => (scalar bundle bundleMem).2)
      fun bundle bundleMem => (scalar bundle bundleMem).1
    obtain ⟨final, executed, bundlesExecuted⟩ :=
      (isCode.implements scheduledWellFormed).body isa state
    obtain ⟨order, valid, isOrder⟩ := isScheduled.syllables
    refine ⟨final, ?_, ?_⟩
    · rw [← executed, isOrder, Schedule.execSyllables_of_validOrder isa valid apart]
    · rw [same.same, bundlesExecuted]
  last := by
    rw [isPacked.last, ← isScheduled.terminator]
    exact isCode.last

theorem bundleIsTerminator_last {width : Nat} {block : Block} {code : BlockCode}
    (isCode : ScalarCode width block code) : bundleIsTerminator code.last = true := by
  obtain ⟨syllable, control, only, isControl, -⟩ := isCode.last
  exact bundleIsTerminator_of_control only isControl

/-- The program handed to the packer. -/
def scheduledProgram (functions : List Function) (processor : Processor) : Outcome Program :=
  functions.foldlM emitScheduledFunction ⟨processor, []⟩

/-- The packed program consists of the packed code of the scheduled blocks in
layout order. -/
theorem packedProgram_items {functions : List Function} {processor : Processor}
    {program packed : Program} (scheduled : scheduledProgram functions processor = .ok program)
    (done : packScalarProgram program = some packed) :
    ∃ codes, packed = ⟨processor, blockItems codes⟩ ∧
      List.Forall₂ (fun id packedCode => ∃ original block code,
        blockAt functions id = some original ∧ ScheduledBlock original block ∧
        ScalarCode program.processor.width block code ∧ PackedBlock program code packedCode ∧
        packedCode.name = if id.block = 0 then functions[id.func]?.map (·.name) else none)
        (blockIds functions) codes := by
  obtain ⟨scheduledFunctions, related, emitted⟩ := exists_scheduled scheduled
  obtain ⟨codes, realized, rfl⟩ := Codegen.scalarProgram_items emitted
  rw [blockIds_scheduled related] at realized
  have ended : ∀ code ∈ codes, bundleIsTerminator code.last = true := by
    intro code codeMem
    obtain ⟨id, -, -, block, found, isCode⟩ := exists_mem_of_forall₂ realized codeMem
    exact bundleIsTerminator_last isCode
  obtain ⟨packedCodes, rfl, packedBlocks⟩ := packScalarProgram_items ended done
  refine ⟨packedCodes, rfl, forall₂_comp realized packedBlocks ?_⟩
  rintro id code packedCode ⟨named, block, found, isCode⟩ isPacked
  obtain ⟨original, isOriginal, isScheduled⟩ := blockAt_scheduled related found
  refine ⟨original, block, code, isOriginal, isScheduled, isCode, isPacked, ?_⟩
  rw [isPacked.name, named, names_scheduled related]

/-- Safely packed code realizes the module. -/
theorem realizes_of_packed {functions : List Function} {processor : Processor}
    {program packed : Program} (scheduled : scheduledProgram functions processor = .ok program)
    (done : packScalarProgram program = some packed) (wellFormed : WellFormedModule functions)
    (apart : NoOverlap functions) (safe : SafePacking program) :
    ∃ codes, packed = ⟨processor, blockItems codes⟩ ∧
      List.Forall₂ (Realizes functions) (blockIds functions) codes := by
  obtain ⟨codes, isPacked, emitted⟩ := packedProgram_items scheduled done
  refine ⟨codes, isPacked, emitted.imp ?_⟩
  rintro id code ⟨original, block, scalar, found, isScheduled, isCode, packedBlock, named⟩
  exact ⟨named, original, found, implements_of_packed isScheduled isCode packedBlock safe
    (wellFormed.block found) (apart.block found)⟩

/-! ### The scalar oracle -/

/-- Running the packed program shows the block boundaries of the scalar one:
the same blocks in the same order and the same registers, predicates and memory
at each of them and when the program is left.  Code addresses differ between
the two programs; what matters is that the blocks have corresponding ones. -/
def AgreesWithScalar (functions : List Function) (scalar packed : Program) : Prop :=
  ∀ (isa : Isa Opcode) (link link' : Nat → Word) (state : State UInt8) (name : String)
    (id : BlockId),
    (∀ block ∈ blockIds functions, blockAddress functions scalar.items link block =
      blockAddress functions packed.items link' block) →
    namedBlock functions name = some id →
    ∃ position position', labelPosition scalar.items name = some position ∧
      labelPosition packed.items name = some position' ∧
      SameVisits (Asm.step packed.items isa link') (boundary functions packed.items)
        ⟨some position', state⟩
        (Asm.step scalar.items isa link) (boundary functions scalar.items)
        ⟨some position, state⟩

/-- A MIR state with given physical registers. -/
def liftState (state : State UInt8) : State Reg where
  gpr
    | .preg n => state.gpr n
    | .vreg _ => 0
  pred
    | .preg n => state.pred n
    | .vreg _ => false
  mem := state.mem

theorem comap_liftState (state : State UInt8) : (liftState state).comap Reg.preg = state := rfl

/-- Pack agrees with the scalar oracle whenever no merge made by the packer
puts a syllable next to an earlier one that writes a predicate it reads or
writes, or memory it may access. -/
theorem emitPackedVliwModule_agrees {functions : List Function} {processor : Processor}
    {text packedText : String}
    (scalarEmitted : Codegen.emitScalarVliwModule functions processor = .ok text)
    (packedEmitted : emitPackedVliwModule functions processor = .ok packedText)
    (wellFormed : WellFormedModule functions) (distinct : (moduleLabels functions).Nodup)
    (laidOut : LaidOut functions) (apart : NoOverlap functions)
    (safe : ∀ program, scheduledProgram functions processor = .ok program →
      SafePacking program) :
    ∃ scalar packed, scalarProgram functions processor = .ok scalar ∧ text = Asm.emit scalar ∧
      packedProgram functions processor = .ok packed ∧ packedText = Asm.emit packed ∧
      AgreesWithScalar functions scalar packed := by
  obtain ⟨scalar, built, accepted⟩ := bind_eq_ok.mp scalarEmitted
  obtain ⟨packed, packedBuilt, packedAccepted⟩ := bind_eq_ok.mp packedEmitted
  refine ⟨scalar, packed, built, ?_, packedBuilt, ?_, ?_⟩
  · split at accepted
    · cases accepted
    · exact (Except.ok.inj accepted).symm
  · split at packedAccepted
    · cases packedAccepted
    · exact (Except.ok.inj packedAccepted).symm
  · obtain ⟨program, scheduled, isPacked⟩ := bind_eq_ok.mp packedBuilt
    obtain ⟨codes, realized, rfl⟩ := Codegen.scalarProgram_items built
    have scalarRealized := Codegen.realizes_of_scalar wellFormed realized
    have done : packScalarProgram program = some packed := by
      split at isPacked
      · cases isPacked
        assumption
      · cases isPacked
    obtain ⟨packedCodes, rfl, packedRealized⟩ :=
      realizes_of_packed scheduled done wellFormed apart (safe program scheduled)
    intro isa link link' state name id sameAddresses named
    obtain ⟨position, positioned, scalarVisits⟩ := Codegen.sameVisits_of_realizes distinct
      scalarRealized laidOut isa link (liftState state) named
    obtain ⟨position', positioned', packedVisits⟩ := Codegen.sameVisits_of_realizes distinct
      packedRealized laidOut isa link' (liftState state) named
    rw [comap_liftState] at scalarVisits packedVisits
    rw [Mir.step_congr_link isa sameAddresses] at scalarVisits
    exact ⟨position, position', positioned, positioned', packedVisits.trans_symm scalarVisits⟩

/-! ### A wrong merge -/

/-- A comparison followed by the negation of its result. -/
def negatedComparison : List Function :=
  [⟨"main", [⟨"entry",
    [⟨.cmpEq, some (.preg 2), [.reg (.preg 3), .reg (.preg 4)]⟩,
      ⟨.pNot, some (.preg 5), [.reg (.preg 2)]⟩], .ret⟩]⟩]

/-- One syllable per bundle. -/
def scalarNegated : Program where
  processor := .default
  items := [.label "main", .label "entry",
    .bundle ⟨[some ⟨"cmpeq", [.pred 2, .reg 3, .reg 4]⟩, none, none, none]⟩,
    .bundle ⟨[none, none, none, some ⟨"pnot", [.pred 5, .pred 2]⟩]⟩,
    .bundle ⟨[none, none, none, some ⟨"ret", []⟩]⟩]

/-- The negation shares the bundle of the comparison. -/
def packedNegated : Program where
  processor := .default
  items := [.label "main", .label "entry",
    .bundle ⟨[some ⟨"cmpeq", [.pred 2, .reg 3, .reg 4]⟩, none, none,
      some ⟨"pnot", [.pred 5, .pred 2]⟩]⟩,
    .bundle ⟨[none, none, none, some ⟨"ret", []⟩]⟩]

/-- Comparison for equality and predicate negation. -/
def comparisonIsa : Isa Opcode where
  result _ _ := 0
  flag
    | .cmpEq, [.word left, .word right] => left = right
    | .pNot, [.flag value] => !value
    | _, _ => false
  extend _ value := value
  acquire _ _ _ := 0
  release _ _ := []

/-- Registers that compare equal and a return address outside the module. -/
def equalOperands : State UInt8 where
  gpr n := if n = 31 then 1 else 0
  pred _ := false
  mem _ := 0

/-- The values of `p5` along a run. -/
def seen (observed : List (Option BlockId × State UInt8)) : List (Option BlockId × Bool) :=
  observed.map fun (block, state) => (block, state.pred 5)

theorem not_agreesWithScalar_negated :
    ¬AgreesWithScalar negatedComparison scalarNegated packedNegated := by
  intro agrees
  obtain ⟨position, position', positioned, positioned', -, follows⟩ :=
    agrees comparisonIsa (fun _ => 0) (fun _ => 0) equalOperands "main" ⟨0, 0⟩
      (fun _ _ => rfl) (by decide)
  obtain rfl : 0 = position := Option.some.inj positioned
  obtain rfl : 0 = position' := Option.some.inj positioned'
  obtain ⟨fuel, shown⟩ := follows 6
  have sameSeen := congrArg seen shown
  rw [show seen (visits (Asm.step scalarNegated.items comparisonIsa fun _ => 0)
    (boundary negatedComparison scalarNegated.items) 6 ⟨some 0, equalOperands⟩) =
      [(some ⟨0, 0⟩, false), (none, false)] by decide] at sameSeen
  match fuel with
  | 0 | 1 | 2 | 3 | 4 | 5 => exact absurd sameSeen (by decide)
  | fuel + 6 =>
      have packedSeen : seen (visits (Asm.step packedNegated.items comparisonIsa fun _ => 0)
          (boundary negatedComparison packedNegated.items) (fuel + 6) ⟨some 0, equalOperands⟩) =
            [(some ⟨0, 0⟩, false), (none, true)] := rfl
      rw [packedSeen] at sameSeen
      exact absurd sameSeen (by decide)

/-- The verifier does not look at predicates: the default processor issues a
comparison and the negation of its result together. -/
theorem negatedComparison_disagrees :
    (∃ text, Codegen.emitScalarVliwModule negatedComparison .default = .ok text) ∧
      (∃ text, emitPackedVliwModule negatedComparison .default = .ok text) ∧
      WellFormedModule negatedComparison ∧ (moduleLabels negatedComparison).Nodup ∧
      LaidOut negatedComparison ∧ NoOverlap negatedComparison ∧
      ∃ scalar packed, scalarProgram negatedComparison .default = .ok scalar ∧
        packedProgram negatedComparison .default = .ok packed ∧
        ¬AgreesWithScalar negatedComparison scalar packed := by
  refine ⟨exists_of_isOk (by decide), exists_of_isOk (by decide), ?_, by decide, ?_, ?_,
    scalarNegated, packedNegated, rfl, rfl, not_agreesWithScalar_negated⟩
  · unfold WellFormedModule Mir.Syllable.WellFormed
    decide
  · intro id block found
    have ids : blockIds negatedComparison = [⟨0, 0⟩] := by decide
    have idMem := Mir.mem_blockIds_of_blockAt found
    rw [ids, List.mem_singleton] at idMem
    subst idMem
    cases found
    trivial
  · intro function functionMem block blockMem first firstMem second secondMem isGlobal
    simp only [negatedComparison, List.mem_singleton] at functionMem
    subst functionMem
    simp only [List.mem_singleton] at blockMem
    subst blockMem
    simp only [List.mem_cons, List.not_mem_nil, or_false] at firstMem
    rcases firstMem with rfl | rfl <;> exact absurd isGlobal (by decide)

/-! ### A safe merge -/

/-- Two independent constants. -/
def twoConstants : List Function :=
  [⟨"main", [⟨"entry",
    [⟨.movImm, some (.preg 2), [.imm 1]⟩, ⟨.movImm, some (.preg 3), [.imm 2]⟩], .ret⟩]⟩]

/-- The bundle of one constant. -/
def constantBundle (dst : UInt8) (value : Asm.I64) : Bundle :=
  ⟨[some ⟨"movi", [.reg dst, .imm value]⟩, none, none, none]⟩

/-- One constant per bundle. -/
def scheduledConstants : Program where
  processor := .default
  items := [.label "main", .label "entry", .bundle (constantBundle 2 1),
    .bundle (constantBundle 3 2), .bundle ⟨[none, none, none, some ⟨"ret", []⟩]⟩]

theorem not_hazard_constants (dst dst' : UInt8) (value value' : Asm.I64) :
    ¬Hazard (constantBundle dst value) (constantBundle dst' value') := by
  rintro ⟨first, firstMem, second, secondMem, left, right, isLeft, isRight, hazard⟩
  obtain rfl : first = ⟨"movi", [.reg dst, .imm value]⟩ := List.mem_singleton.mp firstMem
  obtain rfl : Action.compute Opcode.movImm (some dst) [.imm value] = left := Option.some.inj isLeft
  rcases hazard with ⟨pred, isPred, -⟩ | ⟨state, overlap⟩
  · cases isPred
  · exact overlap (Set.empty_disjoint _)

theorem safeSegment_constants (cycle : Nat) (ready : Schedule.ReadyState) :
    SafeSegment .default cycle ready [constantBundle 2 1, constantBundle 3 2] := by
  intro front bundle back out last split done isLast _ _
  match front with
  | [] =>
      cases done
      cases isLast
  | [first] =>
      cases split
      cases done
      cases isLast
      exact not_hazard_constants 2 3 1 2
  | first :: second :: third => simp at split

theorem safePacking_constants : SafePacking scheduledConstants := by
  intro front back state split reached
  have isFront : scheduledConstants.items.take front.length = front := by
    rw [split, List.take_left]
  have short : front.length < 6 := by
    have total : 5 = front.length + back.length := by
      rw [← List.length_append, ← split]
      rfl
    omega
  have pending : ∀ n < 6, ((scheduledConstants.items.take n).foldlM
      (packItem scheduledConstants.processor) {}).all
        (·.segment.isPrefixOf [constantBundle 2 1, constantBundle 3 2]) = true := by
    decide
  have isPending := pending front.length short
  rw [isFront, reached, Option.all_some, List.isPrefixOf_iff_prefix] at isPending
  obtain ⟨rest, whole⟩ := isPending
  have safe := safeSegment_constants state.cycle state.ready
  rw [← whole] at safe
  exact safe.front

theorem emitPackedVliwModule_agrees_twoConstants :
    ∃ scalar packed, scalarProgram twoConstants .default = .ok scalar ∧
      packedProgram twoConstants .default = .ok packed ∧
      AgreesWithScalar twoConstants scalar packed := by
  obtain ⟨text, scalarEmitted⟩ : ∃ text,
      Codegen.emitScalarVliwModule twoConstants .default = .ok text :=
    exists_of_isOk (by decide)
  obtain ⟨packedText, packedEmitted⟩ :
      ∃ text, emitPackedVliwModule twoConstants .default = .ok text :=
    exists_of_isOk (by decide)
  have wellFormed : WellFormedModule twoConstants := by
    unfold WellFormedModule Mir.Syllable.WellFormed
    decide
  have safe : ∀ program, scheduledProgram twoConstants .default = .ok program →
      SafePacking program := by
    intro program scheduled
    obtain rfl : scheduledConstants = program := Except.ok.inj scheduled
    exact safePacking_constants
  have laidOut : LaidOut twoConstants := by
    intro id block found
    have ids : blockIds twoConstants = [⟨0, 0⟩] := by decide
    have idMem := Mir.mem_blockIds_of_blockAt found
    rw [ids, List.mem_singleton] at idMem
    subst idMem
    cases found
    trivial
  have apart : NoOverlap twoConstants := by
    intro function functionMem block blockMem first firstMem second secondMem isGlobal
    simp only [twoConstants, List.mem_singleton] at functionMem
    subst functionMem
    simp only [List.mem_singleton] at blockMem
    subst blockMem
    simp only [List.mem_cons, List.not_mem_nil, or_false] at firstMem
    rcases firstMem with rfl | rfl <;> exact absurd isGlobal (by decide)
  obtain ⟨scalar, packed, built, -, packedBuilt, -, agrees⟩ := emitPackedVliwModule_agrees
    scalarEmitted packedEmitted wellFormed (by decide) laidOut apart safe
  exact ⟨scalar, packed, built, packedBuilt, agrees⟩

end VliwCompiler.Pack
