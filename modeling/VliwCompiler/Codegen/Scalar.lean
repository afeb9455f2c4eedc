import VliwCompiler.Codegen.Simulation

/-!
# Scalar emission refines MIR

The scalar emitter writes, for every block in layout order, its labels, one
bundle for each syllable with empty bundles in between, and one bundle for the
terminator.  The emitted program therefore runs in lock-step with the module.
-/

namespace VliwCompiler.Codegen

open Asm (Opcode Item Program Processor BlockCode blockItems labelPosition execBundles)
open Mir (Reg BlockId Block Function Terminator blockAt blockIds moduleLabels namedBlock
  execSyllables)
open Machine

/-! ### Emitted bundles -/

/-- Bundles that issue one lowered syllable each, in order, or nothing. -/
inductive ScalarBody (width : Nat) : List Mir.Syllable → List Asm.Bundle → Prop where
  | nil : ScalarBody width [] []
  | wait {syllables : List Mir.Syllable} {bundles : List Asm.Bundle}
      (rest : ScalarBody width syllables bundles) :
      ScalarBody width syllables (⟨[]⟩ :: bundles)
  | issue {syllable : Mir.Syllable} {syllables : List Mir.Syllable} {asm : Asm.Syllable}
      {bundle : Asm.Bundle} {bundles : List Asm.Bundle}
      (lowered : lowerSyllable syllable = .ok asm) (only : bundle.syllables = [asm])
      (fits : bundle.slots.length = width) (rest : ScalarBody width syllables bundles) :
      ScalarBody width (syllable :: syllables) (bundle :: bundles)

namespace ScalarBody

theorem append {width : Nat} {first second : List Mir.Syllable} {left right : List Asm.Bundle}
    (leftBody : ScalarBody width first left) (rightBody : ScalarBody width second right) :
    ScalarBody width (first ++ second) (left ++ right) := by
  induction leftBody with
  | nil => exact rightBody
  | wait _ ih => exact .wait ih
  | issue lowered only fits _ ih => exact .issue lowered only fits ih

theorem replicate (width count : Nat) : ScalarBody width [] (List.replicate count ⟨[]⟩) := by
  induction count with
  | zero => exact .nil
  | succ count ih => exact .wait ih

end ScalarBody

/-- A bundle with one syllable executes its action. -/
theorem exec_singleton (isa : Isa Opcode) {bundle : Asm.Bundle} {asm : Asm.Syllable}
    {action : Action Opcode UInt8} (only : bundle.syllables = [asm])
    (denotes : asm.action = some action) (state : State UInt8) :
    bundle.exec isa state = some (action.exec isa state) := by
  unfold Asm.Bundle.exec
  rw [only, List.mapM_cons, denotes]
  rfl

theorem Denotes.action {syllable : Mir.Syllable} {asm : Asm.Syllable}
    {action : Action Opcode UInt8} (denotes : Denotes syllable asm action) :
    asm.action = some action := by
  unfold Asm.Syllable.action
  rw [denotes.mnemonic, Opcode.fromMnemonic_mnemonic, Option.bind_some, denotes.asmAction]

/-- Scalar bundles execute the actions of their syllables in order. -/
theorem ScalarBody.execBundles {width : Nat} {syllables : List Mir.Syllable}
    {bundles : List Asm.Bundle} (body : ScalarBody width syllables bundles)
    (wellFormed : ∀ syllable ∈ syllables, syllable.WellFormed) :
    ∃ actions : List (Action Opcode UInt8),
      syllables.mapM Mir.Syllable.action = some (actions.map (·.map Reg.preg)) ∧
      ∀ isa state, Asm.execBundles isa bundles state = some (Action.execAll isa actions state) := by
  induction body with
  | nil => exact ⟨[], rfl, fun _ _ => rfl⟩
  | wait _ ih =>
      obtain ⟨actions, denote, executed⟩ := ih wellFormed
      exact ⟨actions, denote, fun isa state => executed isa state⟩
  | issue lowered only _ _ ih =>
      obtain ⟨first, others⟩ := List.forall_mem_cons.mp wellFormed
      obtain ⟨action, denotes⟩ := exists_denotes lowered first
      obtain ⟨actions, denote, executed⟩ := ih others
      refine ⟨action :: actions, ?_, ?_⟩
      · rw [List.mapM_cons, denotes.mirAction, denote]
        rfl
      · intro isa state
        exact Asm.execBundles_cons.mpr
          ⟨_, exec_singleton isa only denotes.action state, executed isa _⟩

/-! ### Emitted items -/

/-- A program followed by bundles. -/
def appendBundles (program : Program) (bundles : List Asm.Bundle) : Program :=
  { program with items := program.items ++ bundles.map .bundle }

theorem appendBundles_append (program : Program) (first second : List Asm.Bundle) :
    appendBundles (appendBundles program first) second =
      appendBundles program (first ++ second) := by
  simp [appendBundles]

/-- The syllables of a bundle with one syllable. -/
theorem syllables_bundleWith {width slot : Nat} {asm : Asm.Syllable} {bundle : Asm.Bundle}
    (built : bundleWith width slot asm = .ok bundle) :
    bundle.syllables = [asm] ∧ bundle.slots.length = width := by
  unfold bundleWith at built
  split at built
  · rename_i bound
    cases built
    refine ⟨?_, by simp⟩
    unfold Asm.Bundle.syllables
    rw [List.set_eq_take_append_cons_drop, List.length_replicate, if_pos bound,
      List.filterMap_append, List.take_replicate, List.drop_replicate]
    simp
  · cases built

/-- The emitter appends empty bundles and the bundle of the syllable. -/
theorem emitAsmSyllableInSlot_items {ctx ctx' : CodegenCtx} {program program' : Program}
    {opcode : Opcode} {asm : Asm.Syllable} {slot : Nat}
    (emitted : ctx.emitAsmSyllableInSlot program opcode asm slot = .ok (ctx', program')) :
    ∃ (count : Nat) (bundle : Asm.Bundle), bundle.syllables = [asm] ∧
      bundle.slots.length = program.processor.width ∧
      program' = appendBundles program (List.replicate count ⟨[]⟩ ++ [bundle]) := by
  unfold CodegenCtx.emitAsmSyllableInSlot at emitted
  split at emitted
  · obtain ⟨bundle, built, same⟩ := bind_eq_ok.mp emitted
    obtain ⟨only, fits⟩ := syllables_bundleWith built
    refine ⟨ctx.requiredCycleForSources opcode asm - ctx.cycle, bundle, only, fits, ?_⟩
    cases same
    simp [appendBundles]
  · cases emitted

theorem emitSyllable_items {ctx ctx' : CodegenCtx} {program program' : Program}
    {syllable : Mir.Syllable}
    (emitted : ctx.emitSyllable program syllable = .ok (ctx', program')) :
    ∃ bundles, ScalarBody program.processor.width [syllable] bundles ∧
      program' = appendBundles program bundles := by
  obtain ⟨asm, lowered, rest⟩ := bind_eq_ok.mp emitted
  obtain ⟨slot, -, placed⟩ := bind_eq_ok.mp rest
  obtain ⟨count, bundle, only, fits, rfl⟩ := emitAsmSyllableInSlot_items placed
  exact ⟨_, (ScalarBody.replicate _ count).append (.issue lowered only fits .nil), rfl⟩

theorem emitSyllables_items {syllables : List Mir.Syllable} {ctx ctx' : CodegenCtx}
    {program program' : Program}
    (emitted : syllables.foldlM (fun (current : CodegenCtx × Program) syllable =>
      current.1.emitSyllable current.2 syllable) (ctx, program) = .ok (ctx', program')) :
    ∃ bundles, ScalarBody program.processor.width syllables bundles ∧
      program' = appendBundles program bundles := by
  induction syllables generalizing ctx program with
  | nil =>
      cases emitted
      exact ⟨[], .nil, by simp [appendBundles]⟩
  | cons syllable syllables ih =>
      rw [List.foldlM_cons] at emitted
      obtain ⟨⟨ctx₁, program₁⟩, first, others⟩ := bind_eq_ok.mp emitted
      obtain ⟨left, leftBody, rfl⟩ := emitSyllable_items first
      obtain ⟨right, rightBody, rfl⟩ := ih others
      exact ⟨left ++ right, leftBody.append rightBody, appendBundles_append ..⟩

/-- The terminator is emitted as one bundle after empty ones. -/
theorem emitTerminator_items {ctx ctx' : CodegenCtx} {program program' : Program}
    {terminator : Terminator}
    (emitted : ctx.emitTerminator program terminator = .ok (ctx', program')) :
    ∃ (count : Nat) (last : Asm.Bundle) (asm : Asm.Syllable) (control : Asm.Control),
      last.syllables = [asm] ∧ asm.control = some control ∧
      terminatorControl terminator = some control ∧
      program' = appendBundles program (List.replicate count ⟨[]⟩ ++ [last]) := by
  cases terminator with
  | ret =>
      obtain ⟨slot, -, placed⟩ := bind_eq_ok.mp emitted
      obtain ⟨count, last, only, -, rfl⟩ := emitAsmSyllableInSlot_items placed
      exact ⟨count, last, _, .ret, only, rfl, rfl, rfl⟩
  | jump label =>
      obtain ⟨slot, -, placed⟩ := bind_eq_ok.mp emitted
      obtain ⟨count, last, only, -, rfl⟩ := emitAsmSyllableInSlot_items placed
      exact ⟨count, last, _, .jump label, only, rfl, rfl, rfl⟩
  | branch cond label =>
      obtain ⟨pred, isPred, rest⟩ := bind_eq_ok.mp emitted
      obtain ⟨slot, -, placed⟩ := bind_eq_ok.mp rest
      obtain ⟨count, last, only, -, rfl⟩ := emitAsmSyllableInSlot_items placed
      rw [predForReg_eq_ok.mp isPred]
      exact ⟨count, last, _, .branch pred label, only, rfl, rfl, rfl⟩
  | directCall target cont =>
      obtain ⟨slot, -, placed⟩ := bind_eq_ok.mp emitted
      obtain ⟨count, last, only, -, rfl⟩ := emitAsmSyllableInSlot_items placed
      exact ⟨count, last, _, .call target, only, rfl, rfl, rfl⟩

/-- What the scalar emitter writes for a block. -/
structure ScalarCode (width : Nat) (block : Block) (code : BlockCode) : Prop where
  label : code.label = block.label
  body : ScalarBody width block.syllables code.body
  last : ∃ syllable control, code.last.syllables = [syllable] ∧
    syllable.control = some control ∧ terminatorControl block.terminator = some control

theorem emitBlock_items {name : String} {ctx ctx' : CodegenCtx} {program program' : Program}
    {block : Block} {index : Nat}
    (emitted : emitBlock name (ctx, program) (block, index) = .ok (ctx', program')) :
    ∃ code, ScalarCode program.processor.width block code ∧
      code.name = (if index = 0 then some name else none) ∧
      program' = { program with items := program.items ++ code.items } := by
  obtain ⟨⟨ctx₁, program₁⟩, first, second⟩ := bind_eq_ok.mp emitted
  obtain ⟨bundles, body, rfl⟩ := emitSyllables_items first
  obtain ⟨count, last, asm, control, only, isControl, isTerminator, rfl⟩ :=
    emitTerminator_items second
  refine ⟨⟨if index = 0 then some name else none, block.label,
    bundles ++ List.replicate count ⟨[]⟩, last⟩, ⟨rfl, ?_, asm, control, only, isControl,
      isTerminator⟩, rfl, ?_⟩
  · simpa using body.append (ScalarBody.replicate _ count)
  · by_cases first : index = 0 <;>
      simp [appendBundles, BlockCode.items, BlockCode.labels, first]

/-! ### Functions and modules -/

/-- What the scalar emitter writes for a block of a module. -/
def ScalarRealizes (width : Nat) (functions : List Function) (id : BlockId)
    (code : BlockCode) : Prop :=
  code.name = (if id.block = 0 then functions[id.func]?.map (·.name) else none) ∧
    ∃ block, blockAt functions id = some block ∧ ScalarCode width block code

theorem emitBlocks_items {functions : List Function} {function : Function} {func : Nat}
    (isFunction : functions[func]? = some function) {blocks : List Block} {offset : Nat}
    (suffix : ∀ index, blocks[index]? = function.blocks[offset + index]?) {ctx ctx' : CodegenCtx}
    {program program' : Program}
    (emitted : (blocks.zipIdx offset).foldlM (emitBlock function.name) (ctx, program) =
      .ok (ctx', program')) :
    ∃ codes, List.Forall₂ (ScalarRealizes program.processor.width functions)
        ((List.range' offset blocks.length).map (BlockId.mk func)) codes ∧
      program' = { program with items := program.items ++ blockItems codes } := by
  induction blocks generalizing offset ctx program with
  | nil =>
      cases emitted
      exact ⟨[], .nil, by simp [blockItems]⟩
  | cons block blocks ih =>
      rw [List.zipIdx_cons, List.foldlM_cons] at emitted
      obtain ⟨⟨ctx₁, program₁⟩, first, others⟩ := bind_eq_ok.mp emitted
      obtain ⟨code, isCode, named, rfl⟩ := emitBlock_items first
      have tail : ∀ index, blocks[index]? = function.blocks[offset + 1 + index]? := by
        intro index
        rw [Nat.add_assoc, Nat.add_comm 1 index, ← suffix (index + 1), List.getElem?_cons_succ]
      obtain ⟨codes, realized, rfl⟩ := ih tail others
      refine ⟨code :: codes, ?_, by simp [blockItems]⟩
      rw [List.length_cons, List.range'_succ, List.map_cons]
      refine .cons ⟨?_, block, ?_, isCode⟩ realized
      · rw [named, isFunction]
        rfl
      · unfold blockAt
        rw [isFunction, Option.bind_some, ← Nat.add_zero offset, ← suffix 0]
        rfl

theorem emitFunction_items {functions : List Function} {function : Function} {func : Nat}
    (isFunction : functions[func]? = some function) {program program' : Program}
    (emitted : emitFunction program function = .ok program') :
    ∃ codes, List.Forall₂ (ScalarRealizes program.processor.width functions)
        ((List.range function.blocks.length).map (BlockId.mk func)) codes ∧
      program' = { program with items := program.items ++ blockItems codes } := by
  obtain ⟨⟨ctx, other⟩, blocks, same⟩ := bind_eq_ok.mp emitted
  cases same
  rw [List.range_eq_range']
  exact emitBlocks_items isFunction (fun index => by rw [Nat.zero_add]) blocks

theorem emitFunctions_items {functions rest : List Function} {offset : Nat}
    (suffix : ∀ index, rest[index]? = functions[offset + index]?) {program program' : Program}
    (emitted : rest.foldlM emitFunction program = .ok program') :
    ∃ codes, List.Forall₂ (ScalarRealizes program.processor.width functions)
        ((rest.zipIdx offset).flatMap fun (function, func) =>
          (List.range function.blocks.length).map (BlockId.mk func)) codes ∧
      program' = { program with items := program.items ++ blockItems codes } := by
  induction rest generalizing offset program with
  | nil =>
      cases emitted
      exact ⟨[], .nil, by simp [blockItems]⟩
  | cons function rest ih =>
      rw [List.foldlM_cons] at emitted
      obtain ⟨program₁, first, others⟩ := bind_eq_ok.mp emitted
      have isFunction : functions[offset]? = some function := by
        rw [← Nat.add_zero offset, ← suffix 0]
        rfl
      obtain ⟨left, leftRealized, rfl⟩ := emitFunction_items isFunction first
      have tail : ∀ index, rest[index]? = functions[offset + 1 + index]? := by
        intro index
        rw [Nat.add_assoc, Nat.add_comm 1 index, ← suffix (index + 1), List.getElem?_cons_succ]
      obtain ⟨right, rightRealized, rfl⟩ := ih tail others
      refine ⟨left ++ right, ?_, by simp [blockItems]⟩
      rw [List.zipIdx_cons, List.flatMap_cons]
      exact List.rel_append leftRealized rightRealized

/-- The scalar program consists of the scalar code of the blocks in layout
order. -/
theorem scalarProgram_items {functions : List Function} {processor : Processor}
    {program : Program} (emitted : scalarProgram functions processor = .ok program) :
    ∃ codes, List.Forall₂ (ScalarRealizes processor.width functions) (blockIds functions) codes ∧
      program = ⟨processor, blockItems codes⟩ := by
  obtain ⟨codes, realized, rfl⟩ :=
    emitFunctions_items (fun index => by rw [Nat.zero_add]) emitted
  exact ⟨codes, realized, rfl⟩

/-! ### Lock-step with MIR -/

/-- Every syllable of the module has operands that fit its opcode. -/
def WellFormedModule (functions : List Function) : Prop :=
  ∀ function ∈ functions, ∀ block ∈ function.blocks, ∀ syllable ∈ block.syllables,
    syllable.WellFormed

/-- Scalar code implements its block. -/
theorem ScalarCode.implements {width : Nat} {block : Block} {code : BlockCode}
    (isCode : ScalarCode width block code)
    (wellFormed : ∀ syllable ∈ block.syllables, syllable.WellFormed) : Implements block code where
  label := isCode.label
  body := by
    intro isa state
    obtain ⟨actions, denote, executed⟩ := isCode.body.execBundles wellFormed
    refine ⟨Action.execAll isa (actions.map (·.map Reg.preg)) state, ?_, ?_⟩
    · rw [execSyllables, denote]
      rfl
    · rw [executed, Action.execAll_map isa preg_injective preg_zero]
  last := isCode.last

theorem WellFormedModule.block {functions : List Function} (wellFormed : WellFormedModule functions)
    {id : BlockId} {block : Block} (found : blockAt functions id = some block) :
    ∀ syllable ∈ block.syllables, syllable.WellFormed := by
  obtain ⟨function, isFunction, isBlock⟩ := Option.bind_eq_some_iff.mp found
  exact wellFormed function (List.mem_of_getElem? isFunction) block (List.mem_of_getElem? isBlock)

theorem realizes_of_scalar {width : Nat} {functions : List Function} {ids : List BlockId}
    {codes : List BlockCode} (wellFormed : WellFormedModule functions)
    (realized : List.Forall₂ (ScalarRealizes width functions) ids codes) :
    List.Forall₂ (Realizes functions) ids codes := by
  refine realized.imp ?_
  rintro id code ⟨named, block, found, isCode⟩
  exact ⟨named, block, found, isCode.implements (wellFormed.block found)⟩

/-- Scalar emission refines MIR.  From every label of the emitted program, for
every interpretation of the opcodes, every assignment of code addresses and
every state, the program and the module visit the same blocks in the same order
and with the same registers, predicates and memory. -/
theorem emitScalarVliwModule_refines {functions : List Function} {processor : Processor}
    {text : String} (emitted : emitScalarVliwModule functions processor = .ok text)
    (wellFormed : WellFormedModule functions) (distinct : (moduleLabels functions).Nodup)
    (laidOut : LaidOut functions) :
    ∃ program, scalarProgram functions processor = .ok program ∧ text = Asm.emit program ∧
      ∀ (isa : Isa Opcode) (link : Nat → Word) (state : State Reg) (name : String) (id : BlockId),
        namedBlock functions name = some id →
        ∃ position, labelPosition program.items name = some position ∧
          SameVisits (Asm.step program.items isa link) (boundary functions program.items)
            ⟨some position, state.comap Reg.preg⟩
            (Mir.step functions isa (blockAddress functions program.items link))
            (some ∘ mirBoundary) ⟨some id, state⟩ := by
  obtain ⟨program, built, accepted⟩ := bind_eq_ok.mp emitted
  refine ⟨program, built, ?_, ?_⟩
  · split at accepted
    · cases accepted
    · exact (Except.ok.inj accepted).symm
  · obtain ⟨codes, realized, rfl⟩ := scalarProgram_items built
    intro isa link state name id named
    exact sameVisits_of_realizes distinct (realizes_of_scalar wellFormed realized) laidOut isa
      link state named

/-- A comparison, a store and a branch over a call. -/
def branchingModule : List Function :=
  [⟨"main", [
    ⟨"entry",
      [⟨.movImm, some (.preg 2), [.imm 7]⟩,
        ⟨.cmpEq, some (.preg 3), [.reg (.preg 2), .imm 7]⟩,
        ⟨.storeD, none, [.stack 64, .imm 8, .reg (.preg 2)]⟩],
      .branch (.preg 3) "done"⟩,
    ⟨"again", [], .directCall "main" "done"⟩,
    ⟨"done", [], .ret⟩]⟩]

theorem emitScalarVliwModule_refines_branchingModule :
    ∃ program, scalarProgram branchingModule Processor.default = .ok program ∧
      ∀ (isa : Isa Opcode) (link : Nat → Word) (state : State Reg),
        ∃ position, labelPosition program.items "main" = some position ∧
          SameVisits (Asm.step program.items isa link) (boundary branchingModule program.items)
            ⟨some position, state.comap Reg.preg⟩
            (Mir.step branchingModule isa (blockAddress branchingModule program.items link))
            (some ∘ mirBoundary) ⟨some ⟨0, 0⟩, state⟩ := by
  obtain ⟨text, emitted⟩ : ∃ text,
      emitScalarVliwModule branchingModule Processor.default = .ok text :=
    exists_of_isOk (by decide)
  have wellFormed : WellFormedModule branchingModule := by
    unfold WellFormedModule Mir.Syllable.WellFormed
    decide
  have laidOut : LaidOut branchingModule := by
    intro id block found
    have idMem := Mir.mem_blockIds_of_blockAt found
    have ids : blockIds branchingModule = [⟨0, 0⟩, ⟨0, 1⟩, ⟨0, 2⟩] := by decide
    rw [ids] at idMem
    simp only [List.mem_cons, List.not_mem_nil, or_false] at idMem
    rcases idMem with rfl | rfl | rfl
    · cases found
      exact ⟨⟨0, 1⟩, rfl⟩
    · cases found
      exact ⟨⟨0, 2⟩, _, rfl, rfl, rfl⟩
    · cases found
      trivial
  obtain ⟨program, built, -, refines⟩ := emitScalarVliwModule_refines emitted wellFormed
    (by decide) laidOut
  exact ⟨program, built, fun isa link state => refines isa link state "main" ⟨0, 0⟩ (by decide)⟩

end VliwCompiler.Codegen
