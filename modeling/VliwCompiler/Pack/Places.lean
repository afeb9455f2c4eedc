import VliwCompiler.Pack.Latency
import VliwCompiler.Codegen.Timing

/-!
# Where the packer puts the bundles of a function

Every bundle of a scalar program has a place in the packed one.  A bundle shares
the place of the bundle before it only when no result is pending; otherwise it
comes later, and no later than its sources need.
-/

namespace VliwCompiler.Pack

open Asm (Opcode Operand Bundle Processor)
open Codegen (Placed operandKeys operandDest)
open InOrder (Issue Writes readyAt)
open Mir (Reg)
open Schedule (ReadyState RegKey RegClass)

/-! ### Syllables as issues -/

/-- The registers named as sources by an assembly syllable. -/
def asmKeys (asm : Asm.Syllable) : List RegKey :=
  match Opcode.fromMnemonic asm.opcode with
  | some opcode => operandKeys opcode.writesGpr opcode.writesPred asm.operands
  | none => []

/-- The register named as destination by an assembly syllable. -/
def asmDest (asm : Asm.Syllable) : Option RegKey :=
  (Opcode.fromMnemonic asm.opcode).bind fun opcode => operandDest opcode asm.operands.head?

/-- The latency of an assembly syllable. -/
def asmLatency (asm : Asm.Syllable) : Nat :=
  ((Opcode.fromMnemonic asm.opcode).map (·.latency)).getD 0

/-- A bundle of scalar code as the in-order machine sees it. -/
def bundleIssue (bundle : Bundle) : Issue RegKey :=
  match bundle.syllables with
  | [asm] => ⟨asmKeys asm, asmDest asm, asmLatency asm⟩
  | _ => ⟨[], none, 0⟩

theorem bundleIssue_of_empty {bundle : Bundle} (empty : bundle.syllables = []) :
    bundleIssue bundle = ⟨[], none, 0⟩ := by
  unfold bundleIssue
  rw [empty]

theorem bundleIssue_of_single {bundle : Bundle} {asm : Asm.Syllable}
    (only : bundle.syllables = [asm]) :
    bundleIssue bundle = ⟨asmKeys asm, asmDest asm, asmLatency asm⟩ := by
  unfold bundleIssue
  rw [only]

/-! ### The table of ready cycles -/

/-- The ready cycle a table has for a register. -/
def readyKey (ready : ReadyState) : RegKey → Nat
  | ⟨.gpr, .preg n⟩ => (ready.gpr.lookup n).getD 0
  | ⟨.pred, .preg n⟩ => (ready.pred.lookup n).getD 0
  | ⟨_, .vreg _⟩ => 0

theorem readyKey_eq (ready : ReadyState) (cycle : Nat) (key : RegKey) :
    readyKey ready key = (⟨ready.gpr, ready.pred, cycle⟩ : Codegen.CodegenCtx).ready key := by
  match key with
  | ⟨.gpr, .preg _⟩ => rfl
  | ⟨.pred, .preg _⟩ => rfl
  | ⟨.gpr, .vreg _⟩ => rfl
  | ⟨.pred, .vreg _⟩ => rfl

/-- The table of ready cycles inside a context. -/
def tableOf (ctx : Codegen.CodegenCtx) : ReadyState := ⟨ctx.readyGpr, ctx.readyPred⟩

/-- The packer records a result as scalar emission does. -/
theorem updateReadyAfterSyllable_eq (cycle : Nat) (ready : ReadyState) {asm : Asm.Syllable}
    {opcode : Opcode} (known : Opcode.fromMnemonic asm.opcode = some opcode) :
    updateReadyAfterSyllable cycle ready asm =
      tableOf ((⟨ready.gpr, ready.pred, cycle⟩ : Codegen.CodegenCtx).recordResult opcode
        asm.operands.head?) := by
  unfold updateReadyAfterSyllable Codegen.CodegenCtx.recordResult
  rw [known]
  dsimp only
  cases opcode.writesGpr <;> cases opcode.writesPred <;>
    rcases asm.operands.head? with _ | operand <;> try rfl
  all_goals cases operand <;> try rfl
  all_goals
    dsimp only
    split <;> rfl

theorem readyKey_updateReadyAfterSyllable (cycle : Nat) (ready : ReadyState) (asm : Asm.Syllable)
    (key : RegKey) :
    readyKey (updateReadyAfterSyllable cycle ready asm) key =
      if asmDest asm = some key then cycle + asmLatency asm else readyKey ready key := by
  unfold asmDest asmLatency
  cases known : Opcode.fromMnemonic asm.opcode with
  | none =>
      unfold updateReadyAfterSyllable
      simp [known]
  | some opcode =>
      have recorded := Codegen.ready_recordResult ⟨ready.gpr, ready.pred, cycle⟩ opcode
        asm.operands.head? key
      rw [updateReadyAfterSyllable_eq cycle ready known, readyKey_eq _ cycle, readyKey_eq ready cycle]
      simp only [Option.bind_some, Option.map_some, Option.getD_some]
      rw [← recorded]
      rfl

theorem readyKey_of_unwritten {cycle : Nat} {key : RegKey} {syllables : List Asm.Syllable}
    (unwritten : ∀ asm ∈ syllables, asmDest asm ≠ some key) (ready : ReadyState) :
    readyKey (syllables.foldl (updateReadyAfterSyllable cycle) ready) key =
      readyKey ready key := by
  induction syllables generalizing ready with
  | nil => rfl
  | cons asm syllables ih =>
      obtain ⟨first, others⟩ := List.forall_mem_cons.mp unwritten
      rw [List.foldl_cons, ih others, readyKey_updateReadyAfterSyllable, if_neg first]

theorem asmDest_eq_some {asm : Asm.Syllable} {key : RegKey} (written : asmDest asm = some key) :
    ∃ opcode, Opcode.fromMnemonic asm.opcode = some opcode ∧ opcode.latency = asmLatency asm ∧
      ((∃ n, key = ⟨.gpr, .preg n⟩ ∧ n ≠ zeroReg ∧ gprWriteOf asm = some n) ∨
        ∃ n, key = ⟨.pred, .preg n⟩ ∧ opcode.writesPred = true) := by
  obtain ⟨opcode, known, isDest⟩ := Option.bind_eq_some_iff.mp written
  refine ⟨opcode, known, by simp [asmLatency, known], ?_⟩
  unfold operandDest at isDest
  split at isDest
  · rename_i n isGpr first
    split at isDest
    · rename_i proper
      cases isDest
      obtain ⟨rest, isOperands⟩ := List.head?_eq_some_iff.mp first
      have notNop : opcode ≠ .nop := by
        rintro rfl
        cases isGpr
      exact .inl ⟨n, rfl, proper, by simp [gprWriteOf, known, notNop, Asm.gprWrite, isGpr,
        isOperands]⟩
    · cases isDest
  · rename_i n isPred first
    cases isDest
    exact .inr ⟨n, rfl, isPred⟩
  · cases isDest

theorem latency_of_writesPred {opcode : Opcode} (isPred : opcode.writesPred = true) :
    opcode.latency = 1 := by
  cases opcode <;> first | rfl | cases isPred

theorem asmLatency_of_pred {asm : Asm.Syllable} {n : UInt8}
    (written : asmDest asm = some ⟨.pred, .preg n⟩) : asmLatency asm = 1 := by
  obtain ⟨opcode, -, isLatency, ⟨m, same, -⟩ | ⟨m, -, isPred⟩⟩ := asmDest_eq_some written
  · cases same
  · rw [← isLatency, latency_of_writesPred isPred]

/-- The table after predicates are written. -/
theorem readyKey_of_pred {cycle : Nat} {n : UInt8} {syllables : List Asm.Syllable}
    (written : ∃ asm ∈ syllables, asmDest asm = some ⟨.pred, .preg n⟩) (ready : ReadyState) :
    readyKey (syllables.foldl (updateReadyAfterSyllable cycle) ready) ⟨.pred, .preg n⟩ =
      cycle + 1 := by
  induction syllables generalizing ready with
  | nil =>
      obtain ⟨asm, asmMem, -⟩ := written
      cases asmMem
  | cons asm syllables ih =>
      rw [List.foldl_cons]
      by_cases later : ∃ asm ∈ syllables, asmDest asm = some ⟨.pred, .preg n⟩
      · exact ih later _
      · obtain ⟨writer, writerMem, writes⟩ := written
        push Not at later
        rw [readyKey_of_unwritten later, readyKey_updateReadyAfterSyllable]
        rcases List.mem_cons.mp writerMem with rfl | inTail
        · rw [if_pos writes, asmLatency_of_pred writes]
        · exact absurd writes (later writer inTail)

/-- The table after a bundle that writes a register. -/
theorem Sound.readyKey {processor : Processor} {bundle : Bundle} (sound : Sound processor bundle)
    {asm : Asm.Syllable} {key : RegKey} (asmMem : asm ∈ bundle.syllables)
    (written : asmDest asm = some key) (cycle : Nat) (ready : ReadyState) :
    Pack.readyKey (updateReadyAfterBundle bundle cycle ready) key = cycle + asmLatency asm := by
  obtain ⟨opcode, known, isLatency, ⟨n, rfl, proper, writes⟩ | ⟨n, rfl, isPred⟩⟩ :=
    asmDest_eq_some written
  · rw [← isLatency]
    exact congrArg (·.getD 0) (sound.lookup_ready asmMem known proper writes cycle ready)
  · rw [← isLatency, latency_of_writesPred isPred]
    exact readyKey_of_pred ⟨asm, asmMem, written⟩ ready

theorem operandsReadyAt_iff {ready : ReadyState} {cycle : Nat} {skipGprDest skipPredDest : Bool}
    {operands : List Operand} :
    operandsReadyAt skipGprDest skipPredDest cycle ready operands = true ↔
      ∀ key ∈ operandKeys skipGprDest skipPredDest operands, readyKey ready key ≤ cycle := by
  induction operands generalizing skipGprDest skipPredDest with
  | nil => simp [operandsReadyAt, operandKeys]
  | cons operand operands ih =>
      cases operand with
      | reg n => cases skipGprDest <;> simp [operandsReadyAt, operandKeys, ih, readyKey]
      | pred n => cases skipPredDest <;> simp [operandsReadyAt, operandKeys, ih, readyKey]
      | memAddr base displacement => simp [operandsReadyAt, operandKeys, ih, readyKey]
      | imm value => simp [operandsReadyAt, operandKeys, ih]
      | label label => simp [operandsReadyAt, operandKeys, ih]

/-- A scalar bundle can be issued when the registers it names are ready. -/
theorem bundleSourcesReadyAt_iff {bundle : Bundle} {asm : Asm.Syllable} {opcode : Opcode}
    (only : bundle.syllables = [asm]) (known : Opcode.fromMnemonic asm.opcode = some opcode)
    {cycle : Nat} {ready : ReadyState} :
    bundleSourcesReadyAt bundle cycle ready = true ↔
      ∀ key ∈ asmKeys asm, readyKey ready key ≤ cycle := by
  unfold bundleSourcesReadyAt asmKeys
  rw [only, known]
  simp only [List.all_cons, List.all_nil, Bool.and_true, known]
  exact operandsReadyAt_iff

theorem le_of_settled {ready : ReadyState} {cycle : Nat}
    (settled : hasPendingResultAt ready cycle = false) (key : RegKey) :
    readyKey ready key ≤ cycle := by
  have bound : ∀ value ∈ values ready.gpr ++ values ready.pred, value ≤ cycle := by
    intro value valueMem
    have notLater := List.any_eq_false.mp settled value valueMem
    simpa using notLater
  match key with
  | ⟨.gpr, .preg n⟩ =>
      cases found : ready.gpr.lookup n with
      | none => simp [readyKey, found]
      | some value =>
          simpa [readyKey, found] using
            bound value (List.mem_append_left _ (mem_values_of_lookup found))
  | ⟨.pred, .preg n⟩ =>
      cases found : ready.pred.lookup n with
      | none => simp [readyKey, found]
      | some value =>
          simpa [readyKey, found] using
            bound value (List.mem_append_right _ (mem_values_of_lookup found))
  | ⟨.gpr, .vreg _⟩ => exact Nat.zero_le cycle
  | ⟨.pred, .vreg _⟩ => exact Nat.zero_le cycle

/-! ### Issued syllables -/

/-- The syllable is issued by the bundle at the given position. -/
def Issued (bundles : List Bundle) (position : Nat) (asm : Asm.Syllable) : Prop :=
  ∃ bundle, bundles[position]? = some bundle ∧ asm ∈ bundle.syllables

theorem issued_append {first second : List Bundle} {position : Nat} {asm : Asm.Syllable} :
    Issued (first ++ second) position asm ↔ Issued first position asm ∨
      first.length ≤ position ∧ Issued second (position - first.length) asm := by
  unfold Issued
  by_cases inside : position < first.length
  · rw [List.getElem?_append_left inside]
    have notLater : ¬first.length ≤ position := Nat.not_le_of_lt inside
    simp [notLater]
  · rw [List.getElem?_append_right (Nat.le_of_not_lt inside)]
    simp [Nat.le_of_not_lt inside]

theorem issued_singleton {bundle : Bundle} {position : Nat} {asm : Asm.Syllable} :
    Issued [bundle] position asm ↔ position = 0 ∧ asm ∈ bundle.syllables := by
  unfold Issued
  cases position with
  | zero => simp
  | succ position => simp

theorem not_issued_replicate {count position : Nat} {asm : Asm.Syllable} :
    ¬Issued (List.replicate count ⟨[]⟩) position asm := by
  rintro ⟨bundle, found, asmMem⟩
  rw [List.eq_of_mem_replicate (List.mem_of_getElem? found)] at asmMem
  cases asmMem

/-! ### Places -/

/-- The first place after the last one used. -/
def frontier (start : Nat) (places : List Nat) : Nat := (places.getLast?.map (· + 1)).getD start

@[simp]
theorem frontier_append (start : Nat) (places : List Nat) (place : Nat) :
    frontier start (places ++ [place]) = place + 1 := by
  simp [frontier]

/-- The place of a bundle: that of the bundle before it when no result is pending,
or one of its own. -/
inductive Move (start : Nat) (issues : List (Issue RegKey)) (places : List Nat) (index : Nat)
    (bundle : Bundle) (place : Nat) : Prop where
  | shared (isLast : place + 1 = frontier start (places.take index)) (inside : start ≤ place)
      (straight : bundleIsTerminator bundle = false) (full : bundle.syllables ≠ [])
      (settled : ∀ key, readyAt issues places index key ≤ place + 1)
  | own (after : frontier start (places.take index) ≤ place)
      (tight : ∀ earlier, frontier start (places.take index) ≤ earlier → earlier < place →
        bundleIsTerminator bundle = false ∧ ∃ key ∈ (bundleIssue bundle).sources,
          earlier < max (readyAt issues places index key) (start + 1))

/-- The bundles `done` of a function, packed behind `base`, have the given places
among the packed bundles `out`. -/
structure Traced (processor : Processor) (base done out : List Bundle) (places : List Nat) :
    Prop where
  sound : ∀ bundle ∈ base ++ out, Sound processor bundle
  length : places.length = done.length
  frontier : frontier base.length places = (base ++ out).length
  content : ∀ position asm, Issued out position asm ↔
    ∃ index, places[index]? = some (base.length + position) ∧ Issued done index asm
  lower : ∀ key, readyAt (done.map bundleIssue) places done.length key ≤
    readyKey (readyAfter (base ++ out)) key
  upper : ∀ key, readyKey (readyAfter (base ++ out)) key ≤
    max (readyAt (done.map bundleIssue) places done.length key) (base.length + 1)
  moves : ∀ index bundle place, done[index]? = some bundle → places[index]? = some place →
    Move base.length (done.map bundleIssue) places index bundle place

theorem Move.append {start : Nat} {issues : List (Issue RegKey)} {places : List Nat} {index : Nat}
    {bundle : Bundle} {place : Nat} (move : Move start issues places index bundle place)
    (inside : index ≤ issues.length) (sameLength : places.length = issues.length)
    (more : List (Issue RegKey)) (later : List Nat) :
    Move start (issues ++ more) (places ++ later) index bundle place := by
  have front : (places ++ later).take index = places.take index :=
    List.take_append_of_le_length (by omega)
  have same := InOrder.readyAt_append inside sameLength more later
  cases move with
  | shared isLast inside straight full settled =>
      exact .shared (by rwa [front]) inside straight full fun key => by
        rw [same]
        exact settled key
  | own after tight =>
      refine .own (by rwa [front]) fun earlier late less => ?_
      rw [front] at late
      obtain ⟨straight, key, keyMem, waits⟩ := tight earlier late less
      exact ⟨straight, key, keyMem, by rwa [same]⟩

theorem Traced.append {processor : Processor} {base done out out' : List Bundle}
    {places : List Nat} {bundle : Bundle} {place : Nat}
    (traced : Traced processor base done out places)
    (sound : ∀ bundle ∈ base ++ out', Sound processor bundle)
    (isLast : place + 1 = (base ++ out').length)
    (content : ∀ position asm, Issued out' position asm ↔ Issued out position asm ∨
      base.length + position = place ∧ asm ∈ bundle.syllables)
    (table : ∀ key, readyKey (readyAfter (base ++ out')) key =
      if (bundleIssue bundle).dest = some key then place + (bundleIssue bundle).latency
      else readyKey (readyAfter (base ++ out)) key)
    (move : Move base.length (done.map bundleIssue) places done.length bundle place) :
    Traced processor base (done ++ [bundle]) out' (places ++ [place]) := by
  have sameLength : places.length = (done.map bundleIssue).length := by
    rw [traced.length, List.length_map]
  have later : ∀ key, readyAt ((done ++ [bundle]).map bundleIssue) (places ++ [place])
      (done ++ [bundle]).length key =
        if (bundleIssue bundle).dest = some key then place + (bundleIssue bundle).latency
        else readyAt (done.map bundleIssue) places done.length key := by
    intro key
    have step := InOrder.readyAt_succ sameLength (bundleIssue bundle) place key
    rw [List.length_map] at step
    rw [List.map_append, List.length_append]
    exact step
  refine ⟨sound, by simp [traced.length], by rw [frontier_append, isLast], ?_, ?_, ?_, ?_⟩
  · intro position asm
    rw [content, traced.content]
    constructor
    · rintro (⟨index, isPlace, issued⟩ | ⟨isPlace, asmMem⟩)
      · have bound := (List.getElem?_eq_some_iff.mp isPlace).1
        exact ⟨index, by rw [List.getElem?_append_left bound, isPlace],
          issued_append.mpr (.inl issued)⟩
      · refine ⟨places.length, by rw [List.getElem?_concat_length, isPlace],
          issued_append.mpr (.inr ⟨by rw [traced.length], issued_singleton.mpr ⟨?_, asmMem⟩⟩)⟩
        rw [traced.length, Nat.sub_self]
    · rintro ⟨index, isPlace, issued⟩
      rcases issued_append.mp issued with before | ⟨atEnd, isNew⟩
      · have ⟨source, found, _⟩ := before
        have bound := (List.getElem?_eq_some_iff.mp found).1
        rw [List.getElem?_append_left (by rw [traced.length]; exact bound)] at isPlace
        exact .inl ⟨index, isPlace, before⟩
      · obtain ⟨atZero, asmMem⟩ := issued_singleton.mp isNew
        have isIndex : index = places.length := by
          rw [traced.length]
          omega
        rw [isIndex, List.getElem?_concat_length, Option.some.injEq] at isPlace
        exact .inr ⟨isPlace.symm, asmMem⟩
  · intro key
    rw [later, table]
    split
    · exact Nat.le_refl _
    · exact traced.lower key
  · intro key
    rw [later, table]
    split
    · exact Nat.le_max_left _ _
    · exact traced.upper key
  · intro index other otherPlace found isPlace
    rw [List.map_append]
    by_cases inside : index < done.length
    · rw [List.getElem?_append_left inside] at found
      rw [List.getElem?_append_left (by rw [traced.length]; exact inside)] at isPlace
      exact (traced.moves index other otherPlace found isPlace).append
        (by rw [List.length_map]; omega) sameLength _ _
    · have isIndex : index = done.length := by
        have bound := (List.getElem?_eq_some_iff.mp found).1
        rw [List.length_append, List.length_singleton] at bound
        omega
      rw [isIndex, List.getElem?_concat_length] at found
      rw [isIndex, ← traced.length, List.getElem?_concat_length] at isPlace
      cases found
      cases isPlace
      rw [isIndex]
      exact move.append (by rw [List.length_map]) sameLength _ _

/-! ### Steps of the packer -/

theorem readyKey_updateReadyAfterBundle {processor : Processor} {bundle : Bundle}
    (placed : Placed processor bundle) (cycle : Nat) (ready : ReadyState) (key : RegKey) :
    readyKey (updateReadyAfterBundle bundle cycle ready) key =
      if (bundleIssue bundle).dest = some key then cycle + (bundleIssue bundle).latency
      else readyKey ready key := by
  unfold updateReadyAfterBundle
  rcases placed_syllables placed with empty | ⟨asm, opcode, only, -⟩
  · rw [bundleIssue_of_empty empty, empty]
    rfl
  · rw [bundleIssue_of_single only, only]
    exact readyKey_updateReadyAfterSyllable cycle ready asm key

/-- A bundle with a place of its own. -/
theorem Traced.issue {processor : Processor} {base done out : List Bundle} {places : List Nat}
    {bundle : Bundle} {count : Nat} (traced : Traced processor base done out places)
    (placed : Placed processor bundle)
    (tight : ∀ earlier < count, bundleIsTerminator bundle = false ∧
      ∃ key ∈ (bundleIssue bundle).sources,
        (base ++ out).length + earlier < readyKey (readyAfter (base ++ out)) key) :
    Traced processor base (done ++ [bundle]) (out ++ List.replicate count ⟨[]⟩ ++ [bundle])
      (places ++ [(base ++ out).length + count]) := by
  have whole : base ++ (out ++ List.replicate count ⟨[]⟩ ++ [bundle]) =
      base ++ out ++ List.replicate count ⟨[]⟩ ++ [bundle] := by
    simp only [List.append_assoc]
  refine traced.append ?_ ?_ ?_ ?_ ?_
  · rw [whole]
    refine List.forall_mem_append.mpr ⟨List.forall_mem_append.mpr ⟨traced.sound, ?_⟩,
      List.forall_mem_singleton.mpr (sound_of_placed placed)⟩
    intro other otherMem
    rw [(List.mem_replicate.mp otherMem).2]
    exact sound_of_placed .wait
  · rw [whole]
    simp
    omega
  · intro position asm
    rw [issued_append, issued_append, issued_singleton]
    simp only [List.length_append, List.length_replicate, not_issued_replicate, and_false,
      or_false]
    exact or_congr_right ⟨fun ⟨late, atZero, asmMem⟩ => ⟨by omega, asmMem⟩,
      fun ⟨isPlace, asmMem⟩ => ⟨by omega, by omega, asmMem⟩⟩
  · intro key
    rw [whole, readyAfter_singleton, readyAfter_replicate,
      readyKey_updateReadyAfterBundle placed, List.length_append, List.length_replicate]
  · have isFrontier : Pack.frontier base.length (places.take done.length) =
        (base ++ out).length := by
      rw [← traced.length, List.take_length, traced.frontier]
    refine .own (by rw [isFrontier]; exact Nat.le_add_right _ _) ?_
    intro earlier late less
    rw [isFrontier] at late
    obtain ⟨straight, key, keyMem, waits⟩ := tight (earlier - (base ++ out).length) (by omega)
    exact ⟨straight, key, keyMem, Nat.lt_of_lt_of_le (by omega) (traced.upper key)⟩

theorem Traced.next {processor : Processor} {base done out : List Bundle} {places : List Nat}
    {bundle : Bundle} (traced : Traced processor base done out places)
    (placed : Placed processor bundle) :
    Traced processor base (done ++ [bundle]) (out ++ [bundle])
      (places ++ [(base ++ out).length]) := by
  have after := traced.issue placed fun earlier (less : earlier < 0) =>
    absurd less (Nat.not_lt_zero earlier)
  rwa [List.replicate_zero, List.append_nil, Nat.add_zero] at after

/-- The last of the bundles transfers control. -/
def Closed (bundles : List Bundle) : Prop :=
  ∀ bundle, bundles.getLast? = some bundle → bundleIsTerminator bundle = true

/-- Nothing is merged into bundles that end with a control transfer. -/
theorem Closed.merge {base out front : List Bundle} {last : Bundle} (closed : Closed base)
    (isOut : base ++ out = front ++ [last]) (straight : bundleIsTerminator last = false) :
    ∃ middle, out = middle ++ [last] ∧ front = base ++ middle := by
  rcases List.eq_nil_or_concat out with rfl | ⟨middle, other, rfl⟩
  · rw [List.append_nil] at isOut
    have transfers := closed last (by rw [isOut, List.getLast?_concat])
    rw [straight] at transfers
    cases transfers
  · rw [List.concat_eq_append, ← List.append_assoc] at isOut
    obtain ⟨isFront, isLast⟩ := List.append_inj' isOut rfl
    exact ⟨middle, by rw [List.concat_eq_append, List.singleton_inj.mp isLast], isFront.symm⟩

/-- A bundle that shares the place of the one before it. -/
theorem Traced.merge {processor : Processor} {base done middle : List Bundle} {places : List Nat}
    {bundle last candidate : Bundle}
    (traced : Traced processor base done (middle ++ [last]) places)
    (placed : Placed processor bundle) (straight : bundleIsTerminator bundle = false)
    (full : bundle.syllables ≠ [])
    (settled : hasPendingResultAt (readyAfter (base ++ (middle ++ [last])))
      (base ++ (middle ++ [last])).length = false)
    (merged : mergeBundles processor last bundle = some candidate)
    (sound : ∀ bundle ∈ base ++ (middle ++ [candidate]), Sound processor bundle) :
    Traced processor base (done ++ [bundle]) (middle ++ [candidate])
      (places ++ [(base ++ middle).length]) := by
  have lastSound := traced.sound last (by simp)
  have candidateSound := sound candidate (by simp)
  have members : ∀ asm, asm ∈ candidate.syllables ↔ asm ∈ last.syllables ∨
      asm ∈ bundle.syllables := fun asm => mem_of_merged lastSound.fits placed full merged
  refine traced.append sound ?_ ?_ ?_ ?_
  · simp
    omega
  · intro position asm
    rw [issued_append, issued_append, issued_singleton, issued_singleton, members,
      List.length_append]
    constructor
    · rintro (before | ⟨late, atZero, inLast | inBundle⟩)
      · exact .inl (.inl before)
      · exact .inl (.inr ⟨late, atZero, inLast⟩)
      · exact .inr ⟨by omega, inBundle⟩
    · rintro ((before | ⟨late, atZero, inLast⟩) | ⟨isPlace, inBundle⟩)
      · exact .inl before
      · exact .inr ⟨late, atZero, .inl inLast⟩
      · exact .inr ⟨by omega, by omega, .inr inBundle⟩
  · intro key
    obtain ⟨asm, only⟩ := exists_single_of_placed placed full
    rw [bundleIssue_of_single only, ← List.append_assoc, ← List.append_assoc,
      readyAfter_singleton, readyAfter_singleton]
    dsimp only
    have asmMem : asm ∈ candidate.syllables := (members asm).mpr (.inr (by simp [only]))
    split
    · rename_i writes
      exact candidateSound.readyKey asmMem writes _ _
    · rename_i notWritten
      by_cases inLast : ∃ other ∈ last.syllables, asmDest other = some key
      · obtain ⟨other, otherMem, writes⟩ := inLast
        rw [candidateSound.readyKey ((members other).mpr (.inl otherMem)) writes,
          lastSound.readyKey otherMem writes]
      · push Not at inLast
        unfold updateReadyAfterBundle
        rw [readyKey_of_unwritten inLast, readyKey_of_unwritten]
        intro other otherMem
        rcases (members other).mp otherMem with before | isNew
        · exact inLast other before
        · rw [only, List.mem_singleton] at isNew
          rwa [isNew]
  · refine .shared ?_ ?_ straight full fun key => ?_
    · rw [← traced.length, List.take_length, traced.frontier]
      simp
      omega
    · simp
    · have ready := (traced.lower key).trans (le_of_settled settled key)
      simp only [List.length_append, List.length_singleton] at ready ⊢
      omega

/-- One step of the packer. -/
theorem Traced.step {processor : Processor} {base done out out' : List Bundle} {places : List Nat}
    {bundle : Bundle} (traced : Traced processor base done out places) (closed : Closed base)
    (placed : Placed processor bundle) (straight : bundleIsTerminator bundle = false)
    (step : PackStep processor (base ++ out) bundle (base ++ out')) :
    ∃ place, Traced processor base (done ++ [bundle]) out' (places ++ [place]) := by
  have sound := step.sound placed straight traced.sound
  generalize isFinal : base ++ out' = final at step
  cases step with
  | keep empty =>
      rw [List.append_assoc] at isFinal
      rw [List.append_cancel_left isFinal]
      exact ⟨_, traced.next placed⟩
  | @merge front last candidate full isOut lastFull lastStraight settled sourcesReady merged
      accepted =>
      obtain ⟨middle, rfl, rfl⟩ := closed.merge isOut lastStraight
      rw [List.append_assoc] at isFinal
      obtain rfl := List.append_cancel_left isFinal
      exact ⟨_, traced.merge placed straight full settled merged sound⟩
  | issue count full sourcesReady tight =>
      rw [List.append_assoc, List.append_assoc] at isFinal
      obtain rfl := List.append_cancel_left isFinal
      rw [← List.append_assoc]
      refine ⟨_, traced.issue placed ?_⟩
      intro earlier less
      refine ⟨straight, ?_⟩
      rcases placed_syllables placed with empty | ⟨asm, opcode, only, known⟩
      · exact absurd empty full
      · have notReady := tight earlier less
        rw [← Bool.not_eq_true, bundleSourcesReadyAt_iff only known] at notReady
        push Not at notReady
        rw [bundleIssue_of_single only]
        exact notReady

/-- The results of bundles that are followed by others are ready soon. -/
def Quiet (base : List Bundle) : Prop :=
  ∀ key, readyKey (readyAfter base) key ≤ base.length + 1

theorem exists_traced {processor : Processor} {base done out : List Bundle} (closed : Closed base)
    (sound : ∀ bundle ∈ base, Sound processor bundle) (quiet : Quiet base)
    (placed : ∀ bundle ∈ done, Placed processor bundle) (packs : Packs processor base done out) :
    ∃ places, Traced processor base done out places := by
  induction packs with
  | nil =>
      refine ⟨[], ⟨by simpa using sound, rfl, by simp [frontier], ?_, ?_, ?_, ?_⟩⟩
      · intro position asm
        exact ⟨fun ⟨_, found, _⟩ => (nomatch found), fun ⟨_, found, _⟩ => (nomatch found)⟩
      · exact fun key => Nat.zero_le _
      · intro key
        rw [List.append_nil]
        exact (quiet key).trans (Nat.le_max_right _ _)
      · exact fun index bundle place found => nomatch found
  | step _ straight step ih =>
      obtain ⟨placedBefore, placedLast⟩ := List.forall_mem_append.mp placed
      obtain ⟨places, traced⟩ := ih placedBefore
      obtain ⟨place, after⟩ := traced.step closed (placedLast _ List.mem_cons_self) straight step
      exact ⟨_, after⟩
  | transfer _ transfers ih =>
      obtain ⟨placedBefore, placedLast⟩ := List.forall_mem_append.mp placed
      obtain ⟨places, traced⟩ := ih placedBefore
      exact ⟨_, traced.next (placedLast _ List.mem_cons_self)⟩

/-! ### Distances -/

theorem frontier_take (start : Nat) {places : List Nat} {index place : Nat}
    (isPlace : places[index]? = some place) :
    frontier start (places.take (index + 1)) = place + 1 := by
  rw [List.take_add_one, isPlace]
  exact frontier_append start _ place

namespace Traced

variable {processor : Processor} {base done out : List Bundle} {places : List Nat}
  {index place next : Nat} {bundle : Bundle}

theorem exists_bundle (traced : Traced processor base done out places)
    (isPlace : places[index]? = some place) : ∃ bundle, done[index]? = some bundle := by
  have bound := (List.getElem?_eq_some_iff.mp isPlace).1
  rw [traced.length] at bound
  exact ⟨_, List.getElem?_eq_getElem bound⟩

theorem exists_place (traced : Traced processor base done out places)
    (found : done[index]? = some bundle) : ∃ place, places[index]? = some place := by
  have bound := (List.getElem?_eq_some_iff.mp found).1
  rw [← traced.length] at bound
  exact ⟨_, List.getElem?_eq_getElem bound⟩

theorem inside (traced : Traced processor base done out places)
    (isPlace : places[index]? = some place) : base.length ≤ place := by
  induction index generalizing place with
  | zero =>
      obtain ⟨bundle, found⟩ := traced.exists_bundle isPlace
      cases traced.moves 0 bundle place found isPlace with
      | shared isLast inside straight full settled => exact inside
      | own after tight => exact after
  | succ index ih =>
      obtain ⟨bundle, found⟩ := traced.exists_bundle isPlace
      have bound := (List.getElem?_eq_some_iff.mp isPlace).1
      have isBefore : places[index]? = some places[index] := List.getElem?_eq_getElem (by omega)
      cases traced.moves (index + 1) bundle place found isPlace with
      | shared isLast inside straight full settled => exact inside
      | own after tight =>
          rw [frontier_take base.length isBefore] at after
          exact (ih isBefore).trans (by omega)

/-- The places of two bundles in a row. -/
theorem move_succ (traced : Traced processor base done out places)
    (isPlace : places[index]? = some place) (isNext : places[index + 1]? = some next)
    (found : done[index + 1]? = some bundle) :
    next = place ∧ bundleIsTerminator bundle = false ∧ bundle.syllables ≠ [] ∧
        (∀ key, readyAt (done.map bundleIssue) places (index + 1) key ≤ place + 1) ∨
      place + 1 ≤ next ∧ ∀ earlier, place + 1 ≤ earlier → earlier < next →
        bundleIsTerminator bundle = false ∧ ∃ key ∈ (bundleIssue bundle).sources,
          earlier < readyAt (done.map bundleIssue) places (index + 1) key := by
  have inside := traced.inside isPlace
  cases traced.moves (index + 1) bundle next found isNext with
  | shared isLast _ straight full settled =>
      rw [frontier_take base.length isPlace] at isLast
      obtain rfl : next = place := by omega
      exact .inl ⟨rfl, straight, full, settled⟩
  | own after tight =>
      rw [frontier_take base.length isPlace] at after tight
      refine .inr ⟨after, fun earlier late less => ?_⟩
      obtain ⟨straight, key, keyMem, waits⟩ := tight earlier late less
      exact ⟨straight, key, keyMem, by omega⟩

theorem le_succ (traced : Traced processor base done out places)
    (isPlace : places[index]? = some place) (isNext : places[index + 1]? = some next) :
    place ≤ next := by
  obtain ⟨bundle, found⟩ := traced.exists_bundle isNext
  rcases traced.move_succ isPlace isNext found with ⟨same, -⟩ | ⟨later, -⟩ <;> omega

theorem mono (traced : Traced processor base done out places) {later : Nat}
    (notBefore : index ≤ later) (isPlace : places[index]? = some place)
    (isNext : places[later]? = some next) : place ≤ next := by
  induction later, notBefore using Nat.le_induction generalizing next with
  | base => exact Nat.le_of_eq (Option.some.inj (isPlace.symm.trans isNext))
  | succ later more ih =>
      have bound := (List.getElem?_eq_some_iff.mp isNext).1
      have isBefore : places[later]? = some places[later] := List.getElem?_eq_getElem (by omega)
      exact (ih isBefore).trans (traced.le_succ isBefore isNext)

/-- A control transfer comes right after the bundle before it. -/
theorem transfer_succ (traced : Traced processor base done out places)
    (isPlace : places[index]? = some place) (isNext : places[index + 1]? = some next)
    (found : done[index + 1]? = some bundle) (transfers : bundleIsTerminator bundle = true) :
    next = place + 1 := by
  rcases traced.move_succ isPlace isNext found with ⟨-, straight, -⟩ | ⟨after, tight⟩
  · rw [transfers] at straight
    cases straight
  · by_cases same : next = place + 1
    · exact same
    · obtain ⟨straight, -⟩ := tight (place + 1) (Nat.le_refl _) (by omega)
      rw [transfers] at straight
      cases straight

/-- A bundle whose sources are ready comes no later than right after the bundle
before it. -/
theorem le_of_ready (traced : Traced processor base done out places)
    (isPlace : places[index]? = some place) (isNext : places[index + 1]? = some next)
    (found : done[index + 1]? = some bundle)
    (ready : ∀ key ∈ (bundleIssue bundle).sources,
      readyAt (done.map bundleIssue) places (index + 1) key ≤ place + 1) :
    next ≤ place + 1 := by
  rcases traced.move_succ isPlace isNext found with ⟨same, -⟩ | ⟨after, tight⟩
  · omega
  · by_contra late
    obtain ⟨-, key, keyMem, waits⟩ := tight (place + 1) (Nat.le_refl _) (by omega)
    have bound := ready key keyMem
    omega

/-- The bundles behind a pending result have places of their own. -/
theorem spaced (traced : Traced processor base done out places) {later : Nat} {key : RegKey}
    (notBefore : index ≤ later) (isPlace : places[index]? = some place)
    (isNext : places[later]? = some next) (found : done[index]? = some bundle)
    (writes : (bundleIssue bundle).dest = some key)
    (last : ∀ between, index < between → between < later →
      ¬Writes (done.map bundleIssue) between key) :
    place + min (later - index) ((bundleIssue bundle).latency - 1) ≤ next := by
  induction later, notBefore using Nat.le_induction generalizing next with
  | base =>
      rw [Nat.sub_self, Nat.zero_min, Nat.add_zero]
      exact Nat.le_of_eq (Option.some.inj (isPlace.symm.trans isNext))
  | succ later more ih =>
      have bound := (List.getElem?_eq_some_iff.mp isNext).1
      have isBefore : places[later]? = some places[later] := List.getElem?_eq_getElem (by omega)
      have before := ih isBefore fun between after less => last between after (by omega)
      have isReady : readyAt (done.map bundleIssue) places (later + 1) key =
          place + (bundleIssue bundle).latency :=
        InOrder.readyAt_of_lastWriter (Nat.lt_succ_of_le more)
          (by rw [List.getElem?_map, found]; rfl) isPlace writes last
      obtain ⟨other, isOther⟩ := traced.exists_bundle isNext
      rcases traced.move_succ isBefore isNext isOther with ⟨same, -, -, settled⟩ | ⟨after, -⟩
      · have settledKey := settled key
        rw [isReady] at settledKey
        omega
      · omega

end Traced

/-! ### Functions one after another -/

theorem packs_concat {processor : Processor} {base done out : List Bundle} {bundle : Bundle}
    (packs : Packs processor base (done ++ [bundle]) out) :
    ∃ before, Packs processor base done before ∧
      ((bundleIsTerminator bundle = false ∧
          PackStep processor (base ++ before) bundle (base ++ out)) ∨
        bundleIsTerminator bundle = true ∧ out = before ++ [bundle]) := by
  generalize whole : done ++ [bundle] = bundles at packs
  cases packs with
  | nil => simp at whole
  | step before straight step =>
      obtain ⟨rfl, same⟩ := List.append_inj' whole rfl
      cases same
      exact ⟨_, before, .inl ⟨straight, step⟩⟩
  | transfer before transfers =>
      obtain ⟨rfl, same⟩ := List.append_inj' whole rfl
      cases same
      exact ⟨_, before, .inr ⟨transfers, rfl⟩⟩

theorem packs_nil {processor : Processor} {base out : List Bundle}
    (packs : Packs processor base [] out) : out = [] := by
  generalize whole : ([] : List Bundle) = bundles at packs
  cases packs with
  | nil => rfl
  | step before straight step => simp at whole
  | transfer before transfers => simp at whole

/-- What is packed after a control transfer leaves the bundles before it alone. -/
theorem Closed.step {processor : Processor} {base out final : List Bundle} {bundle : Bundle}
    (closed : Closed base) (step : PackStep processor (base ++ out) bundle final) :
    ∃ out', final = base ++ out' := by
  cases step with
  | keep empty => exact ⟨out ++ [bundle], List.append_assoc ..⟩
  | @merge front last candidate full isOut lastFull lastStraight settled sourcesReady merged
      accepted =>
      obtain ⟨middle, rfl, rfl⟩ := closed.merge isOut lastStraight
      exact ⟨middle ++ [candidate], List.append_assoc ..⟩
  | issue count full sourcesReady tight =>
      exact ⟨out ++ List.replicate count ⟨[]⟩ ++ [bundle], by simp⟩

theorem Closed.packs {processor : Processor} {base done out : List Bundle} (closed : Closed base)
    (closedDone : Closed done) (packs : Packs processor base done out) : Closed (base ++ out) := by
  rcases List.eq_nil_or_concat done with rfl | ⟨front, last, rfl⟩
  · rw [packs_nil packs, List.append_nil]
    exact closed
  · rw [List.concat_eq_append] at packs closedDone
    obtain ⟨before, -, ⟨straight, -⟩ | ⟨transfers, rfl⟩⟩ := packs_concat packs
    · rw [closedDone last List.getLast?_concat] at straight
      cases straight
    · intro bundle isLast
      rw [← List.append_assoc, List.getLast?_concat] at isLast
      cases isLast
      exact transfers

/-- Functions are packed one behind the other. -/
theorem Packs.split {processor : Processor} {base first second out : List Bundle}
    (closed : Closed base) (closedFirst : Closed first)
    (packs : Packs processor base (first ++ second) out) :
    ∃ left right, out = left ++ right ∧ Packs processor base first left ∧
      Packs processor (base ++ left) second right := by
  induction second using List.reverseRecOn generalizing out with
  | nil =>
      rw [List.append_nil] at packs
      exact ⟨out, [], (List.append_nil _).symm, packs, .nil⟩
  | append_singleton second bundle ih =>
      rw [← List.append_assoc] at packs
      obtain ⟨before, packsBefore, last⟩ := packs_concat packs
      obtain ⟨left, right, rfl, packsFirst, packsSecond⟩ := ih packsBefore
      rcases last with ⟨straight, step⟩ | ⟨transfers, rfl⟩
      · rw [← List.append_assoc] at step
        obtain ⟨right', isFinal⟩ := (closed.packs closedFirst packsFirst).step step
        rw [isFinal] at step
        rw [List.append_assoc] at isFinal
        obtain rfl := List.append_cancel_left isFinal
        exact ⟨left, right', rfl, packsFirst, packsSecond.step straight step⟩
      · exact ⟨left, right ++ [bundle], List.append_assoc .., packsFirst,
          packsSecond.transfer transfers⟩

end VliwCompiler.Pack
