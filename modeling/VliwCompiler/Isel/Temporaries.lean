import VliwCompiler.Isel.Phi
import VliwCompiler.Data.Cycles

/-!
# Temporaries of phi copies

Ordering parallel copies takes a fresh register for every cycle of the copies, so
the numbers of registers do not run out exactly when there is one left for each.
-/

namespace VliwCompiler.Isel

open Asm (Opcode Copies)
open Mir (Reg Syllable execSyllables)
open Machine
open Cycles (IsCyclic cycles orbit)

/-- The register that a copy moves to `v`, and `v` itself when there is none. -/
def feed (copies : List PhiCopy) (v : Nat) : Nat :=
  ((copies.find? (·.dst = v)).bind (·.src.reg?)).getD v

/-- The number of cycles through which copies pass values around. -/
noncomputable def cycleCount (copies : List PhiCopy) : Nat := (cycles (feed copies)).ncard

section

variable {copies remaining : List PhiCopy} {fuel nextVreg v : Nat}

/-! ### Where registers are moved -/

theorem feed_of_mem (agree : Agree copies) {copy : PhiCopy} (copyMem : copy ∈ copies) :
    feed copies copy.dst = copy.src.reg?.getD copy.dst := by
  unfold feed
  cases isFound : copies.find? (·.dst = copy.dst) with
  | none =>
      have absent := List.find?_eq_none.mp isFound copy copyMem
      simp at absent
  | some other =>
      have sameDst : other.dst = copy.dst := by simpa using List.find?_some isFound
      rw [Option.bind_some,
        agree other (List.mem_of_find?_eq_some isFound) copy copyMem sameDst]

theorem feed_of_not_dst (other : ∀ copy ∈ copies, copy.dst ≠ v) : feed copies v = v := by
  have isNone : copies.find? (·.dst = v) = none :=
    List.find?_eq_none.mpr fun copy copyMem => by simpa using other copy copyMem
  rw [feed, isNone]
  rfl

theorem feed_of_register (agree : Agree copies) {copy : PhiCopy} (copyMem : copy ∈ copies)
    {src : Nat} (isSource : copy.src = .vreg src) : feed copies copy.dst = src := by
  rw [feed_of_mem agree copyMem, isSource]
  rfl

/-- A register stays where it is or is moved by a copy. -/
theorem feed_cases (copies : List PhiCopy) (v : Nat) :
    feed copies v = v ∨ ∃ copy ∈ copies, copy.dst = v ∧ copy.src = .vreg (feed copies v) := by
  unfold feed
  cases isFound : copies.find? (·.dst = v) with
  | none => exact .inl rfl
  | some copy =>
      have isDst : copy.dst = v := by simpa using List.find?_some isFound
      cases isSource : copy.src with
      | const value => exact .inl (by simp [isSource, CopySrc.reg?])
      | vreg src =>
          exact .inr ⟨copy, List.mem_of_find?_eq_some isFound, isDst,
            by simp [isSource, CopySrc.reg?]⟩

/-- Two sets of copies that move the same register to `v`. -/
theorem feed_congr {others : List PhiCopy} (agree : Agree copies) (agree' : Agree others)
    (same : ∀ copy ∈ copies, copy.dst = v → ∃ other ∈ others, other.dst = v ∧
      other.src.reg? = copy.src.reg?)
    (back : ∀ other ∈ others, other.dst = v → ∃ copy ∈ copies, copy.dst = v) :
    feed others v = feed copies v := by
  by_cases isDst : ∃ copy ∈ copies, copy.dst = v
  · rcases isDst with ⟨copy, copyMem, rfl⟩
    rcases same copy copyMem rfl with ⟨other, otherMem, sameDst, sameReg⟩
    rw [feed_of_mem agree copyMem, ← sameReg, ← sameDst, feed_of_mem agree' otherMem]
  · rw [feed_of_not_dst, feed_of_not_dst]
    · exact fun copy copyMem isV => isDst ⟨copy, copyMem, isV⟩
    · exact fun other otherMem isV => isDst (back other otherMem isV)

/-- Only destinations are moved to. -/
theorem feed_elsewhere (copies : List PhiCopy) (v : Nat)
    (outside : v ∉ (copies.map (·.dst)).toFinset) : feed copies v = v := by
  refine feed_of_not_dst ?_
  rintro copy copyMem rfl
  exact outside (by simpa using ⟨copy, copyMem, rfl⟩)

theorem cycleCount_le (copies : List PhiCopy) : cycleCount copies ≤ copies.length := by
  have few := Cycles.ncard_cycles_le (feed_elsewhere copies)
  have fewer := List.toFinset_card_le (copies.map (·.dst))
  rw [List.length_map] at fewer
  exact few.trans fewer

/-! ### Cycles under the loop -/

/-- Copies of which none is of a register to itself. -/
def Proper (copies : List PhiCopy) : Prop := ∀ copy ∈ copies, copy.src ≠ .vreg copy.dst

/-- Emitting a copy keeps the cycles. -/
theorem cycleCount_eraseIdx (agree : Agree remaining) {pos : Nat}
    {copy : PhiCopy} (here : remaining[pos]? = some copy)
    (unread : reads remaining copy.dst = false) :
    cycleCount (remaining.eraseIdx pos) = cycleCount remaining := by
  have agree' : Agree (remaining.eraseIdx pos) := fun first firstMem second secondMem =>
    agree first (List.mem_of_mem_eraseIdx firstMem) second (List.mem_of_mem_eraseIdx secondMem)
  refine congrArg Set.ncard (Cycles.cycles_eq_of_unfed (d := copy.dst) ?_ ?_)
  · intro v other
    refine feed_congr agree agree' ?_ ?_
    · rintro kept keptMem rfl
      refine ⟨kept, ?_, rfl, rfl⟩
      rcases List.mem_iff_getElem?.mp keptMem with ⟨k, isKept⟩
      refine List.mem_eraseIdx_iff_getElem?.mpr ⟨k, ?_, isKept⟩
      rintro rfl
      exact other (congrArg (·.dst) (Option.some.inj (isKept.symm.trans here)))
    · exact fun kept keptMem isV => ⟨kept, List.mem_of_mem_eraseIdx keptMem, isV⟩
  · intro u leads
    rcases feed_cases remaining u with stays | ⟨reader, readerMem, -, isSource⟩
    · exact stays.symm.trans leads
    · rw [leads] at isSource
      rw [reads_eq_true.mpr ⟨reader, readerMem, isSource⟩] at unread
      cases unread

/-- When no copy can be emitted, what is read is on a cycle. -/
theorem isCyclic_of_stuck (agree : Agree remaining) (proper : Proper remaining)
    (stuck : ¬Ready remaining) {src : Nat} (isRead : reads remaining src = true) :
    IsCyclic (feed remaining) src := by
  rcases reads_eq_true.mp isRead with ⟨reader, readerMem, isSource⟩
  have isFed := feed_of_register agree readerMem isSource
  have covered : (remaining.map (·.dst)).toFinset ⊆
      (remaining.map (·.dst)).toFinset.image (feed remaining) := by
    intro d isDst
    rcases List.mem_map.mp (List.mem_toFinset.mp isDst) with ⟨copy, copyMem, rfl⟩
    rcases reads_eq_true.mp (reads_of_not_ready stuck copy copyMem) with
      ⟨other, otherMem, isOther⟩
    refine Finset.mem_image.mpr ⟨other.dst, ?_, feed_of_register agree otherMem isOther⟩
    exact List.mem_toFinset.mpr (List.mem_map_of_mem otherMem)
  have isPeriodic := Cycles.mem_periodicPts_of_covered covered
    (List.mem_toFinset.mpr (List.mem_map_of_mem readerMem))
  have isCyclic : IsCyclic (feed remaining) reader.dst := by
    refine ⟨isPeriodic, ?_⟩
    rw [isFed]
    rintro rfl
    exact proper reader readerMem isSource
  exact isFed ▸ isCyclic.apply

/-- Saving a register breaks one cycle. -/
theorem cycleCount_redirect (orderly : Orderly remaining nextVreg) (proper : Proper remaining)
    (stuck : ¬Ready remaining) {src : Nat} (isRead : reads remaining src = true) :
    cycleCount (remaining.map (·.redirect src nextVreg)) + 1 = cycleCount remaining := by
  have isCyclic := isCyclic_of_stuck orderly.agree proper stuck isRead
  have agree' := (orderly.redirect src).agree
  have broken : cycles (feed (remaining.map (·.redirect src nextVreg))) =
      cycles (feed remaining) \ {orbit (feed remaining) src} := by
    refine Cycles.cycles_eq_diff (n := nextVreg) isCyclic ?_ ?_ ?_
    · refine feed_of_not_dst ?_
      intro _ copyMem
      rcases List.mem_map.mp copyMem with ⟨copy, isCopy, rfl⟩
      rw [redirect_dst]
      exact Nat.ne_of_lt (orderly.dst copy isCopy)
    · intro v leads
      rcases feed_cases remaining v with stays | ⟨copy, copyMem, rfl, isSource⟩
      · rw [leads] at stays
        subst stays
        exact absurd leads isCyclic.2
      · rw [leads] at isSource
        have isSaved : (copy.redirect src nextVreg).src = .vreg nextVreg := by
          rw [redirect_src, if_pos isSource]
        have isFed := feed_of_register agree' (List.mem_map_of_mem copyMem) isSaved
        rwa [redirect_dst] at isFed
    · intro v elsewhere
      refine feed_congr orderly.agree agree' ?_ ?_
      · rintro copy copyMem rfl
        refine ⟨_, List.mem_map_of_mem copyMem, redirect_dst _ _ _, ?_⟩
        rw [redirect_src, if_neg]
        exact fun isSource => elsewhere (feed_of_register orderly.agree copyMem isSource)
      · intro _ copyMem isV
        rcases List.mem_map.mp copyMem with ⟨copy, isCopy, rfl⟩
        exact ⟨copy, isCopy, (redirect_dst _ _ _).symm.trans isV⟩
  rw [cycleCount, broken, cycleCount]
  exact Set.ncard_sdiff_singleton_add_one (Cycles.orbit_mem_cycles isCyclic)
    (Cycles.finite_cycles (feed_elsewhere remaining))

/-- The loop takes a fresh register for every cycle. -/
theorem next_of_serialize {next : Nat} {code : List Syllable}
    (orderly : Orderly remaining nextVreg) (proper : Proper remaining)
    (ended : serialize none fuel remaining nextVreg = .ok (code, next)) :
    next = nextVreg + cycleCount remaining := by
  induction fuel generalizing remaining nextVreg next code with
  | zero => cases ended
  | succ fuel ih =>
      unfold serialize at ended
      by_cases empty : remaining = []
      · rw [if_pos empty] at ended
        cases ended
        have none := cycleCount_le remaining
        rw [empty, List.length_nil, Nat.le_zero] at none
        rw [empty, none, Nat.add_zero]
      · rw [if_neg empty] at ended
        cases isReady : remaining.findIdx? fun copy => !reads remaining copy.dst with
        | some pos =>
            rw [isReady] at ended
            rcases bind_eq_ok.mp ended with ⟨copy, isCopy, ended⟩
            rcases bind_eq_ok.mp ended with ⟨⟨rest, last⟩, isRest, ended⟩
            cases ended
            rw [expect_eq_ok] at isCopy
            rcases List.findIdx?_eq_some_iff_getElem.mp isReady with ⟨inside, unread, -⟩
            rw [Bool.not_eq_eq_eq_not, Bool.not_true] at unread
            have here := List.getElem?_eq_getElem inside
            have proper' : Proper (remaining.eraseIdx pos) := fun other otherMem =>
              proper other (List.mem_of_mem_eraseIdx otherMem)
            rw [ih (orderly.eraseIdx pos) proper' isRest,
              cycleCount_eraseIdx orderly.agree here unread]
        | none =>
            rw [isReady] at ended
            have stuck := findIdx?_ready.mp isReady
            rcases exists_source_of_not_ready stuck empty with ⟨source, isSource, isRead⟩
            rcases bind_eq_ok.mp ended with ⟨src, isSrc, ended⟩
            rw [expect_eq_ok, isSource] at isSrc
            cases isSrc
            rcases bind_eq_ok.mp ended with ⟨fresh, isFresh, ended⟩
            cases succVreg_eq_ok isFresh
            rcases bind_eq_ok.mp ended with ⟨⟨rest, last⟩, isRest, ended⟩
            cases ended
            have proper' : Proper (remaining.map (·.redirect source nextVreg)) := by
              intro _ copyMem
              rcases List.mem_map.mp copyMem with ⟨copy, isCopy, rfl⟩
              rw [redirect_src, redirect_dst]
              split
              · rintro ⟨⟩
                exact Nat.lt_irrefl _ (orderly.dst copy isCopy)
              · exact proper copy isCopy
            rw [ih (orderly.redirect source) proper' isRest,
              ← cycleCount_redirect orderly proper stuck isRead]
            omega

/-! ### A limit on numbers -/

/-- With a limit the loop does the same, as long as the numbers are below it. -/
theorem serialize_some {limit next : Nat} {code : List Syllable} (inRange : nextVreg < limit)
    (ended : serialize none fuel remaining nextVreg = .ok (code, next)) :
    serialize (some limit) fuel remaining nextVreg =
      if next < limit then .ok (code, next)
      else .error (.panic "attempt to add with overflow") := by
  induction fuel generalizing remaining nextVreg next code with
  | zero => cases ended
  | succ fuel ih =>
      unfold serialize at ended ⊢
      by_cases empty : remaining = []
      · rw [if_pos empty] at ended ⊢
        cases ended
        rw [if_pos inRange]
      · rw [if_neg empty] at ended ⊢
        cases isReady : remaining.findIdx? fun copy => !reads remaining copy.dst with
        | some pos =>
            rw [isReady] at ended
            rcases bind_eq_ok.mp ended with ⟨copy, isCopy, ended⟩
            rcases bind_eq_ok.mp ended with ⟨⟨rest, last⟩, isRest, ended⟩
            cases ended
            dsimp only
            rw [isCopy]
            simp only [bind, Except.bind, ih inRange isRest]
            by_cases within : next < limit
            · rw [if_pos within, if_pos within]
              rfl
            · rw [if_neg within, if_neg within]
        | none =>
            rw [isReady] at ended
            rcases bind_eq_ok.mp ended with ⟨src, isSrc, ended⟩
            rcases bind_eq_ok.mp ended with ⟨fresh, isFresh, ended⟩
            cases succVreg_eq_ok isFresh
            rcases bind_eq_ok.mp ended with ⟨⟨rest, last⟩, isRest, ended⟩
            cases ended
            have grows := le_of_serialize isRest
            dsimp only
            rw [isSrc]
            by_cases inside : nextVreg + 1 < limit
            · have isNext : succVreg (some limit) nextVreg = .ok (nextVreg + 1) := by
                simp [succVreg, inside]
              simp only [bind, Except.bind, isNext, ih inside isRest]
              by_cases within : next < limit
              · rw [if_pos within, if_pos within]
                rfl
              · rw [if_neg within, if_neg within]
            · have isNext : succVreg (some limit) nextVreg =
                  .error (.panic "attempt to add with overflow") := by
                simp [succVreg, inside]
              rw [if_neg (by omega)]
              simp only [bind, Except.bind, isNext]

/-! ### Parallel copies -/

/-- Copies of registers to themselves are on no cycle. -/
theorem cycleCount_filter (orderly : Orderly copies nextVreg) :
    cycleCount (copies.filter fun copy => copy.src ≠ .vreg copy.dst) = cycleCount copies := by
  have agree' := (orderly.filter fun copy => copy.src ≠ .vreg copy.dst).agree
  have same : feed (copies.filter fun copy => copy.src ≠ .vreg copy.dst) = feed copies := by
    funext v
    by_cases isKept : ∃ copy ∈ copies, copy.dst = v ∧ copy.src ≠ .vreg copy.dst
    · rcases isKept with ⟨copy, copyMem, rfl, proper⟩
      have isKept : copy ∈ copies.filter fun copy => copy.src ≠ .vreg copy.dst :=
        List.mem_filter.mpr ⟨copyMem, decide_eq_true proper⟩
      rw [feed_of_mem orderly.agree copyMem, feed_of_mem agree' isKept]
    · push Not at isKept
      rw [feed_of_not_dst]
      · rcases feed_cases copies v with stays | ⟨copy, copyMem, isDst, isSource⟩
        · exact stays.symm
        · rw [isKept copy copyMem isDst, isDst] at isSource
          exact CopySrc.vreg.inj isSource
      · intro copy copyMem isDst
        rcases List.mem_filter.mp copyMem with ⟨inCopies, proper⟩
        exact of_decide_eq_true proper (isKept copy inCopies isDst)
  rw [cycleCount, same, cycleCount]

/-- Parallel copies are put in order: the loop ends, every destination gets the
value its source had at the start, and no other register below the fresh ones
changes. -/
theorem serializeParallelCopies_spec {isa : Isa Opcode} (isCopy : Copies isa)
    (orderly : Orderly copies nextVreg) :
    ∃ syllables, serializeParallelCopies none copies nextVreg =
        .ok (syllables, nextVreg + cycleCount copies) ∧
      ∀ state, ∃ final, execSyllables isa syllables state = some final ∧
        Assigned copies nextVreg state final := by
  have few := passes_le (copies.filter fun copy => copy.src ≠ .vreg copy.dst)
  have filtered := orderly.filter fun copy => copy.src ≠ .vreg copy.dst
  rcases serialize_spec isCopy filtered (Nat.lt_succ_of_le few) with
    ⟨syllables, next, serialized, -, runs⟩
  have proper : Proper (copies.filter fun copy => copy.src ≠ .vreg copy.dst) :=
    fun copy copyMem => of_decide_eq_true (List.mem_filter.mp copyMem).2
  have isNext := next_of_serialize filtered proper serialized
  rw [cycleCount_filter orderly] at isNext
  subst isNext
  refine ⟨syllables, serialized, fun state => ?_⟩
  rcases runs state with ⟨final, executed, assigned⟩
  exact ⟨final, executed, assigned.of_filter orderly⟩

/-- Numbers of 32 bits are enough for parallel copies exactly when one is left for
every cycle. -/
theorem serializeParallelCopies_assigns_iff {isa : Isa Opcode} (isCopy : Copies isa)
    (orderly : Orderly copies nextVreg) (inRange : nextVreg < 2 ^ 32) :
    (∃ syllables next,
      serializeParallelCopies (some (2 ^ 32)) copies nextVreg = .ok (syllables, next) ∧
        nextVreg ≤ next ∧ ∀ state, ∃ final, execSyllables isa syllables state = some final ∧
          Assigned copies nextVreg state final) ↔
      nextVreg + cycleCount copies < 2 ^ 32 := by
  rcases serializeParallelCopies_spec isCopy orderly with ⟨syllables, serialized, runs⟩
  have limited : serializeParallelCopies (some (2 ^ 32)) copies nextVreg = _ :=
    serialize_some inRange serialized
  rw [limited]
  by_cases enough : nextVreg + cycleCount copies < 2 ^ 32
  · rw [if_pos enough]
    exact iff_of_true ⟨_, _, rfl, Nat.le_add_right _ _, runs⟩ enough
  · rw [if_neg enough]
    refine iff_of_false ?_ enough
    rintro ⟨others, next, isOk, -⟩
    cases isOk

/-- A swap, a chain, a constant and a copy of a register to itself. -/
def mixedCopies : List PhiCopy :=
  [⟨0, .vreg 1⟩, ⟨1, .vreg 0⟩, ⟨2, .vreg 1⟩, ⟨3, .const 7⟩, ⟨4, .vreg 4⟩, ⟨5, .vreg 3⟩]

theorem orderly_mixedCopies : Orderly mixedCopies 6 :=
  ⟨by unfold Agree; decide, by decide, by
    intro copy copyMem reg isSource
    revert copy
    simp only [mixedCopies, List.forall_mem_cons]
    refine ⟨?_, ?_, ?_, ?_, ?_, ?_, by simp⟩ <;> rintro ⟨⟩ <;> decide⟩

theorem serializeParallelCopies_assigns_iff_mixedCopies :
    ∃ syllables next,
      serializeParallelCopies (some (2 ^ 32)) mixedCopies 6 = .ok (syllables, next) ∧
        6 ≤ next ∧ ∀ state, ∃ final, execSyllables Asm.moveIsa syllables state = some final ∧
          Assigned mixedCopies 6 state final := by
  refine (serializeParallelCopies_assigns_iff Asm.copies_moveIsa orderly_mixedCopies
    (by decide)).mpr ?_
  have few := cycleCount_le mixedCopies
  have isLength : mixedCopies.length = 6 := rfl
  omega

/-- Exchange two registers. -/
def exchange : List PhiCopy := [⟨0, .vreg 1⟩, ⟨1, .vreg 0⟩]

theorem orderly_exchange (nextVreg : Nat) : Orderly exchange (nextVreg + 2) :=
  ⟨by unfold Agree; decide, by simp [exchange], by simp [exchange]⟩

/-- An exchange needs a register more than there is. -/
theorem exchange_aborts : Orderly exchange 4294967295 ∧
    serializeParallelCopies (some (2 ^ 32)) exchange 4294967295 =
      .error (.panic "attempt to add with overflow") :=
  ⟨orderly_exchange 4294967293, by decide +kernel⟩

end

end VliwCompiler.Isel
