import VliwCompiler.Isel.Phi

/-!
# Copies in general

Blocks with the same label collect copies that do not agree.  The loop that
orders them ends, or it goes on forever because it saves a register that no copy
writes.  Which of the two happens does not depend on the numbers of registers.
-/

namespace VliwCompiler.Isel

/-- The register is a destination or a source of a copy. -/
def Mentions (copies : List PhiCopy) (v : Nat) : Prop :=
  ∃ copy ∈ copies, copy.dst = v ∨ copy.src = .vreg v

section

variable {remaining : List PhiCopy} {fuel nextVreg src : Nat}

theorem mentions_dst {copy : PhiCopy} (copyMem : copy ∈ remaining) :
    Mentions remaining copy.dst := ⟨copy, copyMem, .inl rfl⟩

theorem mentions_of_reads (isRead : reads remaining src = true) : Mentions remaining src := by
  rcases reads_eq_true.mp isRead with ⟨copy, copyMem, isSource⟩
  exact ⟨copy, copyMem, .inr isSource⟩

theorem Mentions.of_eraseIdx {v pos : Nat} (mentions : Mentions (remaining.eraseIdx pos) v) :
    Mentions remaining v := by
  rcases mentions with ⟨copy, copyMem, isMentioned⟩
  exact ⟨copy, List.mem_of_mem_eraseIdx copyMem, isMentioned⟩

theorem Mentions.of_redirect {v tmp : Nat}
    (mentions : Mentions (remaining.map (·.redirect src tmp)) v) :
    v = tmp ∨ Mentions remaining v := by
  rcases mentions with ⟨copy, copyMem, isMentioned⟩
  rcases List.mem_map.mp copyMem with ⟨original, originalMem, rfl⟩
  rw [redirect_dst, redirect_src] at isMentioned
  rcases isMentioned with isDst | isSource
  · exact .inr ⟨original, originalMem, .inl isDst⟩
  · split at isSource
    · exact .inl (CopySrc.vreg.inj isSource).symm
    · exact .inr ⟨original, originalMem, .inr isSource⟩

/-! ### The loop ends or goes on forever -/

theorem findSome?_redirect (remaining : List PhiCopy) (src tmp : Nat) :
    (remaining.map (·.redirect src tmp)).findSome? (·.src.reg?) =
      (remaining.findSome? (·.src.reg?)).map fun reg => if reg = src then tmp else reg := by
  induction remaining with
  | nil => rfl
  | cons copy remaining ih =>
      rw [List.map_cons, List.findSome?_cons, List.findSome?_cons, redirect_src]
      cases isSource : copy.src with
      | const value => simpa [CopySrc.reg?] using ih
      | vreg reg =>
          by_cases same : reg = src
          · simp [CopySrc.reg?, same]
          · simp [CopySrc.reg?, same]

/-- Saving a register that no copy writes leaves the loop where it is. -/
theorem serialize_of_lost (stuck : ¬Ready remaining)
    (isSource : remaining.findSome? (·.src.reg?) = some src)
    (lost : ∀ copy ∈ remaining, copy.dst ≠ src)
    (below : ∀ copy ∈ remaining, copy.dst < nextVreg) (fuel : Nat) :
    serialize none fuel remaining nextVreg = .error .diverges := by
  induction fuel generalizing remaining nextVreg src with
  | zero => rfl
  | succ fuel ih =>
      have notEmpty : remaining ≠ [] := by
        rintro rfl
        cases isSource
      have again : serialize none fuel (remaining.map (·.redirect src nextVreg)) (nextVreg + 1) =
          .error .diverges := by
        have isNext : (remaining.map (·.redirect src nextVreg)).findSome? (·.src.reg?) =
            some nextVreg := by
          rw [findSome?_redirect, isSource, Option.map_some, if_pos rfl]
        refine ih ?_ isNext ?_ ?_
        · rintro ⟨_, copyMem, unread⟩
          rcases List.mem_map.mp copyMem with ⟨copy, isCopy, rfl⟩
          rcases reads_eq_true.mp (reads_of_not_ready stuck copy isCopy) with
            ⟨reader, readerMem, isReader⟩
          rw [redirect_dst, Bool.eq_false_iff, Ne, reads_eq_true] at unread
          refine unread ⟨_, List.mem_map_of_mem readerMem, ?_⟩
          rw [redirect_src, isReader, if_neg]
          rintro ⟨⟩
          exact lost copy isCopy rfl
        · intro _ copyMem
          rcases List.mem_map.mp copyMem with ⟨copy, isCopy, rfl⟩
          rw [redirect_dst]
          exact Nat.ne_of_lt (below copy isCopy)
        · intro _ copyMem
          rcases List.mem_map.mp copyMem with ⟨copy, isCopy, rfl⟩
          rw [redirect_dst]
          exact Nat.lt_succ_of_lt (below copy isCopy)
      unfold serialize
      rw [if_neg notEmpty, findIdx?_ready.mpr stuck]
      simp only [isSource, expect, bind, Except.bind, succVreg_none, again]

/-- With enough fuel the loop ends, unless it never does. -/
theorem serialize_cases (below : ∀ copy ∈ remaining, copy.dst < nextVreg)
    (enough : passes remaining < fuel) :
    (∃ result, serialize none fuel remaining nextVreg = .ok result) ∨
      ∀ more, serialize none more remaining nextVreg = .error .diverges := by
  induction fuel generalizing remaining nextVreg with
  | zero => cases enough
  | succ fuel ih =>
      by_cases empty : remaining = []
      · subst empty
        exact .inl ⟨([], nextVreg), by rw [serialize, if_pos rfl]⟩
      cases isReady : remaining.findIdx? fun copy => !reads remaining copy.dst with
      | some pos =>
          rcases List.findIdx?_eq_some_iff_getElem.mp isReady with ⟨inside, unread, -⟩
          have here := List.getElem?_eq_getElem inside
          rw [Bool.not_eq_eq_eq_not, Bool.not_true] at unread
          have count := passes_of_ready ⟨_, List.getElem_mem inside, unread⟩
          have fewer := passes_le (remaining.eraseIdx pos)
          rw [List.length_eraseIdx_of_lt inside] at fewer
          have belowRest : ∀ copy ∈ remaining.eraseIdx pos, copy.dst < nextVreg :=
            fun copy copyMem => below copy (List.mem_of_mem_eraseIdx copyMem)
          rcases ih belowRest (by omega) with
            ⟨⟨rest, next⟩, ended⟩ | forever
          · left
            unfold serialize
            rw [if_neg empty, isReady]
            simp only [here, expect, bind, Except.bind, ended]
            exact ⟨_, rfl⟩
          · right
            rintro (- | more)
            · rfl
            · unfold serialize
              rw [if_neg empty, isReady]
              simp only [here, expect, bind, Except.bind, forever more]
      | none =>
          have stuck := findIdx?_ready.mp isReady
          rcases exists_source_of_not_ready stuck empty with ⟨src, isSource, -⟩
          by_cases isDst : ∃ copy ∈ remaining, copy.dst = src
          · have ready := ready_redirect isDst fun copy copyMem =>
              Nat.ne_of_lt (below copy copyMem)
            have count := passes_of_not_ready stuck
            have fewer := passes_of_ready ready
            rw [List.length_map] at fewer
            have stillBelow : ∀ copy ∈ remaining.map (·.redirect src nextVreg),
                copy.dst < nextVreg + 1 := by
              intro _ copyMem
              rcases List.mem_map.mp copyMem with ⟨copy, isCopy, rfl⟩
              rw [redirect_dst]
              exact Nat.lt_succ_of_lt (below copy isCopy)
            rcases ih stillBelow (by omega) with ⟨⟨rest, next⟩, ended⟩ | forever
            · left
              unfold serialize
              rw [if_neg empty, isReady]
              simp only [isSource, expect, bind, Except.bind, succVreg_none, ended]
              exact ⟨_, rfl⟩
            · right
              rintro (- | more)
              · rfl
              · unfold serialize
                rw [if_neg empty, isReady]
                simp only [isSource, expect, bind, Except.bind, succVreg_none, forever more]
          · push Not at isDst
            exact .inr (serialize_of_lost stuck isSource isDst below)

/-! ### Numbers of registers do not matter -/

def CopySrc.rename (name : Nat → Nat) : CopySrc → CopySrc
  | .const value => .const value
  | .vreg index => .vreg (name index)

def PhiCopy.rename (name : Nat → Nat) (copy : PhiCopy) : PhiCopy :=
  ⟨name copy.dst, copy.src.rename name⟩

theorem findSome?_rename (name : Nat → Nat) (copies : List PhiCopy) :
    (copies.map (·.rename name)).findSome? (·.src.reg?) =
      (copies.findSome? (·.src.reg?)).map name := by
  induction copies with
  | nil => rfl
  | cons copy copies ih =>
      rw [List.map_cons, List.findSome?_cons, List.findSome?_cons]
      cases isSource : copy.src with
      | const value => simpa [PhiCopy.rename, isSource, CopySrc.rename, CopySrc.reg?] using ih
      | vreg reg => simp [PhiCopy.rename, isSource, CopySrc.rename, CopySrc.reg?]

/-- Registers of the copies keep apart. -/
structure Renames (name : Nat → Nat) (copies : List PhiCopy) (nextVreg otherVreg : Nat) : Prop where
  inj : ∀ v w, Mentions copies v → Mentions copies w → name v = name w → v = w
  below : ∀ v, Mentions copies v → v < nextVreg ∧ name v < otherVreg

variable {name : Nat → Nat} {otherVreg : Nat}

theorem Renames.eraseIdx (renames : Renames name remaining nextVreg otherVreg) (pos : Nat) :
    Renames name (remaining.eraseIdx pos) nextVreg otherVreg where
  inj := fun v w isFirst isSecond => renames.inj v w isFirst.of_eraseIdx isSecond.of_eraseIdx
  below := fun v isMentioned => renames.below v isMentioned.of_eraseIdx

theorem rename_update_of_lt (renames : Renames name remaining nextVreg otherVreg) {v : Nat}
    (isMentioned : Mentions remaining v) :
    Function.update name nextVreg otherVreg v = name v :=
  Function.update_of_ne (Nat.ne_of_lt (renames.below v isMentioned).1) _ _

theorem Renames.redirect (renames : Renames name remaining nextVreg otherVreg) (src : Nat) :
    Renames (Function.update name nextVreg otherVreg) (remaining.map (·.redirect src nextVreg))
      (nextVreg + 1) (otherVreg + 1) where
  inj := by
    have apart : ∀ v, Mentions remaining v →
        Function.update name nextVreg otherVreg v ≠ otherVreg := by
      intro v isMentioned
      rw [rename_update_of_lt renames isMentioned]
      exact Nat.ne_of_lt (renames.below v isMentioned).2
    intro v w isFirst isSecond same
    rcases isFirst.of_redirect with rfl | wasFirst
    · rcases isSecond.of_redirect with rfl | wasSecond
      · rfl
      · rw [Function.update_self] at same
        exact absurd same.symm (apart w wasSecond)
    · rcases isSecond.of_redirect with rfl | wasSecond
      · rw [Function.update_self] at same
        exact absurd same (apart v wasFirst)
      · rw [rename_update_of_lt renames wasFirst, rename_update_of_lt renames wasSecond]
          at same
        exact renames.inj v w wasFirst wasSecond same
  below := by
    intro v isMentioned
    rcases isMentioned.of_redirect with rfl | isMentioned
    · rw [Function.update_self]
      exact ⟨Nat.lt_succ_self _, Nat.lt_succ_self _⟩
    · rw [rename_update_of_lt renames isMentioned]
      rcases renames.below v isMentioned with ⟨inside, otherInside⟩
      exact ⟨Nat.lt_succ_of_lt inside, Nat.lt_succ_of_lt otherInside⟩

theorem reads_rename (renames : Renames name remaining nextVreg otherVreg) {v : Nat}
    (isMentioned : Mentions remaining v) :
    reads (remaining.map (·.rename name)) (name v) = reads remaining v := by
  rw [Bool.eq_iff_iff, reads_eq_true, reads_eq_true]
  constructor
  · rintro ⟨_, copyMem, isSource⟩
    rcases List.mem_map.mp copyMem with ⟨copy, isCopy, rfl⟩
    refine ⟨copy, isCopy, ?_⟩
    cases isReg : copy.src with
    | const value =>
        rw [PhiCopy.rename, isReg] at isSource
        cases isSource
    | vreg reg =>
        rw [PhiCopy.rename, isReg] at isSource
        exact congrArg _ (renames.inj reg v ⟨copy, isCopy, .inr isReg⟩ isMentioned
          (CopySrc.vreg.inj isSource))
  · rintro ⟨copy, copyMem, isSource⟩
    exact ⟨_, List.mem_map_of_mem copyMem, by rw [PhiCopy.rename, isSource]; rfl⟩

theorem findIdx?_eq_of_forall {α : Type} {first second : α → Bool} {items : List α}
    (same : ∀ item ∈ items, first item = second item) :
    items.findIdx? first = items.findIdx? second := by
  induction items with
  | nil => rfl
  | cons item items ih =>
      rcases List.forall_mem_cons.mp same with ⟨isSame, others⟩
      rw [List.findIdx?_cons, List.findIdx?_cons, isSame, ih others]

theorem findIdx?_rename (renames : Renames name remaining nextVreg otherVreg) :
    ((remaining.map (·.rename name)).findIdx? fun copy =>
        !reads (remaining.map (·.rename name)) copy.dst) =
      remaining.findIdx? fun copy => !reads remaining copy.dst := by
  rw [List.findIdx?_map]
  refine findIdx?_eq_of_forall ?_
  intro copy copyMem
  exact congrArg _ (reads_rename renames (mentions_dst copyMem))

theorem rename_redirect (renames : Renames name remaining nextVreg otherVreg)
    (isMentioned : Mentions remaining src) :
    (remaining.map (·.rename name)).map (·.redirect (name src) otherVreg) =
      (remaining.map (·.redirect src nextVreg)).map
        (·.rename (Function.update name nextVreg otherVreg)) := by
  rw [List.map_map, List.map_map]
  refine List.map_congr_left ?_
  intro copy copyMem
  have isDst := rename_update_of_lt renames (mentions_dst copyMem)
  cases isSource : copy.src with
  | const value => simp [PhiCopy.redirect, PhiCopy.rename, isSource, CopySrc.rename, isDst]
  | vreg reg =>
      have isReg : Mentions remaining reg := ⟨copy, copyMem, .inr isSource⟩
      have isKept := rename_update_of_lt renames isReg
      by_cases same : reg = src
      · simp [PhiCopy.redirect, PhiCopy.rename, isSource, CopySrc.rename, isDst, same]
      · have differ : name reg ≠ name src := fun sameName =>
          same (renames.inj reg src isReg isMentioned sameName)
        simp [PhiCopy.redirect, PhiCopy.rename, isSource, CopySrc.rename, isDst, same, differ,
          isKept]

theorem exists_ok_map {α β : Type} {outcome : Outcome α} {build : α → β} :
    (∃ result, (outcome >>= fun value => pure (build value)) = .ok result) ↔
      ∃ result, outcome = .ok result := by
  cases outcome with
  | error failure => simp [bind, Except.bind]
  | ok value => simp [bind, Except.bind, pure, Except.pure]

/-- The loop ends for renamed copies when it ends for the copies. -/
theorem serialize_rename (renames : Renames name remaining nextVreg otherVreg) :
    (∃ result, serialize none fuel (remaining.map (·.rename name)) otherVreg = .ok result) ↔
      ∃ result, serialize none fuel remaining nextVreg = .ok result := by
  induction fuel generalizing remaining nextVreg otherVreg name with
  | zero => simp [serialize]
  | succ fuel ih =>
      by_cases empty : remaining = []
      · subst empty
        simp [serialize]
      have notEmpty : remaining.map (·.rename name) ≠ [] := by simpa using empty
      unfold serialize
      rw [if_neg empty, if_neg notEmpty, findIdx?_rename renames]
      cases isReady : remaining.findIdx? fun copy => !reads remaining copy.dst with
      | some pos =>
          rcases List.findIdx?_eq_some_iff_getElem.mp isReady with ⟨inside, -, -⟩
          have rest := ih (renames.eraseIdx pos)
          rw [← List.eraseIdx_map] at rest
          simp only [List.getElem?_map, List.getElem?_eq_getElem inside, Option.map_some, expect]
          exact exists_ok_map.trans (rest.trans exists_ok_map.symm)
      | none =>
          have stuck := findIdx?_ready.mp isReady
          rcases exists_source_of_not_ready stuck empty with ⟨src, isSource, isRead⟩
          have isMentioned := mentions_of_reads isRead
          have rest := ih (renames.redirect src)
          rw [← rename_redirect renames isMentioned] at rest
          have isOther : (remaining.map (·.rename name)).findSome? (·.src.reg?) =
              some (name src) := by
            rw [findSome?_rename, isSource]
            rfl
          simp only [isOther, isSource, expect]
          exact exists_ok_map.trans (rest.trans exists_ok_map.symm)

/-! ### Parallel copies -/

/-- Passing over copies of registers to themselves does not depend on the numbers. -/
theorem filter_rename {copies : List PhiCopy} (renames : Renames name copies nextVreg otherVreg) :
    ((copies.map (·.rename name)).filter fun copy => copy.src ≠ .vreg copy.dst) =
      (copies.filter fun copy => copy.src ≠ .vreg copy.dst).map (·.rename name) := by
  rw [List.filter_map]
  congr 1
  refine List.filter_congr ?_
  intro copy copyMem
  refine decide_eq_decide.mpr (not_congr ?_)
  cases isSource : copy.src with
  | const value => simp [PhiCopy.rename, isSource, CopySrc.rename]
  | vreg reg =>
      simp only [PhiCopy.rename, isSource, CopySrc.rename, CopySrc.vreg.injEq]
      constructor
      · exact renames.inj reg copy.dst ⟨copy, copyMem, .inr isSource⟩ (mentions_dst copyMem)
      · rintro rfl
        rfl

theorem Renames.filter {copies : List PhiCopy}
    (renames : Renames name copies nextVreg otherVreg) (keep : PhiCopy → Bool) :
    Renames name (copies.filter keep) nextVreg otherVreg := by
  have included : ∀ v, Mentions (copies.filter keep) v → Mentions copies v := by
    rintro v ⟨copy, copyMem, isMentioned⟩
    exact ⟨copy, List.mem_of_mem_filter copyMem, isMentioned⟩
  exact ⟨fun v w isFirst isSecond => renames.inj v w (included v isFirst) (included w isSecond),
    fun v isMentioned => renames.below v (included v isMentioned)⟩

/-- Whether parallel copies can be ordered does not depend on the numbers of registers. -/
theorem serializeParallelCopies_rename {copies : List PhiCopy}
    (renames : Renames name copies nextVreg otherVreg) :
    (∃ result, serializeParallelCopies none (copies.map (·.rename name)) otherVreg =
      .ok result) ↔ ∃ result, serializeParallelCopies none copies nextVreg = .ok result := by
  unfold serializeParallelCopies
  rw [filter_rename renames]
  dsimp only
  rw [List.length_map]
  exact serialize_rename (renames.filter _)

/-- Parallel copies are ordered, or the loop never ends. -/
theorem serializeParallelCopies_cases {copies : List PhiCopy}
    (below : ∀ copy ∈ copies, copy.dst < nextVreg) :
    (∃ result, serializeParallelCopies none copies nextVreg = .ok result) ∨
      serializeParallelCopies none copies nextVreg = .error .diverges ∧
        ∀ more, serialize none more (copies.filter fun copy => copy.src ≠ .vreg copy.dst)
          nextVreg = .error .diverges := by
  have few := passes_le (copies.filter fun copy => copy.src ≠ .vreg copy.dst)
  rcases serialize_cases (fun copy copyMem => below copy (List.mem_of_mem_filter copyMem))
    (Nat.lt_succ_of_le few) with ended | forever
  · exact .inl ended
  · exact .inr ⟨forever _, forever⟩

end

end VliwCompiler.Isel
