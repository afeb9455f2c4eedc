import Mathlib.Dynamics.PeriodicPts.Lemmas
import Mathlib.Data.Set.Card

/-!
# Cycles of a function

A function on a type runs in cycles through some of its points.  Its cycles of
two points or more stay the same when it changes at a point that no other point
leads to, and one of them is lost when the way into one of its points is turned
aside.
-/

namespace VliwCompiler.Cycles

open Function (periodicPts IsPeriodicPt)

variable {α : Type*} {f g : α → α} {v w : α}

/-- The point is on a cycle of two points or more. -/
def IsCyclic (f : α → α) (v : α) : Prop := v ∈ periodicPts f ∧ f v ≠ v

/-- The points that a point leads to. -/
def orbit (f : α → α) (v : α) : Set α := Set.range fun k => f^[k] v

/-- The cycles of two points or more. -/
def cycles (f : α → α) : Set (Set α) := orbit f '' {v | IsCyclic f v}

theorem mem_orbit_self (f : α → α) (v : α) : v ∈ orbit f v := ⟨0, rfl⟩

theorem IsCyclic.iterate (isCyclic : IsCyclic f v) (k : Nat) : IsCyclic f (f^[k] v) := by
  rcases isCyclic with ⟨⟨n, positive, isPeriodic⟩, moves⟩
  refine ⟨⟨n, positive, isPeriodic.apply_iterate k⟩, ?_⟩
  intro stays
  have returns : f^[n * (k + 1)] v = v := isPeriodic.mul_const (k + 1)
  have isLess : k + 1 ≤ n * (k + 1) := Nat.le_mul_of_pos_left _ positive
  have isLater : n * (k + 1) = (n * (k + 1) - k) + k := by omega
  rw [isLater, Function.iterate_add_apply, Function.iterate_fixed stays] at returns
  rw [returns] at stays
  exact moves stays

theorem IsCyclic.apply (isCyclic : IsCyclic f v) : IsCyclic f (f v) := isCyclic.iterate 1

/-- Another point leads to a point on a cycle. -/
theorem IsCyclic.exists_pred (isCyclic : IsCyclic f v) :
    ∃ u, IsCyclic f u ∧ u ≠ v ∧ f u = v := by
  rcases isCyclic.1 with ⟨n, positive, isPeriodic⟩
  rcases Nat.exists_eq_add_one.mpr positive with ⟨less, rfl⟩
  have leads : f (f^[less] v) = v :=
    (Function.iterate_succ_apply' f less v).symm.trans isPeriodic
  refine ⟨f^[less] v, isCyclic.iterate less, ?_, leads⟩
  intro same
  rw [same] at leads
  exact isCyclic.2 leads

/-- The points of a cycle have the same orbit. -/
theorem IsCyclic.orbit_eq (isCyclic : IsCyclic f v) (inOrbit : w ∈ orbit f v) :
    orbit f w = orbit f v := by
  rcases inOrbit with ⟨k, rfl⟩
  rcases isCyclic.1 with ⟨n, positive, isPeriodic⟩
  ext point
  constructor
  · rintro ⟨j, rfl⟩
    exact ⟨j + k, Function.iterate_add_apply f j k v⟩
  · rintro ⟨j, rfl⟩
    have returns : f^[n * k] v = v := isPeriodic.mul_const k
    have isLater : n * k = (n * k - k) + k := by
      have isLess : k ≤ n * k := Nat.le_mul_of_pos_left k positive
      omega
    refine ⟨j + (n * k - k), ?_⟩
    dsimp only
    rw [← Function.iterate_add_apply, Nat.add_assoc, ← isLater, Function.iterate_add_apply, returns]

/-- Functions that agree on the cycle of a point have it in common. -/
theorem IsCyclic.congr (isCyclic : IsCyclic f v)
    (agree : ∀ w ∈ orbit f v, g w = f w) : IsCyclic g v ∧ orbit g v = orbit f v := by
  have same : ∀ k, g^[k] v = f^[k] v := by
    intro k
    induction k with
    | zero => rfl
    | succ k ih => rw [Function.iterate_succ_apply', Function.iterate_succ_apply', ih,
        agree _ ⟨k, rfl⟩]
  rcases isCyclic with ⟨⟨n, positive, isPeriodic⟩, moves⟩
  refine ⟨⟨⟨n, positive, (same n).trans isPeriodic⟩, ?_⟩, ?_⟩
  · rw [agree v (mem_orbit_self f v)]
    exact moves
  · exact congrArg Set.range (funext same)

/-- A point that no other point leads to is on no cycle. -/
theorem cycles_eq_of_unfed {d : α} (elsewhere : ∀ v, v ≠ d → g v = f v)
    (unfed : ∀ v, f v = d → v = d) : cycles g = cycles f := by
  have included : ∀ f g : α → α, (∀ v, v ≠ d → g v = f v) → (∀ v, f v = d → v = d) →
      cycles f ⊆ cycles g := by
    rintro f g elsewhere unfed _ ⟨v, isCyclic, rfl⟩
    have agree : ∀ w ∈ orbit f v, g w = f w := by
      rintro _ ⟨k, rfl⟩
      refine elsewhere _ ?_
      intro isUnfed
      rcases (isCyclic.iterate k).exists_pred with ⟨u, -, differ, leads⟩
      have same := unfed u (leads.trans isUnfed)
      exact differ (same.trans isUnfed.symm)
    rcases isCyclic.congr agree with ⟨isCyclic', sameOrbit⟩
    exact ⟨v, isCyclic', sameOrbit⟩
  refine Set.Subset.antisymm (included g f (fun v other => (elsewhere v other).symm) ?_)
    (included f g elsewhere unfed)
  intro v leads
  by_contra other
  rw [elsewhere v other] at leads
  exact other (unfed v leads)

/-- Turning the way into a point of a cycle aside, to a point that stays where it is,
breaks that cycle and no other. -/
theorem cycles_eq_diff {r n : α} (isCyclic : IsCyclic f r) (stays : g n = n)
    (aside : ∀ v, f v = r → g v = n) (kept : ∀ v, f v ≠ r → g v = f v) :
    cycles g = cycles f \ {orbit f r} := by
  have goesOn : ∀ v, IsCyclic g v → f v ≠ r := by
    intro v isCyclic' leads
    have isAside := aside v leads
    have onCycle := isCyclic'.apply
    rw [isAside] at onCycle
    exact onCycle.2 stays
  ext points
  constructor
  · rintro ⟨v, isCyclic', rfl⟩
    have agree : ∀ w ∈ orbit g v, f w = g w := by
      rintro _ ⟨k, rfl⟩
      exact (kept _ (goesOn _ (isCyclic'.iterate k))).symm
    rcases isCyclic'.congr agree with ⟨wasCyclic, sameOrbit⟩
    refine ⟨⟨v, wasCyclic, sameOrbit⟩, ?_⟩
    intro isBroken
    have isBroken : orbit g v = orbit f r := isBroken
    have inOrbit : r ∈ orbit g v := isBroken ▸ mem_orbit_self f r
    rcases inOrbit with ⟨k, isPoint⟩
    have onCycle := isCyclic'.iterate k
    dsimp only at isPoint
    rw [isPoint] at onCycle
    rcases onCycle.exists_pred with ⟨u, isCyclicPred, -, leads⟩
    have goesThere := goesOn u isCyclicPred
    rw [kept u goesThere] at leads
    exact goesThere leads
  · rintro ⟨⟨v, wasCyclic, rfl⟩, notBroken⟩
    have agree : ∀ w ∈ orbit f v, g w = f w := by
      intro w inOrbit
      refine kept w ?_
      rintro rfl
      refine notBroken ?_
      rcases inOrbit with ⟨k, rfl⟩
      have sameOrbit : orbit f (f (f^[k] v)) = orbit f v :=
        wasCyclic.orbit_eq ⟨k + 1, Function.iterate_succ_apply' f k v⟩
      exact sameOrbit.symm
    rcases wasCyclic.congr agree with ⟨isCyclic', sameOrbit⟩
    exact ⟨v, isCyclic', sameOrbit⟩

theorem orbit_mem_cycles (isCyclic : IsCyclic f v) : orbit f v ∈ cycles f :=
  ⟨v, isCyclic, rfl⟩

theorem cycles_subset {points : Finset α} (elsewhere : ∀ v, v ∉ points → f v = v) :
    cycles f ⊆ orbit f '' points := by
  refine Set.image_mono ?_
  intro v isCyclic
  by_contra outside
  exact isCyclic.2 (elsewhere v outside)

/-- When only finitely many points move there are finitely many cycles. -/
theorem finite_cycles {points : Finset α} (elsewhere : ∀ v, v ∉ points → f v = v) :
    (cycles f).Finite :=
  (points.finite_toSet.image _).subset (cycles_subset elsewhere)

/-- There are no more cycles than points that move. -/
theorem ncard_cycles_le {points : Finset α} (elsewhere : ∀ v, v ∉ points → f v = v) :
    (cycles f).ncard ≤ points.card := by
  have few := Set.ncard_le_ncard (cycles_subset elsewhere) (points.finite_toSet.image _)
  rw [← Set.ncard_coe_finset points]
  exact few.trans (Set.ncard_image_le points.finite_toSet)

/-- The points of a finite set whose points are all led to from it are on cycles. -/
theorem mem_periodicPts_of_covered [DecidableEq α] {points : Finset α}
    (covered : points ⊆ points.image f) (isPoint : v ∈ points) : v ∈ periodicPts f := by
  have same : points.image f = points :=
    (Finset.eq_of_subset_of_card_le covered Finset.card_image_le).symm
  have isInj : Set.InjOn f points := Finset.card_image_iff.mp (by rw [same])
  have keeps : ∀ point ∈ points, f point ∈ points := by
    intro point pointMem
    rw [← same]
    exact Finset.mem_image_of_mem f pointMem
  let step : points → points := fun point => ⟨f point, keeps point point.2⟩
  have injective : Function.Injective step := by
    intro first second sameImage
    exact Subtype.ext (isInj first.2 second.2 (congrArg Subtype.val sameImage))
  have semiconj : Function.Semiconj Subtype.val step f := fun _ => rfl
  exact semiconj.mapsTo_periodicPts (injective.mem_periodicPts ⟨v, isPoint⟩)

end VliwCompiler.Cycles
