import Mathlib.Data.List.Forall2

/-!
# Mapping partial functions over lists

Mapping a partial function over a list succeeds exactly when it succeeds on
every element.  These characterizations turn monadic maps into pointwise
relations between lists.
-/

namespace VliwCompiler

variable {α β ε : Type}

theorem mapM_eq_some_iff {f : α → Option β} {items : List α} {images : List β} :
    items.mapM f = some images ↔ List.Forall₂ (fun item image => f item = some image) items images := by
  induction items generalizing images with
  | nil =>
      rw [List.mapM_nil, List.forall₂_nil_left_iff]
      exact ⟨fun same => (Option.some.inj same).symm, fun same => same ▸ rfl⟩
  | cons head tail ih =>
      rw [List.mapM_cons, List.forall₂_cons_left_iff]
      constructor
      · intro mapped
        obtain ⟨image, headImage, rest⟩ := Option.bind_eq_some_iff.mp mapped
        obtain ⟨restImages, tailImages, same⟩ := Option.bind_eq_some_iff.mp rest
        exact ⟨image, restImages, headImage, ih.mp tailImages, (Option.some.inj same).symm⟩
      · rintro ⟨image, restImages, headImage, tailImages, rfl⟩
        exact Option.bind_eq_some_iff.mpr ⟨image, headImage,
          Option.bind_eq_some_iff.mpr ⟨restImages, ih.mpr tailImages, rfl⟩⟩

theorem mapM_eq_ok_iff {f : α → Except ε β} {items : List α} {images : List β} :
    items.mapM f = .ok images ↔ List.Forall₂ (fun item image => f item = .ok image) items images := by
  induction items generalizing images with
  | nil =>
      rw [List.mapM_nil, List.forall₂_nil_left_iff]
      exact ⟨fun same => (Except.ok.inj same).symm, fun same => same ▸ rfl⟩
  | cons head tail ih =>
      rw [List.mapM_cons, List.forall₂_cons_left_iff]
      constructor
      · intro mapped
        cases headImage : f head with
        | error failure =>
            rw [headImage] at mapped
            cases mapped
        | ok image =>
            rw [headImage] at mapped
            cases tailImages : tail.mapM f with
            | error failure =>
                rw [tailImages] at mapped
                cases mapped
            | ok restImages =>
                rw [tailImages] at mapped
                cases mapped
                exact ⟨image, restImages, rfl, ih.mp tailImages, rfl⟩
      · rintro ⟨image, restImages, headImage, tailImages, rfl⟩
        rw [headImage, ih.mpr tailImages]
        rfl

theorem exists_mapM_ok {f : α → Except ε β} {items : List α}
    (succeeds : ∀ item ∈ items, ∃ image, f item = .ok image) :
    ∃ images, items.mapM f = .ok images := by
  induction items with
  | nil => exact ⟨[], rfl⟩
  | cons item items ih =>
      obtain ⟨image, first⟩ := succeeds item List.mem_cons_self
      obtain ⟨images, others⟩ := ih fun other otherMem =>
        succeeds other (List.mem_cons_of_mem _ otherMem)
      exact ⟨image :: images, mapM_eq_ok_iff.mpr (.cons first (mapM_eq_ok_iff.mp others))⟩

theorem exists_foldlM_ok {f : β → α → Except ε β} {items : List α}
    (succeeds : ∀ acc, ∀ item ∈ items, ∃ next, f acc item = .ok next) (init : β) :
    ∃ result, items.foldlM f init = .ok result := by
  induction items generalizing init with
  | nil => exact ⟨init, rfl⟩
  | cons item items ih =>
      obtain ⟨next, first⟩ := succeeds init item List.mem_cons_self
      obtain ⟨result, others⟩ :=
        ih (fun acc other otherMem => succeeds acc other (List.mem_cons_of_mem _ otherMem)) next
      refine ⟨result, ?_⟩
      rw [List.foldlM_cons, first]
      exact others

/-- Where a fold fails. -/
theorem exists_step_of_foldlM_error {f : β → α → Except ε β} {items : List α} {start : β}
    {failure : ε} (failed : items.foldlM f start = .error failure) :
    ∃ front item back current, items = front ++ item :: back ∧
      front.foldlM f start = .ok current ∧ f current item = .error failure := by
  induction items generalizing start with
  | nil => cases failed
  | cons item items ih =>
      rw [List.foldlM_cons] at failed
      cases first : f start item with
      | error other =>
          rw [first] at failed
          cases failed
          exact ⟨[], item, items, start, rfl, rfl, first⟩
      | ok middle =>
          rw [first] at failed
          obtain ⟨front, failing, back, current, rfl, folded, fails⟩ := ih failed
          refine ⟨item :: front, failing, back, current, rfl, ?_, fails⟩
          rw [List.foldlM_cons, first]
          exact folded

/-- Where a map fails. -/
theorem exists_item_of_mapM_error {f : α → Except ε β} {items : List α} {failure : ε}
    (failed : items.mapM f = .error failure) :
    ∃ front item back, items = front ++ item :: back ∧
      (∀ other ∈ front, ∃ image, f other = .ok image) ∧ f item = .error failure := by
  induction items with
  | nil => cases failed
  | cons item items ih =>
      rw [List.mapM_cons] at failed
      cases first : f item with
      | error other =>
          rw [first] at failed
          cases failed
          exact ⟨[], item, items, rfl, by simp, first⟩
      | ok image =>
          rw [first] at failed
          cases rest : items.mapM f with
          | error other =>
              rw [rest] at failed
              cases failed
              obtain ⟨front, failing, back, rfl, succeed, fails⟩ := ih rest
              exact ⟨item :: front, failing, back, rfl,
                List.forall_mem_cons.mpr ⟨⟨image, first⟩, succeed⟩, fails⟩
          | ok images =>
              rw [rest] at failed
              cases failed

/-- The first item that fails decides how a map fails. -/
theorem mapM_eq_error {f : α → Except ε β} {front : List α} {item : α} {failure : ε}
    (succeed : ∀ other ∈ front, ∃ image, f other = .ok image) (fails : f item = .error failure)
    (back : List α) : (front ++ item :: back).mapM f = .error failure := by
  obtain ⟨images, mapped⟩ := exists_mapM_ok succeed
  rw [List.mapM_append, mapped, List.mapM_cons, fails]
  rfl

theorem exists_foldlM_some {f : β → α → Option β} {items : List α} {motive : β → Prop}
    (step : ∀ current, ∀ item ∈ items, motive current →
      ∃ next, f current item = some next ∧ motive next)
    {start : β} (holds : motive start) :
    ∃ final, items.foldlM f start = some final ∧ motive final := by
  induction items generalizing start with
  | nil => exact ⟨start, rfl, holds⟩
  | cons item items ih =>
      obtain ⟨next, first, after⟩ := step start item List.mem_cons_self holds
      obtain ⟨final, others, atEnd⟩ := ih (fun current other otherMem =>
        step current other (List.mem_cons_of_mem _ otherMem)) after
      refine ⟨final, ?_, atEnd⟩
      rw [List.foldlM_cons, first]
      exact others

/-- What every step of a fold keeps, a successful fold keeps. -/
theorem invariant_of_foldlM_ok {f : β → α → Except ε β} {items : List α} {motive : β → Prop}
    (step : ∀ current item next, motive current → f current item = .ok next → motive next)
    {start final : β} (holds : motive start) (folded : items.foldlM f start = .ok final) :
    motive final := by
  induction items generalizing start with
  | nil =>
      cases folded
      exact holds
  | cons item items ih =>
      rw [List.foldlM_cons] at folded
      cases first : f start item with
      | error failure =>
          rw [first] at folded
          cases folded
      | ok middle =>
          rw [first] at folded
          exact ih (step start item middle holds first) folded

/-- Every step of a successful fold succeeds. -/
theorem exists_step_of_foldlM_ok {f : β → α → Except ε β} {items : List α} {motive : β → Prop}
    (step : ∀ current item next, motive current → f current item = .ok next → motive next)
    {start final : β} (holds : motive start) (folded : items.foldlM f start = .ok final) {item : α}
    (itemMem : item ∈ items) : ∃ current next, motive current ∧ f current item = .ok next := by
  induction items generalizing start with
  | nil => cases itemMem
  | cons head items ih =>
      rw [List.foldlM_cons] at folded
      cases first : f start head with
      | error failure =>
          rw [first] at folded
          cases folded
      | ok middle =>
          rw [first] at folded
          rcases List.mem_cons.mp itemMem with rfl | tailMem
          · exact ⟨start, middle, holds, first⟩
          · exact ih (step start head middle holds first) folded tailMem

theorem exists_image_of_forall₂ {relation : α → β → Prop} {items : List α} {images : List β}
    (related : List.Forall₂ relation items images) {item : α} (itemMem : item ∈ items) :
    ∃ image ∈ images, relation item image := by
  induction related with
  | nil => cases itemMem
  | cons first _ ih =>
      rcases List.mem_cons.mp itemMem with rfl | inRest
      · exact ⟨_, List.mem_cons_self, first⟩
      · obtain ⟨image, imageMem, isRelated⟩ := ih inRest
        exact ⟨image, List.mem_cons_of_mem _ imageMem, isRelated⟩

/-- Every image has a preimage in the mapped list. -/
theorem exists_mem_of_forall₂ {relation : α → β → Prop} {items : List α} {images : List β}
    (related : List.Forall₂ relation items images) {image : β} (imageMem : image ∈ images) :
    ∃ item ∈ items, relation item image := by
  induction related with
  | nil => simp at imageMem
  | cons headRelated _ ih =>
      rcases List.mem_cons.mp imageMem with rfl | tailMem
      · exact ⟨_, List.mem_cons_self, headRelated⟩
      · obtain ⟨item, itemMem, itemRelated⟩ := ih tailMem
        exact ⟨item, List.mem_cons_of_mem _ itemMem, itemRelated⟩

theorem pairwise_of_forall₂ {relation : α → β → Prop} {first : α → α → Prop}
    {second : β → β → Prop} {items : List α} {images : List β}
    (related : List.Forall₂ relation items images)
    (carry : ∀ item image item' image', relation item image → relation item' image' →
      first item item' → second image image')
    (pairwise : items.Pairwise first) : images.Pairwise second := by
  induction related with
  | nil => exact List.Pairwise.nil
  | @cons item image items images isImage tail ih =>
      obtain ⟨headPairs, tailPairs⟩ := List.pairwise_cons.mp pairwise
      refine List.pairwise_cons.mpr ⟨fun image' imageMem => ?_, ih tailPairs⟩
      obtain ⟨item', itemMem, isImage'⟩ := exists_mem_of_forall₂ tail imageMem
      exact carry item image item' image' isImage isImage' (headPairs item' itemMem)

theorem forall₂_comp {γ : Type} {first : α → β → Prop} {second : β → γ → Prop}
    {result : α → γ → Prop} {as : List α} {bs : List β} {cs : List γ}
    (left : List.Forall₂ first as bs) (right : List.Forall₂ second bs cs)
    (compose : ∀ a b c, first a b → second b c → result a c) : List.Forall₂ result as cs := by
  induction left generalizing cs with
  | nil =>
      cases right
      exact .nil
  | cons head _ ih =>
      cases right with
      | cons other others => exact .cons (compose _ _ _ head other) (ih others)

theorem exists_append_of_forall₂ {relation : α → β → Prop} {items : List α}
    {first second : List β} (related : List.Forall₂ relation items (first ++ second)) :
    ∃ left right, items = left ++ right ∧ List.Forall₂ relation left first ∧
      List.Forall₂ relation right second :=
  ⟨_, _, (List.take_append_drop first.length items).symm,
    List.forall₂_take_append items first second related,
    List.forall₂_drop_append items first second related⟩

theorem getElem?_of_forall₂ {relation : α → β → Prop} {items : List α} {images : List β}
    (related : List.Forall₂ relation items images) {index : Nat} {image : β}
    (found : images[index]? = some image) :
    ∃ item, items[index]? = some item ∧ relation item image := by
  obtain ⟨bound, rfl⟩ := List.getElem?_eq_some_iff.mp found
  have bound' : index < items.length := related.length_eq ▸ bound
  exact ⟨items[index], List.getElem?_eq_getElem bound', related.get bound' bound⟩

theorem mapM_append_eq_some {f : α → Option β} {first second : List α} {images : List β}
    (mapped : (first ++ second).mapM f = some images) :
    ∃ left right, first.mapM f = some left ∧ second.mapM f = some right ∧
      images = left ++ right := by
  rw [List.mapM_append] at mapped
  obtain ⟨left, isLeft, rest⟩ := Option.bind_eq_some_iff.mp mapped
  obtain ⟨right, isRight, same⟩ := Option.bind_eq_some_iff.mp rest
  exact ⟨left, right, isLeft, isRight, (Option.some.inj same).symm⟩

theorem mapM_isSome_iff {f : α → Option β} {items : List α} :
    (items.mapM f).isSome ↔ ∀ item ∈ items, (f item).isSome := by
  induction items with
  | nil => simp
  | cons head tail ih =>
      rw [List.mapM_cons, List.forall_mem_cons, ← ih]
      cases f head with
      | none => simp
      | some image => cases tail.mapM f <;> simp

/-- Reading a list at all its positions gives the list back. -/
theorem filterMap_getElem?_range (items : List α) :
    (List.range items.length).filterMap (items[·]?) = items := by
  induction items with
  | nil => rfl
  | cons head tail ih =>
      rw [List.length_cons, List.range_succ_eq_map, List.filterMap_cons]
      simp only [List.getElem?_cons_zero, List.filterMap_map]
      exact congrArg (head :: ·) ih

/-- Mapping commutes with selecting positions. -/
theorem mapM_filterMap_getElem? {f : α → Option β} {items : List α} {images : List β}
    (mapped : items.mapM f = some images) (positions : List Nat) :
    (positions.filterMap (items[·]?)).mapM f = some (positions.filterMap (images[·]?)) := by
  have related := mapM_eq_some_iff.mp mapped
  induction positions with
  | nil => rfl
  | cons position rest ih =>
      have sameLength := related.length_eq
      by_cases bound : position < items.length
      · have imageAt : f items[position] = some images[position] :=
          related.get bound (by omega)
        rw [List.filterMap_cons, List.getElem?_eq_getElem bound, List.filterMap_cons,
          List.getElem?_eq_getElem (by omega)]
        simp only
        rw [List.mapM_cons, imageAt, ih]
        rfl
      · rw [List.filterMap_cons, List.getElem?_eq_none (by omega), List.filterMap_cons,
          List.getElem?_eq_none (by omega)]
        exact ih

/-- Where an element of concatenated lists is. -/
theorem exists_split_of_flatMap {f : α → List β} {items : List α} {before after : List β}
    {element : β} (split : items.flatMap f = before ++ element :: after) :
    ∃ front item back left right, items = front ++ item :: back ∧
      f item = left ++ element :: right ∧ before = front.flatMap f ++ left ∧
      after = right ++ back.flatMap f := by
  induction items generalizing before with
  | nil => simp at split
  | cons item items ih =>
      rw [List.flatMap_cons] at split
      rcases List.append_eq_append_iff.mp split with ⟨rest, rfl, isRest⟩ | ⟨rest, isItem, isRest⟩
      · obtain ⟨front, other, back, left, right, rfl, isOther, rfl, rfl⟩ := ih isRest
        exact ⟨item :: front, other, back, left, right, rfl, isOther, by simp, rfl⟩
      · cases rest with
        | nil =>
            obtain ⟨front, other, back, left, right, rfl, isOther, isFront, rfl⟩ :=
              @ih [] isRest.symm
            rw [List.append_nil] at isItem
            refine ⟨item :: front, other, back, left, right, rfl, isOther, ?_, rfl⟩
            rw [List.flatMap_cons, List.append_assoc, ← isFront, List.append_nil, isItem]
        | cons head rest =>
            obtain ⟨rfl, rfl⟩ := List.cons.inj isRest
            exact ⟨[], item, items, before, rest, rfl, isItem, rfl, rfl⟩

/-- A list is split uniquely after the longest part that satisfies a predicate. -/
theorem append_inj_of_forall {holds : α → Bool} {first second rest rest' : List α}
    (firstHolds : ∀ item ∈ first, holds item = true)
    (secondHolds : ∀ item ∈ second, holds item = true)
    (stops : ∀ item ∈ rest.head?, holds item = false)
    (stops' : ∀ item ∈ rest'.head?, holds item = false)
    (same : first ++ rest = second ++ rest') : first = second ∧ rest = rest' := by
  have ends : ∀ {tail : List α}, (∀ item ∈ tail.head?, holds item = false) →
      tail.takeWhile holds = [] := by
    intro tail stop
    cases tail with
    | nil => rfl
    | cons item tail => exact List.takeWhile_cons_of_neg (by simp [stop item rfl])
  have taken := congrArg (List.takeWhile holds) same
  rw [List.takeWhile_append_of_pos firstHolds, List.takeWhile_append_of_pos secondHolds,
    ends stops, ends stops', List.append_nil, List.append_nil] at taken
  subst taken
  exact ⟨rfl, List.append_cancel_left same⟩

end VliwCompiler
