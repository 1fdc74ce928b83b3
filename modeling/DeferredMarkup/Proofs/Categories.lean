import DeferredMarkup.Proofs.Embedding

/-!
Categories do not see one another. The marks of one category, taken out of an
accepted document, are an accepted document, although what was open around them
may have been a tag of another category. Their stylers aim at the same tags as
before, so that these have the same classes whatever stands in between.
-/
namespace DeferredMarkup.Nesting

/-- The markers of one category: its tags, its closes and the stylers that aim
at its tags. -/
def ofCategory (category : Category) (markers : List Marker) : List Marker :=
  markers.filter (·.mark.category = category)

/-- The marks of one category. -/
def only (category : Category) (ms : List Mark) : List Mark :=
  ms.filter (·.category = category)

/-- Where the marks of a category stand, counted from zero. Behind the last mark
all positions count. -/
def position (category : Category) : List Mark → Nat → Nat
  | [], i => i
  | m :: ms, i =>
    if m.category = category then
      match i with
      | 0 => 0
      | i + 1 => position category ms i + 1
    else position category ms i + 1

section

variable {ms ns : List Mark} {m : Mark} {category : Category} {i j k l : Nat}

theorem IsEvent.category_eq (h : IsEvent category m) : m.category = category := by
  cases m with
  | opening c name classes => exact isEvent_opening.mp h
  | atomic c name classes => exact isEvent_atomic.mp h
  | closing c name => exact isEvent_closing.mp h
  | styler c direction name => exact absurd h not_isEvent_styler

theorem only_cons_of_eq (h : m.category = category) :
    only category (m :: ms) = m :: only category ms :=
  List.filter_cons_of_pos (by simpa using h)

theorem only_cons_of_ne (h : m.category ≠ category) :
    only category (m :: ms) = only category ms :=
  List.filter_cons_of_neg (by simpa using h)

theorem only_append : only category (ms ++ ns) = only category ms ++ only category ns :=
  List.filter_append ms ns

theorem marksOf_ofCategory (category : Category) (markers : List Marker) :
    marksOf (ofCategory category markers) = only category (marksOf markers) := by
  unfold marksOf ofCategory only
  rw [List.filter_map]
  rfl

theorem mem_only : m ∈ only category ms ↔ m ∈ ms ∧ m.category = category := by
  simp [only]

theorem getElem?_only (ms : List Mark) (i : Nat) :
    (only category ms)[i]? = ms[position category ms i]? := by
  induction ms generalizing i with
  | nil => simp [only]
  | cons m ms ih =>
    by_cases h : m.category = category
    · rw [only_cons_of_eq h]
      cases i with
      | zero => simp [position, h]
      | succ i => simp [position, h, ih]
    · rw [only_cons_of_ne h]
      simp [position, h, ih]

theorem strictMono_position (category : Category) (ms : List Mark) :
    StrictMono (position category ms) := by
  intro i j hij
  induction ms generalizing i j with
  | nil => exact hij
  | cons m ms ih =>
    by_cases h : m.category = category
    · cases i with
      | zero =>
        cases j with
        | zero => omega
        | succ j => simp [position, h]
      | succ i =>
        cases j with
        | zero => omega
        | succ j =>
          simp only [position, h, if_true]
          exact Nat.succ_lt_succ (ih (Nat.lt_of_succ_lt_succ hij))
    · simp only [position, h, if_false]
      exact Nat.succ_lt_succ (ih hij)

/-- Every mark of the category is counted. -/
theorem exists_position (hm : ms[l]? = some m) (h : m.category = category) :
    ∃ i, l = position category ms i := by
  induction ms generalizing l with
  | nil => simp at hm
  | cons x ms ih =>
    cases l with
    | zero =>
      rw [List.getElem?_cons_zero, Option.some.injEq] at hm
      subst hm
      exact ⟨0, by simp [position, h]⟩
    | succ l =>
      rw [List.getElem?_cons_succ] at hm
      obtain ⟨i, rfl⟩ := ih hm
      by_cases hx : x.category = category
      · exact ⟨i + 1, by simp [position, hx]⟩
      · exact ⟨i, by simp [position, hx]⟩

theorem only_take_position (ms : List Mark) (i : Nat) :
    only category (ms.take (position category ms i)) = (only category ms).take i := by
  induction ms generalizing i with
  | nil => simp [only]
  | cons m ms ih =>
    by_cases h : m.category = category
    · rw [only_cons_of_eq h]
      cases i with
      | zero => simp [position, h, only]
      | succ i =>
        simp only [position, h, if_true, List.take_succ_cons, only_cons_of_eq h, ih]
    · rw [only_cons_of_ne h]
      simp only [position, h, if_false, List.take_succ_cons, only_cons_of_ne h, ih]

theorem position_congr (h : ms.map Mark.category = ns.map Mark.category) :
    position category ms = position category ns := by
  induction ms generalizing ns with
  | nil =>
    rw [List.map_nil, eq_comm, List.map_eq_nil_iff] at h
    rw [h]
  | cons m ms ih =>
    cases ns with
    | nil => simp at h
    | cons n ns =>
      rw [List.map_cons, List.map_cons, List.cons.injEq] at h
      funext i
      simp only [position, h.1, ih h.2]

/-- Without the marks of the other categories the marks still nest. -/
theorem wellNested_only (h : WellNested ms) (category : Category) :
    WellNested (only category ms) := by
  induction h with
  | nil => exact .nil
  | @styler target direction className rest _ ih =>
    by_cases hc : (Mark.styler target direction className).category = category
    · rw [only_cons_of_eq hc]
      exact .styler ih
    · rw [only_cons_of_ne hc]
      exact ih
  | @atomic c name classes rest _ ih =>
    by_cases hc : (Mark.atomic c name classes).category = category
    · rw [only_cons_of_eq hc]
      exact .atomic ih
    · rw [only_cons_of_ne hc]
      exact ih
  | @pair c name classes inner rest _ _ ihInner ihRest =>
    by_cases hc : (Mark.opening c name classes).category = category
    · have hclose : (Mark.closing c name).category = category := hc
      rw [only_cons_of_eq hc, only_append, only_cons_of_eq hclose]
      exact .pair ihInner ihRest
    · have hclose : (Mark.closing c name).category ≠ category := hc
      rw [only_cons_of_ne hc, only_append, only_cons_of_ne hclose]
      exact ihInner.append ihRest

/-- A pair of the category is one among the marks of the category. -/
theorem tagPair_only (h : TagPair ms category (position category ms i) (position category ms j)) :
    TagPair (only category ms) category i j := by
  obtain ⟨name, classes, hlt, hopen, hclose, hinner⟩ := h
  have hij := (strictMono_position category ms).lt_iff_lt.mp hlt
  rw [← getElem?_only] at hclose
  have hget : (only category ms)[i]? = some (.opening category name classes) := by
    rwa [getElem?_only]
  refine ⟨name, classes, hij, hget, hclose, ?_⟩
  -- What stands between the two is of the category if and only if it is there after all.
  have hfront : only category (ms.take (position category ms i + 1)) =
      (only category ms).take (i + 1) := by
    rw [List.take_add_one, only_append, only_take_position, List.take_add_one, hopen, hget]
    simp [only, Mark.category]
  have hsplit : ms.take (position category ms i + 1) ++
      (ms.take (position category ms j)).drop (position category ms i + 1) =
        ms.take (position category ms j) := by
    have := List.take_append_drop (position category ms i + 1) (ms.take (position category ms j))
    rwa [List.take_take, Nat.min_eq_left hlt] at this
  have honly := congrArg (only category) hsplit
  rw [only_append, hfront, only_take_position] at honly
  have hlen : ((only category ms).take (i + 1)).length = i + 1 := by
    have := lt_length_of_getElem? hget
    rw [List.length_take]
    omega
  rw [← honly, List.drop_left' hlen]
  exact wellNested_only hinner category

/-- The marks of a category stand in all marks, where the pairs of the category
are those that they are among themselves. -/
theorem embeds_only (hms : WellNested ms) :
    Embeds category (position category ms) (only category ms) ms where
  mono := strictMono_position category ms
  get := by
    intro i m hm
    rwa [← getElem?_only]
  pair := by
    intro i j h
    obtain ⟨name, classes, _, hopen, _, _⟩ := id h
    rw [getElem?_only] at hopen
    obtain ⟨l, hl⟩ := (hms.paired _ (lt_length_of_getElem? hopen)).closed hopen
    obtain ⟨_, _, _, _, hclose, _⟩ := id hl
    obtain ⟨j', rfl⟩ := exists_position hclose rfl
    obtain rfl := h.close_unique (tagPair_only hl)
    exact hl
  between := by
    intro i k l _ _ _ _ hl
    obtain ⟨m, hm, hevent⟩ := hl
    exact exists_position hm hevent.category_eq

theorem inside_only (h : Inside ms category (position category ms k)) :
    Inside (only category ms) category k := by
  obtain ⟨i, j, hik, hkj, hpair⟩ := h
  obtain ⟨_, _, _, hopen, hclose, _⟩ := id hpair
  obtain ⟨i, rfl⟩ := exists_position hopen rfl
  obtain ⟨j, rfl⟩ := exists_position hclose rfl
  have hmono := strictMono_position category ms
  exact ⟨i, j, hmono.lt_iff_lt.mp hik, hmono.lt_iff_lt.mp hkj, tagPair_only hpair⟩

theorem latest_only (hms : WellNested ms)
    (h : Latest (ms.take (position category ms k)) category (position category ms l)) :
    Latest ((only category ms).take k) category l := by
  have hmono := strictMono_position category ms
  obtain ⟨⟨m, hm, hevent⟩, hlast⟩ := h
  have hlk := lt_length_of_getElem? hm
  rw [List.length_take] at hlk
  have hlt : position category ms l < position category ms k := by omega
  refine ⟨⟨m, ?_, hevent⟩, ?_⟩
  · rwa [List.getElem?_take_of_lt (hmono.lt_iff_lt.mp hlt), getElem?_only,
      ← List.getElem?_take_of_lt hlt]
  · intro j hj
    exact hmono.le_iff_le.mp (hlast _ ((embeds_only hms).eventAt_take hj))

/-- The marks of a category of a document that fits are a document that fits. -/
theorem fits_only (h : Fits ms) (category : Category) : Fits (only category ms) := by
  obtain ⟨hnested, hserved⟩ := fits_iff.mp h
  refine fits_iff.mpr ⟨wellNested_only hnested category, ?_⟩
  intro k m hk
  have hcategory := (mem_only.mp (List.mem_of_getElem? hk)).2
  rw [getElem?_only] at hk
  have hm := hserved _ m hk
  cases m with
  | opening c name classes => trivial
  | atomic c name classes => trivial
  | closing c name => trivial
  | styler c direction name =>
    obtain rfl : c = category := hcategory
    cases direction with
    | previous =>
      obtain ⟨l, hlatest, hinside⟩ := hm
      obtain ⟨x, hx, hevent⟩ := hlatest.1
      have hlk := lt_length_of_getElem? hx
      rw [List.length_take] at hlk
      rw [List.getElem?_take_of_lt (by omega)] at hx
      obtain ⟨l, rfl⟩ := exists_position hx hevent.category_eq
      refine ⟨l, latest_only hnested hlatest, ?_⟩
      intro name' classes hopen
      rw [getElem?_only] at hopen
      exact inside_only (hinside name' classes hopen)
    | container => exact inside_only hm
    | next =>
      obtain ⟨i, hki, x, hx, htag⟩ := hm
      obtain ⟨i, rfl⟩ := exists_position hx (IsEvent.category_eq (Or.inl htag))
      refine ⟨i, (strictMono_position c ms).lt_iff_lt.mp hki, x, ?_, htag⟩
      rwa [getElem?_only]

end

section

variable {markers : List Marker}

theorem walk_ofCategory_ok (h : (walk markers).value.outcome = .ok ()) (category : Category) :
    (walk (ofCategory category markers)).value.outcome = .ok () := by
  apply walk_ok_of_fits
  rw [marksOf_ofCategory]
  exact fits_only (fits_of_walk_ok h) category

theorem map_category_walk (h : (walk markers).value.outcome = .ok ()) :
    (marksOf (walk markers).value.markers).map Mark.category =
      (marksOf markers).map Mark.category := by
  apply List.ext_getElem?
  intro i
  rw [List.getElem?_map, List.getElem?_map]
  cases hm : (marksOf markers)[i]? with
  | none =>
    have hlen := List.getElem?_eq_none_iff.mp hm
    rw [List.getElem?_eq_none]
    rwa [length_marksOf, length_walk, ← length_marksOf]
  | some m =>
    obtain ⟨names, _, hget⟩ := getElem?_marksOf_walk h hm
    rw [hget, Option.map_some, Option.map_some, Mark.category_addClasses]

/-- The walk over the markers of a category gives them what the walk over all
markers does. -/
theorem marksOf_walk_ofCategory (h : (walk markers).value.outcome = .ok ())
    (category : Category) :
    marksOf (walk (ofCategory category markers)).value.markers =
      marksOf (ofCategory category (walk markers).value.markers) := by
  have hown := walk_ofCategory_ok h category
  have hembeds : Embeds category (position category (marksOf markers))
      (marksOf (ofCategory category markers)) (marksOf markers) := by
    rw [marksOf_ofCategory]
    exact embeds_only (fits_of_walk_ok h).nested
  apply List.ext_getElem?
  intro i
  rw [marksOf_ofCategory, getElem?_only, position_congr (map_category_walk h)]
  cases hm : (marksOf (ofCategory category markers))[i]? with
  | none =>
    have hbound := List.getElem?_eq_none_iff.mp hm
    rw [marksOf_ofCategory, getElem?_only, List.getElem?_eq_none_iff, length_marksOf] at hm
    rw [length_marksOf] at hbound
    rw [List.getElem?_eq_none, List.getElem?_eq_none]
    · rwa [length_marksOf, length_walk]
    · rwa [length_marksOf, length_walk]
  | some m =>
    have hcategory : m.category = category := by
      rw [marksOf_ofCategory] at hm
      exact (mem_only.mp (List.mem_of_getElem? hm)).2
    refine (hembeds.getElem?_walk hown h hm hcategory ?_).symm
    intro l direction name hl _
    obtain ⟨k, rfl⟩ := exists_position hl rfl
    rw [← getElem?_only, ← marksOf_ofCategory] at hl
    exact ⟨k, lt_length_of_getElem? hl, rfl⟩

/-- The marks of one category of an accepted document are accepted by themselves
and are given the same classes. Whatever stands between them makes no difference:
two accepted documents with the same marks of a category give them the same
classes. -/
theorem walk_keeps_categories_apart (category : Category) (markers : List Marker)
    (h : (walk markers).value.outcome = .ok ()) :
    (walk (ofCategory category markers)).value.outcome = .ok () ∧
    marksOf (walk (ofCategory category markers)).value.markers =
      marksOf (ofCategory category (walk markers).value.markers) ∧
    ∀ markers', (walk markers').value.outcome = .ok () →
      marksOf (ofCategory category markers') = marksOf (ofCategory category markers) →
      marksOf (ofCategory category (walk markers').value.markers) =
        marksOf (ofCategory category (walk markers).value.markers) := by
  refine ⟨walk_ofCategory_ok h category, marksOf_walk_ofCategory h category, ?_⟩
  intro markers' h' hmarks
  rw [← marksOf_walk_ofCategory h category, ← marksOf_walk_ofCategory h' category]
  exact marksOf_walk_congr hmarks (walk_ofCategory_ok h' category)

/-- A styled paragraph around an emphasis, and the same one with a break in it. -/
theorem walk_keeps_categories_apart_paragraph :
    let markers : List Marker := [⟨0, none, .styler .block .next "lead"⟩,
      ⟨1, none, .styler .inline .next "strong"⟩, ⟨2, none, .opening .block "p" []⟩,
      ⟨3, none, .opening .inline "em" []⟩, ⟨4, none, .styler .block .container "wide"⟩,
      ⟨5, none, .closing .inline "em"⟩, ⟨6, none, .closing .block "p"⟩]
    let markers' : List Marker := [⟨9, none, .styler .block .next "lead"⟩,
      ⟨8, none, .opening .block "p" []⟩, ⟨7, none, .atomic .jcx "br" []⟩,
      ⟨6, none, .styler .block .container "wide"⟩, ⟨5, none, .closing .block "p"⟩]
    (walk markers).value.outcome = .ok () ∧ (walk markers').value.outcome = .ok () ∧
      marksOf (ofCategory .block markers') = marksOf (ofCategory .block markers) ∧
      marksOf (ofCategory .block (walk markers').value.markers) =
        marksOf (ofCategory .block (walk markers).value.markers) ∧
      marksOf (ofCategory .block (walk markers).value.markers) =
        [.styler .block .next "lead", .opening .block "p" ["lead", "wide"],
          .styler .block .container "wide", .closing .block "p"] :=
  ⟨rfl, rfl, rfl, (walk_keeps_categories_apart .block _ rfl).2.2 _ rfl rfl, rfl⟩

end

end DeferredMarkup.Nesting
