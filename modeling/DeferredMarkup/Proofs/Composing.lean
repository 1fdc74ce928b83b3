import DeferredMarkup.Proofs.Embedding

/-!
Documents put together. An accepted document may stand behind another one, and
it may stand inside of a tag that opens before it and closes behind it. Tags
before it and around it are then within sight of its stylers, but each of these
has found a nearer tag in its own document, and keeps to it.
-/
namespace DeferredMarkup.Nesting

section

variable {ms ns : List Mark} {m : Mark} {category : Category} {name : String}
  {classes : List String} {i k : Nat}

/-- Marks stand in a longer sequence, one behind the other, as they stand alone. -/
theorem embeds_within (before ms after : List Mark) (category : Category) :
    Embeds category (before.length + ·) ms (before ++ (ms ++ after)) where
  mono := fun i j hij => Nat.add_lt_add_left hij before.length
  get := by
    intro i m hm
    rw [List.getElem?_append_right (by omega), Nat.add_sub_cancel_left,
      List.getElem?_append_left (lt_length_of_getElem? hm)]
    exact hm
  pair := fun h => h.append.prepend before
  between := by
    intro i k l _ _ hil _ _
    exact ⟨l - before.length, by omega⟩

theorem embeds_left (ms ns : List Mark) (category : Category) :
    Embeds category (0 + ·) ms (ms ++ ns) := embeds_within [] ms ns category

theorem embeds_right (ms ns : List Mark) (category : Category) :
    Embeds category (ms.length + ·) ns (ms ++ ns) := by
  have := embeds_within ms ns [] category
  rwa [List.append_nil] at this

/-- What a mark needs it finds in any sequence in which its own one stands. -/
theorem served_of_embeds {f : Nat → Nat} (h : ∀ category, Embeds category f ms ns)
    (hk : ms[k]? = some m) (hserved : Served ms k m) : Served ns (f k) m := by
  cases m with
  | opening c name classes => trivial
  | atomic c name classes => trivial
  | closing c name => trivial
  | styler c direction name => exact (h c).served hk hserved

theorem fits_append (hms : Fits ms) (hns : Fits ns) : Fits (ms ++ ns) := by
  obtain ⟨hnested, hserved⟩ := fits_iff.mp hms
  obtain ⟨hnested', hserved'⟩ := fits_iff.mp hns
  refine fits_iff.mpr ⟨hnested.append hnested', ?_⟩
  intro k m hk
  rcases Nat.lt_or_ge k ms.length with hlt | hge
  · rw [List.getElem?_append_left hlt] at hk
    have := served_of_embeds (embeds_left ms ns) hk (hserved k m hk)
    rwa [Nat.zero_add] at this
  · obtain ⟨k, rfl⟩ := Nat.exists_eq_add_of_le hge
    rw [List.getElem?_append_right hge, Nat.add_sub_cancel_left] at hk
    exact served_of_embeds (embeds_right ms ns) hk (hserved' k m hk)

/-- The marks around which a tag opens and closes. -/
def wrap (category : Category) (name : String) (classes : List String) (ms : List Mark) :
    List Mark :=
  .opening category name classes :: (ms ++ [.closing category name])

theorem embeds_wrap (ms : List Mark) (category' : Category) :
    Embeds category' (1 + ·) ms (wrap category name classes ms) :=
  embeds_within [.opening category name classes] ms [.closing category name] category'

/-- Behind the opening tag come the marks and then the close. -/
theorem getElem?_wrap (hk : (wrap category name classes ms)[k]? = some m) :
    (k = 0 ∧ m = .opening category name classes) ∨ (∃ i, k = 1 + i ∧ ms[i]? = some m) ∨
      (k = 1 + ms.length ∧ m = .closing category name) := by
  unfold wrap at hk
  cases k with
  | zero =>
    rw [List.getElem?_cons_zero, Option.some.injEq] at hk
    exact Or.inl ⟨rfl, hk.symm⟩
  | succ k =>
    rw [List.getElem?_cons_succ] at hk
    rcases getElem?_concat.mp hk with hk | ⟨rfl, hm⟩
    · exact Or.inr (Or.inl ⟨k, Nat.add_comm k 1, hk⟩)
    · exact Or.inr (Or.inr ⟨Nat.add_comm ms.length 1, hm.symm⟩)

theorem fits_wrap (h : Fits ms) : Fits (wrap category name classes ms) := by
  obtain ⟨hnested, hserved⟩ := fits_iff.mp h
  refine fits_iff.mpr ⟨.pair hnested .nil, ?_⟩
  intro k m hk
  rcases getElem?_wrap hk with ⟨_, rfl⟩ | ⟨i, rfl, hi⟩ | ⟨_, rfl⟩
  · trivial
  · exact served_of_embeds (embeds_wrap ms) hi (hserved i m hi)
  · trivial

/-- A styler of one of two documents aims at a tag of the same one. -/
theorem target_append (hms : Fits ms) (hns : Fits ns) (h : Target (ms ++ ns) k i) :
    k < ms.length ↔ i < ms.length := by
  have hnested := (fits_append hms hns).nested
  obtain ⟨c, direction, name, hk⟩ := h.styler
  rcases Nat.lt_or_ge k ms.length with hlt | hge
  · rw [List.getElem?_append_left hlt] at hk
    obtain ⟨j, hj⟩ := hms.exists_target hk
    have htarget := (embeds_left ms ns c).target hms.nested hnested hk hj
    rw [Nat.zero_add, Nat.zero_add] at htarget
    obtain rfl := h.unique htarget
    exact iff_of_true hlt hj.lt_length.2
  · obtain ⟨k, rfl⟩ := Nat.exists_eq_add_of_le hge
    rw [List.getElem?_append_right hge, Nat.add_sub_cancel_left] at hk
    obtain ⟨j, hj⟩ := hns.exists_target hk
    have htarget := (embeds_right ms ns c).target hns.nested hnested hk hj
    obtain rfl := h.unique htarget
    exact iff_of_false (by omega) (by omega)

/-- No styler inside of a tag aims at it when its own document has a tag for it. -/
theorem target_wrap (hms : Fits ms) (h : Target (wrap category name classes ms) k i) :
    (∃ j < ms.length, k = 1 + j) ∧ i ≠ 0 := by
  obtain ⟨c, direction, name', hk⟩ := h.styler
  rcases getElem?_wrap hk with ⟨_, hm⟩ | ⟨l, rfl, hl⟩ | ⟨_, hm⟩
  · cases hm
  · obtain ⟨j, hj⟩ := hms.exists_target hl
    have hembeds : Embeds c (1 + ·) ms (wrap category name classes ms) := embeds_wrap ms c
    obtain rfl := h.unique (hembeds.target hms.nested (fits_wrap hms).nested hl hj)
    exact ⟨⟨l, lt_length_of_getElem? hl, rfl⟩, by omega⟩
  · cases hm

end

section

variable {left right inner outer : List Marker} {category : Category} {name : String}
  {classes : List String}

theorem marksOf_append (left right : List Marker) :
    marksOf (left ++ right) = marksOf left ++ marksOf right := List.map_append

/-- An accepted document in another one has there the classes that it has by
itself, when no other styler aims at its tags. -/
theorem marksOf_walk_within (before after : List Mark)
    (hmarks : marksOf outer = before ++ (marksOf inner ++ after))
    (hinner : (walk inner).value.outcome = .ok ()) (houter : (walk outer).value.outcome = .ok ())
    (hown : ∀ l i, Target (marksOf outer) l i → before.length ≤ i →
      i < before.length + inner.length → before.length ≤ l ∧ l < before.length + inner.length) :
    ((marksOf (walk outer).value.markers).drop before.length).take inner.length =
      marksOf (walk inner).value.markers := by
  apply List.ext_getElem?
  intro i
  by_cases hi : i < inner.length
  · have hembeds := embeds_within before (marksOf inner) after
    rw [← hmarks] at hembeds
    have hm := List.getElem?_eq_getElem (length_marksOf inner ▸ hi : i < (marksOf inner).length)
    rw [List.getElem?_take_of_lt hi, List.getElem?_drop]
    apply (hembeds _).getElem?_walk hinner houter hm rfl
    intro l direction name _ hl
    obtain ⟨hlow, hhigh⟩ := hown l _ hl (by omega) (by omega)
    refine ⟨l - before.length, ?_, by omega⟩
    rw [length_marksOf]
    omega
  · rw [List.getElem?_eq_none, List.getElem?_eq_none]
    · rw [length_marksOf, length_walk]
      omega
    · rw [List.length_take]
      omega

/-- Two accepted documents are accepted one behind the other, and every tag has
the classes that it has in its own. -/
theorem walk_append (hleft : (walk left).value.outcome = .ok ())
    (hright : (walk right).value.outcome = .ok ()) :
    (walk (left ++ right)).value.outcome = .ok () ∧
      marksOf (walk (left ++ right)).value.markers =
        marksOf (walk left).value.markers ++ marksOf (walk right).value.markers := by
  have hfits := fits_of_walk_ok hleft
  have hfits' := fits_of_walk_ok hright
  have hmarks := marksOf_append left right
  have hboth : (walk (left ++ right)).value.outcome = .ok () := by
    apply walk_ok_of_fits
    rw [hmarks]
    exact fits_append hfits hfits'
  have haim : ∀ {l i}, Target (marksOf (left ++ right)) l i →
      (l < left.length ↔ i < left.length) := by
    intro l i h
    rw [hmarks] at h
    have := target_append hfits hfits' h
    rwa [length_marksOf] at this
  have hfirst : (marksOf (walk (left ++ right)).value.markers).take left.length =
      marksOf (walk left).value.markers := by
    apply marksOf_walk_within [] (marksOf right) hmarks hleft hboth
    intro l i h _ hi
    rw [List.length_nil, Nat.zero_add] at hi ⊢
    exact ⟨Nat.zero_le l, (haim h).mpr hi⟩
  have hsecond : (marksOf (walk (left ++ right)).value.markers).drop left.length =
      marksOf (walk right).value.markers := by
    have hlength : (marksOf (walk (left ++ right)).value.markers).length =
        left.length + right.length := by
      rw [length_marksOf, length_walk, List.length_append]
    have hwithin :=
      marksOf_walk_within (marksOf left) [] (by rwa [List.append_nil]) hright hboth ?_
    · rwa [length_marksOf, List.take_of_length_le (by rw [List.length_drop]; omega)] at hwithin
    · intro l i h hlow _
      rw [length_marksOf] at hlow ⊢
      have hl := h.lt_length.1
      rw [length_marksOf, List.length_append] at hl
      have := mt (haim h).mp (Nat.not_lt.mpr hlow)
      exact ⟨Nat.not_lt.mp this, hl⟩
  refine ⟨hboth, ?_⟩
  rw [← hfirst, ← hsecond, List.take_append_drop]

theorem marksOf_wrap {opening closing : Marker}
    (hopening : opening.mark = .opening category name classes)
    (hclosing : closing.mark = .closing category name) (inner : List Marker) :
    marksOf (opening :: (inner ++ [closing])) = wrap category name classes (marksOf inner) := by
  rw [marksOf, List.map_cons, List.map_append, List.map_singleton, hopening, hclosing]
  rfl

theorem walk_wrap_ok {opening closing : Marker}
    (hopening : opening.mark = .opening category name classes)
    (hclosing : closing.mark = .closing category name)
    (hinner : (walk inner).value.outcome = .ok ()) :
    (walk (opening :: (inner ++ [closing]))).value.outcome = .ok () := by
  apply walk_ok_of_fits
  rw [marksOf_wrap hopening hclosing]
  exact fits_wrap (fits_of_walk_ok hinner)

/-- No styler inside of a tag aims at the tag itself. -/
theorem marksOf_walk_wrap_head {opening closing : Marker}
    (hopening : opening.mark = .opening category name classes)
    (hclosing : closing.mark = .closing category name)
    (hinner : (walk inner).value.outcome = .ok ()) :
    (marksOf (walk (opening :: (inner ++ [closing]))).value.markers)[0]? =
      some (.opening category name classes) := by
  have hmarks := marksOf_wrap hopening hclosing inner
  have hm : (marksOf (opening :: (inner ++ [closing])))[0]? =
      some (.opening category name classes) := by
    rw [hmarks]
    rfl
  obtain ⟨names, hnames, hget⟩ :=
    getElem?_marksOf_walk (walk_wrap_ok hopening hclosing hinner) hm
  obtain rfl : names = [] := by
    apply hnames.eq_nil
    intro l hl
    rw [hmarks] at hl
    exact (target_wrap (fits_of_walk_ok hinner) hl).2 rfl
  rw [hget, Mark.addClasses, List.append_nil]

/-- An accepted document is accepted inside of a tag. The tag gets no class from
there, and the tags inside have the classes that they have without it. -/
theorem walk_wrap {opening closing : Marker}
    (hopening : opening.mark = .opening category name classes)
    (hclosing : closing.mark = .closing category name)
    (hinner : (walk inner).value.outcome = .ok ()) :
    (walk (opening :: (inner ++ [closing]))).value.outcome = .ok () ∧
      marksOf (walk (opening :: (inner ++ [closing]))).value.markers =
        wrap category name classes (marksOf (walk inner).value.markers) := by
  have hmarks := marksOf_wrap hopening hclosing inner
  have hwhole := walk_wrap_ok hopening hclosing hinner
  have hwithin := marksOf_walk_within [.opening category name classes] [.closing category name]
    hmarks hinner hwhole (by
      intro l i h _ _
      rw [hmarks] at h
      obtain ⟨⟨j, hj, rfl⟩, _⟩ := target_wrap (fits_of_walk_ok hinner) h
      rw [length_marksOf] at hj
      simp only [List.length_singleton]
      omega)
  have hlen : (marksOf (walk inner).value.markers).length = inner.length := by
    rw [length_marksOf, length_walk]
  refine ⟨hwhole, ?_⟩
  apply List.ext_getElem?
  intro i
  cases i with
  | zero =>
    rw [marksOf_walk_wrap_head hopening hclosing hinner]
    rfl
  | succ i =>
    rw [wrap, List.getElem?_cons_succ]
    rcases Nat.lt_trichotomy i inner.length with hlt | rfl | hgt
    · rw [List.getElem?_append_left (hlen ▸ hlt), ← hwithin, List.getElem?_take_of_lt hlt,
        List.getElem?_drop, List.length_singleton, Nat.add_comm]
    · have hm : (marksOf (opening :: (inner ++ [closing])))[inner.length + 1]? =
          some (.closing category name) := by
        rw [hmarks, wrap, List.getElem?_cons_succ, ← length_marksOf inner,
          List.getElem?_concat_length]
      obtain ⟨names, _, hget⟩ := getElem?_marksOf_walk hwhole hm
      rw [hget, Mark.addClasses_eq_self rfl, ← hlen, List.getElem?_concat_length]
    · rw [List.getElem?_eq_none, List.getElem?_eq_none]
      · rw [List.length_append, hlen, List.length_singleton]
        omega
      · rw [length_marksOf, length_walk, List.length_cons, List.length_append,
          List.length_singleton]
        omega

end

end DeferredMarkup.Nesting
