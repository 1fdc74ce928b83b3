import DeferredMarkup.Proofs.ClassPlacement
import Mathlib.Order.Monotone.Basic

/-!
Documents that stand in other documents. The marks of one sequence are found in
another, in the same order, and wherever the one has a tag with its close, so
has the other. When no tag or close of a category comes between those of the
first, its stylers of that category aim at the same tags in either place, and
what else the other document holds takes no part in it.
-/
namespace DeferredMarkup

theorem Mark.addClasses_eq_self {m : Mark} {added : List String} (h : m.tag? = none) :
    m.addClasses added = m := by
  cases m with
  | opening category name classes => cases h
  | atomic category name classes => cases h
  | closing category name => rfl
  | styler category direction name => rfl

@[simp] theorem Mark.category_addClasses (m : Mark) (added : List String) :
    (m.addClasses added).category = m.category := by
  cases m <;> rfl

namespace Nesting

/-- A styler at a position finds a tag where it looks. Other marks look for none. -/
def Served (ms : List Mark) (k : Nat) : Mark → Prop
  | .styler c .container _ => Inside ms c k
  | .styler c .previous _ => ∃ l, Latest (ms.take k) c l ∧
      ∀ name classes, ms[l]? = some (.opening c name classes) → Inside ms c l
  | .styler c .next _ => ∃ i, k < i ∧ TagAt ms c i
  | _ => True

theorem fits_iff {ms : List Mark} :
    Fits ms ↔ WellNested ms ∧ ∀ k m, ms[k]? = some m → Served ms k m := by
  constructor
  · intro h
    refine ⟨h.nested, ?_⟩
    intro k m hk
    cases m with
    | opening category name classes => trivial
    | atomic category name classes => trivial
    | closing category name => trivial
    | styler category direction name =>
      cases direction with
      | previous => exact h.previous k category name hk
      | container => exact h.container k category name hk
      | next => exact h.next k category name hk
  · intro h
    obtain ⟨hnested, hserved⟩ := h
    exact ⟨hnested, fun k c name hk => hserved k _ hk, fun k c name hk => hserved k _ hk,
      fun k c name hk => hserved k _ hk⟩

theorem TagAt.category_unique {ms : List Mark} {c c' : Category} {i : Nat} (h : TagAt ms c i)
    (h' : TagAt ms c' i) : c = c' := by
  obtain ⟨m, hm, name, htag⟩ := h
  obtain ⟨m', hm', name', htag'⟩ := h'
  cases hm.symm.trans hm'
  cases htag.symm.trans htag'
  rfl

theorem Target.styler {ms : List Mark} {k i : Nat} (h : Target ms k i) :
    ∃ category direction name, ms[k]? = some (.styler category direction name) := by
  cases h with
  | next c name hstyler => exact ⟨c, .next, name, hstyler⟩
  | container c name hstyler => exact ⟨c, .container, name, hstyler⟩
  | previous c name hstyler => exact ⟨c, .previous, name, hstyler⟩

/-- What aims at a tag is a styler of its category. -/
theorem Target.exists_styler {ms : List Mark} {category : Category} {k i : Nat}
    (h : Target ms k i) (htag : TagAt ms category i) :
    ∃ direction name, ms[k]? = some (.styler category direction name) := by
  obtain ⟨c, direction, name, hk⟩ := h.styler
  obtain rfl := (h.tagAt hk).category_unique htag
  exact ⟨direction, name, hk⟩

/-- An accepted walk adds to every mark the classes of the stylers that aim at it. -/
theorem getElem?_marksOf_walk {markers : List Marker} {m : Mark} {i : Nat}
    (h : (walk markers).value.outcome = .ok ()) (hm : (marksOf markers)[i]? = some m) :
    ∃ names, ClassesOf (marksOf markers) (Target (marksOf markers) · i) names ∧
      (marksOf (walk markers).value.markers)[i]? = some (m.addClasses names) := by
  obtain ⟨marker, hmarker, rfl⟩ := getElem?_marksOf_eq_some hm
  obtain ⟨names, hnames, hget⟩ := Nesting.getElem?_walk h hmarker
  exact ⟨names, hnames, getElem?_marksOf hget⟩

/-- The marks of `ms` stand in `ns` at the positions that `f` gives. Tag pairs of
a category are kept, and its tags and closes between two of these positions are
themselves marks of `ms`. -/
structure Embeds (category : Category) (f : Nat → Nat) (ms ns : List Mark) : Prop where
  mono : StrictMono f
  get : ∀ {i m}, ms[i]? = some m → ns[f i]? = some m
  pair : ∀ {i j}, TagPair ms category i j → TagPair ns category (f i) (f j)
  between : ∀ {i k l}, i < ms.length → k < ms.length → f i ≤ l → l ≤ f k →
    EventAt ns category l → ∃ j, l = f j

namespace Embeds

variable {ms ns : List Mark} {f : Nat → Nat} {m : Mark} {category : Category} {i j k l : Nat}

theorem get_of_lt (h : Embeds category f ms ns) (hi : i < ms.length)
    (hm : ns[f i]? = some m) : ms[i]? = some m := by
  have hget := List.getElem?_eq_getElem hi
  rw [hget, ← h.get hget, hm]

theorem tagAt (h : Embeds category f ms ns) (htag : TagAt ms category i) :
    TagAt ns category (f i) := by
  obtain ⟨m, hm, htag⟩ := htag
  exact ⟨m, h.get hm, htag⟩

theorem eventAt_between (h : Embeds category f ms ns) (hi : i < ms.length) (hk : k < ms.length)
    (hil : f i ≤ l) (hlk : l ≤ f k) (hl : EventAt ns category l) :
    ∃ j, l = f j ∧ i ≤ j ∧ j ≤ k ∧ EventAt ms category j := by
  obtain ⟨j, rfl⟩ := h.between hi hk hil hlk hl
  have hij := h.mono.le_iff_le.mp hil
  have hjk := h.mono.le_iff_le.mp hlk
  obtain ⟨m, hm, hevent⟩ := hl
  exact ⟨j, rfl, hij, hjk, m, h.get_of_lt (by omega) hm, hevent⟩

theorem inside (h : Embeds category f ms ns) (hinside : Inside ms category k) :
    Inside ns category (f k) := by
  obtain ⟨i, j, hik, hkj, hpair⟩ := hinside
  exact ⟨f i, f j, h.mono hik, h.mono hkj, h.pair hpair⟩

theorem eventAt_take (h : Embeds category f ms ns) (hl : EventAt (ms.take k) category l) :
    EventAt (ns.take (f k)) category (f l) := by
  obtain ⟨m, hm, hevent⟩ := hl
  have hlk := lt_length_of_getElem? hm
  rw [List.length_take] at hlk
  rw [List.getElem?_take_of_lt (by omega)] at hm
  refine ⟨m, ?_, hevent⟩
  rw [List.getElem?_take_of_lt (h.mono (by omega))]
  exact h.get hm

/-- The last tag or close before a position is the same mark in both places. -/
theorem latest (h : Embeds category f ms ns) (hk : k < ms.length)
    (hl : Latest (ms.take k) category l) : Latest (ns.take (f k)) category (f l) := by
  obtain ⟨hevent, hlast⟩ := hl
  have hlk := hevent.lt_length
  rw [List.length_take] at hlk
  refine ⟨h.eventAt_take hevent, ?_⟩
  intro j hj
  by_contra hnot
  obtain ⟨m, hm, hcategory⟩ := hj
  have hjk := lt_length_of_getElem? hm
  rw [List.length_take] at hjk
  rw [List.getElem?_take_of_lt (by omega)] at hm
  have hlj : f l ≤ j := by omega
  obtain ⟨j', rfl, hlj', hjk', x, hx, hxevent⟩ :=
    h.eventAt_between (by omega) hk hlj (by omega) ⟨m, hm, hcategory⟩
  have hlt := h.mono.lt_iff_lt.mp (show f j' < f k by omega)
  have hle := hlast j' ⟨x, by rwa [List.getElem?_take_of_lt hlt], hxevent⟩
  exact hnot (h.mono.monotone hle)

/-- A tag is innermost in both places: one that opens later in `ns` is a mark
of `ms`, and its close stands on the same side. -/
theorem innermost (h : Embeds category f ms ns) (hms : WellNested ms) (hns : WellNested ns)
    (hk : k < ms.length) (hi : Innermost (ms.take k) category i) :
    Innermost (ns.take (f k)) category (f i) := by
  obtain ⟨hopen, hlast⟩ := hi
  obtain ⟨hik, j, hkj, hpair⟩ := (stillOpen_take_iff hms).mp hopen
  refine ⟨(stillOpen_take_iff hns).mpr
    ⟨h.mono hik, f j, h.mono.monotone hkj, h.pair hpair⟩, ?_⟩
  intro l hl
  by_contra hnot
  obtain ⟨hlk, j', hkj', hpair'⟩ := (stillOpen_take_iff hns).mp hl
  obtain ⟨name, classes, _, hget, _, _⟩ := id hpair'
  have hil : f i ≤ l := by omega
  obtain ⟨l', rfl, hil', _, _⟩ := h.eventAt_between (by omega) hk hil (Nat.le_of_lt hlk)
    ⟨_, hget, isEvent_opening.mpr rfl⟩
  have hlk' := h.mono.lt_iff_lt.mp hlk
  have hget' := h.get_of_lt (by omega) hget
  obtain ⟨b, hb⟩ := (hms.paired l' (by omega)).closed hget'
  have hclose : f b = j' := (h.pair hb).close_unique hpair'
  have hkb : k ≤ b := h.mono.le_iff_le.mp (hclose ▸ hkj')
  have hle := hlast l' ((stillOpen_take_iff hms).mpr ⟨hlk', b, hkb, hb⟩)
  exact hnot (h.mono.monotone hle)

/-- A look back reaches the same tag in both places. -/
theorem recent (h : Embeds category f ms ns) (hms : WellNested ms) (hns : WellNested ns)
    (hk : k < ms.length) (hi : Recent (ms.take k) category i) :
    Recent (ns.take (f k)) category (f i) := by
  obtain ⟨l, m, hlatest, hm, hstands⟩ := hi
  have hlk := hlatest.1.lt_length
  rw [List.length_take] at hlk
  have hlt : l < k := by omega
  have hflt : f l < f k := h.mono hlt
  rw [List.getElem?_take_of_lt hlt] at hm
  refine ⟨f l, m, h.latest hk hlatest, ?_, ?_⟩
  · rw [List.getElem?_take_of_lt hflt]
    exact h.get hm
  · obtain ⟨x, hx, hevent⟩ := hlatest.1
    rw [List.getElem?_take_of_lt hlt] at hx
    cases hm.symm.trans hx
    cases m with
    | opening c name classes =>
      obtain rfl : c = category := by simpa using hevent
      simp only [StandsFor, List.take_take, Nat.min_eq_left (Nat.le_of_lt hlt)] at hstands
      simp only [StandsFor, List.take_take, Nat.min_eq_left (Nat.le_of_lt hflt)]
      exact h.innermost hms hns (by omega) hstands
    | atomic c name classes => exact congrArg f hstands
    | closing c name =>
      obtain rfl : c = category := by simpa using hevent
      exact (TagPair.take_iff hflt).mpr (h.pair ((TagPair.take_iff hlt).mp hstands))
    | styler c direction name => exact False.elim hstands

variable {direction : Direction} {name : String}

theorem target (h : Embeds category f ms ns) (hms : WellNested ms) (hns : WellNested ns)
    (hk : ms[k]? = some (.styler category direction name)) (hi : Target ms k i) :
    Target ns (f k) (f i) := by
  have hlen := lt_length_of_getElem? hk
  cases hi with
  | next c name' hstyler hahead htag hfirst =>
    cases hk.symm.trans hstyler
    refine .next category name (h.get hstyler) (h.mono hahead) (h.tagAt htag) ?_
    intro j hj hjtag
    by_contra hji
    obtain ⟨m, hm, htagm⟩ := hjtag
    obtain ⟨j', rfl, hkj, hji', hevent⟩ := h.eventAt_between hlen htag.lt_length
      (Nat.le_of_lt hj) (by omega) ⟨m, hm, Or.inl htagm⟩
    have hjtag' : TagAt ms category j' := ⟨m, h.get_of_lt hevent.lt_length hm, htagm⟩
    have := hfirst j' (h.mono.lt_iff_lt.mp hj) hjtag'
    exact hji (h.mono.monotone this)
  | container c name' hstyler haround =>
    cases hk.symm.trans hstyler
    exact .container category name (h.get hstyler) (h.innermost hms hns hlen haround)
  | previous c name' hstyler hback =>
    cases hk.symm.trans hstyler
    exact .previous category name (h.get hstyler) (h.recent hms hns hlen hback)

/-- A styler that finds a tag in `ms` finds one in `ns`. -/
theorem served (h : Embeds category f ms ns)
    (hk : ms[k]? = some (.styler category direction name))
    (hserved : Served ms k (.styler category direction name)) :
    Served ns (f k) (.styler category direction name) := by
  have hlen := lt_length_of_getElem? hk
  cases direction with
  | previous =>
    obtain ⟨l, hlatest, hinside⟩ := hserved
    have hl := hlatest.1.lt_length
    rw [List.length_take] at hl
    refine ⟨f l, h.latest hlen hlatest, ?_⟩
    intro name' classes hopen
    exact h.inside (hinside name' classes (h.get_of_lt (by omega) hopen))
  | container => exact h.inside hserved
  | next =>
    obtain ⟨i, hki, htag⟩ := hserved
    exact ⟨f i, h.mono hki, h.tagAt htag⟩

/-- A tag of `ms` is given the same classes in `ns`, when only stylers of `ms`
aim at it there. -/
theorem classesOf {names : List String} (h : Embeds category f ms ns) (hms : Fits ms)
    (hns : WellNested ns) (htag : TagAt ms category i)
    (hown : ∀ l direction name, ns[l]? = some (.styler category direction name) →
      Target ns l (f i) → ∃ k < ms.length, l = f k)
    (hnames : ClassesOf ms (Target ms · i) names) : ClassesOf ns (Target ns · (f i)) names := by
  obtain ⟨ks, hks, hmem, hall⟩ := hnames
  refine ⟨ks.map f, ?_, ?_, ?_⟩
  · exact List.pairwise_map.mpr (hks.imp fun hab => h.mono hab)
  · intro l
    rw [List.mem_map]
    constructor
    · intro hl
      obtain ⟨k, hk, rfl⟩ := hl
      have htarget := (hmem k).mp hk
      obtain ⟨direction, name, hstyler⟩ := htarget.exists_styler htag
      exact h.target hms.nested hns hstyler htarget
    · intro hl
      obtain ⟨direction, name, hstyler⟩ := hl.exists_styler (h.tagAt htag)
      obtain ⟨k, hk, rfl⟩ := hown l direction name hstyler hl
      have hstyler := h.get_of_lt hk hstyler
      obtain ⟨j, hj⟩ := hms.exists_target hstyler
      have hji := (h.target hms.nested hns hstyler hj).unique hl
      exact ⟨k, (hmem k).mpr (h.mono.injective hji ▸ hj), rfl⟩
  · rw [List.forall₂_map_left_iff]
    apply hall.imp
    intro k name hk
    obtain ⟨c, direction, hk⟩ := hk
    exact ⟨c, direction, h.get hk⟩

/-- Two accepted documents, the one in the other, are given the same marks. -/
theorem getElem?_walk {inner outer : List Marker}
    (h : Embeds category f (marksOf inner) (marksOf outer))
    (hinner : (walk inner).value.outcome = .ok ()) (houter : (walk outer).value.outcome = .ok ())
    (hm : (marksOf inner)[i]? = some m) (hcategory : m.category = category)
    (hown : ∀ l direction name, (marksOf outer)[l]? = some (.styler category direction name) →
      Target (marksOf outer) l (f i) → ∃ k < (marksOf inner).length, l = f k) :
    (marksOf (walk outer).value.markers)[f i]? = (marksOf (walk inner).value.markers)[i]? := by
  have hinnerFits := fits_of_walk_ok hinner
  have houterFits := fits_of_walk_ok houter
  obtain ⟨names, hnames, hget⟩ := getElem?_marksOf_walk hinner hm
  obtain ⟨names', hnames', hget'⟩ := getElem?_marksOf_walk houter (h.get hm)
  rw [hget, hget']
  by_cases htag : IsTag category m
  · have hsame := h.classesOf hinnerFits houterFits.nested ⟨m, hm, htag⟩ hown hnames
    rw [hsame.unique hnames']
  · have hnone : m.tag? = none := by
      cases m with
      | opening c name classes => exact absurd (isTag_opening.mpr hcategory) htag
      | atomic c name classes => exact absurd (isTag_atomic.mpr hcategory) htag
      | closing c name => rfl
      | styler c direction name => rfl
    rw [Mark.addClasses_eq_self hnone, Mark.addClasses_eq_self hnone]

end Embeds

end Nesting

end DeferredMarkup
