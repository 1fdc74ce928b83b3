import DeferredMarkup.Proofs.Acceptance

/-!
What is left over where a walk ends. When all markers have fitted, the tags that
have no close are reported, in the order in which they stand. When every tag is
closed, the classes that wait for a tag are reported, and those of one category
alone, the first that has any. What remains is told from positions, and there
is one thing only that can be reported of a document.
-/
namespace DeferredMarkup.Nesting

/-- What is said of exactly the markers at the positions with a property, in the
order in which they stand. -/
def DescriptionsOf (markers : List Marker) (P : Nat → Prop) (texts : List String) : Prop :=
  ∃ is : List Nat, is.Pairwise (· < ·) ∧ (∀ i, i ∈ is ↔ P i) ∧
    List.Forall₂ (fun i text => markers[i]?.map Marker.describe = some text) is texts

/-- An opening tag of any category that has no close. -/
def NeverClosed (ms : List Mark) (i : Nat) : Prop := ∃ category, StillOpen ms category i

/-- What a walk comes to that goes through all markers. Open tags come before
classes that wait, and of these come those of the first category in which any
waits, each of them behind the last tag of its category. -/
inductive Remains (markers : List Marker) : Except Fault Unit → Prop
  | unclosed (i : Nat) (tags : List String) (tag : NeverClosed (marksOf markers) i)
      (listed : DescriptionsOf markers (NeverClosed (marksOf markers)) tags) :
      Remains markers (.error (.unclosedTags tags))
  | waiting (category : Category) (k : Nat) (names : List String)
      (closed : ∀ i, ¬ NeverClosed (marksOf markers) i)
      (styler : Waiting (marksOf markers) category k)
      (first : ∀ c, c.index < category.index → ∀ k, ¬ Waiting (marksOf markers) c k)
      (listed : ClassesOf (marksOf markers) (Waiting (marksOf markers) category) names) :
      Remains markers (.error (.classesLeftOver category names))
  | nothing (closed : ∀ i, ¬ NeverClosed (marksOf markers) i)
      (applied : ∀ c k, ¬ Waiting (marksOf markers) c k) :
      Remains markers (.ok ())

section

variable {markers : List Marker} {s : State} {category : Category} {P : Nat → Prop}

theorem DescriptionsOf.unique {texts texts' : List String} (h : DescriptionsOf markers P texts)
    (h' : DescriptionsOf markers P texts') : texts = texts' := by
  obtain ⟨is, his, hmem, htexts⟩ := h
  obtain ⟨is', his', hmem', htexts'⟩ := h'
  have hsame : is = is' := by
    apply eq_of_ascending his his'
    intro i
    rw [hmem, hmem']
  subst hsame
  refine List.right_unique_forall₂' ?_ htexts htexts'
  intro i text text' htext htext'
  exact Option.some.inj (htext.symm.trans htext')

/-- There is one way only in which a document can end. -/
theorem Remains.unique {outcome outcome' : Except Fault Unit} (h : Remains markers outcome)
    (h' : Remains markers outcome') : outcome = outcome' := by
  cases h with
  | unclosed i tags htag hlisted =>
    cases h' with
    | unclosed i' tags' _ hlisted' => rw [hlisted.unique hlisted']
    | waiting _ _ _ hclosed => exact absurd htag (hclosed i)
    | nothing hclosed => exact absurd htag (hclosed i)
  | waiting c k names hclosed hstyler hfirst hlisted =>
    cases h' with
    | unclosed i _ htag => exact absurd htag (hclosed i)
    | waiting c' k' names' _ hstyler' hfirst' hlisted' =>
      have hc : c = c' := by
        apply Category.eq_of_index_eq
        by_contra hne
        rcases Nat.lt_or_gt_of_ne hne with hlt | hlt
        · exact hfirst' c hlt k hstyler
        · exact hfirst c' hlt k' hstyler'
      subst hc
      rw [hlisted.unique hlisted']
    | nothing _ happlied => exact absurd hstyler (happlied c k)
  | nothing hclosed happlied =>
    cases h' with
    | unclosed i _ htag => exact absurd htag (hclosed i)
    | waiting c k _ _ hstyler => exact absurd hstyler (happlied c k)
    | nothing => rfl

/-- The first category with a property comes before all others that have it. -/
theorem find?_all_eq_some_iff {p : Category → Bool} : Category.all.find? p = some category ↔
    p category ∧ ∀ c, c.index < category.index → p c = false := by
  have hall : (∀ c, c.index < category.index → p c = false) ↔
      (0 < category.index → p .jcx = false) ∧ (1 < category.index → p .block = false) ∧
        (2 < category.index → p .inline = false) :=
    ⟨fun h => ⟨h .jcx, h .block, h .inline⟩, fun h c => by cases c <;> simp_all [Category.index]⟩
  rw [hall]
  cases hj : p .jcx <;> cases hb : p .block <;> cases hi : p .inline <;> cases category <;>
    simp [Category.all, Category.index, List.find?, hj, hb, hi]

namespace Aligned

theorem neverClosed_iff (h : Aligned markers s) {i : Nat} :
    NeverClosed (marksOf markers) i ↔ ∃ t ∈ s.openTags, t.index = i := by
  unfold NeverClosed
  rw [← h.spine.mem_iff, List.mem_map]

/-- The stack of open tags lists, from its bottom, what was never closed. -/
theorem descriptionsOf_openTags (h : Aligned markers s) :
    DescriptionsOf markers (NeverClosed (marksOf markers))
      (s.openTags.reverse.map Site.describe) := by
  refine ⟨s.openTags.reverse.map (·.index), ?_, ?_, ?_⟩
  · rw [List.map_reverse, List.pairwise_reverse]
    exact h.spine.descending
  · intro i
    rw [List.map_reverse, List.mem_reverse, h.spine.mem_iff]
    rfl
  · rw [List.forall₂_map_left_iff, List.forall₂_map_right_iff, List.forall₂_same]
    intro t ht
    rw [h.sited t (List.mem_reverse.mp ht)]
    rfl

end Aligned

theorem Tracked.queued_eq_nil_iff (h : Tracked markers s) :
    (s.lane category).queued = [] ↔ ∀ k, ¬ Waiting (marksOf markers) category k := by
  have hqueued := h.queued category
  constructor
  · intro hnil
    rw [hnil] at hqueued
    exact hqueued.not_of_nil
  · intro hnone
    exact List.reverse_eq_nil_iff.mp (hqueued.eq_nil hnone)

/-- What a walk reports at its end is what remains of the document. -/
theorem Reached.remains (h : Reached markers s) : Remains markers (verdict s.leftover?) := by
  have haligned := h.aligned
  by_cases hstack : s.openTags = []
  · have hclosed : ∀ i, ¬ NeverClosed (marksOf markers) i := by
      intro i
      rw [haligned.neverClosed_iff, hstack]
      simp
    rw [haligned.leftover?_of_closed hstack]
    cases hfind : Category.all.find? fun c => !(s.lane c).queued.isEmpty with
    | none =>
      refine .nothing hclosed ?_
      intro c
      rw [List.find?_eq_none] at hfind
      have hnil := hfind c (by cases c <;> simp [Category.all])
      exact h.tracked.queued_eq_nil_iff.mp (by simpa using hnil)
    | some c =>
      obtain ⟨hwaits, hbefore⟩ := find?_all_eq_some_iff.mp hfind
      obtain ⟨k, hk⟩ : ∃ k, Waiting (marksOf markers) c k := by
        by_contra hnone
        rw [not_exists, ← h.tracked.queued_eq_nil_iff] at hnone
        simp [hnone] at hwaits
      refine .waiting c k _ hclosed hk ?_ (h.tracked.queued c)
      intro c' hc'
      have hnil := hbefore c' hc'
      exact h.tracked.queued_eq_nil_iff.mp (by simpa using hnil)
  · obtain ⟨t, ht⟩ := List.exists_mem_of_ne_nil _ hstack
    have hleft : s.leftover? = some (.unclosedTags (s.openTags.reverse.map Site.describe)) := by
      simp [State.leftover?, hstack]
    rw [hleft]
    exact .unclosed t.index _ (haligned.neverClosed_iff.mpr ⟨t, ht, rfl⟩)
      haligned.descriptionsOf_openTags

end

/-- Where no marker is refused, the outcome is what remains of the document: the
tags that were never closed, or else the classes that wait in the first category
in which any do, or else nothing. -/
theorem walk_reports_what_remains (markers : List Marker)
    (h : (State.advance {} (sites markers)).2 = none) (outcome : Except Fault Unit) :
    (walk markers).value.outcome = outcome ↔ Remains markers outcome := by
  obtain ⟨s, hadvance⟩ : ∃ s, State.advance {} (sites markers) = (s, none) := ⟨_, Prod.ext rfl h⟩
  have hreached := reached_iff.mp hadvance
  have hvalue : (walk markers).value.outcome = verdict s.leftover? := by
    simp only [walk, State.run, hadvance]
  rw [hvalue]
  constructor
  · intro houtcome
    exact houtcome ▸ hreached.remains
  · intro hremains
    exact hreached.remains.unique hremains

/-- A list with an item in it, of which only the emphasis is closed, while a class
waits, and stylers of two categories of which the later has waited for longer. -/
theorem walk_reports_what_remains_list :
    (let markers : List Marker := [⟨0, none, .opening .block "ul" []⟩,
      ⟨1, none, .opening .block "li" []⟩, ⟨2, none, .opening .inline "em" []⟩,
      ⟨3, none, .closing .inline "em"⟩, ⟨4, none, .styler .jcx .next "wide"⟩]
    (State.advance {} (sites markers)).2 = none ∧
      (walk markers).value.outcome =
        .error (.unclosedTags ["Block <ul> #0000", "Block <li> #0001"]) ∧
      Remains markers (.error (.unclosedTags ["Block <ul> #0000", "Block <li> #0001"]))) ∧
    let markers : List Marker := [⟨0, none, .styler .inline .next "late"⟩,
      ⟨1, none, .styler .block .next "used"⟩, ⟨2, none, .atomic .block "hr" []⟩,
      ⟨3, none, .styler .block .next "one"⟩, ⟨4, none, .styler .block .next "two"⟩]
    (State.advance {} (sites markers)).2 = none ∧
      (walk markers).value.outcome = .error (.classesLeftOver .block ["one", "two"]) ∧
      Remains markers (.error (.classesLeftOver .block ["one", "two"])) :=
  ⟨⟨rfl, rfl, (walk_reports_what_remains _ rfl _).mp rfl⟩,
    ⟨rfl, rfl, (walk_reports_what_remains _ rfl _).mp rfl⟩⟩

end DeferredMarkup.Nesting
