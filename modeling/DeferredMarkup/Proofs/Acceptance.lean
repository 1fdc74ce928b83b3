import DeferredMarkup.Proofs.Tracking
import Mathlib.Data.Nat.Find

/-!
What the nesting walk accepts. Documents that fit are told from positions
alone: their marks are well nested, and wherever a styler looks there is a tag
to give its class to. The walk goes through a document that fits to its end,
since at every marker the tag that is needed is on its stacks, and it goes
through no other document.
-/
namespace DeferredMarkup.Nesting

/-- Marks that nest, and in which every styler has a tag of its category. -/
structure Fits (ms : List Mark) : Prop where
  nested : WellNested ms
  container : ∀ k c name, ms[k]? = some (.styler c .container name) → Inside ms c k
  previous : ∀ k c name, ms[k]? = some (.styler c .previous name) →
    ∃ l, Latest (ms.take k) c l ∧
      ∀ name classes, ms[l]? = some (.opening c name classes) → Inside ms c l
  next : ∀ k c name, ms[k]? = some (.styler c .next name) → ∃ i, k < i ∧ TagAt ms c i

/-- The first of the tags of a category that stand behind a position. -/
theorem exists_first_tag {ms : List Mark} {category : Category} {k : Nat}
    (h : ∃ i, k < i ∧ TagAt ms category i) :
    ∃ i, k < i ∧ TagAt ms category i ∧ ∀ j, k < j → TagAt ms category j → i ≤ j := by
  classical
  obtain ⟨hlt, htag⟩ := Nat.find_spec h
  refine ⟨Nat.find h, hlt, htag, ?_⟩
  intro j hj hjtag
  exact Nat.find_min' h ⟨hj, hjtag⟩

namespace Fits

variable {ms : List Mark} {category : Category} {direction : Direction} {name : String} {k : Nat}

theorem exists_innermost (h : Fits ms) (hk : ms[k]? = some (.styler category .container name)) :
    ∃ i, Innermost (ms.take k) category i := by
  have hinside := h.container k category name hk
  obtain ⟨i, hopen⟩ := (inside_iff h.nested (by simp [hk])).mp hinside
  exact Nesting.exists_innermost hopen

theorem exists_recent (h : Fits ms) (hk : ms[k]? = some (.styler category .previous name)) :
    ∃ i, Recent (ms.take k) category i := by
  obtain ⟨l, hlatest, hinside⟩ := h.previous k category name hk
  obtain ⟨x, hx, hevent⟩ := hlatest.1
  have hlk : l < (ms.take k).length := hlatest.1.lt_length
  rw [List.length_take] at hlk
  have hlt : l < k := by omega
  have hl : l < ms.length := by omega
  have hxall : ms[l]? = some x := by rwa [List.getElem?_take_of_lt hlt] at hx
  have hstands : ∃ i, StandsFor (ms.take k) l x i := by
    cases x with
    | opening c name' classes =>
      have hc : c = category := by simpa using hevent
      subst hc
      obtain ⟨i, hopen⟩ := (inside_iff h.nested (by simp [hxall])).mp (hinside _ _ hxall)
      have htake : (ms.take k).take l = ms.take l := by
        rw [List.take_take, Nat.min_eq_left (Nat.le_of_lt hlt)]
      simp only [StandsFor, htake]
      exact Nesting.exists_innermost hopen
    | atomic c name' classes => exact ⟨l, rfl⟩
    | closing c name' =>
      obtain ⟨i, hpair⟩ := (h.nested.paired l hl).opened hxall
      exact ⟨i, (TagPair.take_iff hlt).mpr hpair⟩
    | styler c direction name' => simp at hevent
  obtain ⟨i, hi⟩ := hstands
  exact ⟨i, l, x, hlatest, hx, hi⟩

/-- Every styler of a document that fits has a tag to give its class to. -/
theorem exists_target (h : Fits ms) (hk : ms[k]? = some (.styler category direction name)) :
    ∃ i, Target ms k i := by
  cases direction with
  | previous =>
    obtain ⟨i, hback⟩ := h.exists_recent hk
    exact ⟨i, .previous category name hk hback⟩
  | container =>
    obtain ⟨i, haround⟩ := h.exists_innermost hk
    exact ⟨i, .container category name hk haround⟩
  | next =>
    obtain ⟨i, hahead, htag, hfirst⟩ := exists_first_tag (h.next k category name hk)
    exact ⟨i, .next category name hk hahead htag hfirst⟩

end Fits

section

variable {markers before after : List Marker} {m : Marker} {s : State} {category : Category}

theorem marksOf_take (markers : List Marker) (k : Nat) :
    marksOf (markers.take k) = (marksOf markers).take k := by
  simp [marksOf, List.map_take]

theorem getElem?_marksOf_eq_some {k : Nat} {x : Mark} (h : (marksOf markers)[k]? = some x) :
    ∃ m, markers[k]? = some m ∧ m.mark = x := by
  simpa [marksOf] using h

/-- Nothing is left over when no tag is open and no class waits. -/
theorem Aligned.leftover?_eq_none_iff (h : Aligned markers s) :
    s.leftover? = none ↔ s.openTags = [] ∧ ∀ c, (s.lane c).queued = [] := by
  by_cases hstack : s.openTags = []
  · have hall : ∀ c : Category, c ∈ Category.all := by
      intro c
      cases c <;> simp [Category.all]
    rw [h.leftover?_of_closed hstack, Option.map_eq_none_iff, List.find?_eq_none]
    simp [hstack, hall]
  · simp [State.leftover?, hstack]

/-- A tag of a document that nests is on top of the stack at its close. -/
theorem Aligned.top_of_closing {name : String} {rest : List Mark} (h : Aligned markers s)
    (hnested : WellNested (marksOf markers ++ .closing category name :: rest)) :
    ∃ last outer classes, s.openTags = last :: outer ∧
      last.marker.mark = .opening category name classes := by
  obtain ⟨i, classes, hget, hopen, hlatest⟩ := exists_last_opened hnested
  have hi : i ∈ s.openTags.map (·.index) := h.spine.mem_iff.mpr ⟨category, hopen⟩
  have hdescending := h.spine.descending
  cases hstack : s.openTags with
  | nil => simp [hstack] at hi
  | cons last outer =>
    have hlast : last ∈ s.openTags := hstack ▸ List.mem_cons_self
    obtain ⟨_, _, _, hlastOpen⟩ := h.opening hlast
    have hle : last.index ≤ i := hlatest _ _ hlastOpen
    have hge : i ≤ last.index := by
      rw [hstack, List.map_cons] at hi hdescending
      rw [List.pairwise_cons] at hdescending
      rcases List.mem_cons.mp hi with hi | hi
      · omega
      · have := hdescending.1 i hi
        omega
    have hsite := getElem?_marksOf (h.sited last hlast)
    rw [show last.index = i by omega, hget] at hsite
    exact ⟨last, outer, classes, rfl, (Option.some.inj hsite).symm⟩

/-- No marker of a document that fits is refused. -/
theorem Tracked.not_refused {fault : Fault} (h : Tracked before s)
    (hfits : Fits (marksOf (before ++ m :: after))) :
    ¬ Refused (s.visit ⟨before.length, m⟩) ⟨before.length, m⟩ fault := by
  have hmarks : marksOf (before ++ m :: after) =
      marksOf before ++ m.mark :: marksOf after := by
    simp [marksOf]
  have hhere : (marksOf (before ++ m :: after))[before.length]? = some m.mark := by
    rw [hmarks, ← length_marksOf before]
    simp
  have htake : (marksOf (before ++ m :: after)).take before.length = marksOf before := by
    rw [hmarks, ← length_marksOf before, List.take_left]
  have hnested : WellNested (marksOf before ++ m.mark :: marksOf after) := hmarks ▸ hfits.nested
  intro hrefused
  cases hrefused with
  | misfit c name hmark hunnamed =>
    have hmark : m.mark = .closing c name := hmark
    rw [hmark] at hnested
    obtain ⟨last, outer, classes, hstack, hopening⟩ := h.aligned.top_of_closing hnested
    exact hunnamed last outer hstack c (by rw [hopening]; rfl)
  | category c c' name last outer hmark hstack htag hother =>
    have hmark : m.mark = .closing c name := hmark
    rw [hmark] at hnested
    obtain ⟨last', outer', classes, hstack', hopening⟩ := h.aligned.top_of_closing hnested
    cases hstack'.symm.trans hstack
    simp only [hopening, Mark.tag?, Option.some.injEq, Prod.mk.injEq] at htag
    exact hother htag.1.symm
  | previous c name hmark hpointer =>
    have hmark : m.mark = .styler c .previous name := hmark
    obtain ⟨i, hrecent⟩ := hfits.exists_recent (hmark ▸ hhere)
    rw [htake] at hrecent
    have hlane := (h.recent c i).mpr hrecent
    have hnone : (s.lane c).previous = none := hpointer
    simp [hnone] at hlane
  | container c name hmark hpointer =>
    have hmark : m.mark = .styler c .container name := hmark
    obtain ⟨i, hinnermost⟩ := hfits.exists_innermost (hmark ▸ hhere)
    rw [htake] at hinnermost
    have hlane := h.aligned.head_iff.mpr hinnermost
    have hnone : (s.lane c).openTags = [] := hpointer
    simp [hnone] at hlane

/-- The walk goes through a document that fits. -/
theorem Fits.reached (hfits : Fits (marksOf (before ++ after))) : ∃ s, Reached before s := by
  -- It is the whole document that fits, so what follows varies with the induction.
  induction before using List.reverseRecOn generalizing after with
  | nil => exact ⟨{}, .start⟩
  | append_singleton before m ih =>
    rw [List.append_assoc, List.singleton_append] at hfits
    obtain ⟨s, hreached⟩ := ih hfits
    cases hstep : (s.visit ⟨before.length, m⟩).step ⟨before.length, m⟩ with
    | ok s' => exact ⟨s', hreached.concat (State.step_eq_ok_iff.mp hstep)⟩
    | error fault =>
      exact absurd (hreached.aligned.refused hstep) (hreached.tracked.not_refused hfits)

/-- Nothing is left over of a document that fits. -/
theorem Fits.leftover?_eq_none (hfits : Fits (marksOf markers)) (h : Reached markers s) :
    s.leftover? = none := by
  refine h.aligned.leftover?_eq_none_iff.mpr ⟨?_, ?_⟩
  · rw [List.eq_nil_iff_forall_not_mem]
    intro t ht
    obtain ⟨name, classes, _, ⟨_, _, hget⟩, hnone⟩ := h.aligned.opening ht
    obtain ⟨hi, _⟩ := List.getElem?_eq_some_iff.mp hget
    obtain ⟨j, hpair⟩ := (hfits.nested.paired _ hi).closed hget
    exact hnone j hpair
  · intro c
    have hqueued := h.tracked.queued c
    rw [← List.reverse_eq_nil_iff]
    apply hqueued.eq_nil
    intro k hwaiting
    obtain ⟨⟨name, hstyler⟩, hnone⟩ := hwaiting
    obtain ⟨i, hki, htag⟩ := hfits.next k c name hstyler
    exact hnone i hki htag

theorem walk_ok_of_fits (hfits : Fits (marksOf markers)) :
    (walk markers).value.outcome = .ok () := by
  have happend : Fits (marksOf (markers ++ [])) := by rwa [List.append_nil]
  obtain ⟨s, hreached⟩ := happend.reached
  rcases walk_outcome_cases markers with ⟨s', hreached', hvalue⟩ | ⟨s', fault, hstopped, hvalue⟩
  · rw [hvalue, hfits.leftover?_eq_none hreached']
    rfl
  · obtain ⟨before, after, m, last, rfl, hbefore, hfailed, _⟩ := hstopped
    exact absurd (hbefore.aligned.refused hfailed) (hbefore.tracked.not_refused hfits)

theorem reached_of_walk_ok (h : (walk markers).value.outcome = .ok ()) :
    ∃ s, Reached markers s ∧ s.leftover? = none ∧
      (walk markers).value.markers = handOut markers s.grants := by
  rcases walk_outcome_cases markers with ⟨s, hreached, hvalue⟩ | ⟨s, fault, _, hvalue⟩
  · rw [hvalue] at h ⊢
    refine ⟨s, hreached, ?_, rfl⟩
    cases hleft : s.leftover? with
    | none => rfl
    | some fault => simp [hleft, verdict] at h
  · rw [hvalue] at h
    cases h

/-- A styler over which the walk has gone stands inside the tag that it needs. -/
theorem Reached.exists_innermost {k : Nat} {name : String} (h : Reached markers s)
    (hk : (marksOf markers)[k]? = some (.styler category .container name)) :
    ∃ i, Innermost ((marksOf markers).take k) category i := by
  obtain ⟨m, hm, hmark⟩ := getElem?_marksOf_eq_some hk
  obtain ⟨last, _, hlast, hstep⟩ := h.step_at hm
  obtain ⟨tag, hpointer⟩ := hstep.exists_container hmark
  have hhead : (last.lane category).openTags.head? = some tag := hpointer
  have hinnermost := hlast.aligned.head_iff.mp (congrArg (Option.map Site.index) hhead)
  rw [marksOf_take] at hinnermost
  exact ⟨tag.index, hinnermost⟩

theorem Reached.exists_recent {k : Nat} {name : String} (h : Reached markers s)
    (hk : (marksOf markers)[k]? = some (.styler category .previous name)) :
    ∃ i, Recent ((marksOf markers).take k) category i := by
  obtain ⟨m, hm, hmark⟩ := getElem?_marksOf_eq_some hk
  obtain ⟨last, _, hlast, hstep⟩ := h.step_at hm
  obtain ⟨tag, hpointer⟩ := hstep.exists_previous hmark
  have hprevious : (last.lane category).previous = some tag := hpointer
  have hrecent := (hlast.tracked.recent category tag.index).mp
    (congrArg (Option.map Site.index) hprevious)
  rw [marksOf_take] at hrecent
  exact ⟨tag.index, hrecent⟩

/-- A document through which the walk has gone, with nothing left over, fits. -/
theorem Reached.fits (h : Reached markers s) (hleft : s.leftover? = none) :
    Fits (marksOf markers) := by
  obtain ⟨hstack, hqueued⟩ := h.aligned.leftover?_eq_none_iff.mp hleft
  have hnested : WellNested (marksOf markers) := by
    have := h.aligned.spine
    rw [hstack] at this
    exact this.wellNested
  refine ⟨hnested, ?_, ?_, ?_⟩
  · intro k c name hk
    obtain ⟨i, hinnermost⟩ := h.exists_innermost hk
    exact (inside_iff hnested (by simp [hk])).mpr ⟨i, hinnermost.1⟩
  · intro k c name hk
    obtain ⟨i, l, x, hlatest, hx, hstands⟩ := h.exists_recent hk
    refine ⟨l, hlatest, ?_⟩
    intro name' classes hopen
    have hl := hlatest.1.lt_length
    rw [List.length_take] at hl
    rw [List.getElem?_take_of_lt (by omega), hopen] at hx
    cases hx
    simp only [StandsFor, List.take_take, Nat.min_eq_left (show l ≤ k by omega)] at hstands
    exact (inside_iff hnested (by simp [hopen])).mpr ⟨i, hstands.1⟩
  · intro k c name hk
    have hwaiting := h.tracked.queued c
    rw [hqueued c] at hwaiting
    have hnot := hwaiting.not_of_nil k
    simp only [Waiting, not_and, not_forall, not_not] at hnot
    obtain ⟨i, hki, htag⟩ := hnot ⟨name, hk⟩
    exact ⟨i, hki, htag⟩

theorem fits_of_walk_ok (h : (walk markers).value.outcome = .ok ()) : Fits (marksOf markers) := by
  obtain ⟨s, hreached, hleft, _⟩ := reached_of_walk_ok h
  exact hreached.fits hleft

/-- The walk accepts the documents that fit and no others. -/
theorem walk_accepts_iff (markers : List Marker) :
    (walk markers).value.outcome = .ok () ↔ Fits (marksOf markers) := by
  constructor
  · exact fits_of_walk_ok
  · exact walk_ok_of_fits

end

end DeferredMarkup.Nesting
