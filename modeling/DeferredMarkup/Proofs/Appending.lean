import DeferredMarkup.Proofs.ClassPlacement
import Mathlib.Data.List.Nodup
import Mathlib.Data.List.Perm.Basic

/-!
What a walk adds to its markers, also when it fails. Classes are all that it
adds, and it adds them behind those that a tag has. The stylers that have given
their classes away by then are told from the markers before the one that was
refused, and each of their names is found on one tag.
-/
namespace DeferredMarkup

/-- One mark is another with classes behind those it had. Only tags gain any. -/
inductive Mark.Gains : Mark → List String → Mark → Prop
  | opening (category : Category) (name : String) (classes added : List String) :
      Gains (.opening category name classes) added (.opening category name (classes ++ added))
  | atomic (category : Category) (name : String) (classes added : List String) :
      Gains (.atomic category name classes) added (.atomic category name (classes ++ added))
  | closing (category : Category) (name : String) :
      Gains (.closing category name) [] (.closing category name)
  | styler (target : Category) (direction : Direction) (className : String) :
      Gains (.styler target direction className) [] (.styler target direction className)

structure Marker.Gains (m : Marker) (added : List String) (m' : Marker) : Prop where
  id : m'.id = m.id
  offset : m'.offset = m.offset
  mark : m.mark.Gains added m'.mark

theorem Marker.gains_addClasses {m : Marker} {added : List String}
    (h : m.mark.tag? = none → added = []) : m.Gains added (m.addClasses added) := by
  refine ⟨rfl, rfl, ?_⟩
  unfold Marker.addClasses
  cases hmark : m.mark with
  | opening category name classes => exact .opening category name classes added
  | atomic category name classes => exact .atomic category name classes added
  | closing category name =>
    obtain rfl := h (by rw [hmark]; rfl)
    exact .closing category name
  | styler target direction className =>
    obtain rfl := h (by rw [hmark]; rfl)
    exact .styler target direction className

namespace Nesting

/-- A walk goes over the first markers, as many as given, and ends there or is
refused at the one behind them. -/
structure Passes (markers : List Marker) (stop : Nat) : Prop where
  le_length : stop ≤ markers.length
  fit : (State.advance {} ((sites markers).take stop)).2 = none
  refused : stop < markers.length → ∃ fault,
    (State.advance {} ((sites markers).take (stop + 1))).2 = some fault ∧
      (walk markers).value.outcome = .error fault

/-- A styler that has given its class away. One that looks ahead has done so once
a tag of its category stands behind it. -/
def GivenAway (ms : List Mark) (k : Nat) : Prop :=
  ∃ category direction name, ms[k]? = some (.styler category direction name) ∧
    (direction = .next → ∃ i, k < i ∧ TagAt ms category i)

section

variable {markers : List Marker} {m : Marker} {s : State} {ms : List Mark} {i k n : Nat}

/-- There is one place only where a walk ends or is refused. -/
theorem Passes.unique {stop stop' : Nat} (h : Passes markers stop) (h' : Passes markers stop') :
    stop = stop' := by
  have hle : ∀ {j k}, Passes markers j → Passes markers k → j ≤ k := by
    intro j k hj hk
    by_contra hkj
    have hfit := hj.fit
    obtain ⟨fault, hfault, _⟩ := hk.refused (by have := hj.le_length; omega)
    rw [take_sites] at hfit hfault
    have hsplit : markers.take j = markers.take (k + 1) ++ (markers.take j).drop (k + 1) := by
      have htake : (markers.take j).take (k + 1) = markers.take (k + 1) := by
        rw [List.take_take, Nat.min_eq_left (by omega)]
      rw [← htake, List.take_append_drop]
    have hreached : Reached (markers.take j) _ := reached_iff.mp (Prod.ext rfl hfit)
    rw [hsplit] at hreached
    obtain ⟨s, hbefore⟩ := hreached.before
    rw [hbefore.advance_eq] at hfault
    cases hfault
  exact Nat.le_antisymm (hle h h') (hle h' h)

theorem Target.exists_tagAt (h : Target ms k i) : ∃ category, TagAt ms category i := by
  cases h with
  | next c _ _ _ htag _ => exact ⟨c, htag⟩
  | container c _ _ haround => exact ⟨c, haround.1.tagAt.of_take⟩
  | previous c _ _ hback => exact ⟨c, hback.tagAt.of_take⟩

theorem Target.givenAway (h : Target ms k i) : GivenAway ms k := by
  cases h with
  | next c name hstyler hahead htag _ => exact ⟨c, _, name, hstyler, fun _ => ⟨i, hahead, htag⟩⟩
  | container c name hstyler _ => exact ⟨c, _, name, hstyler, by simp⟩
  | previous c name hstyler _ => exact ⟨c, _, name, hstyler, by simp⟩

/-- The stylers that have given their classes away are those that have a target. -/
theorem Reached.givenAway_iff (h : Reached markers s) :
    GivenAway (marksOf markers) k ↔ ∃ i, Target (marksOf markers) k i := by
  constructor
  · rintro ⟨c, direction, name, hk, hahead⟩
    cases direction with
    | previous =>
      obtain ⟨i, hback⟩ := h.exists_recent hk
      exact ⟨i, .previous c name hk hback⟩
    | container =>
      obtain ⟨i, haround⟩ := h.exists_innermost hk
      exact ⟨i, .container c name hk haround⟩
    | next =>
      obtain ⟨i, hki, htag, hfirst⟩ := exists_first_tag (hahead rfl)
      exact ⟨i, .next c name hk hki htag hfirst⟩
  · rintro ⟨i, hi⟩
    exact hi.givenAway

/-- Lists of class names in which every styler is told of once at most, taken
together. They come to one list of all these stylers, but for the order. -/
theorem ClassesOf.gather {P : Nat → Nat → Prop} {parts : Nat → List String}
    (hparts : ∀ i, ClassesOf ms (P · i) (parts i))
    (hunique : ∀ k i j, P k i → P k j → i = j)
    (hlt : ∀ k i, P k i → k < ms.length ∧ i < n) :
    ∃ names, ClassesOf ms (fun k => ∃ i, P k i) names ∧
      ((List.range n).flatMap parts).Perm names := by
  classical
  choose ks hks hmem hnamed using hparts
  have hjoined : List.Forall₂ (StylerNamed ms)
      ((List.range n).flatMap ks) ((List.range n).flatMap parts) := by
    refine List.rel_flatMap (List.forall₂_same.mpr fun i _ => rfl) ?_
    rintro i _ rfl
    exact hnamed i
  have hnodup : ((List.range n).flatMap ks).Nodup := by
    refine List.nodup_flatMap.mpr ⟨fun i _ => (hks i).imp Nat.ne_of_lt, ?_⟩
    refine List.nodup_range.imp ?_
    intro i j hij k hi hj
    exact hij (hunique k i j ((hmem i k).mp hi) ((hmem j k).mp hj))
  have hordered : ((List.range ms.length).filter fun k => ∃ i, P k i).Pairwise (· < ·) :=
    List.pairwise_lt_range.filter _
  have hall : ∀ k, k ∈ (List.range ms.length).filter (fun k => ∃ i, P k i) ↔ ∃ i, P k i := by
    intro k
    rw [List.mem_filter, List.mem_range, decide_eq_true_eq]
    exact and_iff_right_of_imp fun ⟨i, hi⟩ => (hlt k i hi).1
  have hsame : ((List.range ms.length).filter fun k => ∃ i, P k i).Perm
      ((List.range n).flatMap ks) := by
    refine (List.perm_ext_iff_of_nodup (hordered.imp Nat.ne_of_lt) hnodup).mpr ?_
    intro k
    rw [hall, List.mem_flatMap]
    constructor
    · rintro ⟨i, hi⟩
      exact ⟨i, List.mem_range.mpr (hlt k i hi).2, (hmem i k).mpr hi⟩
    · rintro ⟨i, _, hi⟩
      exact ⟨i, (hmem i k).mp hi⟩
  obtain ⟨names, hnames, hperm⟩ := List.perm_comp_forall₂ hsame hjoined
  exact ⟨names, ⟨_, hordered, hall, hnames⟩, hperm.symm⟩

/-- A mark that is no tag, or that the walk has not come to, is granted nothing. -/
theorem Tracked.grantedTo_eq_nil (h : Tracked markers s)
    (hi : ∀ category, ¬ TagAt (marksOf markers) category i) : grantedTo s.grants i = [] := by
  apply (h.granted i).eq_nil
  intro k hk
  obtain ⟨category, htag⟩ := hk.exists_tagAt
  exact hi category htag

/-- A walk goes over its first markers, up to the end or to the marker that is
refused, and hands out what has been granted by then. -/
theorem exists_passes (markers : List Marker) : ∃ stop s, Passes markers stop ∧
    Reached (markers.take stop) s ∧
      (walk markers).value.markers = handOut markers s.grants := by
  rcases walk_outcome_cases markers with ⟨s, hreached, hvalue⟩ | ⟨s, fault, hstopped, hvalue⟩
  · have htake : markers.take markers.length = markers := List.take_length
    refine ⟨markers.length, s, ⟨Nat.le_refl _, ?_, ?_⟩, htake.symm ▸ hreached, ?_⟩
    · rw [take_sites, htake, hreached.advance_eq]
    · intro h
      exact absurd h (Nat.lt_irrefl _)
    · rw [hvalue]
  · obtain ⟨before, after, m, last, rfl, hreached, hfailed, rfl⟩ := hstopped
    have htake : (before ++ m :: after).take before.length = before := List.take_left
    have hnext : (before ++ m :: after).take (before.length + 1) = before ++ [m] := by
      rw [List.take_length_add_append]
      rfl
    refine ⟨before.length, last, ⟨?_, ?_, ?_⟩, htake.symm ▸ hreached, ?_⟩
    · simp
    · rw [take_sites, htake, hreached.advance_eq]
    · intro _
      refine ⟨fault, ?_, ?_⟩
      · rw [take_sites, hnext, hreached.advance_eq_error hfailed []]
      · rw [hvalue]
    · rw [hvalue]
      rfl

end

/-- Whatever a walk comes to, it leaves every marker as it was but for classes
behind those that a tag had. The classes that all tags gain are, but for the
order, the names of exactly the stylers that have given theirs away before the
place where the walk ends or is refused. -/
theorem walk_only_appends (markers : List Marker) : ∃! stop, Passes markers stop ∧
    (walk markers).value.markers.length = markers.length ∧
    ∃ added names,
      (∀ i (m : Marker), markers[i]? = some m → ∃ m', (walk markers).value.markers[i]? = some m' ∧
        m.Gains (added i) m') ∧
      ClassesOf (marksOf (markers.take stop)) (GivenAway (marksOf (markers.take stop))) names ∧
      ((List.range markers.length).flatMap added).Perm names := by
  obtain ⟨stop, s, hpasses, hreached, hmarkers⟩ := exists_passes markers
  have htracked := hreached.tracked
  have hlt : ∀ k i, Target (marksOf (markers.take stop)) k i →
      k < (marksOf (markers.take stop)).length ∧ i < markers.length := by
    intro k i h
    obtain ⟨hk, hi⟩ := h.lt_length
    rw [length_marksOf, List.length_take] at hi
    exact ⟨hk, by omega⟩
  obtain ⟨names, hnames, hperm⟩ :=
    ClassesOf.gather htracked.granted (fun k i j hi hj => hi.unique hj) hlt
  refine ⟨stop, ⟨hpasses, length_walk markers, grantedTo s.grants, names, ?_, ?_, hperm⟩, ?_⟩
  · intro i m hm
    refine ⟨m.addClasses (grantedTo s.grants i), ?_, ?_⟩
    · rw [hmarkers, getElem?_handOut, hm, Option.map_some]
    · apply Marker.gains_addClasses
      intro hnone
      apply htracked.grantedTo_eq_nil
      rintro category ⟨x, hx, name, htag⟩
      rw [marksOf_take, List.getElem?_take] at hx
      split at hx
      · cases (getElem?_marksOf hm).symm.trans hx
        simp [hnone] at htag
      · cases hx
  · exact hnames.congr fun k => hreached.givenAway_iff.symm
  · intro stop' h
    exact h.1.unique hpasses

/-- A class that still waits when a close is refused is on no tag. -/
example : (walk [⟨0, none, .styler .block .next "lead"⟩, ⟨1, none, .opening .block "p" ["text"]⟩,
      ⟨2, none, .styler .inline .next "late"⟩, ⟨3, none, .styler .block .container "wide"⟩,
      ⟨4, none, .closing .block "q"⟩, ⟨5, none, .atomic .inline "br" []⟩]).value.markers =
    [⟨0, none, .styler .block .next "lead"⟩,
      ⟨1, none, .opening .block "p" ["text", "lead", "wide"]⟩,
      ⟨2, none, .styler .inline .next "late"⟩, ⟨3, none, .styler .block .container "wide"⟩,
      ⟨4, none, .closing .block "q"⟩, ⟨5, none, .atomic .inline "br" []⟩] := rfl

end Nesting

end DeferredMarkup
