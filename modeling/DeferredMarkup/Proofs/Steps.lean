import DeferredMarkup.Nesting
import Mathlib.Data.List.Basic
import Mathlib.Data.List.Induction

/-!
Steps of the nesting walk as a relation, with one case for every way in which
a marker can fit, and the states that the walk reaches by them. A walk either
reaches a state for all of its markers, or it stops at the first one for which
there is no step. The grants made on the way come to classes behind those that
the markers had.
-/
namespace DeferredMarkup.Nesting

/-- The ways in which the walk takes a step at a marker that fits. -/
inductive Step (s : State) (site : Site) : State → Prop
  | opening (category : Category) (name : String) (classes : List String)
      (mark : site.marker.mark = .opening category name classes) :
      Step s site (s.openTag category site)
  | atomic (category : Category) (name : String) (classes : List String)
      (mark : site.marker.mark = .atomic category name classes) :
      Step s site (s.atomicTag category site)
  | closing (category : Category) (name : String) (last top : Site) (outer outer' : List Site)
      (mark : site.marker.mark = .closing category name)
      (stack : s.openTags = last :: outer)
      (tag : last.marker.mark.tag? = some (category, name))
      (lane : (s.lane category).openTags = top :: outer')
      (same : top.index = last.index) :
      Step s site { s with
        openTags := outer
        lanes := s.lanes.set category
          { s.lane category with openTags := outer', previous := some last } }
  | previous (category : Category) (name : String) (tag : Site)
      (mark : site.marker.mark = .styler category .previous name)
      (pointer : (s.lane category).previous = some tag)
      (granted : tag.marker.mark.tag?.isSome) :
      Step s site { s with grants := ⟨tag.index, name⟩ :: s.grants }
  | container (category : Category) (name : String) (tag : Site)
      (mark : site.marker.mark = .styler category .container name)
      (pointer : (s.lane category).openTags.head? = some tag)
      (granted : tag.marker.mark.tag?.isSome) :
      Step s site { s with grants := ⟨tag.index, name⟩ :: s.grants }
  | next (category : Category) (name : String)
      (mark : site.marker.mark = .styler category .next name) :
      Step s site { s with
        lanes := s.lanes.set category
          { s.lane category with queued := name :: (s.lane category).queued } }

/-- There is a tag for a styler that looks back over which the walk goes. -/
theorem Step.exists_previous {s s' : State} {site : Site} {category : Category} {name : String}
    (h : Step s site s') (hmark : site.marker.mark = .styler category .previous name) :
    ∃ tag, (s.lane category).previous = some tag := by
  cases h with
  | opening _ _ _ hmark' => cases hmark.symm.trans hmark'
  | atomic _ _ _ hmark' => cases hmark.symm.trans hmark'
  | closing _ _ _ _ _ _ hmark' => cases hmark.symm.trans hmark'
  | previous _ _ tag hmark' hpointer _ =>
    cases hmark.symm.trans hmark'
    exact ⟨tag, hpointer⟩
  | container _ _ _ hmark' => cases hmark.symm.trans hmark'
  | next _ _ hmark' => cases hmark.symm.trans hmark'

/-- There is an open tag around a styler that looks for one. -/
theorem Step.exists_container {s s' : State} {site : Site} {category : Category} {name : String}
    (h : Step s site s') (hmark : site.marker.mark = .styler category .container name) :
    ∃ tag, (s.lane category).openTags.head? = some tag := by
  cases h with
  | opening _ _ _ hmark' => cases hmark.symm.trans hmark'
  | atomic _ _ _ hmark' => cases hmark.symm.trans hmark'
  | closing _ _ _ _ _ _ hmark' => cases hmark.symm.trans hmark'
  | previous _ _ _ hmark' => cases hmark.symm.trans hmark'
  | container _ _ tag hmark' hpointer _ =>
    cases hmark.symm.trans hmark'
    exact ⟨tag, hpointer⟩
  | next _ _ hmark' => cases hmark.symm.trans hmark'

namespace State

theorem pop_eq_ok_iff {s s' : State} {category : Category} {last : Site} {outer : List Site} :
    s.pop category last outer = .ok s' ↔ ∃ top outer',
      (s.lane category).openTags = top :: outer' ∧ top.index = last.index ∧ s' = { s with
        openTags := outer
        lanes := s.lanes.set category
          { s.lane category with openTags := outer', previous := some last } } := by
  cases hlane : (s.lane category).openTags with
  | nil => simp [pop, hlane]
  | cons top outer' =>
    by_cases hsame : top.index = last.index
    · simp [pop, hlane, hsame, eq_comm]
    · simp [pop, hlane, hsame]

theorem closeTag_eq_ok_iff {s s' : State} {category : Category} {name : String} {close : Site} :
    s.closeTag category name close = .ok s' ↔ ∃ last outer, s.openTags = last :: outer ∧
      last.marker.mark.tag? = some (category, name) ∧ s.pop category last outer = .ok s' := by
  unfold closeTag
  cases hstack : s.openTags with
  | nil => simp
  | cons last outer =>
    cases htag : last.marker.mark.tag? with
    | none => simp [htag]
    | some tag =>
      obtain ⟨category', name'⟩ := tag
      by_cases hname : name' = name
      · by_cases hcategory : category' = category
        · simp [hname, hcategory, htag]
        · simp [hname, hcategory, htag]
      · simp [hname, htag]

theorem grant_eq_ok_iff {s s' : State} {tag : Site} {name : String} :
    s.grant tag name = .ok s' ↔ tag.marker.mark.tag?.isSome ∧
      s' = { s with grants := ⟨tag.index, name⟩ :: s.grants } := by
  unfold grant
  by_cases htag : tag.marker.mark.tag?.isSome
  · simp [htag, eq_comm]
  · simp [htag]

/-- The walk goes on exactly where there is a step. -/
theorem step_eq_ok_iff {s s' : State} {site : Site} : s.step site = .ok s' ↔ Step s site s' := by
  constructor
  · intro h
    unfold step at h
    cases hmark : site.marker.mark with
    | opening category name classes =>
      simp only [hmark, Except.ok.injEq] at h
      exact h ▸ .opening category name classes hmark
    | atomic category name classes =>
      simp only [hmark, Except.ok.injEq] at h
      exact h ▸ .atomic category name classes hmark
    | closing category name =>
      simp only [hmark] at h
      obtain ⟨last, outer, hstack, htag, hpop⟩ := closeTag_eq_ok_iff.mp h
      obtain ⟨top, outer', hlane, hsame, rfl⟩ := pop_eq_ok_iff.mp hpop
      exact .closing category name last top outer outer' hmark hstack htag hlane hsame
    | styler category direction name =>
      simp only [hmark, style] at h
      cases direction with
      | previous =>
        cases hpointer : (s.lane category).previous with
        | none => simp [hpointer] at h
        | some tag =>
          simp only [hpointer] at h
          obtain ⟨hgranted, rfl⟩ := grant_eq_ok_iff.mp h
          exact .previous category name tag hmark hpointer hgranted
      | container =>
        cases hpointer : (s.lane category).openTags.head? with
        | none => simp [hpointer] at h
        | some tag =>
          simp only [hpointer] at h
          obtain ⟨hgranted, rfl⟩ := grant_eq_ok_iff.mp h
          exact .container category name tag hmark hpointer hgranted
      | next =>
        simp only [Except.ok.injEq] at h
        exact h ▸ .next category name hmark
  · intro h
    cases h with
    | opening category name classes hmark => simp [step, hmark]
    | atomic category name classes hmark => simp [step, hmark]
    | closing category name last top outer outer' hmark hstack htag hlane hsame =>
      simp only [step, hmark]
      refine closeTag_eq_ok_iff.mpr ⟨last, outer, hstack, htag, ?_⟩
      exact pop_eq_ok_iff.mpr ⟨top, outer', hlane, hsame, rfl⟩
    | previous category name tag hmark hpointer hgranted =>
      simp only [step, hmark, style, hpointer]
      exact grant_eq_ok_iff.mpr ⟨hgranted, rfl⟩
    | container category name tag hmark hpointer hgranted =>
      simp only [step, hmark, style, hpointer]
      exact grant_eq_ok_iff.mpr ⟨hgranted, rfl⟩
    | next category name hmark => simp [step, hmark, style]

theorem advance_append (s : State) (left right : List Site) :
    s.advance (left ++ right) =
      match s.advance left with
      | (s', none) => s'.advance right
      | (s', some fault) => (s', some fault) := by
  induction left generalizing s with
  | nil => rfl
  | cons site rest ih =>
    simp only [List.cons_append, advance]
    cases (s.visit site).step site with
    | error fault => rfl
    | ok s' => exact ih s'

end State

/-- The state that a walk reaches when all markers so far have fitted. -/
inductive Reached : List Marker → State → Prop
  | start : Reached [] {}
  | concat {markers : List Marker} {m : Marker} {s s' : State} : Reached markers s →
      Step (s.visit ⟨markers.length, m⟩) ⟨markers.length, m⟩ s' → Reached (markers ++ [m]) s'

/-- The state in which a walk stops at a marker that does not fit. -/
inductive Stopped (markers : List Marker) (s : State) (fault : Fault) : Prop
  | at (before after : List Marker) (m : Marker) (last : State)
      (split : markers = before ++ m :: after) (reached : Reached before last)
      (failed : (last.visit ⟨before.length, m⟩).step ⟨before.length, m⟩ = .error fault)
      (state : s = last.visit ⟨before.length, m⟩)

variable {markers : List Marker} {m : Marker} {s s' : State} {fault : Fault}

theorem Reached.advance_eq (h : Reached markers s) :
    State.advance {} (sites markers) = (s, none) := by
  induction h with
  | start => rfl
  | concat _ hstep ih =>
    rw [sites_concat, State.advance_append, ih]
    simp [State.advance, State.step_eq_ok_iff.mpr hstep]

/-- Where a marker does not fit, whatever follows it is not looked at. -/
theorem Reached.advance_eq_error {before : List Marker} (h : Reached before s)
    (hfail : (s.visit ⟨before.length, m⟩).step ⟨before.length, m⟩ = .error fault)
    (after : List Marker) : State.advance {} (sites (before ++ m :: after)) =
      (s.visit ⟨before.length, m⟩, some fault) := by
  have hsites : sites (before ++ m :: after) = sites before ++ ⟨before.length, m⟩ ::
      after.mapIdx (fun i x => ⟨i + 1 + before.length, x⟩) := by
    simp [sites, List.mapIdx_append, List.mapIdx_cons]
  rw [hsites, State.advance_append, h.advance_eq]
  simp [State.advance, hfail]

/-- A walk reaches the end of its markers or stops at one of them. -/
theorem reached_or_stopped (markers : List Marker) :
    (∃ s, Reached markers s ∧ State.advance {} (sites markers) = (s, none)) ∨
      ∃ s fault, Stopped markers s fault ∧
        State.advance {} (sites markers) = (s, some fault) := by
  induction markers using List.reverseRecOn with
  | nil => exact Or.inl ⟨{}, .start, rfl⟩
  | append_singleton markers m ih =>
    rcases ih with ⟨s, hreached, hadvance⟩ | ⟨s, fault, hstopped, hadvance⟩
    · simp only [sites_concat, State.advance_append, hadvance, State.advance]
      cases hstep : (s.visit ⟨markers.length, m⟩).step ⟨markers.length, m⟩ with
      | ok s' => exact Or.inl ⟨s', hreached.concat (State.step_eq_ok_iff.mp hstep), rfl⟩
      | error fault =>
        exact Or.inr ⟨_, fault, ⟨markers, [], m, s, rfl, hreached, hstep, rfl⟩, rfl⟩
    · obtain ⟨before, after, m', last, rfl, hreached, hfailed, hstate⟩ := hstopped
      refine Or.inr
        ⟨s, fault, ⟨before, after ++ [m], m', last, ?_, hreached, hfailed, hstate⟩, ?_⟩
      · simp
      · rw [sites_concat, State.advance_append, hadvance]

theorem reached_iff : State.advance {} (sites markers) = (s, none) ↔ Reached markers s := by
  constructor
  · intro h
    rcases reached_or_stopped markers with ⟨s', hreached, hadvance⟩ | ⟨s', fault, _, hadvance⟩
    · rw [hadvance] at h
      cases h
      exact hreached
    · rw [hadvance] at h
      cases h
  · exact Reached.advance_eq

/-- A walk that has come to a marker has come to all those before it. -/
theorem Reached.before {before after : List Marker} (h : Reached (before ++ after) s) :
    ∃ s', Reached before s' := by
  induction after using List.reverseRecOn generalizing s with
  | nil => exact ⟨s, by simpa using h⟩
  | append_singleton after m ih =>
    rw [← List.append_assoc] at h
    generalize hall : before ++ after ++ [m] = all at h
    cases h with
    | start => simp at hall
    | concat hprev _ =>
      obtain ⟨rfl, _⟩ := List.append_inj' hall rfl
      exact ih hprev

/-- The step at one of the markers over which a walk has gone. -/
theorem Reached.step_at {k : Nat} (h : Reached markers s) (hm : markers[k]? = some m) :
    ∃ last next, Reached (markers.take k) last ∧ Step (last.visit ⟨k, m⟩) ⟨k, m⟩ next := by
  obtain ⟨hk, hget⟩ := List.getElem?_eq_some_iff.mp hm
  have hsplit : markers = markers.take k ++ [m] ++ markers.drop (k + 1) := by
    rw [← hget, List.take_append_getElem, List.take_append_drop]
  obtain ⟨next, hnext⟩ := (hsplit ▸ h : Reached (_ ++ _) s).before
  generalize hall : markers.take k ++ [m] = all at hnext
  cases hnext with
  | start => simp at hall
  | @concat before m' last next hprev hstep =>
    obtain ⟨rfl, hm'⟩ := List.append_inj' hall rfl
    cases hm'
    have hlen : (markers.take k).length = k := by
      rw [List.length_take]
      omega
    rw [hlen] at hstep
    exact ⟨last, next, hprev, hstep⟩

/-- The outcome of a walk: what is left over at its end, or where it stopped. -/
theorem walk_outcome_cases (markers : List Marker) :
    (∃ s, Reached markers s ∧
      (walk markers).value = ⟨handOut markers s.grants, verdict s.leftover?⟩) ∨
    ∃ s fault, Stopped markers s fault ∧
      (walk markers).value = ⟨handOut markers s.grants, .error fault⟩ := by
  rcases reached_or_stopped markers with ⟨s, hreached, hadvance⟩ | ⟨s, fault, hstopped, hadvance⟩
  · refine Or.inl ⟨s, hreached, ?_⟩
    simp only [walk, State.run, hadvance]
  · refine Or.inr ⟨s, fault, hstopped, ?_⟩
    simp only [walk, State.run, hadvance, verdict]

/-- The classes granted to the tag at an index. Grants are given latest first. -/
def grantedTo (grants : List Grant) (i : Nat) : List String :=
  ((grants.filter (·.tag = i)).map (·.className)).reverse

@[simp] theorem grantedTo_nil (i : Nat) : grantedTo [] i = [] := rfl

theorem grantedTo_cons (g : Grant) (grants : List Grant) (i : Nat) :
    grantedTo (g :: grants) i =
      if g.tag = i then grantedTo grants i ++ [g.className] else grantedTo grants i := by
  unfold grantedTo
  rw [List.filter_cons]
  by_cases h : g.tag = i
  · simp [h]
  · simp [h]

theorem grantedTo_flush (s : State) (tag : Site) (queued : List String) (i : Nat) :
    grantedTo (s.flush tag queued) i =
      if tag.index = i then grantedTo s.grants i ++ queued.reverse else grantedTo s.grants i := by
  unfold State.flush
  induction queued with
  | nil => simp
  | cons className queued ih =>
    rw [List.map_cons, List.cons_append, grantedTo_cons, ih]
    by_cases h : tag.index = i
    · simp [h]
    · simp [h]

private theorem getElem?_foldl_grants (grants : List Grant) (classes : Array (List String))
    (i : Nat) :
    (grants.foldl (fun classes g => classes.modify g.tag (g.className :: ·)) classes)[i]? =
      classes[i]?.map (grantedTo grants i ++ ·) := by
  induction grants generalizing classes with
  | nil => simp
  | cons g grants ih =>
    rw [List.foldl_cons, ih, Array.getElem?_modify, grantedTo_cons]
    by_cases h : g.tag = i
    · simp only [h, if_true, Option.map_map]
      congr 1
      funext names
      simp
    · simp [h]

theorem getElem?_received {n i : Nat} (grants : List Grant) (hi : i < n) :
    (received n grants)[i]? = some (grantedTo grants i) := by
  unfold received
  rw [getElem?_foldl_grants, Array.getElem?_replicate, if_pos hi]
  simp

@[simp] theorem length_handOut (markers : List Marker) (grants : List Grant) :
    (handOut markers grants).length = markers.length := by
  simp [handOut]

/-- Handing out adds to every marker what it was granted and nothing else. -/
theorem getElem?_handOut (markers : List Marker) (grants : List Grant) (i : Nat) :
    (handOut markers grants)[i]? = markers[i]?.map (·.addClasses (grantedTo grants i)) := by
  unfold handOut
  rw [List.getElem?_mapIdx]
  by_cases hi : i < markers.length
  · simp [getElem?_received grants hi]
  · rw [List.getElem?_eq_none (by omega)]
    rfl

end DeferredMarkup.Nesting
