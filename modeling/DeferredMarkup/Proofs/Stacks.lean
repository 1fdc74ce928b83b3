import DeferredMarkup.Proofs.Steps
import DeferredMarkup.Proofs.Targets

/-!
The stacks of the nesting walk. Whatever the walk has visited, the stack of
all open tags is the spine of the visited marks, the lane of every category has
the part of it that belongs to the category, and what the stacks hold are tags
of the list. The stacks can therefore not disagree, neither at a close nor at
the end, and a marker is refused for what the document says alone.
-/
namespace DeferredMarkup.Nesting

/-- The marks of markers. -/
def marksOf (markers : List Marker) : List Mark := markers.map (·.mark)

@[simp] theorem marksOf_concat (markers : List Marker) (m : Marker) :
    marksOf (markers ++ [m]) = marksOf markers ++ [m.mark] := by
  simp [marksOf]

@[simp] theorem length_marksOf (markers : List Marker) :
    (marksOf markers).length = markers.length := by
  simp [marksOf]

theorem getElem?_marksOf {markers : List Marker} {m : Marker} {i : Nat}
    (h : markers[i]? = some m) : (marksOf markers)[i]? = some m.mark := by
  simp [marksOf, h]

/-- The state of a walk agrees with the markers that it has visited. -/
structure Aligned (markers : List Marker) (s : State) : Prop where
  spine : Spine (marksOf markers) (s.openTags.map (·.index))
  sited : ∀ t ∈ s.openTags, markers[t.index]? = some t.marker
  lanes : ∀ c, (s.lane c).openTags = s.openTags.filter (·.marker.mark.category = c)
  previous : ∀ c t, (s.lane c).previous = some t →
    markers[t.index]? = some t.marker ∧ IsTag c t.marker.mark

section

variable {markers : List Marker} {m : Marker} {s s' : State} {t : Site} {category : Category}

theorem getElem?_append_of_some {i : Nat} {x : Marker} (h : markers[i]? = some x) :
    (markers ++ [m])[i]? = some x := by
  obtain ⟨hi, _⟩ := List.getElem?_eq_some_iff.mp h
  rwa [List.getElem?_append_left hi]

namespace Aligned

/-- What is on the stack is an opening tag that has no close. -/
theorem opening (h : Aligned markers s) (ht : t ∈ s.openTags) :
    ∃ name classes, t.marker.mark = .opening t.marker.mark.category name classes ∧
      StillOpen (marksOf markers) t.marker.mark.category t.index := by
  have hmem : t.index ∈ s.openTags.map (·.index) := List.mem_map_of_mem ht
  obtain ⟨c, hopen⟩ := h.spine.mem_iff.mp hmem
  obtain ⟨⟨name, classes, hget⟩, _⟩ := id hopen
  have hmark : t.marker.mark = .opening c name classes := by
    have := (getElem?_marksOf (h.sited t ht)).symm.trans hget
    exact Option.some.inj this
  have hcategory : t.marker.mark.category = c := by rw [hmark]; rfl
  exact ⟨name, classes, hcategory.symm ▸ hmark, hcategory.symm ▸ hopen⟩

theorem mem_lane (h : Aligned markers s) :
    t ∈ (s.lane category).openTags ↔ t ∈ s.openTags ∧ t.marker.mark.category = category := by
  rw [h.lanes category, List.mem_filter, decide_eq_true_eq]

theorem isTag_of_mem_lane (h : Aligned markers s) (ht : t ∈ (s.lane category).openTags) :
    markers[t.index]? = some t.marker ∧ IsTag category t.marker.mark := by
  obtain ⟨hstack, rfl⟩ := h.mem_lane.mp ht
  obtain ⟨name, classes, hmark, _⟩ := h.opening hstack
  refine ⟨h.sited t hstack, name, ?_⟩
  rw [hmark]
  rfl

theorem start : Aligned [] {} where
  spine := .flat .nil
  sited := by simp
  lanes := by intro c; cases c <;> rfl
  previous := by intro c t ht; cases c <;> cases ht

/-- A mark that neither opens nor closes leaves the stacks as they are. -/
private theorem flat (h : Aligned markers s) (hflat : WellNested [m.mark])
    (hstack : s'.openTags = s.openTags)
    (hlanes : ∀ c, (s'.lane c).openTags = (s.lane c).openTags)
    (hprevious : ∀ c t, (s'.lane c).previous = some t →
      (s.lane c).previous = some t ∨ (t = ⟨markers.length, m⟩ ∧ IsTag c m.mark)) :
    Aligned (markers ++ [m]) s' where
  spine := by
    rw [marksOf_concat, hstack]
    exact h.spine.append_wellNested hflat
  sited := by
    intro t ht
    exact getElem?_append_of_some (h.sited t (hstack ▸ ht))
  lanes := by
    intro c
    rw [hlanes, hstack, h.lanes]
  previous := by
    intro c t ht
    rcases hprevious c t ht with ht | ⟨rfl, htag⟩
    · have := h.previous c t ht
      exact ⟨getElem?_append_of_some this.1, this.2⟩
    · exact ⟨by simp, htag⟩

private theorem openTag {name : String} {classes : List String} (h : Aligned markers s)
    (hmark : m.mark = .opening category name classes) :
    Aligned (markers ++ [m])
      ((s.visit ⟨markers.length, m⟩).openTag category ⟨markers.length, m⟩) where
  spine := by
    have : Spine (marksOf markers ++ [.opening category name classes])
        ((marksOf markers).length :: s.openTags.map (·.index)) := h.spine.append_opening
    rw [marksOf_concat, hmark]
    rwa [length_marksOf] at this
  sited := by
    intro t ht
    rcases List.mem_cons.mp ht with rfl | ht
    · simp
    · exact getElem?_append_of_some (h.sited t ht)
  lanes := by
    intro c
    simp only [State.lane, State.openTag, State.visit, Lanes.get_set]
    by_cases hc : c = category
    · subst hc
      have hown : m.mark.category = c := by rw [hmark]; rfl
      rw [if_pos rfl, List.filter_cons_of_pos (by simpa using hown)]
      exact congrArg _ (h.lanes c)
    · have hother : m.mark.category ≠ c := by rw [hmark]; exact Ne.symm hc
      rw [if_neg hc, List.filter_cons_of_neg (by simpa using hother)]
      exact h.lanes c
  previous := by
    intro c t ht
    by_cases hc : c = category
    · subst hc
      simp only [State.lane, State.openTag, State.visit, Lanes.get_set, if_true] at ht
      have hmem : t ∈ (s.lane c).openTags := List.mem_of_head? ht
      have := h.isTag_of_mem_lane hmem
      exact ⟨getElem?_append_of_some this.1, this.2⟩
    · simp only [State.lane, State.openTag, State.visit, Lanes.get_set, hc, if_false] at ht
      have := h.previous c t ht
      exact ⟨getElem?_append_of_some this.1, this.2⟩

/-- What a close may take off the stack is the opening tag that it names. -/
theorem last_eq_opening {name : String} {last : Site} (h : Aligned markers s)
    (hlast : last ∈ s.openTags) (htag : last.marker.mark.tag? = some (category, name)) :
    ∃ classes, last.marker.mark = .opening category name classes := by
  obtain ⟨name', classes, hopening, _⟩ := h.opening hlast
  refine ⟨classes, ?_⟩
  rw [hopening] at htag ⊢
  simp only [Mark.tag?, Option.some.injEq, Prod.mk.injEq] at htag
  rw [htag.1, htag.2]

/-- A close that fits belongs to the tag that it takes off the stack. -/
private theorem append_closing {name : String} {last : Site} {outer : List Site}
    (h : Aligned markers s) (hstack : s.openTags = last :: outer)
    (htag : last.marker.mark.tag? = some (category, name)) :
    Spine (marksOf markers ++ [.closing category name]) (outer.map (·.index)) ∧
      TagPair (marksOf markers ++ [.closing category name]) category last.index
        (marksOf markers).length := by
  have hlast : last ∈ s.openTags := hstack ▸ List.mem_cons_self
  obtain ⟨classes, hown⟩ := h.last_eq_opening hlast htag
  have hsite : (marksOf markers)[last.index]? = some (.opening category name classes) := by
    rw [← hown]
    exact getElem?_marksOf (h.sited last hlast)
  have hspine : Spine (marksOf markers) (last.index :: outer.map (·.index)) := by
    have := h.spine
    rwa [hstack] at this
  exact hspine.append_closing hsite

theorem tagPair_of_closing {name : String} {last : Site} {outer : List Site}
    (h : Aligned markers s) (hstack : s.openTags = last :: outer)
    (htag : last.marker.mark.tag? = some (category, name)) :
    TagPair (marksOf markers ++ [.closing category name]) category last.index
      (marksOf markers).length :=
  (h.append_closing hstack htag).2

private theorem closeTag {name : String} {last top : Site} {outer outer' : List Site}
    (h : Aligned markers s) (hmark : m.mark = .closing category name)
    (hstack : s.openTags = last :: outer) (htag : last.marker.mark.tag? = some (category, name))
    (hlane : (s.lane category).openTags = top :: outer') :
    Aligned (markers ++ [m]) { s.visit ⟨markers.length, m⟩ with
      openTags := outer
      lanes := s.lanes.set category
        { s.lane category with openTags := outer', previous := some last } } := by
  have hlast : last ∈ s.openTags := hstack ▸ List.mem_cons_self
  obtain ⟨classes, hown⟩ := h.last_eq_opening hlast htag
  have hcategory : last.marker.mark.category = category := by rw [hown]; rfl
  have hfiltered : ∀ c, (s.lane c).openTags =
      if c = category then last :: outer.filter (·.marker.mark.category = c)
      else outer.filter (·.marker.mark.category = c) := by
    intro c
    rw [h.lanes c, hstack, List.filter_cons, hcategory]
    by_cases hc : c = category
    · simp [hc]
    · simp [hc, Ne.symm hc]
  exact {
    spine := by
      rw [marksOf_concat, hmark]
      exact (h.append_closing hstack htag).1
    sited := by
      intro t ht
      exact getElem?_append_of_some (h.sited t (hstack ▸ List.mem_cons_of_mem _ ht))
    lanes := by
      intro c
      have hc := hfiltered c
      simp only [State.lane, Lanes.get_set] at hc ⊢
      by_cases hcat : c = category
      · subst hcat
        rw [if_pos rfl] at hc ⊢
        have := hlane.symm.trans hc
        exact (List.cons.inj this).2
      · rwa [if_neg hcat] at hc ⊢
    previous := by
      intro c t ht
      simp only [State.lane, Lanes.get_set] at ht
      by_cases hc : c = category
      · rw [if_pos hc, Option.some.injEq] at ht
        subst ht hc
        exact ⟨getElem?_append_of_some (h.sited _ hlast), name, htag⟩
      · rw [if_neg hc] at ht
        have := h.previous c t ht
        exact ⟨getElem?_append_of_some this.1, this.2⟩
  }

/-- Every step of the walk keeps its state in agreement with the markers. -/
theorem step (h : Aligned markers s)
    (hstep : Step (s.visit ⟨markers.length, m⟩) ⟨markers.length, m⟩ s') :
    Aligned (markers ++ [m]) s' := by
  cases hstep with
  | opening c name classes hmark => exact h.openTag hmark
  | atomic c name classes hmark =>
    refine h.flat (hmark ▸ .atomic .nil) rfl ?_ ?_
    · intro c'
      simp only [State.lane, State.atomicTag, State.visit, Lanes.get_set]
      split <;> simp_all
    · intro c' t ht
      simp only [State.lane, State.atomicTag, State.visit, Lanes.get_set] at ht
      split at ht
      · rename_i hc
        cases ht
        exact Or.inr ⟨rfl, name, by rw [hmark, hc]; rfl⟩
      · exact Or.inl ht
  | closing c name last top outer outer' hmark hstack htag hlane hsame =>
    exact h.closeTag hmark hstack htag hlane
  | previous c name tag hmark hpointer hgranted =>
    exact h.flat (hmark ▸ .styler .nil) rfl (fun _ => rfl) (fun _ _ ht => Or.inl ht)
  | container c name tag hmark hpointer hgranted =>
    exact h.flat (hmark ▸ .styler .nil) rfl (fun _ => rfl) (fun _ _ ht => Or.inl ht)
  | next c name hmark =>
    refine h.flat (hmark ▸ .styler .nil) rfl ?_ ?_
    · intro c'
      simp only [State.lane, State.visit, Lanes.get_set]
      split <;> simp_all
    · intro c' t ht
      simp only [State.lane, State.visit, Lanes.get_set] at ht
      split at ht
      · rename_i hc
        exact Or.inl (hc ▸ ht)
      · exact Or.inl ht

end Aligned

/-- The causes for which the walk refuses a marker. -/
inductive Refused (s : State) (site : Site) : Fault → Prop
  | misfit (category : Category) (name : String)
      (mark : site.marker.mark = .closing category name)
      (unnamed : ∀ last outer, s.openTags = last :: outer →
        ∀ c, last.marker.mark.tag? ≠ some (c, name)) :
      Refused s site (s.misfit name site)
  | category (category category' : Category) (name : String) (last : Site) (outer : List Site)
      (mark : site.marker.mark = .closing category name) (stack : s.openTags = last :: outer)
      (tag : last.marker.mark.tag? = some (category', name)) (other : category' ≠ category) :
      Refused s site (.wrongCategory site.describe last.describe)
  | previous (category : Category) (name : String)
      (mark : site.marker.mark = .styler category .previous name)
      (pointer : (s.lane category).previous = none) :
      Refused s site (.nothingBefore category site.describe)
  | container (category : Category) (name : String)
      (mark : site.marker.mark = .styler category .container name)
      (pointer : (s.lane category).openTags = []) :
      Refused s site (.nothingAround category site.describe)

/-- A close that does not fit is refused for its name or for its category. -/
private theorem Aligned.refused_closing {site : Site} {fault : Fault} {name : String}
    (h : Aligned markers s) (hmark : site.marker.mark = .closing category name)
    (hfail : (s.visit site).closeTag category name site = .error fault) :
    Refused (s.visit site) site fault := by
  unfold State.closeTag at hfail
  cases hstack : s.openTags with
  | nil =>
    have hvisit : (s.visit site).openTags = [] := hstack
    simp only [hvisit, Except.error.injEq] at hfail
    subst hfail
    exact .misfit category name hmark (by simp [hvisit])
  | cons last outer =>
    have hvisit : (s.visit site).openTags = last :: outer := hstack
    have hlast : last ∈ s.openTags := hstack ▸ List.mem_cons_self
    obtain ⟨name', classes, hopening, _⟩ := h.opening hlast
    have htag : last.marker.mark.tag? = some (last.marker.mark.category, name') := by
      rw [hopening]
      rfl
    simp only [hvisit, htag] at hfail
    by_cases hname : name' = name
    · subst hname
      by_cases hcategory : last.marker.mark.category = category
      · have hlane : ((s.visit site).lane category).openTags =
            last :: outer.filter (·.marker.mark.category = category) := by
          have := h.lanes category
          rw [hstack, List.filter_cons_of_pos (by simpa using hcategory)] at this
          exact this
        simp [hcategory, State.pop, hlane] at hfail
      · simp only [ne_eq, not_true_eq_false, if_false, hcategory, not_false_eq_true, if_true,
          Except.error.injEq] at hfail
        subst hfail
        exact .category category _ name' last outer hmark hvisit htag hcategory
    · simp only [ne_eq, hname, not_false_eq_true, if_true, Except.error.injEq] at hfail
      subst hfail
      apply Refused.misfit category name hmark
      intro last' outer' hstack' c' htag'
      cases hvisit.symm.trans hstack'
      have := htag.symm.trans htag'
      simp only [Option.some.injEq, Prod.mk.injEq] at this
      exact hname this.2

/-- A styler is refused when there is no tag where it looks. -/
private theorem Aligned.refused_styler {site : Site} {fault : Fault} {direction : Direction}
    {name : String} (h : Aligned markers s)
    (hmark : site.marker.mark = .styler category direction name)
    (hfail : (s.visit site).style category direction name site = .error fault) :
    Refused (s.visit site) site fault := by
  unfold State.style at hfail
  cases direction with
  | previous =>
    cases hpointer : ((s.visit site).lane category).previous with
    | none =>
      simp only [hpointer, Except.error.injEq] at hfail
      subst hfail
      exact .previous category name hmark hpointer
    | some tag =>
      obtain ⟨_, name', htag⟩ := h.previous category tag hpointer
      simp [hpointer, State.grant, htag] at hfail
  | container =>
    cases hpointer : ((s.visit site).lane category).openTags with
    | nil =>
      simp only [hpointer, List.head?_nil, Except.error.injEq] at hfail
      subst hfail
      exact .container category name hmark hpointer
    | cons tag rest =>
      have hlane : (s.lane category).openTags = tag :: rest := hpointer
      have hmem : tag ∈ (s.lane category).openTags := hlane ▸ List.mem_cons_self
      obtain ⟨_, name', htag⟩ := h.isTag_of_mem_lane hmem
      simp [hpointer, State.grant, htag] at hfail
  | next => simp at hfail

/-- No fault of the stacks themselves is among the causes. -/
theorem Aligned.refused {site : Site} {fault : Fault} (h : Aligned markers s)
    (hfail : (s.visit site).step site = .error fault) : Refused (s.visit site) site fault := by
  unfold State.step at hfail
  cases hmark : site.marker.mark with
  | opening c name classes => simp [hmark] at hfail
  | atomic c name classes => simp [hmark] at hfail
  | closing c name =>
    rw [hmark] at hfail
    exact h.refused_closing hmark hfail
  | styler c direction name =>
    rw [hmark] at hfail
    exact h.refused_styler hmark hfail

theorem Reached.aligned (h : Reached markers s) : Aligned markers s := by
  induction h with
  | start => exact .start
  | concat _ hstep ih => exact ih.step hstep

/-- A fault by which a walk reports that its own stacks drifted apart. -/
def IsDrift : Fault → Prop
  | .stacksDisagree _ => True
  | .unclosedCategoryTags _ _ => True
  | _ => False

theorem Refused.not_isDrift {site : Site} {fault : Fault} (h : Refused s site fault) :
    ¬ IsDrift fault := by
  cases h with
  | misfit category name _ _ =>
    unfold State.misfit
    cases s.atomicSince name s.openTags.head? <;> simp [IsDrift]
  | category => simp [IsDrift]
  | previous => simp [IsDrift]
  | container => simp [IsDrift]

/-- With no tag open, no lane holds one either, and only classes can be left. -/
theorem Aligned.leftover?_of_closed (h : Aligned markers s) (hstack : s.openTags = []) :
    s.leftover? = (Category.all.find? fun c => !(s.lane c).queued.isEmpty).map fun c =>
      .classesLeftOver c (s.lane c).queued.reverse := by
  have hnone : Category.all.find? (fun c => !(s.lane c).openTags.isEmpty) = none := by
    simp [h.lanes, hstack]
  simp only [State.leftover?, hstack, ne_eq, not_true_eq_false, if_false, hnone]

theorem Aligned.leftover_not_isDrift {fault : Fault} (h : Aligned markers s)
    (hleft : s.leftover? = some fault) : ¬ IsDrift fault := by
  by_cases hstack : s.openTags = []
  · rw [h.leftover?_of_closed hstack, Option.map_eq_some_iff] at hleft
    obtain ⟨c, _, rfl⟩ := hleft
    simp [IsDrift]
  · simp only [State.leftover?, ne_eq, hstack, not_false_eq_true, if_true,
      Option.some.injEq] at hleft
    subst hleft
    simp [IsDrift]

theorem walk_not_isDrift (markers : List Marker) {fault : Fault}
    (h : (walk markers).value.outcome = .error fault) : ¬ IsDrift fault := by
  rcases walk_outcome_cases markers with ⟨s, hreached, hvalue⟩ | ⟨s, fault', hstopped, hvalue⟩
  · rw [hvalue] at h
    cases hleft : s.leftover? with
    | none => simp [hleft, verdict] at h
    | some fault' =>
      simp only [hleft, verdict, Except.error.injEq] at h
      exact h ▸ hreached.aligned.leftover_not_isDrift hleft
  · rw [hvalue] at h
    obtain ⟨before, after, m, last, _, hreached, hfailed, _⟩ := hstopped
    cases h
    exact (hreached.aligned.refused hfailed).not_isDrift

end

/-- The stacks and pointers of a state, told from the visited markers alone.
Stacks are kept with the innermost tag first. -/
structure Consistent (markers : List Marker) (s : State) : Prop where
  ascending : (s.openTags.map (·.index)).reverse.Pairwise (· < ·)
  open_tags : ∀ i, i ∈ s.openTags.map (·.index) ↔ ∃ c, StillOpen (marksOf markers) c i
  lanes : ∀ c, (s.lane c).openTags = s.openTags.filter (·.marker.mark.category = c)
  opening : ∀ t, (t ∈ s.openTags ∨ ∃ c, t ∈ (s.lane c).openTags) → ∃ c name classes,
    markers[t.index]? = some t.marker ∧ t.marker.mark = .opening c name classes
  previous : ∀ c t, (s.lane c).previous = some t →
    markers[t.index]? = some t.marker ∧ IsTag c t.marker.mark

theorem Aligned.consistent {markers : List Marker} {s : State} (h : Aligned markers s) :
    Consistent markers s where
  ascending := List.pairwise_reverse.mpr h.spine.descending
  open_tags := fun _ => h.spine.mem_iff
  lanes := h.lanes
  opening := by
    intro t ht
    have hstack : t ∈ s.openTags := by
      rcases ht with ht | ⟨c, ht⟩
      · exact ht
      · exact (h.mem_lane.mp ht).1
    obtain ⟨name, classes, hmark, _⟩ := h.opening hstack
    exact ⟨_, name, classes, h.sited t hstack, hmark⟩
  previous := h.previous

theorem take_sites (markers : List Marker) (n : Nat) :
    (sites markers).take n = sites (markers.take n) := by
  apply List.ext_getElem?
  intro i
  simp only [sites, List.getElem?_take, List.getElem?_mapIdx]
  split <;> rfl

/-- After any markers that have fitted, the stacks hold exactly the tags that
are open, every lane those of its category, and every pointer a visited tag.
The walk never finds its stacks in disagreement. -/
theorem walk_stacks_agree (markers : List Marker) :
    (∀ n s, State.advance {} ((sites markers).take n) = (s, none) →
      Consistent (markers.take n) s) ∧
    (∀ tag, (walk markers).value.outcome ≠ .error (.stacksDisagree tag)) ∧
    ∀ c tags, (walk markers).value.outcome ≠ .error (.unclosedCategoryTags c tags) := by
  refine ⟨?_, ?_, ?_⟩
  · intro n s hadvance
    rw [take_sites] at hadvance
    exact (reached_iff.mp hadvance).aligned.consistent
  · intro tag houtcome
    exact walk_not_isDrift markers houtcome trivial
  · intro c tags houtcome
    exact walk_not_isDrift markers houtcome trivial

/-- Two tags of different categories are open before the first close. -/
theorem walk_stacks_agree_inside :
    let markers : List Marker := [⟨0, none, .opening .block "p" []⟩,
      ⟨1, none, .opening .inline "em" []⟩, ⟨2, none, .closing .inline "em"⟩]
    ∃ s, State.advance {} ((sites markers).take 2) = (s, none) ∧
      s.openTags.map (·.index) = [1, 0] ∧ Consistent (markers.take 2) s :=
  ⟨_, rfl, rfl, (walk_stacks_agree _).1 2 _ rfl⟩

end DeferredMarkup.Nesting
