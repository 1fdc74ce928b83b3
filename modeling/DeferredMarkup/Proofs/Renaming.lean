import DeferredMarkup.Proofs.Steps

/-!
Markers under other ids. The walk knows a tag by its place and never by its id,
so that over the same marks with other ids it takes the same steps, grants the
same classes and stops at the same place. Ids come up again only in what a
fault says of a marker.
-/
namespace DeferredMarkup

/-- The same marker under another id. -/
def Marker.rename (π : MarkerId → MarkerId) (m : Marker) : Marker := { m with id := π m.id }

/-- The same fault, but for the ids in it. Where a fault says how markers are
described, the other one describes the same markers under their other ids. -/
inductive Fault.Renamed (π : MarkerId → MarkerId) : Fault → Fault → Prop
  | textTooLong (length limit : Nat) :
      Renamed π (.textTooLong length limit) (.textTooLong length limit)
  | truncatedMarking (offset length : Nat) :
      Renamed π (.truncatedMarking offset length) (.truncatedMarking offset length)
  | malformedMarking (offset : Nat) (digits : String) :
      Renamed π (.malformedMarking offset digits) (.malformedMarking offset digits)
  | unknownMarker (id : MarkerId) (offset : Nat) :
      Renamed π (.unknownMarker id offset) (.unknownMarker (π id) offset)
  | locatedTwice (id : MarkerId) (first second : Nat) :
      Renamed π (.locatedTwice id first second) (.locatedTwice (π id) first second)
  | miscount (markings markers : Nat) :
      Renamed π (.miscount markings markers) (.miscount markings markers)
  | sentinelWithin (id : MarkerId) : Renamed π (.sentinelWithin id) (.sentinelWithin (π id))
  | stacksDisagree (tag : Marker) :
      Renamed π (.stacksDisagree tag.describe) (.stacksDisagree (tag.rename π).describe)
  | closesAtomic (close tag : Marker) :
      Renamed π (.closesAtomic close.describe tag.describe)
        (.closesAtomic (close.rename π).describe (tag.rename π).describe)
  | unmatchedClose (close : Marker) (lastOpen : Option Marker) :
      Renamed π (.unmatchedClose close.describe (lastOpen.map (·.describe)))
        (.unmatchedClose (close.rename π).describe (lastOpen.map fun m => (m.rename π).describe))
  | wrongCategory (close lastOpen : Marker) :
      Renamed π (.wrongCategory close.describe lastOpen.describe)
        (.wrongCategory (close.rename π).describe (lastOpen.rename π).describe)
  | nothingBefore (category : Category) (styler : Marker) :
      Renamed π (.nothingBefore category styler.describe)
        (.nothingBefore category (styler.rename π).describe)
  | nothingAround (category : Category) (styler : Marker) :
      Renamed π (.nothingAround category styler.describe)
        (.nothingAround category (styler.rename π).describe)
  | unclosedTags (tags : List Marker) :
      Renamed π (.unclosedTags (tags.map (·.describe)))
        (.unclosedTags (tags.map fun m => (m.rename π).describe))
  | unclosedCategoryTags (category : Category) (tags : List Marker) :
      Renamed π (.unclosedCategoryTags category (tags.map (·.describe)))
        (.unclosedCategoryTags category (tags.map fun m => (m.rename π).describe))
  | classesLeftOver (category : Category) (classes : List String) :
      Renamed π (.classesLeftOver category classes) (.classesLeftOver category classes)

/-- Two computations both come to results that are related, or both fail with
faults that are the same but for the ids in them. -/
def Alike {α β : Type} (π : MarkerId → MarkerId) (R : α → β → Prop) :
    Except Fault α → Except Fault β → Prop
  | .ok a, .ok b => R a b
  | .error fault, .error fault' => fault.Renamed π fault'
  | _, _ => False

namespace Alike

variable {α β : Type} {π : MarkerId → MarkerId} {R : α → β → Prop} {y : Except Fault β}

theorem of_ok {a : α} (h : Alike π R (.ok a) y) : ∃ b, y = .ok b ∧ R a b := by
  cases y with
  | ok b => exact ⟨b, rfl, h⟩
  | error fault' => exact h.elim

theorem of_error {fault : Fault} (h : Alike π R (.error fault) y) :
    ∃ fault', y = .error fault' ∧ fault.Renamed π fault' := by
  cases y with
  | ok b => exact h.elim
  | error fault' => exact ⟨fault', rfl, h⟩

end Alike

namespace Nesting

variable {π : MarkerId → MarkerId}

def Site.rename (π : MarkerId → MarkerId) (site : Site) : Site :=
  { site with marker := site.marker.rename π }

def Lane.rename (π : MarkerId → MarkerId) (lane : Lane) : Lane where
  openTags := lane.openTags.map (·.rename π)
  previous := lane.previous.map (·.rename π)
  queued := lane.queued

def Lanes.rename (π : MarkerId → MarkerId) (lanes : Lanes) : Lanes where
  jcx := lanes.jcx.rename π
  block := lanes.block.rename π
  inline := lanes.inline.rename π

/-- The state of a walk over markers under other ids. -/
def State.rename (π : MarkerId → MarkerId) (s : State) : State where
  visited := s.visited.map (·.rename π)
  openTags := s.openTags.map (·.rename π)
  lanes := s.lanes.rename π
  grants := s.grants

@[simp] theorem Site.index_rename (site : Site) : (site.rename π).index = site.index := rfl

@[simp] theorem Site.mark_rename (site : Site) :
    (site.rename π).marker.mark = site.marker.mark := rfl

@[simp] theorem Lanes.get_rename (lanes : Lanes) (category : Category) :
    (lanes.rename π).get category = (lanes.get category).rename π := by
  cases category <;> rfl

theorem Lanes.rename_set (lanes : Lanes) (category : Category) (lane : Lane) :
    (lanes.set category lane).rename π = (lanes.rename π).set category (lane.rename π) := by
  cases category <;> rfl

namespace State

@[simp] theorem lane_rename (s : State) (category : Category) :
    (s.rename π).lane category = (s.lane category).rename π := Lanes.get_rename _ _

theorem visit_rename (s : State) (site : Site) :
    (s.rename π).visit (site.rename π) = (s.visit site).rename π := rfl

theorem atomicTag_rename (s : State) (category : Category) (tag : Site) :
    (s.rename π).atomicTag category (tag.rename π) = (s.atomicTag category tag).rename π := by
  simp [atomicTag, rename, Lanes.rename_set, flush, Lane.rename, lane]

theorem openTag_rename (s : State) (category : Category) (tag : Site) :
    (s.rename π).openTag category (tag.rename π) = (s.openTag category tag).rename π := by
  simp [openTag, rename, Lanes.rename_set, flush, Lane.rename, lane]

theorem atomicSince_rename (s : State) (name : String) (tag : Option Site) :
    (s.rename π).atomicSince name (tag.map (·.rename π)) =
      (s.atomicSince name tag).map (·.rename π) := by
  unfold atomicSince
  rw [rename, List.takeWhile_map, List.find?_map]
  cases tag with
  | none => rfl
  | some tag => rfl

theorem misfit_renamed (π : MarkerId → MarkerId) (s : State) (name : String) (close : Site) :
    (s.misfit name close).Renamed π ((s.rename π).misfit name (close.rename π)) := by
  have hopen : (s.rename π).openTags.head? = s.openTags.head?.map (·.rename π) := List.head?_map
  unfold misfit
  rw [hopen, atomicSince_rename]
  cases s.atomicSince name s.openTags.head? with
  | some atomic => exact .closesAtomic close.marker atomic.marker
  | none =>
    simp only [Option.map_none, Option.map_map]
    have h : Fault.Renamed π _ _ := .unmatchedClose close.marker (s.openTags.head?.map (·.marker))
    simp only [Option.map_map] at h
    exact h

theorem grant_alike (π : MarkerId → MarkerId) (s : State) (tag : Site) (className : String) :
    Alike π (fun t t' => t' = t.rename π) (s.grant tag className)
      ((s.rename π).grant (tag.rename π) className) := by
  unfold grant
  rw [Site.mark_rename]
  by_cases htag : tag.marker.mark.tag?.isSome
  · rw [if_pos htag, if_pos htag]
    rfl
  · rw [if_neg htag, if_neg htag]
    exact .stacksDisagree tag.marker

theorem pop_alike (π : MarkerId → MarkerId) (s : State) (category : Category) (last : Site)
    (outer : List Site) :
    Alike π (fun t t' => t' = t.rename π) (s.pop category last outer)
      ((s.rename π).pop category (last.rename π) (outer.map (·.rename π))) := by
  unfold pop
  rw [lane_rename]
  cases hlane : (s.lane category).openTags with
  | nil =>
    simp only [Lane.rename, hlane, List.map_nil]
    exact Fault.Renamed.stacksDisagree last.marker
  | cons top outer' =>
    simp only [Lane.rename, hlane, List.map_cons, Site.index_rename]
    by_cases hsame : top.index = last.index
    · simp [hsame, Alike, rename, Lanes.rename_set, Lane.rename]
    · simp only [hsame, ne_eq, not_false_eq_true, if_true]
      exact Fault.Renamed.stacksDisagree last.marker

theorem closeTag_alike (π : MarkerId → MarkerId) (s : State) (category : Category) (name : String)
    (close : Site) :
    Alike π (fun t t' => t' = t.rename π) (s.closeTag category name close)
      ((s.rename π).closeTag category name (close.rename π)) := by
  have hmisfit := misfit_renamed π s name close
  have hopen : (s.rename π).openTags = s.openTags.map (·.rename π) := rfl
  unfold closeTag
  rw [hopen]
  cases s.openTags with
  | nil => exact hmisfit
  | cons last outer =>
    simp only [List.map_cons, Site.mark_rename]
    cases last.marker.mark.tag? with
    | none => exact .stacksDisagree last.marker
    | some tag =>
      obtain ⟨category', name'⟩ := tag
      dsimp only
      by_cases hname : name' = name
      · rw [if_neg (not_not.mpr hname), if_neg (not_not.mpr hname)]
        by_cases hcategory : category' = category
        · rw [if_neg (not_not.mpr hcategory), if_neg (not_not.mpr hcategory)]
          exact pop_alike π s category last outer
        · rw [if_pos hcategory, if_pos hcategory]
          exact .wrongCategory close.marker last.marker
      · rw [if_pos hname, if_pos hname]
        exact hmisfit

theorem style_alike (π : MarkerId → MarkerId) (s : State) (target : Category)
    (direction : Direction) (className : String) (styler : Site) :
    Alike π (fun t t' => t' = t.rename π) (s.style target direction className styler)
      ((s.rename π).style target direction className (styler.rename π)) := by
  unfold style
  rw [lane_rename]
  cases direction with
  | previous =>
    simp only [Lane.rename]
    cases (s.lane target).previous with
    | none => exact .nothingBefore target styler.marker
    | some tag => exact grant_alike π s tag className
  | container =>
    simp only [Lane.rename, List.head?_map]
    cases (s.lane target).openTags.head? with
    | none => exact .nothingAround target styler.marker
    | some tag => exact grant_alike π s tag className
  | next => simp [Alike, rename, Lanes.rename_set, Lane.rename]

/-- A step does not depend on ids, and a fault names the same markers. -/
theorem step_alike (π : MarkerId → MarkerId) (s : State) (site : Site) :
    Alike π (fun t t' => t' = t.rename π) (s.step site) ((s.rename π).step (site.rename π)) := by
  unfold step
  rw [Site.mark_rename]
  cases site.marker.mark with
  | opening category name classes => exact openTag_rename s category site
  | atomic category name classes => exact atomicTag_rename s category site
  | closing category name => exact closeTag_alike π s category name site
  | styler target direction className => exact style_alike π s target direction className site

/-- What is left over is described under the other ids. -/
theorem leftover?_renamed (π : MarkerId → MarkerId) (s : State) :
    Option.Rel (Fault.Renamed π) s.leftover? (s.rename π).leftover? := by
  have hdescribed : ∀ tags : List Site, (tags.map (·.rename π)).reverse.map Site.describe =
      (tags.reverse.map (·.marker)).map fun m => (m.rename π).describe := by
    intro tags
    rw [← List.map_reverse, List.map_map, List.map_map]
    rfl
  have hplain : ∀ tags : List Site, tags.reverse.map Site.describe =
      (tags.reverse.map (·.marker)).map (·.describe) := by
    intro tags
    rw [List.map_map]
    rfl
  have hopen : (s.rename π).openTags = s.openTags.map (·.rename π) := rfl
  unfold leftover?
  simp only [lane_rename, hopen, Lane.rename, hdescribed, hplain, List.isEmpty_map, ne_eq,
    List.map_eq_nil_iff]
  by_cases hstack : s.openTags = []
  · simp only [hstack, not_true_eq_false, if_false]
    cases Category.all.find? fun c => !(s.lane c).openTags.isEmpty with
    | some c => exact .some (.unclosedCategoryTags c _)
    | none =>
      cases Category.all.find? fun c => !(s.lane c).queued.isEmpty with
      | some c => exact .some (.classesLeftOver c _)
      | none => exact .none
  · simp only [hstack, not_false_eq_true, if_true]
    exact .some (.unclosedTags _)

/-- Walks over the same marks under other ids go equally far. -/
theorem advance_renamed (π : MarkerId → MarkerId) (s : State) (sites : List Site) :
    ((s.rename π).advance (sites.map (·.rename π))).1 = (s.advance sites).1.rename π ∧
      Option.Rel (Fault.Renamed π) (s.advance sites).2
        ((s.rename π).advance (sites.map (·.rename π))).2 := by
  induction sites generalizing s with
  | nil => exact ⟨rfl, .none⟩
  | cons site sites ih =>
    have hstep := step_alike π (s.visit site) site
    rw [List.map_cons, advance, advance, visit_rename]
    cases hleft : (s.visit site).step site with
    | ok t =>
      rw [hleft] at hstep
      obtain ⟨_, hright, rfl⟩ := hstep.of_ok
      rw [hright]
      exact ih t
    | error fault =>
      rw [hleft] at hstep
      obtain ⟨fault', hright, hfault⟩ := hstep.of_error
      rw [hright]
      exact ⟨rfl, .some hfault⟩

theorem run_renamed (π : MarkerId → MarkerId) (s : State) (sites : List Site) :
    ((s.rename π).run (sites.map (·.rename π))).1 = (s.run sites).1.rename π ∧
      Option.Rel (Fault.Renamed π) (s.run sites).2
        ((s.rename π).run (sites.map (·.rename π))).2 := by
  obtain ⟨hstate, hfault⟩ := advance_renamed π s sites
  unfold run
  rcases hleft : s.advance sites with ⟨t, fault⟩
  rcases hright : (s.rename π).advance (sites.map (·.rename π)) with ⟨t', fault'⟩
  rw [hleft, hright] at hstate hfault
  rw [hright]
  obtain rfl : t' = t.rename π := hstate
  cases hfault with
  | none => exact ⟨rfl, leftover?_renamed π t⟩
  | some hfault => exact ⟨rfl, .some hfault⟩

end State

theorem sites_rename (markers : List Marker) :
    sites (markers.map (·.rename π)) = (sites markers).map (·.rename π) := by
  apply List.ext_getElem?
  intro i
  simp only [sites, List.getElem?_mapIdx, List.getElem?_map, Option.map_map]
  rfl

theorem handOut_rename (markers : List Marker) (grants : List Grant) :
    handOut (markers.map (·.rename π)) grants = (handOut markers grants).map (·.rename π) := by
  apply List.ext_getElem?
  intro i
  simp only [getElem?_handOut, List.getElem?_map, Option.map_map]
  rfl

theorem verdict_alike {fault fault' : Option Fault}
    (h : Option.Rel (Fault.Renamed π) fault fault') :
    Alike π Eq (verdict fault) (verdict fault') := by
  cases h with
  | none => rfl
  | some h => exact h

/-- A walk over the same marks under other ids hands out the same classes, and
ends with the same fault but for the ids in it. -/
theorem walk_rename (π : MarkerId → MarkerId) (markers : List Marker) :
    (walk (markers.map (·.rename π))).value.markers =
        (walk markers).value.markers.map (·.rename π) ∧
      Alike π Eq (walk markers).value.outcome
        (walk (markers.map (·.rename π))).value.outcome := by
  obtain ⟨hstate, hfault⟩ := State.run_renamed π {} (sites markers)
  have hstart : State.rename π {} = {} := rfl
  rw [hstart, ← sites_rename] at hstate hfault
  refine ⟨?_, verdict_alike hfault⟩
  unfold walk
  dsimp only
  rw [hstate, handOut_rename]
  rfl

end Nesting

end DeferredMarkup
