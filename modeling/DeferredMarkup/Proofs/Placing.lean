import DeferredMarkup.Proofs.Layout
import DeferredMarkup.Proofs.Registering

/-!
Placing the text of a layout. When its placeholders name the markers of a
registry, each once and none of them located, then each is found where it
stands, and the markers come in the order of the placeholders.
-/
namespace DeferredMarkup

/-- The markers of a registry at the locations of their placeholders. -/
def placed (r : Registry) (ls : List Location) : List Marker :=
  ls.filterMap fun l => (r.get? l.id).map (·.placedAt l.offset)

theorem placed_cons {r : Registry} {l : Location} {m : Marker} (hm : r.get? l.id = some m)
    (ls : List Location) : placed r (l :: ls) = m.placedAt l.offset :: placed r ls := by
  unfold placed
  rw [List.filterMap_cons_some]
  rw [hm]
  rfl

namespace Registry

/-- The registry after a location has been recorded. -/
def record (r : Registry) (l : Location) : Registry :=
  r.modify l.id (·.placedAt l.offset) fun _ => rfl

def recordAll (r : Registry) (ls : List Location) : Registry := ls.foldl record r

variable {r : Registry} {ls : List Location} {l : Location} {id : MarkerId} {m : Marker}

theorem get?_record (r : Registry) (l : Location) (id : MarkerId) :
    (r.record l).get? id =
      if id = l.id then (r.get? id).map (·.placedAt l.offset) else r.get? id :=
  get?_modify ..

theorem mem_recordAll : id ∈ (r.recordAll ls).entries ↔ id ∈ r.entries := by
  induction ls generalizing r with
  | nil => exact Iff.rfl
  | cons l ls ih => exact ih.trans Std.TreeMap.mem_modify

theorem Lists.recordAll {ids : List MarkerId} (h : r.Lists ids) :
    (r.recordAll ls).Lists ids := h.congr fun _ => mem_recordAll

theorem get?_recordAll_of_notMem (h : id ∉ ls.map (·.id)) :
    (r.recordAll ls).get? id = r.get? id := by
  induction ls generalizing r with
  | nil => rfl
  | cons l ls ih =>
    rw [List.map_cons, List.mem_cons, not_or] at h
    have hrest : ((r.record l).recordAll ls).get? id = (r.record l).get? id := ih h.2
    rw [get?_record, if_neg h.1] at hrest
    exact hrest

/-- A marker has the location that is recorded for it, whichever come before and after. -/
theorem get?_recordAll_of_mem (hnodup : (ls.map (·.id)).Nodup) (hl : l ∈ ls) :
    (r.recordAll ls).get? l.id = (r.get? l.id).map (·.placedAt l.offset) := by
  induction ls generalizing r with
  | nil => exact absurd hl List.not_mem_nil
  | cons first ls ih =>
    rw [List.map_cons, List.nodup_cons] at hnodup
    obtain ⟨hnotMem, hnodup⟩ := hnodup
    show ((r.record first).recordAll ls).get? l.id = _
    rcases List.mem_cons.mp hl with rfl | hl
    · rw [get?_recordAll_of_notMem hnotMem, get?_record, if_pos rfl]
    · have hne : l.id ≠ first.id := by
        intro heq
        exact hnotMem (heq ▸ List.mem_map_of_mem hl)
      rw [ih hnodup hl, get?_record, if_neg hne]

theorem filterMap_get?_recordAll (hnodup : (ls.map (·.id)).Nodup) :
    (ls.map (·.id)).filterMap (r.recordAll ls).get? = placed r ls := by
  rw [List.filterMap_map]
  apply List.filterMap_congr
  intro l hl
  exact get?_recordAll_of_mem hnodup hl

theorem locate_eq_record (hm : r.get? l.id = some m) (hfree : m.offset = none) :
    r.locate l.id l.offset = .ok (r.record l) := by
  unfold locate
  rw [hm]
  simp only [hfree]
  rfl

end Registry

/-- Markings of registered markers, each found once, are all accepted. -/
theorem Placement.acceptAll_locations {length : Nat} {r : Registry} {ls located : List Location}
    (hnodup : (ls.map (·.id)).Nodup)
    (hfree : ∀ l ∈ ls, ∃ m, r.get? l.id = some m ∧ m.offset = none) :
    acceptAll length ⟨r, located⟩ (ls.map Location.marking) =
      (⟨r.recordAll ls, ls.reverse ++ located⟩, none) := by
  induction ls generalizing r located with
  | nil => rfl
  | cons l ls ih =>
    rw [List.map_cons, List.nodup_cons] at hnodup
    obtain ⟨hnotMem, hnodup⟩ := hnodup
    obtain ⟨m, hm, hnone⟩ := hfree l List.mem_cons_self
    have hrest : ∀ l' ∈ ls, ∃ m, (r.record l).get? l'.id = some m ∧ m.offset = none := by
      intro l' hl'
      have hne : l'.id ≠ l.id := by
        intro heq
        exact hnotMem (heq ▸ List.mem_map_of_mem hl')
      rw [Registry.get?_record, if_neg hne]
      exact hfree l' (List.mem_cons_of_mem _ hl')
    have haccept : accept length ⟨r, located⟩ l.marking = .ok ⟨r.record l, l :: located⟩ := by
      simp only [accept, Location.marking, Registry.locate_eq_record hm hnone]
    rw [List.map_cons, acceptAll, haccept]
    simp only
    rw [ih hnodup hrest, List.reverse_cons, List.append_assoc, List.singleton_append]
    rfl

namespace Layout

variable {d : Layout} {r : Registry}

theorem nodup_locations (h : r.Lists d.ids) : (d.locations.map (·.id)).Nodup := by
  rw [map_id_locations]
  exact h.1

/-- The placeholders of a layout are placed where they stand. -/
theorem place_text (hlen : d.text.utf8ByteSize ≤ longestText) (hlists : r.Lists d.ids)
    (hfree : ∀ id m, r.get? id = some m → m.offset = none) :
    (Placement.place d.text r).value = ⟨r.recordAll d.locations, .ok d.locations⟩ := by
  have hfree : ∀ l ∈ d.locations, ∃ m, r.get? l.id = some m ∧ m.offset = none := by
    intro l hl
    have hid : l.id ∈ d.ids := d.map_id_locations ▸ List.mem_map_of_mem hl
    obtain ⟨m, hm⟩ := (hlists.2 l.id).mp hid
    exact ⟨m, hm, hfree l.id m hm⟩
  have hcount : d.locations.length = (r.recordAll d.locations).size := by
    rw [← hlists.recordAll.length_eq, ← d.map_id_locations, List.length_map]
  have haccept : Placement.acceptAll d.text.utf8ByteSize ⟨r, []⟩
      (d.locations.map Location.marking) =
        (⟨r.recordAll d.locations, d.locations.reverse⟩, none) := by
    rw [Placement.acceptAll_locations (nodup_locations hlists) hfree, List.append_nil]
  unfold Placement.place
  simp only [Nat.not_lt.mpr hlen, if_false, d.ofText_text, haccept, List.reverse_reverse, hcount,
    if_true]

/-- Document order is the order in which the placeholders stand. -/
theorem sorted_recordAll (hlists : r.Lists d.ids) :
    (r.recordAll d.locations).sorted = .ok (placed r d.locations) := by
  have hplaced : d.ids.filterMap (r.recordAll d.locations).get? = placed r d.locations := by
    rw [← d.map_id_locations]
    exact Registry.filterMap_get?_recordAll (nodup_locations hlists)
  rw [← hplaced]
  refine hlists.recordAll.sorted_eq ?_ ?_
  · intro m hm
    rw [hplaced] at hm
    obtain ⟨l, _, hl⟩ := List.mem_filterMap.mp hm
    obtain ⟨m', _, rfl⟩ := Option.map_eq_some_iff.mp hl
    rfl
  · rw [hplaced]
    apply List.pairwise_filterMap.mpr
    apply d.ascending_locations.imp
    intro l l' hlt a ha b hb
    obtain ⟨a', _, rfl⟩ := Option.map_eq_some_iff.mp ha
    obtain ⟨b', _, rfl⟩ := Option.map_eq_some_iff.mp hb
    simp only [Marker.order, Marker.placedAt, Nat.compare_eq_lt.mpr hlt]
    rfl

end Layout

namespace Registry.Lists

variable {d : Layout} {r : Registry}

theorem isEmpty_recordAll (h : r.Lists d.ids) :
    (r.recordAll d.locations).isEmpty = r.isEmpty := by
  rw [Bool.eq_iff_iff, h.recordAll.isEmpty_iff, h.isEmpty_iff]

theorem placed_eq_nil (h : r.Lists d.ids) (hempty : r.isEmpty) : placed r d.locations = [] := by
  have hlocations : d.locations = [] := by
    rw [← List.map_eq_nil_iff, d.map_id_locations]
    exact h.isEmpty_iff.mp hempty
  rw [hlocations]
  rfl

end Registry.Lists

end DeferredMarkup
