import DeferredMarkup.Proofs.Placing
import DeferredMarkup.Proofs.Searching
import Mathlib.Data.List.Nodup
import Mathlib.Data.List.Perm.Subperm

/-!
Which texts can be placed. The placement looks up one marking after the other
and in the end compares two numbers, but what it decides is whether the
placeholders of the text and the markers of the registry are in one-to-one
correspondence. No marker may have been located before, so that a registry with
markers can be used for one text only.
-/
namespace DeferredMarkup

namespace Registry

variable {r r' : Registry} {ids : List MarkerId} {id : MarkerId} {offset : Nat}

theorem locate_eq (r : Registry) (id : MarkerId) (offset : Nat) : r.locate id offset =
    match r.get? id with
    | none => .error .unknown
    | some m =>
      match m.offset with
      | none => .ok (r.record ⟨offset, id⟩)
      | some first => .error (.already first) := by
  unfold locate
  cases r.get? id with
  | none => rfl
  | some m =>
    obtain ⟨id', offset', mark⟩ := m
    cases offset' with
    | none => rfl
    | some first => rfl

theorem locate_eq_ok_iff : r.locate id offset = .ok r' ↔
    (∃ m, r.get? id = some m ∧ m.offset = none) ∧ r' = r.record ⟨offset, id⟩ := by
  rw [locate_eq]
  cases r.get? id with
  | none => simp
  | some m =>
    cases hoffset : m.offset with
    | none => simp [hoffset, eq_comm]
    | some first => simp [hoffset]

theorem size_recordAll (r : Registry) (ls : List Location) : (r.recordAll ls).size = r.size := by
  induction ls generalizing r with
  | nil => rfl
  | cons l ls ih => exact (ih _).trans Std.TreeMap.size_modify

theorem cursor_recordAll (r : Registry) (ls : List Location) :
    (r.recordAll ls).cursor = r.cursor := by
  induction ls generalizing r with
  | nil => rfl
  | cons l ls ih => exact ih _

theorem subperm_keys (hnodup : ids.Nodup) (hregistered : ∀ id ∈ ids, ∃ m, r.get? id = some m) :
    ids.Subperm r.entries.keys := by
  apply List.subperm_of_subset hnodup
  intro id hid
  exact Std.TreeMap.mem_keys.mpr (exists_get?_iff.mp (hregistered id hid))

/-- Distinct registered ids are no more than the markers. -/
theorem length_le_size (hnodup : ids.Nodup) (hregistered : ∀ id ∈ ids, ∃ m, r.get? id = some m) :
    ids.length ≤ r.size := by
  have hle := (subperm_keys hnodup hregistered).length_le
  rwa [Std.TreeMap.length_keys] at hle

/-- Distinct registered ids are all of them when they are as many as the markers. -/
theorem lists_of_length_eq (hnodup : ids.Nodup)
    (hregistered : ∀ id ∈ ids, ∃ m, r.get? id = some m)
    (hlen : ids.length = r.size) : r.Lists ids := by
  have hkeys : r.entries.keys.length ≤ ids.length := by
    rw [Std.TreeMap.length_keys, hlen]
    exact Nat.le_refl _
  have hperm := (subperm_keys hnodup hregistered).perm_of_length_le hkeys
  refine ⟨hnodup, ?_⟩
  intro id
  rw [hperm.mem_iff, Std.TreeMap.mem_keys, exists_get?_iff]

theorem Lists.exists_get? (h : r.Lists ids) (hempty : r.isEmpty = false) :
    ∃ id m, r.get? id = some m := by
  cases ids with
  | nil => simp [h.isEmpty_iff.mpr rfl] at hempty
  | cons id ids =>
    obtain ⟨m, hm⟩ := (h.2 id).mp List.mem_cons_self
    exact ⟨id, m, hm⟩

end Registry

namespace Placement

variable {length : Nat} {s s' : State} {m : Marking} {markings : List Marking}

theorem accept_eq_ok_iff : accept length s m = .ok s' ↔ ∃ id, m.reading = .id id ∧
    (∃ x, s.registry.get? id = some x ∧ x.offset = none) ∧
    s' = ⟨s.registry.record ⟨m.offset, id⟩, ⟨m.offset, id⟩ :: s.located⟩ := by
  unfold accept
  cases m.reading with
  | truncated => simp
  | malformed digits => simp
  | id id =>
    cases hlocate : s.registry.locate id m.offset with
    | error cause =>
      have hnot : ¬ ∃ x, s.registry.get? id = some x ∧ x.offset = none := by
        intro hfree
        rw [Registry.locate_eq_ok_iff.mpr ⟨hfree, rfl⟩] at hlocate
        cases hlocate
      cases cause with
      | unknown => simp [hlocate, hnot]
      | already first => simp [hlocate, hnot]
    | ok r =>
      obtain ⟨hfree, rfl⟩ := Registry.locate_eq_ok_iff.mp hlocate
      simp only [hlocate, Except.ok.injEq, Reading.id.injEq, exists_eq_left', hfree, true_and]
      exact eq_comm

/-- Locations that can be recorded one after the other: those of registered
markers, each of them found once and not located before. -/
structure Accepted (r : Registry) (ls : List Location) : Prop where
  distinct : (ls.map (·.id)).Nodup
  free : ∀ l ∈ ls, ∃ x, r.get? l.id = some x ∧ x.offset = none

theorem Accepted.registered {r : Registry} {ls : List Location} (h : Accepted r ls) :
    ∀ id ∈ ls.map (·.id), ∃ m, r.get? id = some m := by
  intro id hid
  obtain ⟨l, hl, rfl⟩ := List.mem_map.mp hid
  obtain ⟨m, hm, _⟩ := h.free l hl
  exact ⟨m, hm⟩

/-- A marker that is located first is refused when its id comes again. -/
theorem Accepted.cons {r : Registry} {ls : List Location} {l : Location} {x : Marker}
    (hx : r.get? l.id = some x) (hnone : x.offset = none) (h : Accepted (r.record l) ls) :
    Accepted r (l :: ls) := by
  have hother : ∀ l' ∈ ls, l'.id ≠ l.id := by
    intro l' hl' heq
    obtain ⟨y, hy, hynone⟩ := h.free l' hl'
    rw [Registry.get?_record, if_pos heq, heq, hx] at hy
    cases hy
    cases hynone
  constructor
  · rw [List.map_cons, List.nodup_cons]
    refine ⟨?_, h.distinct⟩
    intro hmem
    obtain ⟨l', hl', heq⟩ := List.mem_map.mp hmem
    exact hother l' hl' heq
  · intro l' hl'
    rcases List.mem_cons.mp hl' with rfl | hl'
    · exact ⟨x, hx, hnone⟩
    · obtain ⟨y, hy, hynone⟩ := h.free l' hl'
      rw [Registry.get?_record, if_neg (hother l' hl')] at hy
      exact ⟨y, hy, hynone⟩

/-- Markings are accepted up to their end, or to the first that is refused. -/
theorem acceptAll_cases {r : Registry} {located : List Location} {stop : Option Fault}
    (h : acceptAll length ⟨r, located⟩ markings = (s, stop)) :
    ∃ (ls : List Location) (rest : List Marking), markings = ls.map Location.marking ++ rest ∧
      Accepted r ls ∧ s = ⟨r.recordAll ls, ls.reverse ++ located⟩ ∧
      ((stop = none ∧ rest = []) ∨ ∃ fault m after, stop = some fault ∧ rest = m :: after ∧
        accept length s m = .error fault) := by
  induction markings generalizing r located with
  | nil =>
    cases h
    exact ⟨[], [], rfl, ⟨.nil, by simp⟩, rfl, Or.inl ⟨rfl, rfl⟩⟩
  | cons m markings ih =>
    rw [acceptAll] at h
    cases haccept : accept length ⟨r, located⟩ m with
    | error fault =>
      rw [haccept] at h
      cases h
      exact ⟨[], m :: markings, rfl, ⟨.nil, by simp⟩, rfl, Or.inr ⟨fault, m, markings, rfl, rfl,
        haccept⟩⟩
    | ok s' =>
      obtain ⟨id, hreading, ⟨x, hx, hnone⟩, rfl⟩ := accept_eq_ok_iff.mp haccept
      rw [haccept] at h
      obtain ⟨ls, rest, rfl, haccepted, rfl, hstop⟩ := ih h
      have hstate : (⟨(r.record ⟨m.offset, id⟩).recordAll ls,
          ls.reverse ++ ⟨m.offset, id⟩ :: located⟩ : State) =
          ⟨r.recordAll (⟨m.offset, id⟩ :: ls), (⟨m.offset, id⟩ :: ls).reverse ++ located⟩ := by
        rw [List.reverse_cons, List.append_assoc]
        rfl
      refine ⟨⟨m.offset, id⟩ :: ls, rest, ?_, .cons hx hnone haccepted, hstate, hstop⟩
      rw [List.map_cons, Location.marking, ← hreading, List.cons_append]

/-- Markings that are all accepted are placeholders that can be recorded. -/
theorem acceptAll_of_none {r : Registry} {located : List Location}
    (h : acceptAll length ⟨r, located⟩ markings = (s, none)) :
    ∃ ls : List Location, markings = ls.map Location.marking ∧ Accepted r ls ∧
      s = ⟨r.recordAll ls, ls.reverse ++ located⟩ := by
  obtain ⟨ls, rest, rfl, haccepted, hs, ⟨_, rfl⟩ | ⟨_, _, _, hnot, _⟩⟩ := acceptAll_cases h
  · exact ⟨ls, List.append_nil _, haccepted, hs⟩
  · cases hnot

/-- Whatever it comes to, a placement only records locations. -/
theorem exists_recordAll (text : String) (r : Registry) :
    ∃ ls, (place text r).value.registry = r.recordAll ls := by
  unfold place
  dsimp only
  split
  · exact ⟨[], rfl⟩
  · split
    next s fault haccept =>
      obtain ⟨ls, _, _, _, rfl, _⟩ := acceptAll_cases haccept
      exact ⟨ls, rfl⟩
    next s haccept =>
      obtain ⟨ls, _, _, rfl⟩ := acceptAll_of_none haccept
      refine ⟨ls, ?_⟩
      split <;> rfl

end Placement

theorem Location.marking_injective : Function.Injective Location.marking := by
  intro l l' h
  cases l
  cases l'
  simp_all [Location.marking]

/-- A registry none of whose markers has been located. -/
def Registry.Unlocated (r : Registry) : Prop := ∀ id m, r.get? id = some m → m.offset = none

variable {text : String} {r : Registry} {ls : List Location}

/-- Markings that are accepted and as many as the markers are the placeholders
of a layout with the ids of the registry. -/
theorem exists_layout_of_acceptAll {length : Nat} {s : Placement.State}
    (h : Placement.acceptAll length ⟨r, []⟩ (Marking.ofText text.toList) = (s, none))
    (hcount : s.located.length = s.registry.size) :
    r.Unlocated ∧ ∃ d : Layout, d.text = text ∧ r.Lists d.ids ∧
      d.locations = s.located.reverse := by
  obtain ⟨ls, hmarkings, haccepted, rfl⟩ := Placement.acceptAll_of_none h
  obtain ⟨d, rfl⟩ : ∃ d : Layout, d.text = text := by
    apply exists_layout_of_ofText
    intro m hm
    obtain ⟨l, _, rfl⟩ := List.mem_map.mp (hmarkings ▸ hm : m ∈ ls.map Location.marking)
    exact ⟨l.id, rfl⟩
  rw [d.ofText_text] at hmarkings
  have hlocations : d.locations = ls :=
    List.map_injective_iff.mpr Location.marking_injective hmarkings
  have hlists : r.Lists d.ids := by
    rw [← d.map_id_locations, hlocations]
    apply Registry.lists_of_length_eq haccepted.distinct haccepted.registered
    rw [Registry.size_recordAll] at hcount
    simpa using hcount
  refine ⟨?_, d, rfl, hlists, by simpa using hlocations⟩
  intro id m hm
  have hid : id ∈ ls.map (·.id) := by
    rw [← hlocations, d.map_id_locations]
    exact (hlists.2 id).mpr ⟨m, hm⟩
  obtain ⟨l, hl, rfl⟩ := List.mem_map.mp hid
  obtain ⟨m', hm', hnone⟩ := haccepted.free l hl
  cases hm.symm.trans hm'
  exact hnone

/-- What can be placed are the layouts of the markers of a registry. -/
theorem place_eq_ok_iff : (Placement.place text r).value.outcome = .ok ls ↔
    text.utf8ByteSize ≤ longestText ∧ r.Unlocated ∧
      ∃ d : Layout, d.text = text ∧ r.Lists d.ids ∧ d.locations = ls := by
  constructor
  · intro h
    unfold Placement.place at h
    dsimp only at h
    split at h
    · cases h
    · rename_i hlen
      split at h
      · cases h
      · rename_i s haccept
        split at h
        · rename_i hcount
          cases h
          rw [List.length_reverse] at hcount
          exact ⟨Nat.not_lt.mp hlen, exists_layout_of_acceptAll haccept hcount⟩
        · cases h
  · intro h
    obtain ⟨hlen, hfree, d, rfl, hlists, rfl⟩ := h
    rw [Layout.place_text hlen hlists hfree]

/-- The placeholders of a text and the markers of a registry correspond: no
marker was located before, every sentinel begins a placeholder, and the
placeholders have distinct ids, which are those of the markers. -/
structure Corresponds (text : String) (r : Registry) : Prop where
  unlocated : r.Unlocated
  spelled : ∀ offset, SentinelAt text offset → ∃ id, Location.StandsIn ⟨offset, id⟩ text
  distinct : ∀ l l' : Location, l.StandsIn text → l'.StandsIn text → l.id = l'.id → l = l'
  registered : ∀ id, (∃ m, r.get? id = some m) ↔ ∃ offset, Location.StandsIn ⟨offset, id⟩ text

theorem Layout.mem_ids_iff {d : Layout} {id : MarkerId} :
    id ∈ d.ids ↔ ∃ offset, Location.StandsIn ⟨offset, id⟩ d.text := by
  rw [← d.map_id_locations, List.mem_map]
  constructor
  · intro h
    obtain ⟨l, hl, rfl⟩ := h
    exact ⟨l.offset, standsIn_text_iff.mpr hl⟩
  · intro h
    obtain ⟨offset, hstands⟩ := h
    exact ⟨_, standsIn_text_iff.mp hstands, rfl⟩

theorem Layout.nodup_ids_iff {d : Layout} : d.ids.Nodup ↔
    ∀ l l' : Location, l.StandsIn d.text → l'.StandsIn d.text → l.id = l'.id → l = l' := by
  have hlocations : d.locations.Nodup := by
    apply d.ascending_locations.imp
    intro l l' hlt heq
    exact Nat.lt_irrefl _ (heq ▸ hlt)
  rw [← d.map_id_locations, List.nodup_map_iff_inj_on hlocations]
  simp only [standsIn_text_iff]
  exact ⟨fun h l l' hl hl' => h l hl l' hl', fun h l hl l' hl' => h l l' hl hl'⟩

theorem corresponds_iff : Corresponds text r ↔
    r.Unlocated ∧ ∃ d : Layout, d.text = text ∧ r.Lists d.ids := by
  constructor
  · intro h
    obtain ⟨d, rfl⟩ := exists_layout_of_standsIn h.spelled
    refine ⟨h.unlocated, d, rfl, Layout.nodup_ids_iff.mpr h.distinct, ?_⟩
    intro id
    rw [Layout.mem_ids_iff, h.registered]
  · intro h
    obtain ⟨hfree, d, rfl, hlists⟩ := h
    refine ⟨hfree, ?_, Layout.nodup_ids_iff.mp hlists.1, ?_⟩
    · intro offset hoffset
      obtain ⟨l, hl, rfl⟩ := Layout.sentinelAt_text_iff.mp hoffset
      exact ⟨l.id, Layout.standsIn_text_iff.mpr hl⟩
    · intro id
      rw [← hlists.2, Layout.mem_ids_iff]

/-- Placing leaves a registry as it was, but for the offsets of its markers. -/
theorem get?_place (h : (Placement.place text r).value.outcome = .ok ls) :
    (∀ l ∈ ls, ∃ m, r.get? l.id = some m) ∧
    (∀ id m, r.get? id = some m → ∃ offset, ⟨offset, id⟩ ∈ ls ∧
      (Placement.place text r).value.registry.get? id = some (m.placedAt offset)) ∧
    (∀ id, r.get? id = none → (Placement.place text r).value.registry.get? id = none) ∧
    (Placement.place text r).value.registry.cursor = r.cursor := by
  obtain ⟨hlen, hfree, d, rfl, hlists, rfl⟩ := place_eq_ok_iff.mp h
  rw [Layout.place_text hlen hlists hfree]
  refine ⟨?_, ?_, ?_, Registry.cursor_recordAll _ _⟩
  · intro l hl
    exact (hlists.2 l.id).mp (d.map_id_locations ▸ List.mem_map_of_mem hl)
  · intro id m hm
    have hid : id ∈ d.locations.map (·.id) := by
      rw [d.map_id_locations]
      exact (hlists.2 id).mpr ⟨m, hm⟩
    obtain ⟨l, hl, rfl⟩ := List.mem_map.mp hid
    refine ⟨l.offset, hl, ?_⟩
    rw [Registry.get?_recordAll_of_mem (Layout.nodup_locations hlists) hl, hm]
    rfl
  · intro id hnone
    have hid : id ∉ d.locations.map (·.id) := by
      rw [d.map_id_locations, hlists.2 id, hnone]
      simp
    rw [Registry.get?_recordAll_of_notMem hid, hnone]

/-- A text that is not too long is placed exactly when its placeholders and the
markers of the registry correspond. The locations are then the placeholders of
the text from left to right, one for every sentinel byte and none overlapping.
Every marker is recorded where its placeholder stands, and nothing else changes,
so that no text can be placed with the same markers again. -/
theorem place_succeeds_iff_corresponds (text : String) (r : Registry)
    (hlen : text.utf8ByteSize ≤ longestText) :
    ((∃ ls, (Placement.place text r).value.outcome = .ok ls) ↔ Corresponds text r) ∧
    ∀ ls, (Placement.place text r).value.outcome = .ok ls →
      (∀ offset, SentinelAt text offset ↔ offset ∈ ls.map (·.offset)) ∧
      (∀ l, l ∈ ls ↔ l.StandsIn text) ∧
      ls.Pairwise (·.offset + Placeholder.width ≤ ·.offset) ∧
      (∀ id m, r.get? id = some m → ∃ offset, ⟨offset, id⟩ ∈ ls ∧
        (Placement.place text r).value.registry.get? id = some (m.placedAt offset)) ∧
      (∀ id, r.get? id = none → (Placement.place text r).value.registry.get? id = none) ∧
      (Placement.place text r).value.registry.cursor = r.cursor ∧
      (r.isEmpty = false → ∀ text' ls',
        (Placement.place text' (Placement.place text r).value.registry).value.outcome ≠
          .ok ls') := by
  refine ⟨?_, ?_⟩
  · rw [corresponds_iff]
    constructor
    · intro h
      obtain ⟨ls, hls⟩ := h
      obtain ⟨_, hfree, d, hd, hlists, _⟩ := place_eq_ok_iff.mp hls
      exact ⟨hfree, d, hd, hlists⟩
    · intro h
      obtain ⟨hfree, d, hd, hlists⟩ := h
      exact ⟨_, place_eq_ok_iff.mpr ⟨hlen, hfree, d, hd, hlists, rfl⟩⟩
  · intro ls hls
    obtain ⟨_, hregistered, hother, hcursor⟩ := get?_place hls
    obtain ⟨_, _, d, rfl, hlists, rfl⟩ := place_eq_ok_iff.mp hls
    refine ⟨?_, ?_, pairwise_locationsFrom _ _, hregistered, hother, hcursor, ?_⟩
    · intro offset
      rw [Layout.sentinelAt_text_iff, List.mem_map]
    · intro l
      exact Layout.standsIn_text_iff.symm
    · intro hempty text' ls' hagain
      obtain ⟨_, hfree, _⟩ := place_eq_ok_iff.mp hagain
      obtain ⟨id, m, hm⟩ := hlists.exists_get? hempty
      obtain ⟨offset, _, hplaced⟩ := hregistered id m hm
      exact Option.some_ne_none _ (hfree id _ hplaced)

/-- Two placeholders without a literal between them, the first with small letters. -/
theorem place_succeeds_iff_corresponds_adjacent :
    ∃ r₁ r : Registry, (∅ : Registry).insert 175 (.opening .inline "b" []) = .ok r₁ ∧
      r₁.register (.closing .inline "b") = ⟨r, .ok 0⟩ ∧
      "é\x1a00af\x1a0000".utf8ByteSize ≤ longestText ∧
      (Placement.place "é\x1a00af\x1a0000" r).value.outcome = .ok [⟨2, 175⟩, ⟨7, 0⟩] ∧
      Corresponds "é\x1a00af\x1a0000" r ∧
      (∀ l, l ∈ [(⟨2, 175⟩ : Location), ⟨7, 0⟩] ↔ l.StandsIn "é\x1a00af\x1a0000") ∧
      ∀ text' ls', (Placement.place text'
        (Placement.place "é\x1a00af\x1a0000" r).value.registry).value.outcome ≠ .ok ls' := by
  have hlen : "é\x1a00af\x1a0000".utf8ByteSize ≤ longestText := by decide
  obtain ⟨r₁, r, hinsert, hregister, hplace, hempty⟩ : ∃ r₁ r : Registry,
      (∅ : Registry).insert 175 (.opening .inline "b" []) = .ok r₁ ∧
      r₁.register (.closing .inline "b") = ⟨r, .ok 0⟩ ∧
      (Placement.place "é\x1a00af\x1a0000" r).value.outcome = .ok [⟨2, 175⟩, ⟨7, 0⟩] ∧
      r.isEmpty = false := ⟨_, _, rfl, rfl, rfl, rfl⟩
  obtain ⟨hiff, hplaced⟩ := place_succeeds_iff_corresponds _ r hlen
  obtain ⟨_, hlocations, _, _, _, _, hagain⟩ := hplaced _ hplace
  exact ⟨r₁, r, hinsert, hregister, hlen, hplace, hiff.mp ⟨_, hplace⟩, hlocations, hagain hempty⟩

end DeferredMarkup
