import DeferredMarkup.Proofs.Failures
import DeferredMarkup.Proofs.Renaming
import DeferredMarkup.Proofs.Respelling
import Mathlib.Logic.Equiv.Basic

/-!
Ids are immaterial. The markers of a registry may be kept under other ids, in
whatever order they are registered, when the placeholders of the text are
written with these ids, in letters of either case. The resolution then comes to
the same finished text, or it fails at the same place for the same reason, with
the other ids in what it says.
-/
namespace DeferredMarkup

open Nesting

variable {π : Equiv.Perm MarkerId}

theorem Nesting.marksOf_rename (π : MarkerId → MarkerId) (markers : List Marker) :
    marksOf (markers.map (·.rename π)) = marksOf markers := by
  unfold marksOf
  rw [List.map_map]
  rfl

/-- The other registry holds the same markers under their other ids. -/
def Registry.Rekeyed (π : Equiv.Perm MarkerId) (r r' : Registry) : Prop :=
  ∀ id, r'.get? (π id) = (r.get? id).map (·.rename π)

namespace Registry

variable {r r' : Registry}

theorem lists_keys (r : Registry) : r.Lists r.entries.keys := by
  refine ⟨Std.TreeMap.nodup_keys, ?_⟩
  intro id
  rw [Std.TreeMap.mem_keys, exists_get?_iff]

namespace Rekeyed

theorem record (h : r.Rekeyed π r') (l : Location) :
    (r.record l).Rekeyed π (r'.record (l.rename π)) := by
  intro id
  rw [get?_record, get?_record, h id, Location.id_rename]
  by_cases hid : id = l.id
  · subst hid
    rw [if_pos rfl, if_pos rfl, Option.map_map, Option.map_map]
    rfl
  · rw [if_neg hid, if_neg]
    intro heq
    exact hid (π.injective heq)

theorem get?_eq_some_iff (h : r.Rekeyed π r') {id : MarkerId} {m' : Marker} :
    r'.get? (π id) = some m' ↔ ∃ m, r.get? id = some m ∧ m' = m.rename π := by
  rw [h id, Option.map_eq_some_iff]
  simp only [eq_comm]

theorem lists {ids : List MarkerId} (h : r.Rekeyed π r') (hlists : r.Lists ids) :
    r'.Lists (ids.map π) := by
  refine ⟨hlists.1.map π.injective, ?_⟩
  intro id'
  obtain ⟨id, rfl⟩ := π.surjective id'
  rw [List.mem_map_of_injective π.injective, hlists.2 id]
  simp only [h.get?_eq_some_iff]
  constructor
  · rintro ⟨m, hm⟩
    exact ⟨_, m, hm, rfl⟩
  · rintro ⟨_, m, hm, rfl⟩
    exact ⟨m, hm⟩

theorem size_eq (h : r.Rekeyed π r') : r'.size = r.size := by
  have hkeys := r.lists_keys
  rw [← (h.lists hkeys).length_eq, ← hkeys.length_eq, List.length_map]

theorem unlocated (h : r.Rekeyed π r') (hfree : r.Unlocated) : r'.Unlocated := by
  intro id' m' hm'
  obtain ⟨id, rfl⟩ := π.surjective id'
  obtain ⟨m, hm, rfl⟩ := h.get?_eq_some_iff.mp hm'
  exact hfree id m hm

/-- The markers placed under the other ids are the ones placed before. -/
theorem placed_eq (h : r.Rekeyed π r') (ls : List Location) :
    placed r' (ls.map (·.rename π)) = (placed r ls).map (·.rename π) := by
  unfold placed
  rw [List.filterMap_map, List.map_filterMap]
  apply List.filterMap_congr
  intro l _
  show (r'.get? (π l.id)).map _ = _
  rw [h l.id, Option.map_map, Option.map_map]
  rfl

end Rekeyed

end Registry

namespace Placement

variable {s s' : State} {ms ms' : List Marking}

/-- How far two placements have come that differ in ids alone. -/
structure Rekeyed (π : Equiv.Perm MarkerId) (s s' : State) : Prop where
  registry : s.registry.Rekeyed π s'.registry
  located : s'.located = s.located.map (·.rename π)

/-- Both accept a marking, or refuse it for the same reason. -/
theorem accept_alike (length : Nat) (h : Rekeyed π s s') (offset : Nat) (id : MarkerId) :
    Alike π (Rekeyed π) (accept length s ⟨offset, .id id⟩)
      (accept length s' ⟨offset, .id (π id)⟩) := by
  simp only [accept, Registry.locate_eq, h.registry id]
  cases s.registry.get? id with
  | none => exact Fault.Renamed.unknownMarker id offset
  | some m =>
    obtain ⟨_, located, mark⟩ := m
    cases located with
    | none =>
      refine ⟨h.registry.record ⟨offset, id⟩, ?_⟩
      rw [h.located]
      rfl
    | some first => exact Fault.Renamed.locatedTwice id first offset

/-- Both accept the same number of markings and end with the same fault, if any. -/
theorem acceptAll_renamed (length : Nat) (h : Rekeyed π s s') (hms : Marking.Matched π ms ms') :
    Rekeyed π (acceptAll length s ms).1 (acceptAll length s' ms').1 ∧
      Option.Rel (Fault.Renamed π) (acceptAll length s ms).2 (acceptAll length s' ms').2 := by
  induction hms generalizing s s' with
  | nil => exact ⟨h, .none⟩
  | id offset id _ ih =>
    have haccept := accept_alike length h offset id
    rw [acceptAll, acceptAll]
    cases hleft : accept length s ⟨offset, .id id⟩ with
    | ok t =>
      rw [hleft] at haccept
      obtain ⟨t', hright, ht⟩ := haccept.of_ok
      rw [hright]
      exact ih ht
    | error fault =>
      rw [hleft] at haccept
      obtain ⟨fault', hright, hfault⟩ := haccept.of_error
      rw [hright]
      exact ⟨h, .some hfault⟩
  | broken m _ _ hnoId =>
    obtain ⟨offset, reading⟩ := m
    rw [acceptAll, acceptAll]
    cases reading with
    | id id => exact absurd rfl (hnoId id)
    | malformed digits => exact ⟨h, .some (.malformedMarking offset digits)⟩
    | truncated => exact ⟨h, .some (.truncatedMarking offset length)⟩

/-- Both texts are placed, or neither is, for the same reason. -/
theorem place_alike {text text' : String} {r r' : Registry} (hr : r.Rekeyed π r')
    (htext : Respelled π text.toList text'.toList) :
    Alike π (fun ls ls' => ls' = ls.map (·.rename π)) (place text r).value.outcome
      (place text' r').value.outcome := by
  have hlength := htext.utf8ByteSize_eq
  have hstart : Rekeyed π ⟨r, []⟩ ⟨r', []⟩ := ⟨hr, rfl⟩
  obtain ⟨hstate, hfault⟩ :=
    acceptAll_renamed text.utf8ByteSize hstart (htext.matched 0)
  unfold place
  dsimp only
  rw [hlength]
  by_cases hlen : longestText < text.utf8ByteSize
  · rw [if_pos hlen, if_pos hlen]
    exact Fault.Renamed.textTooLong _ _
  · rw [if_neg hlen, if_neg hlen]
    unfold Marking.ofText
    rcases hleft : acceptAll text.utf8ByteSize ⟨r, []⟩ (Marking.collect 0 [] 0 text.toList)
      with ⟨t, fault⟩
    rcases hright : acceptAll text.utf8ByteSize ⟨r', []⟩ (Marking.collect 0 [] 0 text'.toList)
      with ⟨t', fault'⟩
    rw [hleft, hright] at hstate hfault
    cases hfault with
    | some hfault => exact hfault
    | none =>
      dsimp only
      have hsize := hstate.registry.size_eq
      rw [hsize, hstate.located, List.length_reverse, List.length_reverse, List.length_map,
        ← List.map_reverse]
      split
      · rfl
      · exact Fault.Renamed.miscount _ _

end Placement

/-- Layouts that differ in ids alone become the same text, or fail alike. -/
theorem Layout.resolve_alike {d d' : Layout} {r r' : Registry} (hd : d.Renamed π d')
    (hr : r.Rekeyed π r') (hlength : d'.text.utf8ByteSize = d.text.utf8ByteSize)
    (hlen : d.text.utf8ByteSize ≤ longestText) (hlists : r.Lists d.ids) (hfree : r.Unlocated) :
    Alike π Eq (resolve d.text r).value (resolve d'.text r').value := by
  have hlen' : d'.text.utf8ByteSize ≤ longestText := hlength ▸ hlen
  have hlists' : r'.Lists d'.ids := hd.ids_eq ▸ hr.lists hlists
  have hfree' := hr.unlocated hfree
  have hplaced : placed r' d'.locations = (placed r d.locations).map (·.rename π) := by
    rw [hd.locations_eq, hr.placed_eq]
  obtain ⟨hmarkers, houtcome⟩ := walk_rename π (placed r d.locations)
  rw [← hplaced] at hmarkers houtcome
  cases hvalue : (resolve d.text r).value with
  | ok html =>
    obtain ⟨hwalk, hclean, rfl⟩ := (resolve_text_eq_ok_iff hlen hlists hfree).mp hvalue
    rw [hwalk] at houtcome
    obtain ⟨_, hwalk', _⟩ := houtcome.of_ok
    have hvalue' := (resolve_text_eq_ok_iff hlen' hlists' hfree').mpr ⟨hwalk', ?_, rfl⟩
    · rw [hvalue', hmarkers, hd.render_eq, List.map_map]
      rfl
    · rwa [hmarkers, marksOf_rename]
  | error fault =>
    have hfails := fun fault => @resolve_text_eq_error_iff d' r' fault hlen' hlists' hfree'
    rcases (resolve_text_eq_error_iff hlen hlists hfree).mp hvalue with
      hwalk | ⟨hwalk, before, m, after, hsplit, hbefore, hunclean, rfl⟩
    · rw [hwalk] at houtcome
      obtain ⟨fault', hwalk', hfault⟩ := houtcome.of_error
      rw [(hfails _).mpr (Or.inl hwalk')]
      exact hfault
    · rw [hwalk] at houtcome
      obtain ⟨_, hwalk', _⟩ := houtcome.of_ok
      rw [hsplit, List.map_append, List.map_cons] at hmarkers
      have hbefore' : ∀ x ∈ before.map (·.rename π), x.mark.Clean := by
        intro x hx
        obtain ⟨y, hy, rfl⟩ := List.mem_map.mp hx
        exact hbefore y hy
      rw [(hfails _).mpr (Or.inr ⟨hwalk', _, _, _, hmarkers, hbefore', hunclean, rfl⟩)]
      exact Fault.Renamed.sentinelWithin m.id

/-- The markers of a text may have other ids, when its placeholders are written
with them. It then becomes the same finished text, or it fails alike. -/
theorem resolve_alike {text text' : String} {r r' : Registry} (hr : r.Rekeyed π r')
    (htext : Respelled π text.toList text'.toList) :
    Alike π Eq (resolve text r).value (resolve text' r').value := by
  have hplace := Placement.place_alike hr htext
  cases houtcome : (Placement.place text r).value.outcome with
  | ok ls =>
    obtain ⟨hlen, hfree, d, rfl, hlists, _⟩ := place_eq_ok_iff.mp houtcome
    obtain ⟨d', rfl, hd⟩ := htext.exists_layout
    exact Layout.resolve_alike hd hr htext.utf8ByteSize_eq hlen hlists hfree
  | error fault =>
    rw [houtcome] at hplace
    obtain ⟨fault', houtcome', hfault⟩ := hplace.of_error
    rw [Resolution.resolve_eq_error_iff.mpr (Or.inl houtcome),
      Resolution.resolve_eq_error_iff.mpr (Or.inl houtcome')]
    exact hfault

namespace Registry

/-- A marker that is registered next can be registered under its other id. -/
theorem Rekeyed.exists_insert {r next r' : Registry} {id : MarkerId} {mark : Mark}
    (h : r.Rekeyed π r') (hfree : id ∉ r.entries)
    (hnext : ∀ other, next.get? other =
      if other = id then some ⟨id, none, mark⟩ else r.get? other) :
    ∃ next', r'.insert (π id) mark = .ok next' ∧ next.Rekeyed π next' := by
  have hfree' : π id ∉ r'.entries := by
    rw [← exists_get?_iff] at hfree ⊢
    simp only [h.get?_eq_some_iff]
    rintro ⟨_, m, hm, _⟩
    exact hfree ⟨m, hm⟩
  obtain ⟨next', hinsert⟩ := Registry.exists_insert mark hfree'
  refine ⟨next', hinsert, ?_⟩
  intro other
  rw [get?_insert hinsert, hnext, h other]
  simp only [π.injective.eq_iff]
  split
  · rfl
  · rfl

/-- What has been built can be built under any other ids. -/
theorem Built.exists_rekeyed {r : Registry} (h : r.Built) (π : Equiv.Perm MarkerId) :
    ∃ r' : Registry, r'.Built ∧ r.Rekeyed π r' := by
  induction h with
  | empty => exact ⟨∅, .empty, fun id => by rw [get?_empty, get?_empty]; rfl⟩
  | insert _ hinsert ih =>
    obtain ⟨r', hbuilt', hr⟩ := ih
    obtain ⟨next', hinsert', hnext⟩ :=
      hr.exists_insert (notMem_of_insert hinsert) fun _ => get?_insert hinsert
    exact ⟨next', .insert hbuilt' hinsert', hnext⟩
  | @register _ _ outcome _ _ hregister ih =>
    obtain ⟨r', hbuilt', hr⟩ := ih
    cases outcome with
    | ok id =>
      obtain ⟨next', hinsert', hnext⟩ :=
        hr.exists_insert (notMem_of_register hregister) fun _ => get?_register hregister
      exact ⟨next', .insert hbuilt' hinsert', hnext⟩
    | error fault =>
      refine ⟨r', hbuilt', ?_⟩
      intro id
      rw [get?_register_of_error hregister]
      exact hr id

end Registry

/-- Ids and the letters of their digits are immaterial. Any registry can be built
under other ids and any text written with them. Whichever way this is done, and
in whatever order the markers are registered, both resolutions give the same
finished text, or both fail with the same fault but for the ids in it: its kind,
offsets, lengths, counts and digits, its category and its classes are the same. -/
theorem resolve_ignores_ids (π : Equiv.Perm MarkerId) (text : String) (r : Registry) :
    (r.Built → ∃ r' : Registry, r'.Built ∧ r.Rekeyed π r') ∧
    (∃ text' : String, Respelled π text.toList text'.toList) ∧
    ∀ (r' : Registry) (text' : String), r.Rekeyed π r' →
      Respelled π text.toList text'.toList →
      Alike π Eq (resolve text r).value (resolve text' r').value := by
  obtain ⟨cs', hcs⟩ := Respelled.exists_respelled π text.toList
  refine ⟨fun hbuilt => hbuilt.exists_rekeyed π,
    ⟨String.ofList cs', by rwa [String.toList_ofList]⟩, ?_⟩
  intro r' text' hr htext
  exact resolve_alike hr htext

/-- A paragraph, and then its close written twice, which is registered once.
The id of the close is 1 in the one registry and 175 in the other. -/
theorem resolve_ignores_ids_paragraph :
    let π : Equiv.Perm MarkerId := Equiv.swap 1 175
    ∃ r₁ r r' : Registry, (∅ : Registry).register (.opening .block "p" []) = ⟨r₁, .ok 0⟩ ∧
      r₁.register (.closing .block "p") = ⟨r, .ok 1⟩ ∧ r'.Built ∧ r.Rekeyed π r' ∧
      Respelled π "\x1a0000é\x1a0001".toList "\x1a0000é\x1a00aF".toList ∧
      (resolve "\x1a0000é\x1a0001" r).value = .ok "<p>é</p>" ∧
      (resolve "\x1a0000é\x1a00aF" r').value = .ok "<p>é</p>" ∧
      Respelled π "\x1a0001é\x1a0001".toList "\x1a00aFé\x1a00Af".toList ∧
      (resolve "\x1a0001é\x1a0001" r).value = .error (.locatedTwice 1 0 7) ∧
      (resolve "\x1a00aFé\x1a00Af" r').value = .error (.locatedTwice 175 0 7) := by
  intro π
  let sorted : List Marker :=
    [⟨0, some 0, .opening .block "p" []⟩, ⟨1, some 7, .closing .block "p"⟩]
  obtain ⟨r₁, r, hregister₁, hregister, hplaced, hnonempty, hperm, hfails⟩ : ∃ r₁ r : Registry,
      (∅ : Registry).register (.opening .block "p" []) = ⟨r₁, .ok 0⟩ ∧
      r₁.register (.closing .block "p") = ⟨r, .ok 1⟩ ∧
      (Placement.place "\x1a0000é\x1a0001" r).value.outcome = .ok [⟨0, 0⟩, ⟨7, 1⟩] ∧
      (Placement.place "\x1a0000é\x1a0001" r).value.registry.isEmpty = false ∧
      (Placement.place "\x1a0000é\x1a0001" r).value.registry.markers.Perm sorted ∧
      (resolve "\x1a0001é\x1a0001" r).value = .error (.locatedTwice 1 0 7) :=
    ⟨_, _, rfl, rfl, rfl, rfl, .of_eq rfl, Resolution.resolve_eq_error_iff.mpr (Or.inl rfl)⟩
  have hsorted := Registry.sorted_of_perm hperm (by simp [sorted]) (by decide +zetaReduce)
  have hresult : Substitution.replace? [⟨⟨0, 5⟩, "<p>"⟩, ⟨⟨7, 12⟩, "</p>"⟩]
      "\x1a0000é\x1a0001" = some "<p>é</p>" := by
    rw [Substitution.replace?_of_ascending (by decide)]
    rfl
  have hresolve := Resolution.resolve_eq_ok hplaced hnonempty hsorted rfl rfl hresult
  have hbuilt : r.Built := .register (.register .empty hregister₁) hregister
  have hlast : ∀ digits', digits'.map Char.toUpper = (175 : MarkerId).hex →
      Respelled π ['\x1a', '0', '0', '0', '1'] (sentinel :: (digits' ++ [])) := by
    intro digits' hdigits'
    exact .placeholder 1 ['0', '0', '0', '1'] digits' rfl hdigits' .nil
  have htext : Respelled π "\x1a0000é\x1a0001".toList "\x1a0000é\x1a00aF".toList :=
    .placeholder 0 ['0', '0', '0', '0'] ['0', '0', '0', '0'] rfl (by decide)
      (.literal 'é' (by decide) (hlast ['0', '0', 'a', 'F'] rfl))
  have htwice : Respelled π "\x1a0001é\x1a0001".toList "\x1a00aFé\x1a00Af".toList :=
    .placeholder 1 ['0', '0', '0', '1'] ['0', '0', 'a', 'F'] rfl (by decide)
      (.literal 'é' (by decide) (hlast ['0', '0', 'A', 'f'] rfl))
  obtain ⟨hrekeyed, _, halike⟩ := resolve_ignores_ids π "\x1a0000é\x1a0001" r
  obtain ⟨r', hbuilt', hr⟩ := hrekeyed hbuilt
  have hresolve' := halike r' _ hr htext
  rw [hresolve] at hresolve'
  obtain ⟨_, hvalue, rfl⟩ := hresolve'.of_ok
  have hfails' := (resolve_ignores_ids π _ r).2.2 r' _ hr htwice
  rw [hfails] at hfails'
  obtain ⟨_, hvalue', hfault⟩ := hfails'.of_error
  cases hfault
  exact ⟨r₁, r, r', hregister₁, hregister, hbuilt', hr, htext, hresolve, hvalue, htwice, hfails,
    hvalue'⟩

end DeferredMarkup
