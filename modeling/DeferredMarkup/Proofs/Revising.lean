import DeferredMarkup.Proofs.Failures

/-!
A text is revised as a whole or not at all. Where a resolution comes to its
last stage, the spans that it is about to replace are those of the placeholders.
They lie in the text, begin and end between characters and follow one another
without overlap, so that all of them can be replaced. A fault comes before any
of this, and leaves the text alone.
-/
namespace DeferredMarkup

open Nesting

/-- A span lies in a text, and no character is cut by either of its ends. -/
structure Span.Within (s : Span) (text : String) : Prop where
  ordered : s.start ≤ s.stop
  inside : s.stop ≤ text.utf8ByteSize
  starts : String.Pos.Raw.IsValid text ⟨s.start⟩
  stops : String.Pos.Raw.IsValid text ⟨s.stop⟩

/-- The markers with which the last stage begins. The text has been placed, and
they have been sorted and walked to the end without a fault. -/
inductive Rewrites (text : String) (r : Registry) : List Marker → Prop
  | walked (ls : List Location) (markers : List Marker)
      (placed : (Placement.place text r).value.outcome = .ok ls)
      (nonempty : (Placement.place text r).value.registry.isEmpty = false)
      (sorted : (Placement.place text r).value.registry.sorted = .ok markers)
      (accepted : (walk markers).value.outcome = .ok ()) :
      Rewrites text r (walk markers).value.markers

variable {text : String} {r : Registry} {fault : Fault} {markers : List Marker} {l : Location}

/-- A placeholder takes up its span in the text in which it stands. -/
theorem Location.StandsIn.within (h : l.StandsIn text) :
    (Placeholder.span l.offset).Within text := by
  obtain ⟨before, digits, after, rfl, hoffset, hdigits⟩ := h
  have hstop : (Placeholder.span l.offset).stop =
      (before ++ String.ofList (sentinel :: digits)).utf8ByteSize := by
    rw [String.utf8ByteSize_append, Placeholder.utf8ByteSize_digits hdigits, hoffset]
    rfl
  refine ⟨Nat.le_add_right _ _, ?_, ?_, ?_⟩
  · have hsize : (before ++ String.ofList (sentinel :: digits) ++ after).utf8ByteSize =
        (before ++ String.ofList (sentinel :: digits)).utf8ByteSize + after.utf8ByteSize :=
      String.utf8ByteSize_append
    omega
  · rw [String.Pos.Raw.isValid_iff_exists_append]
    exact ⟨before, _, String.append_assoc, congrArg String.Pos.Raw.mk hoffset.symm⟩
  · rw [String.Pos.Raw.isValid_iff_exists_append]
    exact ⟨_, after, rfl, congrArg String.Pos.Raw.mk hstop⟩

theorem Rewrites.exists_layout (h : Rewrites text r markers) :
    ∃ d : Layout, d.text = text ∧ text.utf8ByteSize ≤ longestText ∧ r.Lists d.ids ∧
      r.Unlocated ∧ markers.map (·.offset) = d.locations.map fun l => some l.offset := by
  obtain ⟨ls, markers, hplaced, _, hsorted, _⟩ := h
  obtain ⟨hlen, hfree, d, rfl, hlists, rfl⟩ := place_eq_ok_iff.mp hplaced
  refine ⟨d, rfl, hlen, hlists, hfree, ?_⟩
  rw [Layout.place_text hlen hlists hfree, Layout.sorted_recordAll hlists, Except.ok.injEq]
    at hsorted
  rw [← hsorted, d.map_offset_walk_placed hlists]

theorem Substitution.map_span_fillings {ls : List Location} {texts : List String}
    (hlen : texts.length = ls.length) :
    (fillings ls texts).map (·.span) = ls.map (Placeholder.span ·.offset) := by
  have hzip : (ls.zip texts).map Prod.fst = ls := List.map_fst_zip (Nat.le_of_eq hlen.symm)
  conv_rhs => rw [← hzip]
  rw [fillings, List.map_map, List.map_map]
  rfl

/-- The finished text takes the place of the given one, which stays after a fault. -/
theorem value_revise (text : String) (r : Registry) : (revise text r).value =
    match (resolve text r).value with
    | .ok result => ⟨result, .ok ()⟩
    | .error fault => ⟨text, .error fault⟩ := by
  rw [Resolution.value_revise_eq_result]
  cases hresolve : (resolve text r).value with
  | ok result => rw [Resolution.value_resolve_eq_ok_iff.mp hresolve]
  | error fault => rw [Resolution.value_resolve_eq_error_iff.mp hresolve]

theorem outcome_revise_eq_error_iff :
    (revise text r).value.outcome = .error fault ↔ (resolve text r).value = .error fault := by
  rw [value_revise]
  cases (resolve text r).value with
  | ok result => simp
  | error fault' => simp

theorem outcome_revise_eq_ok_iff :
    (revise text r).value.outcome = .ok () ↔ ∃ html, (resolve text r).value = .ok html := by
  rw [value_revise]
  cases (resolve text r).value with
  | ok result => simp
  | error fault => simp

/-- What the last stage makes of a text takes its place. -/
theorem Rewrites.value_revise (h : Rewrites text r markers) {all : List Replacement}
    (hall : (Resolution.replacements markers).value = .ok all) {result : String}
    (hresult : Substitution.replace? all text = some result) :
    (revise text r).value = ⟨result, .ok ()⟩ := by
  obtain ⟨ls, sorted, hplaced, hnonempty, hsorted, haccepted⟩ := h
  have hresolve := Resolution.resolve_eq_ok hplaced hnonempty hsorted haccepted hall hresult
  rw [DeferredMarkup.value_revise, hresolve]

/-- No marker is found without its location, since all of them have been placed. -/
theorem resolve_ne_neverLocated (id : MarkerId) :
    (resolve text r).value ≠ .error (.neverLocated id) := by
  intro h
  rcases Resolution.resolve_eq_error_iff.mp h with hplace | ⟨ls, hplace, _⟩
  · exact Placement.place_ne_neverLocated id hplace
  · obtain ⟨hlen, hfree, d, rfl, hlists, _⟩ := place_eq_ok_iff.mp hplace
    rcases (Layout.resolve_text_eq_error_iff hlen hlists hfree).mp h with hwalk | hclean
    · cases isInternal_walk hwalk
    · obtain ⟨_, before, m, after, _, _, _, heq⟩ := hclean
      cases heq

/-- A text that cannot be resolved stays as it was. Where its rewriting begins,
the spans of the markers are bounded by the longest text and lie in the given
one between characters, each ends before the next begins, and they are all
replaced. No fault ever names a marker that was not located. -/
theorem revise_all_or_nothing (text : String) (r : Registry) :
    (∀ fault, (revise text r).value.outcome = .error fault →
      (revise text r).value.text = text ∧ ∀ id, fault ≠ .neverLocated id) ∧
    ∀ markers, Rewrites text r markers →
      ∃ spans : List Span, markers.map (·.offset.map Placeholder.span) = spans.map some ∧
        (∀ s ∈ spans, s.Within text ∧ s.stop ≤ longestText) ∧
        spans.Pairwise (·.stop ≤ ·.start) ∧
        ∀ all, (Resolution.replacements markers).value = .ok all →
          all.map (·.span) = spans ∧
          ∃ result, (Resolution.substitute? all text).value = some result ∧
            (revise text r).value = ⟨result, .ok ()⟩ := by
  refine ⟨?_, ?_⟩
  · intro fault h
    rw [outcome_revise_eq_error_iff] at h
    refine ⟨?_, ?_⟩
    · rw [value_revise, h]
    · intro id heq
      exact resolve_ne_neverLocated id (heq ▸ h)
  · intro markers hrewrites
    obtain ⟨d, rfl, hlen, hlists, hfree, hoffsets⟩ := hrewrites.exists_layout
    refine ⟨d.locations.map (Placeholder.span ·.offset), ?_, ?_, ?_, ?_⟩
    · have hspans := congrArg (List.map (Option.map Placeholder.span)) hoffsets
      rw [List.map_map, List.map_map] at hspans
      rw [List.map_map]
      exact hspans
    · intro s hs
      obtain ⟨l, hl, rfl⟩ := List.mem_map.mp hs
      have hwithin := (Layout.standsIn_text_iff.mpr hl).within
      exact ⟨hwithin, hwithin.inside.trans hlen⟩
    · exact List.pairwise_map.mpr (pairwise_locationsFrom d.slots _)
    · intro all hall
      have htexts : (markers.map (·.mark.html)).length = d.locations.length := by
        have := congrArg List.length hoffsets
        simpa using this
      obtain ⟨_, hfillings⟩ := (Resolution.replacements_eq_ok_iff hoffsets).mp hall
      have hresult : Substitution.replace? all d.text =
          some (d.render (markers.map (·.mark.html))) := by
        rw [hfillings]
        exact Substitution.replace?_layout d (htexts.trans d.length_locations)
      refine ⟨?_, _, ?_, hrewrites.value_revise hall hresult⟩
      · rw [hfillings]
        exact Substitution.map_span_fillings htexts
      · rw [Resolution.value_substitute?]
        exact hresult

/-- An opening tag that is never closed, and then one that has its close. -/
theorem revise_all_or_nothing_unclosed :
    (∃ r : Registry, (∅ : Registry).register (.opening .block "p" []) = ⟨r, .ok 0⟩ ∧
      (revise "\x1a0000é" r).value.outcome = .error (.unclosedTags ["Block <p> #0000@0"]) ∧
      (revise "\x1a0000é" r).value.text = "\x1a0000é") ∧
    ∃ r₁ r : Registry, (∅ : Registry).register (.opening .block "p" []) = ⟨r₁, .ok 0⟩ ∧
      r₁.register (.closing .block "p") = ⟨r, .ok 1⟩ ∧
      ∃ markers all, Rewrites "\x1a0000é\x1a0001" r markers ∧
        (Resolution.replacements markers).value = .ok all ∧
        all = [⟨⟨0, 5⟩, "<p>"⟩, ⟨⟨7, 12⟩, "</p>"⟩] ∧
        ∃ result, (Resolution.substitute? all "\x1a0000é\x1a0001").value = some result ∧
          (revise "\x1a0000é\x1a0001" r).value = ⟨result, .ok ()⟩ := by
  refine ⟨?_, ?_⟩
  · obtain ⟨r, hregister, houtcome⟩ : ∃ r : Registry,
        (∅ : Registry).register (.opening .block "p" []) = ⟨r, .ok 0⟩ ∧
        (revise "\x1a0000é" r).value.outcome = .error (.unclosedTags ["Block <p> #0000@0"]) :=
      ⟨_, rfl, by decide +kernel⟩
    exact ⟨r, hregister, houtcome, ((revise_all_or_nothing _ r).1 _ houtcome).1⟩
  · let sorted : List Marker :=
      [⟨0, some 0, .opening .block "p" []⟩, ⟨1, some 7, .closing .block "p"⟩]
    obtain ⟨r₁, r, hregister₁, hregister, hplaced, hnonempty, hsorted⟩ : ∃ r₁ r : Registry,
        (∅ : Registry).register (.opening .block "p" []) = ⟨r₁, .ok 0⟩ ∧
        r₁.register (.closing .block "p") = ⟨r, .ok 1⟩ ∧
        (Placement.place "\x1a0000é\x1a0001" r).value.outcome = .ok [⟨0, 0⟩, ⟨7, 1⟩] ∧
        (Placement.place "\x1a0000é\x1a0001" r).value.registry.isEmpty = false ∧
        (Placement.place "\x1a0000é\x1a0001" r).value.registry.sorted = .ok sorted :=
      ⟨_, _, rfl, rfl, rfl, rfl,
        Registry.sorted_of_perm (.of_eq rfl) (by simp [sorted]) (by decide +zetaReduce)⟩
    have hrewrites : Rewrites "\x1a0000é\x1a0001" r (walk sorted).value.markers :=
      .walked _ sorted hplaced hnonempty hsorted rfl
    obtain ⟨_, _, _, _, hreplaced⟩ := (revise_all_or_nothing _ r).2 _ hrewrites
    exact ⟨r₁, r, hregister₁, hregister, _, _, hrewrites, rfl, rfl, (hreplaced _ rfl).2⟩

end DeferredMarkup
