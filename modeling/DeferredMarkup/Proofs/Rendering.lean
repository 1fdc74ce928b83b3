import DeferredMarkup.Proofs.ClassPlacement
import DeferredMarkup.Proofs.Placing
import DeferredMarkup.Proofs.Splicing
import DeferredMarkup.Proofs.Stages

/-!
Resolution as rendering. The text of a layout is scanned, its markers are
sorted and walked, and their texts are spliced in from the back, all by byte
offsets. What comes out is the layout with the texts of the walked markers in
its slots, as if it had been written from front to back. The writer of these
texts is cleared before each marker, and a mark has the same text whoever writes
it, so every marker gets the text that it would get alone.
-/
namespace DeferredMarkup

namespace Html.Writer

@[simp] theorem text_writeEscaped (w : Writer) (s : String) :
    (w.writeEscaped s).text = w.text ++ escape s := rfl

/-- Classes are written one by one, each behind a blank, as if they were joined. -/
theorem text_foldl_classes (w : Writer) (first : String) (rest : List String) :
    (rest.foldl (fun w c => (w.write " ").writeEscaped c) (w.writeEscaped first)).text =
      w.text ++ " ".intercalate ((first :: rest).map escape) := by
  induction rest generalizing w first with
  | nil => simp
  | cons second rest ih =>
    rw [List.foldl_cons, ih, List.map_cons, List.map_cons, List.map_cons,
      String.intercalate_cons_cons]
    simp [String.append_assoc]

theorem text_tagHead (w : Writer) (name : String) (classes : List String) :
    (w.tagHead name classes).text = w.text ++ "<" ++ escape name ++ classAttribute classes := by
  cases classes with
  | nil => simp [tagHead, classAttribute]
  | cons first rest =>
    rw [tagHead, text_write, text_foldl_classes, classAttribute, if_neg (List.cons_ne_nil _ _)]
    simp [String.append_assoc]

/-- The text of a mark comes behind what the writer held before. -/
theorem text_mark (w : Writer) (m : Mark) : (w.mark m).text = w.text ++ m.html := by
  cases m with
  | opening category name classes =>
    simp [mark, openTag, text_tagHead, Mark.html, Html.openTag, String.append_assoc]
  | atomic category name classes =>
    simp [mark, atomicTag, text_tagHead, Mark.html, Html.atomicTag, String.append_assoc]
  | closing category name =>
    simp [mark, closeTag, Mark.html, Html.closeTag, String.append_assoc]
  | styler category direction className => simp [mark, Mark.html]

end Html.Writer

namespace Resolution

/-- What takes the place of a marker, with the text that it has alone. -/
def replacement (m : Marker) : Except Fault Replacement :=
  match m.offset with
  | none => .error (.neverLocated m.id)
  | some offset =>
    if m.mark.strings.any (·.toList.contains sentinel) then .error (.sentinelWithin m.id)
    else .ok ⟨Placeholder.span offset, m.mark.html⟩

/-- The writer holds the text of the last marker and nothing of those before. -/
theorem writeReplacement_eq (w : Html.Writer) (m : Marker) :
    writeReplacement w m = (replacement m).map fun r => (r, ⟨r.text⟩) := by
  unfold writeReplacement replacement
  cases m.offset with
  | none => rfl
  | some offset =>
    dsimp only
    split
    · rfl
    · have htext : (w.clear.mark m.mark).text = m.mark.html := by
        rw [Html.Writer.text_mark, Html.Writer.text_clear, String.empty_append]
      show Except.ok (_, w.clear.mark m.mark) = Except.ok (_, ⟨m.mark.html⟩)
      rw [← htext]

/-- What is left in the writer has no part in the replacements. -/
theorem writeReplacements_eq (w : Html.Writer) (markers : List Marker) :
    writeReplacements w markers = markers.mapM replacement := by
  induction markers generalizing w with
  | nil => rfl
  | cons m rest ih =>
    rw [writeReplacements, writeReplacement_eq, List.mapM_cons]
    cases replacement m with
    | error fault => rfl
    | ok r => simp only [Except.map, bind, Except.bind, ih]

end Resolution

open Nesting

variable {r : Registry} {d : Layout} {ls : List Location} {markers : List Marker}

/-- No string of a mark holds a sentinel. -/
def Mark.Clean (m : Mark) : Prop := ∀ s ∈ m.strings, sentinel ∉ s.toList

theorem Mark.clean_iff {m : Mark} :
    m.Clean ↔ ¬ m.strings.any (·.toList.contains sentinel) := by
  simp only [Clean, List.any_eq_true, List.contains_iff_mem, not_exists, not_and]

namespace Resolution

theorem replacement_eq_ok_iff {m : Marker} {x : Replacement} :
    replacement m = .ok x ↔
      m.mark.Clean ∧ ∃ offset, m.offset = some offset ∧
        x = ⟨Placeholder.span offset, m.mark.html⟩ := by
  unfold replacement
  rw [Mark.clean_iff]
  cases m.offset with
  | none => simp
  | some offset =>
    dsimp only
    by_cases h : m.mark.strings.any (·.toList.contains sentinel)
    · rw [if_pos h]
      refine iff_of_false (by simp) ?_
      intro hx
      exact hx.1 h
    · rw [if_neg h]
      constructor
      · intro hx
        cases hx
        exact ⟨h, offset, rfl, rfl⟩
      · intro hx
        obtain ⟨_, _, hoffset, rfl⟩ := hx
        cases hoffset
        rfl

theorem value_replacements (markers : List Marker) :
    (replacements markers).value = markers.mapM replacement := by
  rw [← writeReplacements_eq]
  unfold replacements
  split
  next all h => exact h.symm
  next id h => exact h.symm
  next fault _ h => exact h.symm

theorem mapM_cons_eq_ok_iff {m : Marker} {all : List Replacement} :
    (m :: markers).mapM replacement = .ok all ↔
      ∃ x, replacement m = .ok x ∧ ∃ rest, markers.mapM replacement = .ok rest ∧
        all = x :: rest := by
  rw [List.mapM_cons]
  cases replacement m with
  | error fault => simp [bind, Except.bind]
  | ok x =>
    cases markers.mapM replacement with
    | error fault => simp [bind, Except.bind]
    | ok rest => simp [bind, Except.bind, pure, Except.pure, eq_comm]

/-- Located markers are all replaced where they stand when their marks are clean. -/
theorem replacements_eq_ok_iff {all : List Replacement}
    (hoffsets : markers.map (·.offset) = ls.map fun l => some l.offset) :
    (replacements markers).value = .ok all ↔
      (∀ m ∈ marksOf markers, m.Clean) ∧
        all = Substitution.fillings ls (markers.map (·.mark.html)) := by
  rw [value_replacements]
  induction markers generalizing ls all with
  | nil => simp [marksOf, Substitution.fillings, pure, Except.pure, eq_comm]
  | cons m markers ih =>
    cases ls with
    | nil => simp at hoffsets
    | cons l ls =>
      rw [List.map_cons, List.map_cons, List.cons.injEq] at hoffsets
      obtain ⟨hoffset, hoffsets⟩ := hoffsets
      rw [mapM_cons_eq_ok_iff]
      simp only [replacement_eq_ok_iff, hoffset, ih hoffsets, Option.some.injEq,
        Substitution.fillings, marksOf, List.map_cons, List.zip_cons_cons, List.mem_cons,
        forall_eq_or_imp]
      constructor
      · intro h
        obtain ⟨_, ⟨hclean, _, rfl, rfl⟩, _, ⟨hrest, rfl⟩, rfl⟩ := h
        exact ⟨⟨hclean, hrest⟩, rfl⟩
      · intro h
        obtain ⟨⟨hclean, hrest⟩, rfl⟩ := h
        exact ⟨_, ⟨hclean, _, rfl, rfl⟩, _, ⟨hrest, rfl⟩, rfl⟩

end Resolution

theorem marksOf_placed (hls : ∀ l ∈ ls, ∃ m, r.get? l.id = some m) :
    marksOf (placed r ls) = marksOf ((ls.map (·.id)).filterMap r.get?) ∧
      (placed r ls).map (·.offset) = ls.map fun l => some l.offset := by
  induction ls with
  | nil => exact ⟨rfl, rfl⟩
  | cons l ls ih =>
    obtain ⟨m, hm⟩ := hls l List.mem_cons_self
    obtain ⟨hmarks, hoffsets⟩ := ih fun l hl => hls l (List.mem_cons_of_mem _ hl)
    rw [placed_cons hm, List.map_cons, List.filterMap_cons_some hm]
    constructor
    · show m.mark :: marksOf _ = m.mark :: marksOf _
      rw [hmarks]
    · rw [List.map_cons, hoffsets]
      rfl

/-- Every placeholder of a layout finds its marker among those registered. -/
theorem Registry.Lists.registered (h : r.Lists d.ids) :
    ∀ l ∈ d.locations, ∃ m, r.get? l.id = some m := by
  intro l hl
  exact (h.2 l.id).mp (d.map_id_locations ▸ List.mem_map_of_mem hl)

/-- The clean marks of a registry, in whatever order its ids are listed. -/
theorem Registry.Lists.clean_iff {ids : List MarkerId} (h : r.Lists ids) :
    (∀ x ∈ marksOf (ids.filterMap r.get?), x.Clean) ↔
      ∀ id m, r.get? id = some m → m.mark.Clean := by
  constructor
  · intro hclean id m hm
    have hmem : m ∈ ids.filterMap r.get? :=
      List.mem_filterMap.mpr ⟨id, (h.2 id).mpr ⟨m, hm⟩, hm⟩
    exact hclean m.mark (List.mem_map_of_mem hmem)
  · intro hclean x hx
    obtain ⟨m, hmem, rfl⟩ := List.mem_map.mp hx
    obtain ⟨id, _, hm⟩ := List.mem_filterMap.mp hmem
    exact hclean id m hm

/-- Texts that are put in for located markers come to stand in the slots. -/
theorem Layout.substitute_eq_iff (d : Layout) {html : String}
    (hoffsets : markers.map (·.offset) = d.locations.map fun l => some l.offset) :
    (∃ all, (Resolution.replacements markers).value = .ok all ∧
        (Substitution.replace? all d.text).getD d.text = html) ↔
      (∀ x ∈ marksOf markers, x.Clean) ∧ html = d.render (markers.map (·.mark.html)) := by
  have hlen : (markers.map (·.mark.html)).length = d.slots.length := by
    have := congrArg List.length hoffsets
    simpa using this
  have hreplace := Substitution.replace?_layout d hlen
  simp only [Resolution.replacements_eq_ok_iff hoffsets]
  constructor
  · intro h
    obtain ⟨_, ⟨hclean, rfl⟩, rfl⟩ := h
    refine ⟨hclean, ?_⟩
    rw [hreplace, Option.getD_some]
  · intro h
    obtain ⟨hclean, rfl⟩ := h
    refine ⟨_, ⟨hclean, rfl⟩, ?_⟩
    rw [hreplace, Option.getD_some]

/-- The walk leaves markers where they are placed. -/
theorem Layout.map_offset_walk_placed (d : Layout) (hlists : r.Lists d.ids) :
    (walk (placed r d.locations)).value.markers.map (·.offset) =
      d.locations.map fun l => some l.offset := by
  rw [map_offset_walk]
  exact (marksOf_placed hlists.registered).2

/-- A layout is resolved by a walk over the markers where they are placed. -/
theorem Layout.resolve_text_eq_ok_iff (hlen : d.text.utf8ByteSize ≤ longestText)
    (hlists : r.Lists d.ids) (hfree : ∀ id m, r.get? id = some m → m.offset = none)
    {html : String} :
    (resolve d.text r).value = .ok html ↔
      (walk (placed r d.locations)).value.outcome = .ok () ∧
      (∀ x ∈ marksOf (walk (placed r d.locations)).value.markers, x.Clean) ∧
      html = d.render ((walk (placed r d.locations)).value.markers.map (·.mark.html)) := by
  rw [Resolution.resolve_eq_ok_iff, Layout.place_text hlen hlists hfree]
  simp only [Except.ok.injEq, exists_eq_left']
  rw [hlists.isEmpty_recordAll]
  by_cases hempty : r.isEmpty
  · have hslots : d.slots = [] := List.map_eq_nil_iff.mp (hlists.isEmpty_iff.mp hempty)
    have htext : d.text = d.render [] := by
      unfold Layout.text
      rw [hslots]
      rfl
    rw [if_pos hempty, hlists.placed_eq_nil hempty, htext]
    constructor
    · intro h
      exact ⟨rfl, fun x hx => absurd hx List.not_mem_nil, h.symm⟩
    · intro h
      exact h.2.2.symm
  · rw [if_neg hempty]
    simp only [Layout.sorted_recordAll hlists, Except.ok.injEq, exists_eq_left',
      d.substitute_eq_iff (d.map_offset_walk_placed hlists)]

/-- A resolution of the text of a layout, with the markers of a registry that
has only been built, succeeds when the walk accepts the markers in the order of
their placeholders and all their strings are clean. It then gives the layout
with the text of each walked marker in the slot of its placeholder. -/
theorem resolve_layout_eq_ok_iff (hbuilt : r.Built) (d : Layout)
    (hlen : d.text.utf8ByteSize ≤ longestText) (hlists : r.Lists d.ids) (html : String) :
    (resolve d.text r).value = .ok html ↔
      (walk (d.ids.filterMap r.get?)).value.outcome = .ok () ∧
      (∀ id m, r.get? id = some m → m.mark.Clean) ∧
      html = d.render ((walk (d.ids.filterMap r.get?)).value.markers.map (·.mark.html)) := by
  obtain ⟨hmarks, _⟩ := marksOf_placed hlists.registered
  rw [d.map_id_locations] at hmarks
  rw [Layout.resolve_text_eq_ok_iff hlen hlists fun id m hm => hbuilt.unlocated hm,
    ← hlists.clean_iff]
  have houtcome : (walk (placed r d.locations)).value.outcome = .ok () ↔
      (walk (d.ids.filterMap r.get?)).value.outcome = .ok () :=
    ⟨walk_ok_congr hmarks, walk_ok_congr hmarks.symm⟩
  rw [← houtcome]
  refine and_congr_right fun hok => ?_
  have hclean : (∀ x ∈ marksOf (walk (placed r d.locations)).value.markers, x.Clean) ↔
      ∀ x ∈ marksOf (d.ids.filterMap r.get?), x.Clean := by
    rw [← hmarks]
    exact forall_strings_walk hok
  have htexts := congrArg (List.map Mark.html) (marksOf_walk_congr hmarks hok)
  rw [marksOf, marksOf, List.map_map, List.map_map] at htexts
  have htexts : (walk (placed r d.locations)).value.markers.map (·.mark.html) =
      (walk (d.ids.filterMap r.get?)).value.markers.map (·.mark.html) := htexts
  rw [hclean, htexts]

/-- A paragraph that gets its class from a styler right behind its opening tag. The ids
stand in the text neither in ascending order nor in the order of registration. -/
theorem resolve_layout_paragraph :
    let d : Layout := ⟨"é",
      [⟨7, ['0', '0', '0', '7'], "", rfl, by decide⟩,
        ⟨1, ['0', '0', '0', '1'], "x", rfl, by decide⟩,
        ⟨175, ['0', '0', 'a', 'F'], "", rfl, by decide⟩], by decide⟩
    ∃ r₁ r₂ r : Registry, (∅ : Registry).insert 175 (.closing .block "p") = .ok r₁ ∧
      r₁.insert 7 (.opening .block "p" ["a&b"]) = .ok r₂ ∧
      r₂.insert 1 (.styler .block .container "lead") = .ok r ∧ r.Built ∧
      d.text.utf8ByteSize ≤ longestText ∧ r.Lists d.ids ∧
      d.text = "é\x1a0007\x1a0001x\x1a00aF" ∧
      (resolve d.text r).value = .ok "é<p class=\"a&amp;b lead\">x</p>" := by
  intro d
  obtain ⟨r₁, r₂, r, h₁, h₂, h₃⟩ : ∃ r₁ r₂ r : Registry,
      (∅ : Registry).insert 175 (.closing .block "p") = .ok r₁ ∧
      r₁.insert 7 (.opening .block "p" ["a&b"]) = .ok r₂ ∧
      r₂.insert 1 (.styler .block .container "lead") = .ok r :=
    ⟨_, _, _, rfl, rfl, rfl⟩
  have hget : ∀ id, r.get? id =
      if id = 1 then some ⟨1, none, .styler .block .container "lead"⟩
      else if id = 7 then some ⟨7, none, .opening .block "p" ["a&b"]⟩
      else if id = 175 then some ⟨175, none, .closing .block "p"⟩ else none := by
    intro id
    rw [Registry.get?_insert h₃, Registry.get?_insert h₂, Registry.get?_insert h₁,
      Registry.get?_empty]
  have hbuilt : r.Built := .insert (.insert (.insert .empty h₁) h₂) h₃
  have hempty : (∅ : Registry).Lists [] := ⟨.nil, by simp⟩
  have hbuild : r.Lists [175, 7, 1] :=
    ((hempty.concat (Registry.notMem_of_insert h₁) (Registry.get?_insert h₁)).concat
      (Registry.notMem_of_insert h₂) (Registry.get?_insert h₂)).concat
        (Registry.notMem_of_insert h₃) (Registry.get?_insert h₃)
  have hlists : r.Lists d.ids := hbuild.of_perm (by decide)
  have hmarkers : d.ids.filterMap r.get? = [⟨7, none, .opening .block "p" ["a&b"]⟩,
      ⟨1, none, .styler .block .container "lead"⟩, ⟨175, none, .closing .block "p"⟩] := by
    simp [d, Layout.ids, hget]
  have hclean : ∀ id m, r.get? id = some m → m.mark.Clean := by
    intro id m hm
    have hmem : m ∈ d.ids.filterMap r.get? :=
      List.mem_filterMap.mpr ⟨id, (hlists.2 id).mpr ⟨m, hm⟩, hm⟩
    rw [hmarkers] at hmem
    have hall : ∀ m ∈ [(⟨7, none, .opening .block "p" ["a&b"]⟩ : Marker),
        ⟨1, none, .styler .block .container "lead"⟩, ⟨175, none, .closing .block "p"⟩],
        m.mark.Clean := by
      unfold Mark.Clean
      decide
    exact hall m hmem
  have hlen : d.text.utf8ByteSize ≤ longestText := by decide
  refine ⟨r₁, r₂, r, h₁, h₂, h₃, hbuilt, hlen, hlists, rfl,
    (resolve_layout_eq_ok_iff hbuilt d hlen hlists _).mpr ?_⟩
  rw [hmarkers]
  exact ⟨rfl, hclean, by decide⟩
end DeferredMarkup
