import DeferredMarkup.Proofs.Failures

/-!
Finished markup holds no sentinel. The literals of a text that can be placed
hold none, the placeholders are replaced, and what replaces them is written
from strings that were looked through after the walk had moved classes from one
marker to another. The walk only moves what some marker held before, so that the
check fails exactly when a registered marker was unclean from the start. Only the
length of a finished text has no bound, and one that is too long is refused when it
is resolved again.
-/
namespace DeferredMarkup

open Nesting

/-- A name or a class of a mark holds a sentinel. -/
def Mark.HoldsSentinel : Mark → Prop
  | .opening _ name classes => sentinel ∈ name.toList ∨ ∃ c ∈ classes, sentinel ∈ c.toList
  | .atomic _ name classes => sentinel ∈ name.toList ∨ ∃ c ∈ classes, sentinel ∈ c.toList
  | .closing _ name => sentinel ∈ name.toList
  | .styler _ _ className => sentinel ∈ className.toList

theorem Mark.holdsSentinel_iff {m : Mark} : m.HoldsSentinel ↔ ¬ m.Clean := by
  cases m with
  | opening category name classes =>
    simp [HoldsSentinel, Clean, strings, Decidable.imp_iff_not_or]
  | atomic category name classes =>
    simp [HoldsSentinel, Clean, strings, Decidable.imp_iff_not_or]
  | closing category name => simp [HoldsSentinel, Clean, strings]
  | styler category direction className => simp [HoldsSentinel, Clean, strings]

namespace Html

variable {s name : String} {classes : List String}

theorem mem_of_mem_escape (h : sentinel ∈ (escape s).toList) : sentinel ∈ s.toList := by
  unfold escape at h
  rw [String.toList_ofList, List.mem_flatMap] at h
  obtain ⟨c, hc, hmem⟩ := h
  have hchar : c = sentinel := by
    unfold escapeChar at hmem
    split at hmem
    · exact absurd hmem (by decide)
    · exact absurd hmem (by decide)
    · exact absurd hmem (by decide)
    · exact absurd hmem (by decide)
    · exact (List.mem_singleton.mp hmem).symm
  exact hchar ▸ hc

theorem mem_of_mem_intercalate {c : Char} {separator : String} {l : List String}
    (h : c ∈ (separator.intercalate l).toList) :
    c ∈ separator.toList ∨ ∃ s ∈ l, c ∈ s.toList := by
  induction l with
  | nil => simp at h
  | cons first l ih =>
    cases l with
    | nil => exact Or.inr ⟨first, List.mem_cons_self, by simpa using h⟩
    | cons second l =>
      rw [String.intercalate_cons_cons, String.toList_append, String.toList_append,
        List.mem_append, List.mem_append] at h
      rcases h with (hfirst | hseparator) | hrest
      · exact Or.inr ⟨first, List.mem_cons_self, hfirst⟩
      · exact Or.inl hseparator
      · rcases ih hrest with hseparator | ⟨s, hs, hmem⟩
        · exact Or.inl hseparator
        · exact Or.inr ⟨s, List.mem_cons_of_mem _ hs, hmem⟩

theorem mem_of_mem_classAttribute (h : sentinel ∈ (classAttribute classes).toList) :
    ∃ c ∈ classes, sentinel ∈ c.toList := by
  unfold classAttribute at h
  split at h
  · simp at h
  · have hfront : sentinel ∉ " class=\"".toList := by decide
    have hback : sentinel ∉ "\"".toList := by decide
    have hblank : sentinel ∉ " ".toList := by decide
    simp only [String.toList_append, List.mem_append, hfront, hback, false_or, or_false] at h
    rcases mem_of_mem_intercalate h with hseparator | ⟨s, hs, hmem⟩
    · exact absurd hseparator hblank
    · obtain ⟨c, hc, rfl⟩ := List.mem_map.mp hs
      exact ⟨c, hc, mem_of_mem_escape hmem⟩

end Html

/-- The text of a clean mark holds no sentinel. -/
theorem Mark.Clean.html {m : Mark} (h : m.Clean) : sentinel ∉ m.html.toList := by
  have hless : sentinel ∉ "<".toList := by decide
  have hslash : sentinel ∉ "</".toList := by decide
  have hgreater : sentinel ∉ ">".toList := by decide
  have hempty : sentinel ∉ " />".toList := by decide
  intro hmem
  apply Mark.holdsSentinel_iff.mp _ h
  cases m with
  | opening category name classes =>
    simp only [Mark.html, Html.openTag, String.toList_append, List.mem_append, hless, hgreater,
      false_or, or_false] at hmem
    exact hmem.imp Html.mem_of_mem_escape Html.mem_of_mem_classAttribute
  | atomic category name classes =>
    simp only [Mark.html, Html.atomicTag, String.toList_append, List.mem_append, hless, hempty,
      false_or, or_false] at hmem
    exact hmem.imp Html.mem_of_mem_escape Html.mem_of_mem_classAttribute
  | closing category name =>
    simp only [Mark.html, Html.closeTag, String.toList_append, List.mem_append, hslash, hgreater,
      false_or, or_false] at hmem
    exact Html.mem_of_mem_escape hmem
  | styler category direction className => simp [Mark.html] at hmem

variable {text html : String} {r : Registry} {d : Layout} {ls : List Location}
  {markers : List Marker}

theorem sentinel_notMem_fill {slots : List Slot} {texts : List String}
    (h : ∀ s ∈ texts, sentinel ∉ s.toList) : sentinel ∉ (fill slots texts).toList := by
  induction slots generalizing texts with
  | nil => simp [fill]
  | cons slot slots ih =>
    cases texts with
    | nil => simp [fill]
    | cons s texts =>
      obtain ⟨hs, htexts⟩ := List.forall_mem_cons.mp h
      simp only [fill, String.toList_append, List.mem_append, not_or]
      exact ⟨⟨hs, slot.plain⟩, ih htexts⟩

/-- Texts without sentinels leave none in a layout. -/
theorem Layout.sentinel_notMem_render {texts : List String} (d : Layout)
    (h : ∀ s ∈ texts, sentinel ∉ s.toList) : sentinel ∉ (d.render texts).toList := by
  rw [render, String.toList_append, List.mem_append, not_or]
  exact ⟨d.plain, sentinel_notMem_fill h⟩

/-- A text without sentinels is finished, unless it is too long. -/
theorem resolve_of_plain (h : sentinel ∉ text.toList) : (resolve text ∅).value =
    if longestText < text.utf8ByteSize then .error (.textTooLong text.utf8ByteSize longestText)
    else .ok text := by
  by_cases hlen : longestText < text.utf8ByteSize
  · rw [if_pos hlen]
    refine Resolution.resolve_eq_error_iff.mpr (Or.inl ?_)
    simp only [Placement.place, hlen, if_true]
  · rw [if_neg hlen]
    let d : Layout := ⟨text, [], h⟩
    have htext : d.text = text := String.append_empty
    have hlists : (∅ : Registry).Lists d.ids := by
      refine ⟨.nil, ?_⟩
      intro id
      simp [d, Layout.ids]
    have hfree : (∅ : Registry).Unlocated := by
      intro id m hm
      simp at hm
    have hresolve : (resolve d.text ∅).value = .ok d.text := by
      rw [Layout.resolve_text_eq_ok_iff (htext.symm ▸ Nat.not_lt.mp hlen) hlists hfree]
      exact ⟨rfl, fun x hx => absurd hx List.not_mem_nil, rfl⟩
    rwa [htext] at hresolve

/-- The walk leaves a document clean when its markers were so before. -/
theorem Layout.clean_walk_iff (hlists : r.Lists d.ids)
    (hok : (walk (placed r d.locations)).value.outcome = .ok ()) :
    (∀ x ∈ marksOf (walk (placed r d.locations)).value.markers, x.Clean) ↔
      ∀ id m, r.get? id = some m → m.mark.Clean := by
  obtain ⟨hmarks, _⟩ := marksOf_placed hlists.registered
  rw [d.map_id_locations] at hmarks
  rw [← hlists.clean_iff, ← hmarks]
  exact forall_strings_walk hok

/-- A walk that leaves a sentinel in some marker found one in the registry. -/
theorem Layout.exists_holdsSentinel (hlists : r.Lists d.ids)
    (hok : (walk (placed r d.locations)).value.outcome = .ok ()) {m : Marker}
    (hm : m ∈ (walk (placed r d.locations)).value.markers) (hunclean : ¬ m.mark.Clean) :
    ∃ id m, r.get? id = some m ∧ m.mark.HoldsSentinel := by
  simp only [Mark.holdsSentinel_iff]
  by_contra hclean
  simp only [not_exists, not_and, not_not] at hclean
  exact hunclean ((Layout.clean_walk_iff hlists hok).mpr hclean _ (List.mem_map_of_mem hm))

/-- What is wrong with a layout of the markers of a registry is either the
document's fault or a sentinel that a marker was registered with. -/
theorem Layout.isInternal_resolve (hlen : d.text.utf8ByteSize ≤ longestText)
    (hlists : r.Lists d.ids) (hfree : r.Unlocated) {fault : Fault}
    (h : (resolve d.text r).value = .error fault) (hinternal : fault.isInternal) :
    (∃ id, fault = .sentinelWithin id) ∧ ∃ id m, r.get? id = some m ∧ m.mark.HoldsSentinel := by
  rcases (Layout.resolve_text_eq_error_iff hlen hlists hfree).mp h with
    hfault | ⟨hok, before, m, after, hsplit, _, hunclean, rfl⟩
  · rw [isInternal_walk hfault] at hinternal
    cases hinternal
  · refine ⟨⟨m.id, rfl⟩, Layout.exists_holdsSentinel hlists hok ?_ hunclean⟩
    rw [hsplit]
    exact List.mem_append_right _ List.mem_cons_self

/-- The finished text of any layout is free of sentinels. -/
theorem sentinel_notMem_resolve (h : (resolve text r).value = .ok html) :
    sentinel ∉ html.toList := by
  obtain ⟨ls, hplaced, _⟩ := Resolution.resolve_eq_ok_iff.mp h
  obtain ⟨hlen, hfree, d, rfl, hlists, _⟩ := place_eq_ok_iff.mp hplaced
  obtain ⟨_, hclean, rfl⟩ := (Layout.resolve_text_eq_ok_iff hlen hlists hfree).mp h
  apply d.sentinel_notMem_render
  intro s hs
  obtain ⟨m, hm, rfl⟩ := List.mem_map.mp hs
  exact (hclean _ (List.mem_map_of_mem hm)).html

/-- Where the walk finds no fault, a sentinel is found in some marker exactly
when a registered one holds it. -/
theorem exists_sentinelWithin_iff (hplaced : (Placement.place text r).value.outcome = .ok ls)
    (hsorted : (Placement.place text r).value.registry.sorted = .ok markers)
    (hok : (walk markers).value.outcome = .ok ()) :
    (∃ id, (resolve text r).value = .error (.sentinelWithin id)) ↔
      ∃ id m, r.get? id = some m ∧ m.mark.HoldsSentinel := by
  obtain ⟨hlen, hfree, d, rfl, hlists, rfl⟩ := place_eq_ok_iff.mp hplaced
  rw [Layout.place_text hlen hlists hfree, Layout.sorted_recordAll hlists, Except.ok.injEq]
    at hsorted
  subst hsorted
  constructor
  · intro h
    obtain ⟨id, hid⟩ := h
    exact (Layout.isInternal_resolve hlen hlists hfree hid rfl).2
  · intro h
    obtain ⟨id, m, hm, hholds⟩ := h
    cases hresolve : (resolve d.text r).value with
    | ok html =>
      have hclean := ((Layout.resolve_text_eq_ok_iff hlen hlists hfree).mp hresolve).2.1
      have hregistered := (Layout.clean_walk_iff hlists hok).mp hclean id m hm
      exact absurd hregistered (Mark.holdsSentinel_iff.mp hholds)
    | error fault =>
      rcases (Layout.resolve_text_eq_error_iff hlen hlists hfree).mp hresolve with
        hfault | ⟨_, _, m', _, _, _, _, rfl⟩
      · cases hok.symm.trans hfault
      · exact ⟨m'.id, rfl⟩

/-- A single line break is written where its placeholder stands. -/
theorem resolve_line_break {name : String} {r : Registry}
    (hregister : (∅ : Registry).register (.atomic .inline name []) = ⟨r, .ok 0⟩)
    (hname : sentinel ∉ name.toList) :
    (resolve "\x1a0000" r).value = .ok (Mark.atomic .inline name []).html := by
  let d : Layout := ⟨"", [⟨0, ['0', '0', '0', '0'], "", rfl, by decide⟩], by decide⟩
  have hget : r.get? 0 = some ⟨0, none, .atomic .inline name []⟩ := by
    rw [Registry.get?_register hregister, if_pos rfl]
  have hempty : (∅ : Registry).Lists [] := ⟨.nil, by simp⟩
  have hlists : r.Lists d.ids :=
    hempty.concat (Registry.notMem_of_register hregister) (Registry.get?_register hregister)
  have hbuilt : r.Built := .register .empty hregister
  have hplaced : placed r d.locations = [⟨0, some 0, .atomic .inline name []⟩] :=
    placed_cons (l := ⟨0, 0⟩) hget []
  refine (Layout.resolve_text_eq_ok_iff (d := d) (by decide) hlists
    fun _ _ => hbuilt.unlocated).mpr ?_
  rw [hplaced]
  have hclean : (Mark.atomic .inline name []).Clean := by
    simpa [Mark.Clean, Mark.strings] using hname
  refine ⟨rfl, fun x hx => ?_, ?_⟩
  · rwa [List.mem_singleton.mp hx]
  · show _ = "" ++ ((Mark.atomic .inline name []).html ++ "" ++ "")
    simp

/-- A name of letters that are written as they are. -/
def longName (n : Nat) : String := String.ofList (List.replicate n 'a')

theorem utf8ByteSize_longName (n : Nat) : (longName n).utf8ByteSize = n := by
  rw [longName, String.utf8ByteSize_ofList]
  induction n with
  | zero => rfl
  | succ n ih =>
    rw [List.replicate_succ, String.utf8Len_cons, ih]
    rfl

theorem html_longName (n : Nat) :
    (Mark.atomic .inline (longName n) []).html = "<" ++ longName n ++ " />" := by
  have hchars : (List.replicate n 'a').flatMap Html.escapeChar = List.replicate n 'a' := by
    induction n with
    | zero => rfl
    | succ n ih =>
      rw [List.replicate_succ, List.flatMap_cons, ih]
      rfl
  have hescape : Html.escape (longName n) = longName n := by
    rw [longName, Html.escape, String.toList_ofList, hchars]
  rw [Mark.html, Html.atomicTag, hescape, Html.classAttribute, if_pos rfl, String.append_empty]

/-- A finished text holds no sentinel, so that it resolves to itself with no
markers, unless it has grown too long to be placed at all. Where a text is placed
and its walk finds no fault, a sentinel is found in a marker exactly when some
marker held one in its name or one of its classes when it was registered. -/
theorem resolve_leaves_no_sentinel (text : String) (r : Registry) :
    (∀ html, (resolve text r).value = .ok html → sentinel ∉ html.toList ∧
      (resolve html ∅).value =
        if longestText < html.utf8ByteSize then
          .error (.textTooLong html.utf8ByteSize longestText)
        else .ok html) ∧
    ∀ ls markers, (Placement.place text r).value.outcome = .ok ls →
      (Placement.place text r).value.registry.sorted = .ok markers →
      (walk markers).value.outcome = .ok () →
      ((∃ id, (resolve text r).value = .error (.sentinelWithin id)) ↔
        ∃ id m, r.get? id = some m ∧ m.mark.HoldsSentinel) := by
  refine ⟨?_, ?_⟩
  · intro html h
    have hplain := sentinel_notMem_resolve h
    exact ⟨hplain, resolve_of_plain hplain⟩
  · intro ls markers hplaced hsorted hok
    exact exists_sentinelWithin_iff hplaced hsorted hok

/-- A line break, and then one that is given an unclean class from behind. -/
theorem resolve_leaves_no_sentinel_moved :
    (∃ r : Registry, (∅ : Registry).register (.atomic .inline "br" ["a&b"]) = ⟨r, .ok 0⟩ ∧
      (resolve "é\x1a0000" r).value = .ok "é<br class=\"a&amp;b\" />" ∧
      sentinel ∉ "é<br class=\"a&amp;b\" />".toList) ∧
    ∃ r₁ r : Registry, (∅ : Registry).register (.atomic .inline "br" []) = ⟨r₁, .ok 0⟩ ∧
      r₁.register (.styler .inline .previous "\x1a") = ⟨r, .ok 1⟩ ∧
      (∃ ls markers, (Placement.place "\x1a0000\x1a0001" r).value.outcome = .ok ls ∧
        (Placement.place "\x1a0000\x1a0001" r).value.registry.sorted = .ok markers ∧
        (walk markers).value.outcome = .ok ()) ∧
      ∃ id, (resolve "\x1a0000\x1a0001" r).value = .error (.sentinelWithin id) := by
  refine ⟨?_, ?_⟩
  · obtain ⟨r, hregister, hresolve⟩ : ∃ r : Registry,
        (∅ : Registry).register (.atomic .inline "br" ["a&b"]) = ⟨r, .ok 0⟩ ∧
        (resolve "é\x1a0000" r).value = .ok "é<br class=\"a&amp;b\" />" :=
      ⟨_, rfl, by decide +kernel⟩
    exact ⟨r, hregister, hresolve, ((resolve_leaves_no_sentinel _ r).1 _ hresolve).1⟩
  · let sorted : List Marker :=
      [⟨0, some 0, .atomic .inline "br" []⟩, ⟨1, some 5, .styler .inline .previous "\x1a"⟩]
    obtain ⟨r₁, r, hregister₁, hregister, hplaced, hsorted, hget⟩ : ∃ r₁ r : Registry,
        (∅ : Registry).register (.atomic .inline "br" []) = ⟨r₁, .ok 0⟩ ∧
        r₁.register (.styler .inline .previous "\x1a") = ⟨r, .ok 1⟩ ∧
        (Placement.place "\x1a0000\x1a0001" r).value.outcome = .ok [⟨0, 0⟩, ⟨5, 1⟩] ∧
        (Placement.place "\x1a0000\x1a0001" r).value.registry.sorted = .ok sorted ∧
        r.get? 1 = some ⟨1, none, .styler .inline .previous "\x1a"⟩ :=
      ⟨_, _, rfl, rfl, rfl,
        Registry.sorted_of_perm (.of_eq rfl) (by simp [sorted]) (by decide +zetaReduce), rfl⟩
    have hok : (walk sorted).value.outcome = .ok () := rfl
    have hholds : (Mark.styler .inline .previous "\x1a").HoldsSentinel := by
      simp [Mark.HoldsSentinel, sentinel]
    refine ⟨r₁, r, hregister₁, hregister, ⟨_, _, hplaced, hsorted, hok⟩, ?_⟩
    exact ((resolve_leaves_no_sentinel _ r).2 _ _ hplaced hsorted hok).mpr ⟨1, _, hget, hholds⟩

/-- A line break whose name is as long as the longest text can be written, but what
has been written cannot be resolved again. -/
theorem resolve_refuses_finished_text :
    let html := "<" ++ longName longestText ++ " />"
    (∃ r : Registry,
      (∅ : Registry).register (.atomic .inline (longName longestText) []) = ⟨r, .ok 0⟩ ∧
      (resolve "\x1a0000" r).value = .ok html) ∧
    (resolve html ∅).value = .error (.textTooLong 4294967299 4294967295) ∧
    ¬ ∀ (text html : String) (r : Registry), (resolve text r).value = .ok html →
      sentinel ∉ html.toList ∧ (resolve html ∅).value = .ok html := by
  intro html
  have hname : sentinel ∉ (longName longestText).toList := by
    rw [longName, String.toList_ofList]
    exact fun h => absurd (List.eq_of_mem_replicate h) (by decide)
  obtain ⟨r, hregister⟩ : ∃ r : Registry,
      (∅ : Registry).register (.atomic .inline (longName longestText) []) = ⟨r, .ok 0⟩ :=
    ⟨_, rfl⟩
  have hresolve : (resolve "\x1a0000" r).value = .ok html := by
    rw [resolve_line_break hregister hname, html_longName]
  have hsize : html.utf8ByteSize = 4294967299 := by
    rw [String.utf8ByteSize_append, String.utf8ByteSize_append, utf8ByteSize_longName]
    rfl
  have hrefused : (resolve html ∅).value = .error (.textTooLong 4294967299 4294967295) := by
    rw [resolve_of_plain (sentinel_notMem_resolve hresolve), hsize, if_pos (by decide)]
    rfl
  refine ⟨⟨r, hregister, hresolve⟩, hrefused, ?_⟩
  intro h
  cases hrefused.symm.trans (h _ _ _ hresolve).2

end DeferredMarkup
