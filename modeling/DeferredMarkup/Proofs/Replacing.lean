import DeferredMarkup.Proofs.Failures
import Mathlib.Data.List.Forall2

/-!
Replacements against the markers they are made for. Located markers without a
sentinel are replaced one by one, in their order, and each by the text that it
has alone, although one writer is used for all of them. The first marker of any
other kind is named by the fault, for its missing location before anything else.
-/
namespace DeferredMarkup.Resolution

/-- A marker that has its place in the text and brings no sentinel into it. -/
structure Replaceable (m : Marker) : Prop where
  located : m.offset.isSome
  clean : m.mark.Clean

/-- A replacement covers the placeholder of a marker. Its text is that of the mark,
as a writer puts it down that has written nothing else. -/
structure Replaces (r : Replacement) (m : Marker) : Prop where
  start : m.offset = some r.span.start
  stop : r.span.stop = r.span.start + Placeholder.width
  text : r.text = m.mark.html
  afresh : m.mark.html = (({} : Html.Writer).mark m.mark).text

/-- What is said of a marker that is not replaceable. Where it has no location,
its strings do not matter. -/
def hindrance (m : Marker) : Fault :=
  match m.offset with
  | none => .neverLocated m.id
  | some _ => .sentinelWithin m.id

variable {m : Marker} {markers : List Marker} {r : Replacement} {all : List Replacement}

theorem replacement_eq_ok_iff_replaces :
    replacement m = .ok r ↔ Replaceable m ∧ Replaces r m := by
  have hafresh : m.mark.html = (({} : Html.Writer).mark m.mark).text := by
    rw [Html.Writer.text_mark, String.empty_append]
  rw [replacement_eq_ok_iff]
  constructor
  · rintro ⟨hclean, offset, hoffset, rfl⟩
    exact ⟨⟨hoffset ▸ rfl, hclean⟩, hoffset, rfl, rfl, hafresh⟩
  · rintro ⟨⟨_, hclean⟩, hstart, hstop, htext, _⟩
    refine ⟨hclean, _, hstart, ?_⟩
    rw [Placeholder.span, ← hstop, ← htext]

theorem replacement_eq_error_of_not_replaceable (h : ¬ Replaceable m) :
    replacement m = .error (hindrance m) := by
  rw [replacement_eq_error_iff, hindrance]
  cases hoffset : m.offset with
  | none => exact Or.inl ⟨rfl, rfl⟩
  | some offset => exact Or.inr ⟨rfl, fun hclean => h ⟨hoffset ▸ rfl, hclean⟩, rfl⟩

/-- Markers that are all replaceable have their replacements, one for each. -/
theorem exists_replacements (h : ∀ m ∈ markers, Replaceable m) :
    ∃ all, markers.mapM replacement = .ok all ∧ List.Forall₂ Replaces all markers := by
  induction markers with
  | nil => exact ⟨[], rfl, .nil⟩
  | cons m markers ih =>
    obtain ⟨hm, hrest⟩ := List.forall_mem_cons.mp h
    obtain ⟨r, hr⟩ := exists_replacement_iff.mpr ⟨hm.located, hm.clean⟩
    obtain ⟨later, hlater, hreplaces⟩ := ih hrest
    refine ⟨r :: later, mapM_cons_eq_ok_iff.mpr ⟨r, hr, later, hlater, rfl⟩, .cons ?_ hreplaces⟩
    exact (replacement_eq_ok_iff_replaces.mp hr).2

/-- No span ends beyond the longest text where no placeholder does. -/
theorem stop_le_longestText (hreplaces : List.Forall₂ Replaces all markers)
    (hoffsets : ∀ m ∈ markers, ∀ offset ∈ m.offset, offset ≤ longestText - Placeholder.width) :
    ∀ r ∈ all, r.span.stop ≤ longestText := by
  induction hreplaces with
  | nil => simp
  | cons hr _ ih =>
    rw [List.forall_mem_cons] at hoffsets ⊢
    have hbound := hoffsets.1 _ hr.start
    have hwidth : Placeholder.width ≤ longestText := by decide
    have hstop := hr.stop
    exact ⟨by omega, ih hoffsets.2⟩

/-- Otherwise there is a first marker that is not. -/
theorem exists_first_not_replaceable (h : ∃ m ∈ markers, ¬ Replaceable m) :
    ∃ before m after, markers = before ++ m :: after ∧ (∀ x ∈ before, Replaceable x) ∧
      ¬ Replaceable m := by
  classical
  obtain ⟨m, hfirst⟩ : ∃ m, markers.find? (¬ Replaceable ·) = some m := by
    rw [← Option.isSome_iff_exists, List.find?_isSome]
    simpa using h
  obtain ⟨hm, before, after, hsplit, hbefore⟩ := List.find?_eq_some_iff_append.mp hfirst
  exact ⟨before, m, after, hsplit, by simpa using hbefore, of_decide_eq_true hm⟩

/-- Markers whose placeholders end within the longest text are replaced by their own
texts, in their order and each at the span of its placeholder, if all of them are
located and free of sentinels. If not, the first of the others is named, and where
it is not located that is what is said of it. Whatever the writer held at the
beginning, the replacements are the same. -/
theorem replacements_written_afresh (markers : List Marker)
    (hoffsets : ∀ m ∈ markers, ∀ offset ∈ m.offset, offset ≤ longestText - Placeholder.width) :
    ((∀ m ∈ markers, Replaceable m) →
      ∃ all, (replacements markers).value = .ok all ∧ List.Forall₂ Replaces all markers ∧
        ∀ r ∈ all, r.span.stop ≤ longestText) ∧
    ((∃ m ∈ markers, ¬ Replaceable m) →
      ∃ before m after, markers = before ++ m :: after ∧ (∀ x ∈ before, Replaceable x) ∧
        ¬ Replaceable m ∧ (replacements markers).value = .error (hindrance m)) ∧
    ∀ w, writeReplacements w markers = (replacements markers).value := by
  refine ⟨?_, ?_, ?_⟩
  · intro h
    obtain ⟨all, hall, hreplaces⟩ := exists_replacements h
    exact ⟨all, (value_replacements markers).trans hall, hreplaces,
      stop_le_longestText hreplaces hoffsets⟩
  · intro h
    obtain ⟨before, m, after, hsplit, hbefore, hm⟩ := exists_first_not_replaceable h
    refine ⟨before, m, after, hsplit, hbefore, hm, ?_⟩
    exact replacements_eq_error_iff.mpr ⟨before, m, after, hsplit,
      fun x hx => ⟨(hbefore x hx).located, (hbefore x hx).clean⟩,
      replacement_eq_error_of_not_replaceable hm⟩
  · intro w
    rw [writeReplacements_eq, value_replacements]

/-- A paragraph and its close, and behind them a marker that has neither a location
nor a clean name. -/
theorem replacements_written_afresh_unlocated :
    let markers : List Marker :=
      [⟨4, some 0, .opening .block "p" ["a&b", "c"]⟩, ⟨2, some 5, .closing .block "p"⟩]
    let faulty : List Marker := markers ++ [⟨7, none, .closing .block "\x1a"⟩]
    (∀ m ∈ faulty, ∀ offset ∈ m.offset, offset ≤ longestText - Placeholder.width) ∧
    (∃ all, (replacements markers).value = .ok all ∧ List.Forall₂ Replaces all markers) ∧
    (replacements markers).value =
      .ok [⟨⟨0, 5⟩, "<p class=\"a&amp;b c\">"⟩, ⟨⟨5, 10⟩, "</p>"⟩] ∧
    (replacements faulty).value = .error (.neverLocated 7) ∧
    ∃ before m after, faulty = before ++ m :: after ∧ (∀ x ∈ before, Replaceable x) ∧
      ¬ Replaceable m ∧ (replacements faulty).value = .error (hindrance m) := by
  intro markers faulty
  have hoffsets : ∀ m ∈ faulty, ∀ offset ∈ m.offset,
      offset ≤ longestText - Placeholder.width := by decide
  have hfirst : ∀ m ∈ markers, ∀ offset ∈ m.offset, offset ≤ longestText - Placeholder.width :=
    fun m hm => hoffsets m (List.mem_append_left _ hm)
  have hreplaceable : ∀ m ∈ markers, Replaceable m := by
    have hall : ∀ m ∈ markers, m.offset.isSome ∧ ∀ s ∈ m.mark.strings, sentinel ∉ s.toList := by
      decide
    exact fun m hm => ⟨(hall m hm).1, (hall m hm).2⟩
  have hnot : ¬ Replaceable ⟨7, none, .closing .block "\x1a"⟩ := fun h => by cases h.located
  obtain ⟨all, hall, hreplaces, _⟩ := (replacements_written_afresh markers hfirst).1 hreplaceable
  exact ⟨hoffsets, ⟨all, hall, hreplaces⟩, rfl, rfl,
    (replacements_written_afresh faulty hoffsets).2.1 ⟨_, by simp [faulty], hnot⟩⟩

end DeferredMarkup.Resolution
