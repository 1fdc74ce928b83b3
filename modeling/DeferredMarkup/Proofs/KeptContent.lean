import DeferredMarkup.Proofs.Pages
import Mathlib.Data.List.Infix

/-!
What a page keeps. The points are anchored, so that an occurrence of one never
overlaps an occurrence of another, and whatever is put in for the headers leaves
the content points where they were. A fragment is put in whole, and where a pass
comes upon a piece of it, or upon its edge, it puts in the whole fragment again.
-/
namespace DeferredMarkup

namespace Occurrence

variable {word inserted text front back point : List Char}

namespace Anchored

/-- A text consists of occurrences of a word and of characters at which none begins. -/
@[elab_as_elim]
theorem induction {motive : List Char → Prop} (h : Anchored word) (nil : motive [])
    (occurrence : ∀ rest, motive rest → motive (word ++ rest))
    (char : ∀ c rest, ¬ word <+: c :: rest → motive rest → motive (c :: rest))
    (text : List Char) : motive text := by
  have hanchored : ∀ i ∈ [(⟨word, []⟩ : Insertion)], Anchored i.point := by
    simpa using h
  refine Filling.pieces_induction _ hanchored nil ?_ ?_ text
  · simpa using occurrence
  · simpa using char

/-- Where a word is found, what is put in for it is found. -/
theorem infix_replaceAll (h : Anchored word) (hoccurs : word <:+: text) :
    inserted <:+: replaceAll word inserted text := by
  induction text using h.induction with
  | nil => exact absurd (List.eq_nil_of_infix_nil hoccurs) h.ne_nil
  | occurrence rest _ =>
    rw [replaceAll_word h.ne_nil]
    exact (List.prefix_append _ _).isInfix
  | char c rest hnot ih =>
    rw [replaceAll_cons hnot]
    exact List.infix_cons (ih ((List.infix_cons_iff.mp hoccurs).resolve_left hnot))

/-- No anchored word reaches across a dollar sign. -/
theorem replaceAll_dollar (h : Anchored word) (front back : List Char) :
    replaceAll word inserted (front ++ '$' :: back) =
      replaceAll word inserted front ++ replaceAll word inserted ('$' :: back) := by
  induction front using h.induction with
  | nil => rfl
  | occurrence rest ih =>
    rw [List.append_assoc, replaceAll_word h.ne_nil, replaceAll_word h.ne_nil, ih,
      List.append_assoc]
  | char c rest hnot ih =>
    have hacross : ¬ word <+: c :: (rest ++ '$' :: back) := by
      intro hbegins
      obtain ⟨tail, rfl, htail⟩ := id h
      rw [List.cons_prefix_cons] at hnot hbegins
      obtain ⟨rfl, hbegins⟩ := hbegins
      rcases List.prefix_or_prefix_of_prefix hbegins (List.prefix_append rest ('$' :: back)) with
        hshort | ⟨more, rfl⟩
      · exact hnot ⟨rfl, hshort⟩
      · cases more with
        | nil => exact hnot ⟨rfl, by simp⟩
        | cons d more =>
          rw [List.prefix_append_right_inj, List.cons_prefix_cons] at hbegins
          exact htail (by simp [hbegins.1])
    rw [List.cons_append, replaceAll_cons hacross, replaceAll_cons hnot, ih, List.cons_append]

/-- A point of another spelling stays, with what is made of the text on either side. -/
theorem replaceAll_around (h : Anchored word) (hpoint : Anchored point)
    (hunlike : ¬ word <+: point ∧ ¬ point <+: word) (front back : List Char) :
    replaceAll word inserted (front ++ point ++ back) =
      replaceAll word inserted front ++ point ++ replaceAll word inserted back := by
  have hnot : ¬ word <+: point ++ back := by
    intro hbegins
    rcases List.prefix_or_prefix_of_prefix hbegins (List.prefix_append point back) with
      hshort | hlong
    · exact hunlike.1 hshort
    · exact hunlike.2 hlong
  have hkept : replaceAll word inserted (point ++ back) =
      point ++ replaceAll word inserted back := replaceAll_append (h.count_other hpoint hnot)
  obtain ⟨tail, rfl, _⟩ := hpoint
  rw [List.append_assoc, List.cons_append, h.replaceAll_dollar, ← List.cons_append, hkept,
    List.append_assoc]

end Anchored

end Occurrence

open Occurrence

namespace Filling

variable {table : List Insertion} {point text : List Char}

/-- Passes for other points leave a point between what they make of its sides. -/
theorem fillInTurn_around (hanchored : ∀ i ∈ table, Anchored i.point) (hpoint : Anchored point)
    (hunlike : ∀ i ∈ table, ¬ i.point <+: point ∧ ¬ point <+: i.point) (front back : List Char) :
    fillInTurn table (front ++ point ++ back) =
      fillInTurn table front ++ point ++ fillInTurn table back := by
  induction table generalizing front back with
  | nil => rfl
  | cons i table ih =>
    obtain ⟨hi, hrest⟩ := List.forall_mem_cons.mp hanchored
    obtain ⟨hunlikeHere, hunlikeRest⟩ := List.forall_mem_cons.mp hunlike
    show fillInTurn table (replaceAll i.point i.text (front ++ point ++ back)) = _
    rw [hi.replaceAll_around hpoint hunlikeHere, ih hrest hunlikeRest]
    rfl

/-- One text that is put in for several points is found in the end when it was
there, or any of the points. A pass either finds nothing or puts it in again. -/
theorem infix_fillInTurn {inserted : List Char} (hanchored : ∀ i ∈ table, Anchored i.point)
    (hsame : ∀ i ∈ table, i.text = inserted)
    (h : inserted <:+: text ∨ ∃ i ∈ table, i.point <:+: text) :
    inserted <:+: fillInTurn table text := by
  induction table generalizing text with
  | nil => simpa [fillInTurn] using h
  | cons i table ih =>
    obtain ⟨hi, hrest⟩ := List.forall_mem_cons.mp hanchored
    obtain ⟨rfl, hsameRest⟩ := List.forall_mem_cons.mp hsame
    show i.text <:+: fillInTurn table (replaceAll i.point i.text text)
    apply ih hrest hsameRest
    by_cases hoccurs : i.point <:+: text
    · exact Or.inl (hi.infix_replaceAll hoccurs)
    · rw [replaceAll_of_not_occurring hoccurs]
      refine h.imp_right ?_
      rintro ⟨j, hj, hjoccurs⟩
      rcases List.mem_cons.mp hj with rfl | hj
      · exact absurd hjoccurs hoccurs
      · exact ⟨j, hj, hjoccurs⟩

end Filling

open Filling

namespace Page

variable {text fragment point : String}

theorem hasPoint_iff {points : List String} :
    hasPoint points text ↔ ∃ point ∈ points, point.toList <:+: text.toList := by
  simp only [hasPoint, List.any_eq_true, occurs_iff]

/-- Whatever is put in for the headers, a content point stays between what is made
of the text before it and of the text behind it. -/
theorem fill_around (headers : String) (h : point ∈ contentPoints) (front back : String) :
    fill headersPoints headers (front ++ point ++ back) =
      fill headersPoints headers front ++ point ++ fill headersPoints headers back := by
  have hanchored : ∀ i ∈ insertionsFor headersPoints headers, Anchored i.point := by
    intro i hi
    obtain ⟨header, hheader, rfl⟩ := List.mem_map.mp hi
    exact anchored_of_mem (List.mem_append_left _ hheader)
  have hunlike : ∀ i ∈ insertionsFor headersPoints headers,
      ¬ i.point <+: point.toList ∧ ¬ point.toList <+: i.point := by
    intro i hi
    obtain ⟨header, hheader, rfl⟩ := List.mem_map.mp hi
    have hall := pairwise_unlike
    rw [List.pairwise_map, List.pairwise_append] at hall
    exact hall.2.2 header hheader point h
  have haround := fillInTurn_around hanchored (anchored_of_mem (List.mem_append_right _ h))
    hunlike front.toList back.toList
  rw [fill_eq, fill_eq, fill_eq, String.toList_append, String.toList_append, haround,
    String.ofList_append, String.ofList_append, String.ofList_toList]

/-- Where a text has a content point, the fragment is found in it after all. -/
theorem infix_fill (h : hasPoint contentPoints text) :
    fragment.toList <:+: (fill contentPoints fragment text).toList := by
  rw [fill_eq, String.toList_ofList]
  apply infix_fillInTurn
  · intro i hi
    obtain ⟨point, hpoint, rfl⟩ := List.mem_map.mp hi
    exact anchored_of_mem (List.mem_append_right _ hpoint)
  · intro i hi
    obtain ⟨point, _, rfl⟩ := List.mem_map.mp hi
    rfl
  · obtain ⟨point, hpoint, hoccurs⟩ := hasPoint_iff.mp h
    exact Or.inr ⟨_, List.mem_map_of_mem hpoint, hoccurs⟩

/-- A piece of a text has its line endings converted with the text. -/
theorem infix_withLineEnding {ending : String} (h : fragment.toList <:+: text.toList) :
    (withLineEnding ending fragment).toList <:+: (withLineEnding ending text).toList := by
  unfold withLineEnding
  split
  · exact h
  · obtain ⟨front, back, htext⟩ := h
    rw [String.toList_ofList, String.toList_ofList, ← htext, List.flatMap_append,
      List.flatMap_append]
    exact List.infix_append _ _ _

end Page

namespace Template

variable {t : Template} {raw fragment page : String} {s : Page.Settings}

/-- A template has lost its carriage returns, and no content point with them. -/
theorem ofText_keeps (h : ofText raw = .ok t) :
    '\r' ∉ t.text.toList ∧ Page.hasPoint Page.contentPoints t.text := by
  unfold ofText at h
  split at h
  next hraw =>
    cases h
    refine ⟨by simp, ?_⟩
    obtain ⟨point, hpoint, front, back, hoccurs⟩ := Page.hasPoint_iff.mp hraw
    have hplain : ∀ point ∈ Page.contentPoints,
        point.toList.filter (· != '\r') = point.toList := by decide
    refine Page.hasPoint_iff.mpr ⟨point, hpoint, ?_⟩
    rw [String.toList_ofList, ← hoccurs, List.filter_append, List.filter_append,
      hplain point hpoint]
    exact List.infix_append _ _ _
  next => cases h

/-- A template with a content point still has it when its headers are filled. -/
theorem hasPoint_withHeaders {text : String} (hpoint : Page.hasPoint Page.contentPoints t.text)
    (h : t.withHeaders s = .ok text) : Page.hasPoint Page.contentPoints text := by
  obtain ⟨point, hmem, front, back, hoccurs⟩ := Page.hasPoint_iff.mp hpoint
  have htext : t.text = String.ofList front ++ point ++ String.ofList back := by
    rw [← String.toList_inj, ← hoccurs]
    simp
  rw [withHeaders_eq h, htext, Page.fill_around _ hmem]
  refine Page.hasPoint_iff.mpr ⟨point, hmem, ?_⟩
  rw [String.toList_append, String.toList_append]
  exact List.infix_append _ _ _

/-- A template that was made from a text has no carriage return left, but a
content point. Whatever is put in for its headers points, every content point stays
where it is between what becomes of its sides. A page that is made from it holds the
fragment as a whole, with the line endings of the page. -/
theorem render_keeps_content (raw : String) (t : Template) (h : ofText raw = .ok t) :
    '\r' ∉ t.text.toList ∧
    (∃ point ∈ Page.contentPoints, point.toList <:+: t.text.toList) ∧
    (∀ s text, t.withHeaders s = .ok text →
      text = Page.fill Page.headersPoints (Page.headers s) t.text) ∧
    (∀ headers front point back, point ∈ Page.contentPoints → t.text = front ++ point ++ back →
      Page.fill Page.headersPoints headers t.text = Page.fill Page.headersPoints headers front ++
        point ++ Page.fill Page.headersPoints headers back) ∧
    ∀ fragment s page, t.render fragment s = .ok page →
      (Page.withLineEnding s.lineEnding fragment).toList <:+: page.toList := by
  obtain ⟨hplain, hpoint⟩ := ofText_keeps h
  refine ⟨hplain, Page.hasPoint_iff.mp hpoint, fun s text => withHeaders_eq, ?_, ?_⟩
  · intro headers front point back hmem htext
    rw [htext]
    exact Page.fill_around headers hmem front back
  · intro fragment s page hrender
    unfold render at hrender
    cases htext : t.withHeaders s with
    | error fault =>
      rw [htext] at hrender
      cases hrender
    | ok text =>
      rw [htext] at hrender
      cases hrender
      exact Page.infix_withLineEnding (Page.infix_fill (hasPoint_withHeaders hpoint htext))

/-- A fragment whose end becomes a content point with what stands behind it. -/
theorem render_keeps_content_edge :
    ∃ (raw : String) (t : Template) (s : Page.Settings) (page : String),
      raw = "$(!pageHeaders)\r\n$(pageContent)pageContent)" ∧
      t = ⟨"$(!pageHeaders)\n$(pageContent)pageContent)"⟩ ∧ s = ⟨[], none, "\r\n"⟩ ∧
      page = "\r\nx\r\nx\r\n$(!" ∧ ofText raw = .ok t ∧ t.render "x\n$(!" s = .ok page ∧
      Page.fill Page.headersPoints "$(" t.text =
        Page.fill Page.headersPoints "$(" "$(!pageHeaders)\n" ++ "$(pageContent)" ++
          Page.fill Page.headersPoints "$(" "pageContent)" ∧
      (Page.withLineEnding s.lineEnding "x\n$(!").toList <:+: page.toList := by
  let t : Template := ⟨"$(!pageHeaders)\n$(pageContent)pageContent)"⟩
  let s : Page.Settings := ⟨[], none, "\r\n"⟩
  have htemplate : ofText "$(!pageHeaders)\r\n$(pageContent)pageContent)" = .ok t := by cbv
  have hrender : t.render "x\n$(!" s = .ok "\r\nx\r\nx\r\n$(!" := by cbv
  have htext : t.text = "$(!pageHeaders)\n" ++ "$(pageContent)" ++ "pageContent)" := by decide
  obtain ⟨_, _, _, hkept, hheld⟩ := render_keeps_content _ t htemplate
  exact ⟨_, t, s, _, rfl, rfl, rfl, rfl, htemplate, hrender,
    hkept "$(" "$(!pageHeaders)\n" "$(pageContent)" "pageContent)" (by decide) htext,
    hheld "x\n$(!" s _ hrender⟩

end Template

end DeferredMarkup
