import DeferredMarkup.Proofs.Composing
import DeferredMarkup.Proofs.Drafting

/-!
Drafts as documents. What a finished draft comes to can be told from the calls
that wrote it, from front to back: the literals as they are and, for every mark
that was pushed, its text as the walk leaves it. The ids of the marks and the
places of their placeholders are gone, so that the calls of two drafts, or those
of one draft between the two ends of a tag, come to the texts of the drafts put
together.
-/
namespace DeferredMarkup

open Nesting

/-- What calls write, with the given texts in place of the marks that they push. -/
def written : List Call → List String → String
  | .write literal :: calls, texts => literal ++ written calls texts
  | .push _ :: calls, text :: texts => text ++ written calls texts
  | _, _ => ""

/-- The marks that calls push. -/
def pushes (calls : List Call) : List Mark := calls.filterMap Call.mark?

/-- The calls that write something inside of a tag. -/
def around (category : Category) (name : String) (classes : List String) (calls : List Call) :
    List Call :=
  .push (.opening category name classes) :: (calls ++ [.push (.closing category name)])

variable {calls calls' : List Call} {texts texts' : List String} {html : String}

@[simp] theorem pushes_nil : pushes [] = [] := rfl

@[simp] theorem pushes_append (calls calls' : List Call) :
    pushes (calls ++ calls') = pushes calls ++ pushes calls' := List.filterMap_append

@[simp] theorem pushes_write (literal : String) (calls : List Call) :
    pushes (.write literal :: calls) = pushes calls := rfl

@[simp] theorem pushes_push (mark : Mark) (calls : List Call) :
    pushes (.push mark :: calls) = mark :: pushes calls := rfl

theorem pushes_around (category : Category) (name : String) (classes : List String)
    (calls : List Call) : pushes (around category name classes calls) =
      wrap category name classes (pushes calls) := by
  rw [around, pushes_push, pushes_append]
  rfl

theorem written_append (hlen : texts.length = (pushes calls).length) :
    written (calls ++ calls') (texts ++ texts') =
      written calls texts ++ written calls' texts' := by
  induction calls generalizing texts with
  | nil =>
    obtain rfl := List.length_eq_zero_iff.mp hlen
    simp [written]
  | cons call calls ih =>
    cases call with
    | write literal =>
      rw [List.cons_append, written, written, ih hlen, String.append_assoc]
    | push mark =>
      cases texts with
      | nil => simp at hlen
      | cons text texts =>
        rw [List.cons_append, List.cons_append, written, written, ih (by simpa using hlen),
          String.append_assoc]

namespace Drafting

/-- As long as there are ids, every mark that is pushed is registered. -/
theorem map_mark_pushed (hplain : ∀ call ∈ calls, call.Plain)
    (hcount : (pushes calls).length ≤ MarkerId.count) :
    (of calls).pushed.map (·.mark) = pushes calls :=
  (marks_of hplain).trans (List.take_of_length_le hcount)

/-- A layout has the text and the placeholders of a draft, and comes to what the
calls write, whatever texts their marks have. -/
structure LaidOut (calls : List Call) (s : Drafting) (d : Layout) : Prop where
  text : d.text = s.draft.text
  locations : d.locations = s.pushed.map (·.location)
  slots : d.slots.length = (pushes calls).length
  render : ∀ texts, texts.length = (pushes calls).length → d.render texts = written calls texts

namespace LaidOut

variable {s : Drafting} {d : Layout} {mark : Mark} {literal : String} {id : MarkerId}

theorem length_pushed (h : LaidOut calls s d) : s.pushed.length = (pushes calls).length := by
  rw [← h.slots, ← d.length_locations, h.locations, List.length_map]

theorem write (h : LaidOut calls s d) (hliteral : sentinel ∉ literal.toList) :
    LaidOut (calls ++ [.write literal]) (s.after (.write literal))
      (d ++ .ofLiteral literal hliteral) := by
  have hlocations := d.locations_append_ofLiteral hliteral
  refine ⟨?_, hlocations.trans h.locations, ?_, ?_⟩
  · rw [Layout.text_append, Layout.text_ofLiteral, h.text]
    rfl
  · rw [← Layout.length_locations, hlocations, Layout.length_locations, h.slots]
    simp
  · intro texts hlen
    have hlen : texts.length = (pushes calls).length := by simpa using hlen
    have hrest := d.render_append (.ofLiteral literal hliteral) [] (hlen.trans h.slots.symm)
    have hwritten : written (calls ++ [.write literal]) (texts ++ []) =
        written calls texts ++ written [.write literal] [] := written_append hlen
    rw [List.append_nil] at hrest hwritten
    rw [hrest, hwritten, h.render texts hlen]
    rfl

theorem push (h : LaidOut calls s d) {registry : Registry}
    (hpush : s.draft.push mark = ⟨⟨s.draft.text ++ Placeholder.text id, registry⟩, .ok id⟩) :
    LaidOut (calls ++ [.push mark]) (s.after (.push mark))
      (d ++ .ofDigits id.hex id.map_toUpper_hex) := by
  have hlocations := d.locations_append_ofDigits id.map_toUpper_hex
  rw [after_push_of_ok hpush]
  refine ⟨?_, ?_, ?_, ?_⟩
  · rw [Layout.text_append, Layout.text_ofDigits, h.text]
    rfl
  · rw [hlocations, h.locations, h.text, List.map_append]
    rfl
  · rw [← Layout.length_locations, hlocations, List.length_append, Layout.length_locations,
      h.slots]
    simp
  · intro texts hlen
    obtain ⟨texts, text, rfl⟩ : ∃ front text, texts = front ++ [text] := by
      rcases List.eq_nil_or_concat texts with rfl | ⟨front, text, rfl⟩
      · simp at hlen
      · exact ⟨front, text, by rw [List.concat_eq_append]⟩
    have hlen : texts.length = (pushes calls).length := by simpa using hlen
    rw [d.render_append _ _ (hlen.trans h.slots.symm), written_append hlen, h.render texts hlen]
    simp [Layout.ofDigits, Layout.render, fill, written]

end LaidOut

/-- The text of a draft is laid out as its calls wrote it. -/
theorem exists_laidOut (hplain : ∀ call ∈ calls, call.Plain)
    (hcount : (pushes calls).length ≤ MarkerId.count) : ∃ d, LaidOut calls (of calls) d := by
  induction calls using List.reverseRecOn with
  | nil =>
    refine ⟨.ofLiteral "" (by simp), rfl, rfl, rfl, ?_⟩
    intro texts _
    rfl
  | append_singleton calls call ih =>
    obtain ⟨hcalls, hcall⟩ := List.forall_mem_append.mp hplain
    have hcall : call.Plain := hcall call (List.mem_singleton_self call)
    rw [pushes_append, List.length_append] at hcount
    obtain ⟨d, hd⟩ := ih hcalls (by omega)
    rw [of_concat]
    cases call with
    | write literal => exact ⟨_, hd.write hcall⟩
    | push mark =>
      rcases (together_of hcalls).push_cases mark with
        ⟨_, id, registry, _, _, _, hpush⟩ | ⟨hfull, _⟩
      · exact ⟨_, hd.push hpush⟩
      · have hroom : (pushes calls).length + 1 ≤ MarkerId.count := hcount
        rw [hd.length_pushed] at hfull
        omega

/-- Markers that are registered are placed with their marks. -/
theorem marksOf_placed_pushed {r : Registry} {pushed : List Pushed}
    (hget : ∀ p ∈ pushed, r.get? p.location.id = some p.marker) :
    marksOf (placed r (pushed.map (·.location))) = pushed.map (·.mark) := by
  induction pushed with
  | nil => rfl
  | cons p pushed ih =>
    obtain ⟨hp, hrest⟩ := List.forall_mem_cons.mp hget
    rw [List.map_cons, placed_cons hp, List.map_cons, ← ih hrest]
    rfl

/-- The walked marks of a document are as many as were pushed for it. -/
theorem length_texts {markers : List Marker} (hmarks : marksOf markers = pushes calls) :
    ((marksOf (walk markers).value.markers).map Mark.html).length = (pushes calls).length := by
  rw [List.length_map, length_marksOf, length_walk, ← length_marksOf, hmarks]

/-- A draft is finished when the marks that were pushed fit one another and are
clean. It then comes to what its calls wrote. -/
theorem finish_eq_ok_iff (hplain : ∀ call ∈ calls, call.Plain)
    (hcount : (pushes calls).length ≤ MarkerId.count)
    (hlen : (of calls).draft.text.utf8ByteSize ≤ longestText) {markers : List Marker}
    (hmarks : marksOf markers = pushes calls) :
    (of calls).draft.finish.value = .ok html ↔
      (walk markers).value.outcome = .ok () ∧ (∀ m ∈ pushes calls, m.Clean) ∧
      html = written calls ((marksOf (walk markers).value.markers).map Mark.html) := by
  obtain ⟨d, htext, hlocations, _, hrender⟩ := exists_laidOut hplain hcount
  have htogether := together_of hplain
  have hplaced : marksOf (placed (of calls).draft.registry d.locations) = marksOf markers := by
    rw [hlocations, marksOf_placed_pushed fun p hp =>
      (htogether.registered _ _).mpr ⟨p, hp, rfl, rfl⟩, map_mark_pushed hplain hcount, hmarks]
  rw [Draft.finish, ← htext, Layout.resolve_text_eq_ok_iff (htext ▸ hlen)
    (htogether.lists hlocations) htogether.unlocated]
  have houtcome : (walk (placed (of calls).draft.registry d.locations)).value.outcome = .ok () ↔
      (walk markers).value.outcome = .ok () :=
    ⟨walk_ok_congr hplaced, walk_ok_congr hplaced.symm⟩
  rw [houtcome]
  refine and_congr_right fun hok => ?_
  have hwalked := marksOf_walk_congr hplaced.symm hok
  have hclean : (∀ m ∈ marksOf (walk markers).value.markers, m.Clean) ↔
      ∀ m ∈ pushes calls, m.Clean := by
    rw [← hmarks]
    exact forall_strings_walk hok
  have htexts : (walk (placed (of calls).draft.registry d.locations)).value.markers.map
      (·.mark.html) = (marksOf (walk markers).value.markers).map Mark.html := by
    rw [hwalked, marksOf, List.map_map]
    rfl
  rw [← hwalked, hclean, htexts, hrender _ (length_texts hmarks)]

/-- A draft that can be finished is not too long. -/
theorem length_of_finish (hfinish : (of calls).draft.finish.value = .ok html) :
    (of calls).draft.text.utf8ByteSize ≤ longestText := by
  obtain ⟨_, hplaced, _⟩ := Resolution.resolve_eq_ok_iff.mp hfinish
  exact (place_eq_ok_iff.mp hplaced).1

end Drafting

/-- Any marks are those of some markers. -/
theorem exists_marksOf_eq (ms : List Mark) : ∃ markers, marksOf markers = ms := by
  refine ⟨ms.map (⟨0, none, ·⟩), ?_⟩
  rw [marksOf, List.map_map]
  exact List.map_id ms

namespace Drafting

variable {html' : String} {category : Category} {name : String} {classes : List String}

/-- What is known of a finished draft, with markers for the marks it was given. -/
theorem exists_of_finish (hplain : ∀ call ∈ calls, call.Plain)
    (hcount : (pushes calls).length ≤ MarkerId.count)
    (hfinish : (of calls).draft.finish.value = .ok html) :
    ∃ markers, marksOf markers = pushes calls ∧ (walk markers).value.outcome = .ok () ∧
      (∀ m ∈ pushes calls, m.Clean) ∧
      html = written calls ((marksOf (walk markers).value.markers).map Mark.html) := by
  obtain ⟨markers, hmarks⟩ := exists_marksOf_eq (pushes calls)
  exact ⟨markers, hmarks,
    (finish_eq_ok_iff hplain hcount (length_of_finish hfinish) hmarks).mp hfinish⟩

theorem finish_append (hplain : ∀ call ∈ calls, call.Plain)
    (hplain' : ∀ call ∈ calls', call.Plain)
    (hcount : (pushes (calls ++ calls')).length ≤ MarkerId.count)
    (hlen : (of (calls ++ calls')).draft.text.utf8ByteSize ≤ longestText)
    (hfinish : (of calls).draft.finish.value = .ok html)
    (hfinish' : (of calls').draft.finish.value = .ok html') :
    (of (calls ++ calls')).draft.finish.value = .ok (html ++ html') := by
  have hcounts := hcount
  rw [pushes_append, List.length_append] at hcounts
  obtain ⟨left, hleft, hok, hclean, rfl⟩ := exists_of_finish hplain (by omega) hfinish
  obtain ⟨right, hright, hok', hclean', rfl⟩ := exists_of_finish hplain' (by omega) hfinish'
  obtain ⟨hboth, hwalked⟩ := walk_append hok hok'
  have hmarks : marksOf (left ++ right) = pushes (calls ++ calls') := by
    rw [marksOf_append, hleft, hright, pushes_append]
  apply (finish_eq_ok_iff (List.forall_mem_append.mpr ⟨hplain, hplain'⟩) hcount hlen hmarks).mpr
  refine ⟨hboth, ?_, ?_⟩
  · rw [pushes_append]
    exact List.forall_mem_append.mpr ⟨hclean, hclean'⟩
  · rw [hwalked, List.map_append, written_append (length_texts hleft)]

theorem finish_around (hplain : ∀ call ∈ calls, call.Plain)
    (htag : (Mark.opening category name classes).Clean)
    (hcount : (pushes (around category name classes calls)).length ≤ MarkerId.count)
    (hlen : (of (around category name classes calls)).draft.text.utf8ByteSize ≤ longestText)
    (hfinish : (of calls).draft.finish.value = .ok html) :
    (of (around category name classes calls)).draft.finish.value =
      .ok ((Mark.opening category name classes).html ++ html ++
        (Mark.closing category name).html) := by
  have hcounts := hcount
  rw [pushes_around, wrap, List.length_cons, List.length_append] at hcounts
  obtain ⟨inner, hinner, hok, hclean, rfl⟩ := exists_of_finish hplain (by omega) hfinish
  let opening : Marker := ⟨0, none, .opening category name classes⟩
  let closing : Marker := ⟨0, none, .closing category name⟩
  have hopening : opening.mark = .opening category name classes := rfl
  have hclosing : closing.mark = .closing category name := rfl
  obtain ⟨hwhole, hwalked⟩ := walk_wrap hopening hclosing hok
  have hmarks : marksOf (opening :: (inner ++ [closing])) =
      pushes (around category name classes calls) := by
    rw [marksOf_wrap hopening hclosing, hinner, pushes_around]
  have hclose : (Mark.closing category name).Clean := by
    intro s hs
    obtain rfl := List.mem_singleton.mp hs
    exact htag _ List.mem_cons_self
  have hplainWhole : ∀ call ∈ around category name classes calls, call.Plain := by
    simp only [around, List.forall_mem_cons, List.forall_mem_append]
    exact ⟨trivial, hplain, trivial, fun _ h => absurd h List.not_mem_nil⟩
  apply (finish_eq_ok_iff hplainWhole hcount hlen hmarks).mpr
  refine ⟨hwhole, ?_, ?_⟩
  · simp only [pushes_around, wrap, List.forall_mem_cons, List.forall_mem_append]
    exact ⟨htag, hclean, hclose, fun _ h => absurd h List.not_mem_nil⟩
  · have hend : written [.push (.closing category name)] [(Mark.closing category name).html] =
        (Mark.closing category name).html := String.append_empty
    rw [hwalked, wrap, List.map_cons, List.map_append, around, written,
      written_append (length_texts hinner), String.append_assoc]
    exact congrArg _ (congrArg _ hend.symm)

end Drafting

/-- Documents compose. Two drafts that can be finished come one behind the other
to their texts one behind the other. A draft that can be finished comes inside
of a tag, whatever its category, to its own text between those of the opening
tag, which is given no class, and of the close. -/
theorem finish_composes (calls : List Call) (hplain : ∀ call ∈ calls, call.Plain) (html : String)
    (hfinish : (Drafting.of calls).draft.finish.value = .ok html) :
    (∀ calls' html', (∀ call ∈ calls', call.Plain) →
      (Drafting.of calls').draft.finish.value = .ok html' →
      (pushes (calls ++ calls')).length ≤ MarkerId.count →
      (Drafting.of (calls ++ calls')).draft.text.utf8ByteSize ≤ longestText →
      (Drafting.of (calls ++ calls')).draft.finish.value = .ok (html ++ html')) ∧
    ∀ category name classes, sentinel ∉ name.toList → (∀ c ∈ classes, sentinel ∉ c.toList) →
      let whole := around category name classes calls
      (pushes whole).length ≤ MarkerId.count →
      (Drafting.of whole).draft.text.utf8ByteSize ≤ longestText →
      (Drafting.of whole).draft.finish.value =
        .ok ((Mark.opening category name classes).html ++ html ++
          (Mark.closing category name).html) := by
  refine ⟨?_, ?_⟩
  · intro calls' html' hplain' hfinish' hcount hlen
    exact Drafting.finish_append hplain hplain' hcount hlen hfinish hfinish'
  · intro category name classes hname hclasses whole hcount hlen
    have htag : (Mark.opening category name classes).Clean :=
      List.forall_mem_cons.mpr ⟨hname, hclasses⟩
    exact Drafting.finish_around hplain htag hcount hlen hfinish

/-- A paragraph with a class from inside, before a line break that is given one
from behind, and the paragraph in a list item that has a class of its own. -/
theorem finish_composes_paragraph :
    ∃ paragraph lineBreak : List Call,
      paragraph = [.push (.opening .block "p" []), .write "é",
        .push (.styler .block .container "a&b"), .push (.closing .block "p")] ∧
      lineBreak = [.push (.atomic .inline "br" []), .push (.styler .inline .previous "c")] ∧
      (Drafting.of (paragraph ++ lineBreak)).draft.finish.value =
        .ok ("<p class=\"a&amp;b\">é</p>" ++ "<br class=\"c\" />") ∧
      (Drafting.of (around .block "li" ["d"] paragraph)).draft.finish.value =
        .ok ("<li class=\"d\">" ++ "<p class=\"a&amp;b\">é</p>" ++ "</li>") := by
  let paragraph : List Call := [.push (.opening .block "p" []), .write "é",
    .push (.styler .block .container "a&b"), .push (.closing .block "p")]
  let lineBreak : List Call :=
    [.push (.atomic .inline "br" []), .push (.styler .inline .previous "c")]
  have hparagraph : (Drafting.of paragraph).draft.finish.value =
      .ok "<p class=\"a&amp;b\">é</p>" := by
    let markers : List Marker := [⟨0, none, .opening .block "p" []⟩,
      ⟨1, none, .styler .block .container "a&b"⟩, ⟨2, none, .closing .block "p"⟩]
    have hmarks : marksOf markers = pushes paragraph := rfl
    refine (Drafting.finish_eq_ok_iff (by decide) (by decide) (by decide) hmarks).mpr
      ⟨rfl, ?_, rfl⟩
    unfold Mark.Clean
    decide
  have hlineBreak : (Drafting.of lineBreak).draft.finish.value = .ok "<br class=\"c\" />" := by
    let markers : List Marker :=
      [⟨0, none, .atomic .inline "br" []⟩, ⟨1, none, .styler .inline .previous "c"⟩]
    have hmarks : marksOf markers = pushes lineBreak := rfl
    refine (Drafting.finish_eq_ok_iff (by decide) (by decide) (by decide) hmarks).mpr
      ⟨rfl, ?_, rfl⟩
    unfold Mark.Clean
    decide
  obtain ⟨happend, haround⟩ := finish_composes paragraph (by decide) _ hparagraph
  exact ⟨paragraph, lineBreak, rfl, rfl,
    happend lineBreak _ (by decide) hlineBreak (by decide) (by decide),
    haround .block "li" ["d"] (by decide) (by decide) (by decide) (by decide)⟩

end DeferredMarkup
