import DeferredMarkup.Proofs.Documents
import DeferredMarkup.Proofs.Escaping

/-!
Finished markup read back. From a text whose literals hold no angle bracket,
resolving makes one in which every left angle bracket begins the text of a tag
or close and the next right one ends it, whatever their names and classes hold.
Cutting the finished text at its brackets thus gives back the texts of the
marks, and from each of these the name and the classes can be read.
-/
namespace DeferredMarkup

open Nesting

/-- The front of a text through its first right angle bracket. -/
def through : List Char → List Char
  | [] => []
  | c :: rest => if c = '>' then [c] else c :: through rest

/-- The stretches of a text from each left angle bracket to the next right one. -/
def stretches : List Char → List (List Char)
  | [] => []
  | c :: rest => if c = '<' then (c :: through rest) :: stretches rest else stretches rest

/-- Whether a text begins with its only left angle bracket and ends with its
only right one. -/
def Bracketed (text : List Char) : Prop :=
  ∃ body, text = '<' :: (body ++ ['>']) ∧ '<' ∉ body ∧ '>' ∉ body

section

variable {front back body piece cs : List Char}

theorem length_stretches (cs : List Char) : (stretches cs).length = cs.count '<' := by
  induction cs with
  | nil => rfl
  | cons c cs ih =>
    rw [stretches, List.count_cons, ← ih]
    by_cases h : c = '<'
    · simp [h]
    · simp [h]

theorem through_append (h : '>' ∉ body) (back : List Char) :
    through (body ++ '>' :: back) = body ++ ['>'] := by
  induction body with
  | nil => rfl
  | cons c body ih =>
    rw [List.mem_cons, not_or] at h
    rw [List.cons_append, through, if_neg (Ne.symm h.1), ih h.2, List.cons_append]

theorem stretches_append (h : '<' ∉ front) (back : List Char) :
    stretches (front ++ back) = stretches back := by
  induction front with
  | nil => rfl
  | cons c front ih =>
    rw [List.mem_cons, not_or] at h
    rw [List.cons_append, stretches, if_neg (Ne.symm h.1), ih h.2]

/-- A bracketed piece is cut out as it is. -/
theorem Bracketed.stretches (h : Bracketed piece) (back : List Char) :
    stretches (piece ++ back) = piece :: DeferredMarkup.stretches back := by
  obtain ⟨body, rfl, hless, hgreater⟩ := h
  have hrest : '<' ∉ body ++ ['>'] := by
    rw [List.mem_append, not_or]
    exact ⟨hless, by decide⟩
  rw [List.cons_append, DeferredMarkup.stretches, if_pos rfl, stretches_append hrest,
    List.append_assoc, List.singleton_append, through_append hgreater]

theorem Bracketed.count_greater (h : Bracketed piece) : piece.count '>' = 1 := by
  obtain ⟨body, rfl, _, hgreater⟩ := h
  simp [List.count_eq_zero.mpr hgreater]

end

namespace Mark

/-- Stylers are the marks that leave no text. -/
def isStyler : Mark → Bool
  | styler .. => true
  | _ => false

variable {m : Mark}

theorem html_of_isStyler (h : m.isStyler) : m.html = "" := by
  cases m with
  | styler category direction name => rfl
  | opening category name classes => cases h
  | atomic category name classes => cases h
  | closing category name => cases h

/-- Names and classes bring no bracket into the text of a tag or close. -/
theorem bracketed (h : ¬ m.isStyler) : Bracketed m.html.toList := by
  have hbrackets : ∀ c ∈ ['<', '>'], c ∈ ['<', '>', '"'] :=
    fun _ hc => List.mem_append_left ['"'] hc
  have htag : ∀ c ∈ ['<', '>'], ∀ name classes,
      c ∉ (Html.escape name).toList ++ (Html.classAttribute classes).toList := by
    intro c hc name classes
    rw [List.mem_append, not_or]
    exact ⟨Html.notMem_escape (hbrackets c hc), Html.notMem_classAttribute hc⟩
  cases m with
  | opening category name classes =>
    refine ⟨(Html.escape name).toList ++ (Html.classAttribute classes).toList, ?_,
      htag '<' (by decide) name classes, htag '>' (by decide) name classes⟩
    simp [html, Html.openTag]
  | atomic category name classes =>
    refine ⟨(Html.escape name).toList ++ (Html.classAttribute classes).toList ++ " /".toList,
      by simp [html, Html.atomicTag], ?_, ?_⟩
    · rw [List.mem_append, not_or]
      exact ⟨htag '<' (by decide) name classes, by decide⟩
    · rw [List.mem_append, not_or]
      exact ⟨htag '>' (by decide) name classes, by decide⟩
  | closing category name =>
    refine ⟨'/' :: (Html.escape name).toList, by simp [html, Html.closeTag], ?_, ?_⟩
    · rw [List.mem_cons, not_or]
      exact ⟨by decide, Html.notMem_escape (by decide)⟩
    · rw [List.mem_cons, not_or]
      exact ⟨by decide, Html.notMem_escape (by decide)⟩
  | styler category direction name => exact absurd rfl h

/-- What can be read from the text of a mark: of a tag its name and classes, and
of a close its name. -/
def ReadsBack (m : Mark) : Prop :=
  match m with
  | opening _ name classes => Html.ReadsTag m.html.toList name classes ">"
  | atomic _ name classes => Html.ReadsTag m.html.toList name classes " />"
  | closing _ name => ∃ inner, m.html.toList = "</".toList ++ inner ++ ">".toList ∧
      Html.unescape inner = name.toList
  | styler .. => m.html = ""

theorem readsBack (m : Mark) : m.ReadsBack := by
  cases m with
  | opening category name classes => exact Html.readsTag (by decide)
  | atomic category name classes => exact Html.readsTag (by decide)
  | closing category name =>
    refine ⟨(Html.escape name).toList, ?_, Html.unescape_escape name⟩
    simp [html, Html.closeTag]
  | styler category direction name => rfl

end Mark

section

variable {slots : List Slot} {marks : List Mark} {d : Layout} {c : Char}

/-- The stretches of filled slots are the texts that are put in. -/
theorem stretches_fill (hlen : marks.length = slots.length)
    (hliteral : ∀ slot ∈ slots, '<' ∉ slot.literal.toList) :
    stretches (fill slots (marks.map Mark.html)).toList =
      (marks.filter (!·.isStyler)).map (·.html.toList) := by
  induction slots generalizing marks with
  | nil =>
    obtain rfl := List.length_eq_zero_iff.mp hlen
    rfl
  | cons slot slots ih =>
    cases marks with
    | nil => cases hlen
    | cons m marks =>
      obtain ⟨hslot, hslots⟩ := List.forall_mem_cons.mp hliteral
      have hrest := ih (Nat.succ.inj hlen) hslots
      rw [List.map_cons, fill, String.toList_append, String.toList_append, List.append_assoc]
      by_cases hstyler : m.isStyler
      · rw [Mark.html_of_isStyler hstyler, String.toList_empty, List.nil_append,
          stretches_append hslot, hrest, List.filter_cons_of_neg (by simp [hstyler])]
      · rw [(Mark.bracketed hstyler).stretches, stretches_append hslot, hrest,
          List.filter_cons_of_pos (by simp [hstyler]), List.map_cons]

theorem count_greater_fill (hlen : marks.length = slots.length)
    (hliteral : ∀ slot ∈ slots, '>' ∉ slot.literal.toList) :
    (fill slots (marks.map Mark.html)).toList.count '>' =
      (marks.filter (!·.isStyler)).length := by
  induction slots generalizing marks with
  | nil =>
    obtain rfl := List.length_eq_zero_iff.mp hlen
    rfl
  | cons slot slots ih =>
    cases marks with
    | nil => cases hlen
    | cons m marks =>
      obtain ⟨hslot, hslots⟩ := List.forall_mem_cons.mp hliteral
      have hrest := ih (Nat.succ.inj hlen) hslots
      rw [List.map_cons, fill, String.toList_append, String.toList_append, List.count_append,
        List.count_append, List.count_eq_zero.mpr hslot, hrest]
      by_cases hstyler : m.isStyler
      · rw [Mark.html_of_isStyler hstyler, List.filter_cons_of_neg (by simp [hstyler])]
        simp
      · rw [(Mark.bracketed hstyler).count_greater, List.filter_cons_of_pos (by simp [hstyler]),
          List.length_cons, Nat.add_zero, Nat.add_comm]

/-- The literals of a layout are part of its text. -/
theorem Layout.notMem_literals (h : c ∉ d.text.toList) :
    c ∉ d.lead.toList ∧ ∀ slot ∈ d.slots, c ∉ slot.literal.toList := by
  have hfill : ∀ slots : List Slot, c ∉ (fill slots (slots.map Slot.placeholder)).toList →
      ∀ slot ∈ slots, c ∉ slot.literal.toList := by
    intro slots
    induction slots with
    | nil => simp
    | cons slot slots ih =>
      intro h
      simp only [List.map_cons, fill, String.toList_append, List.mem_append, not_or] at h
      exact List.forall_mem_cons.mpr ⟨h.1.2, ih h.2⟩
  rw [text, render, String.toList_append, List.mem_append, not_or] at h
  exact ⟨h.1, hfill d.slots h.2⟩

end

/-- Markup is not injected through names or classes. When the given text holds
no angle bracket, each of those in the finished text was written around a tag or
a close: from each left one to the next right one stands the text of a mark that
is no styler, in document order, with the classes that it has in the end. Names
and classes can be read back from these texts. -/
theorem resolve_injects_no_markup (text html : String) (r : Registry)
    (hless : '<' ∉ text.toList) (hgreater : '>' ∉ text.toList)
    (h : (resolve text r).value = .ok html) :
    ∃ markers, (Placement.place text r).value.registry.sorted = .ok markers ∧
      (walk markers).value.outcome = .ok () ∧
      let marks := marksOf (walk markers).value.markers
      let written := marks.filter (!·.isStyler)
      stretches html.toList = written.map (·.html.toList) ∧
      html.toList.count '<' = written.length ∧ html.toList.count '>' = written.length ∧
      ∀ m ∈ marks, m.ReadsBack := by
  obtain ⟨ls, hplaced, _⟩ := Resolution.resolve_eq_ok_iff.mp h
  obtain ⟨hlen, hfree, d, rfl, hlists, _⟩ := place_eq_ok_iff.mp hplaced
  obtain ⟨hok, _, rfl⟩ := (Layout.resolve_text_eq_ok_iff hlen hlists hfree).mp h
  have hplace := congrArg (·.registry.sorted) (Layout.place_text hlen hlists hfree)
  refine ⟨_, hplace.trans (Layout.sorted_recordAll hlists), hok, ?_⟩
  intro marks written
  have htexts : (walk (placed r d.locations)).value.markers.map (·.mark.html) =
      marks.map Mark.html := by
    simp only [marks, marksOf, List.map_map, Function.comp_def]
  have hcount : marks.length = d.slots.length := by
    rw [length_marksOf, length_walk, ← d.length_locations]
    have := congrArg List.length (marksOf_placed hlists.registered).2
    simpa using this
  obtain ⟨hlead, hslots⟩ := Layout.notMem_literals hless
  obtain ⟨hlead', hslots'⟩ := Layout.notMem_literals hgreater
  have hstretches : stretches (d.render (marks.map Mark.html)).toList =
      written.map (·.html.toList) := by
    rw [Layout.render, String.toList_append, stretches_append hlead, stretches_fill hcount hslots]
  rw [htexts]
  refine ⟨hstretches, ?_, ?_, fun m _ => m.readsBack⟩
  · rw [← length_stretches, hstretches, List.length_map]
  · rw [Layout.render, String.toList_append, List.count_append, List.count_eq_zero.mpr hlead',
      count_greater_fill hcount hslots', Nat.zero_add]

/-- A line break that is given a class from behind which would end its tag. -/
theorem resolve_injects_no_markup_quoted :
    ∃ (calls : List Call) (html : String),
      calls = [.write "é", .push (.atomic .inline "br" ["c"]),
        .push (.styler .inline .previous "x\"><script")] ∧
      html = "é<br class=\"c x&quot;&gt;&lt;script\" />" ∧
      '<' ∉ (Drafting.of calls).draft.text.toList ∧ '>' ∉ (Drafting.of calls).draft.text.toList ∧
      (Drafting.of calls).draft.finish.value = .ok html ∧
      ∃ marks : List Mark, (∀ m ∈ marks, m.ReadsBack) ∧
        stretches html.toList = (marks.filter (!·.isStyler)).map (·.html.toList) := by
  let calls : List Call := [.write "é", .push (.atomic .inline "br" ["c"]),
    .push (.styler .inline .previous "x\"><script")]
  have hfinish : (Drafting.of calls).draft.finish.value =
      .ok "é<br class=\"c x&quot;&gt;&lt;script\" />" := by
    let markers : List Marker := [⟨0, none, .atomic .inline "br" ["c"]⟩,
      ⟨1, none, .styler .inline .previous "x\"><script"⟩]
    have hmarks : marksOf markers = pushes calls := rfl
    refine (Drafting.finish_eq_ok_iff (by decide) (by decide) (by decide) hmarks).mpr
      ⟨rfl, ?_, rfl⟩
    unfold Mark.Clean
    decide
  have hless : '<' ∉ (Drafting.of calls).draft.text.toList := by decide
  have hgreater : '>' ∉ (Drafting.of calls).draft.text.toList := by decide
  obtain ⟨_, _, _, hstretches, _, _, hread⟩ :=
    resolve_injects_no_markup _ _ _ hless hgreater hfinish
  exact ⟨calls, _, rfl, rfl, hless, hgreater, hfinish, _, hread, hstretches⟩

end DeferredMarkup
