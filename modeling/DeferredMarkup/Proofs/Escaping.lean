import DeferredMarkup.Html
import Mathlib.Data.List.Basic

/-!
Escaped text read back. The entities of the four characters that are escaped
stand for them again, whatever comes behind, and an ampersand that was there
before has become an entity itself. So nothing is lost, and the characters that
delimit tags and attributes are found nowhere but where they were written.
-/
namespace DeferredMarkup.Html

/-- The characters that a text with entities stands for. -/
def unescape : List Char → List Char
  | '&' :: 'a' :: 'm' :: 'p' :: ';' :: rest => '&' :: unescape rest
  | '&' :: 'l' :: 't' :: ';' :: rest => '<' :: unescape rest
  | '&' :: 'g' :: 't' :: ';' :: rest => '>' :: unescape rest
  | '&' :: 'q' :: 'u' :: 'o' :: 't' :: ';' :: rest => '"' :: unescape rest
  | c :: rest => c :: unescape rest
  | [] => []

variable {c : Char} {s name : String} {classes : List String}

/-- Any other character stands for itself. -/
theorem unescape_cons (hc : c ≠ '&') (rest : List Char) :
    unescape (c :: rest) = c :: unescape rest := by
  rw [unescape]
  all_goals
    intros
    exact hc ‹_›

theorem unescape_escapeChar (c : Char) (rest : List Char) :
    unescape (escapeChar c ++ rest) = c :: unescape rest := by
  unfold escapeChar
  split
  · rfl
  · rfl
  · rfl
  · rfl
  next hc _ _ _ => exact unescape_cons hc rest

theorem unescape_escape (s : String) : unescape (escape s).toList = s.toList := by
  rw [escape, String.toList_ofList]
  induction s.toList with
  | nil => rfl
  | cons c cs ih => rw [List.flatMap_cons, unescape_escapeChar, ih]

/-- A character that is escaped stands nowhere in escaped text. -/
theorem notMem_escape (hc : c ∈ ['<', '>', '"']) : c ∉ (escape s).toList := by
  intro hmem
  rw [escape, String.toList_ofList, List.mem_flatMap] at hmem
  obtain ⟨original, _, hmem⟩ := hmem
  rw [List.mem_cons, List.mem_cons, List.mem_singleton] at hc
  have hentities : c ∉ "&amp;".toList ∧ c ∉ "&lt;".toList ∧ c ∉ "&gt;".toList ∧
      c ∉ "&quot;".toList := by
    rcases hc with rfl | rfl | rfl
    · decide
    · decide
    · decide
  obtain ⟨hamp, hlt, hgt, hquot⟩ := hentities
  unfold escapeChar at hmem
  split at hmem
  · exact hamp hmem
  · exact hlt hmem
  · exact hgt hmem
  · exact hquot hmem
  next _ hless hgreater hquote =>
    obtain rfl := List.mem_singleton.mp hmem
    exact hc.elim hless fun hc => hc.elim hgreater hquote

theorem escape_append (s t : String) : escape (s ++ t) = escape s ++ escape t := by
  rw [escape, escape, escape, String.toList_append, List.flatMap_append, String.ofList_append]

/-- Classes may be escaped one by one or all together, since the blanks between
them stay as they are. -/
theorem intercalate_map_escape (classes : List String) :
    " ".intercalate (classes.map escape) = escape (" ".intercalate classes) := by
  induction classes with
  | nil => rfl
  | cons first classes ih =>
    cases classes with
    | nil => simp
    | cons second classes =>
      rw [List.map_cons, List.map_cons, String.intercalate_cons_cons, ← List.map_cons, ih,
        String.intercalate_cons_cons, escape_append, escape_append]
      rfl

theorem classAttribute_of_ne_nil (h : classes ≠ []) : classAttribute classes =
    " class=\"" ++ escape (" ".intercalate classes) ++ "\"" := by
  rw [classAttribute, if_neg h, intercalate_map_escape]

theorem notMem_classAttribute (hc : c ∈ ['<', '>']) : c ∉ (classAttribute classes).toList := by
  by_cases h : classes = []
  · simp [classAttribute, h]
  · have hescaped : c ∉ (escape (" ".intercalate classes)).toList :=
      notMem_escape (List.mem_append_left ['"'] hc)
    have hwritten : c ∉ " class=\"".toList ∧ c ∉ "\"".toList := by
      rw [List.mem_cons, List.mem_singleton] at hc
      rcases hc with rfl | rfl
      · decide
      · decide
    obtain ⟨hfront, hback⟩ := hwritten
    rw [classAttribute_of_ne_nil h, String.toList_append, String.toList_append, List.mem_append,
      List.mem_append, not_or, not_or]
    exact ⟨⟨hfront, hescaped⟩, hback⟩

/-- A tag that can be read back from its text. Without classes there is no
double quote in it. With classes there are two, and between them stand the
classes. What stands before is the name. -/
def ReadsTag (text : List Char) (name : String) (classes : List String) (ending : String) :
    Prop :=
  if classes = [] then
    text.count '"' = 0 ∧ ∃ head, text = '<' :: head ++ ending.toList ∧ unescape head = name.toList
  else
    text.count '"' = 2 ∧ ∃ head value,
      text = '<' :: head ++ " class=".toList ++ '"' :: value ++ '"' :: ending.toList ∧
      unescape head = name.toList ∧ unescape value = (" ".intercalate classes).toList

theorem readsTag {ending : String} (hending : '"' ∉ ending.toList) :
    ReadsTag ("<" ++ escape name ++ classAttribute classes ++ ending).toList name classes
      ending := by
  have hname : (escape name).toList.count '"' = 0 :=
    List.count_eq_zero.mpr (notMem_escape (by decide))
  have hend : ending.toList.count '"' = 0 := List.count_eq_zero.mpr hending
  unfold ReadsTag
  by_cases h : classes = []
  · rw [if_pos h, h]
    refine ⟨?_, (escape name).toList, ?_, unescape_escape name⟩
    · simp [classAttribute, hname, hend]
    · simp [classAttribute]
  · have hvalue : (escape (" ".intercalate classes)).toList.count '"' = 0 :=
      List.count_eq_zero.mpr (notMem_escape (by decide))
    rw [if_neg h, classAttribute_of_ne_nil h]
    refine ⟨?_, (escape name).toList, (escape (" ".intercalate classes)).toList, ?_,
      unescape_escape name, unescape_escape _⟩
    · simp [hname, hend, hvalue]
    · simp

end DeferredMarkup.Html
