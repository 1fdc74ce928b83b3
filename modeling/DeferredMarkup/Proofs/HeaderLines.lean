import DeferredMarkup.Page
import DeferredMarkup.Proofs.Stretches
import Mathlib.Data.List.Basic

/-!
Header lines read back. Every stylesheet and the target window have an element on
a line of its own, and no address brings a bracket, or the end of its attribute,
into it. Cutting the headers at their brackets gives the elements back, and from
each of these its number and address can be read. So settings with the same
headers ask for the same stylesheets and the same target window.
-/
namespace DeferredMarkup

section

variable {pieces : List (List Char)} {c : Char} {front value value' back back' rest : List Char}

/-- Bracketed pieces on lines of their own are cut out as they are. -/
theorem stretches_lines (h : ∀ piece ∈ pieces, Bracketed piece) :
    stretches (pieces.flatMap (· ++ ['\n'])) = pieces := by
  induction pieces with
  | nil => rfl
  | cons piece pieces ih =>
    obtain ⟨hpiece, hpieces⟩ := List.forall_mem_cons.mp h
    rw [List.flatMap_cons, List.append_assoc, hpiece.stretches, stretches_append (by decide),
      ih hpieces]

theorem count_greater_lines (h : ∀ piece ∈ pieces, Bracketed piece) :
    (pieces.flatMap (· ++ ['\n'])).count '>' = pieces.length := by
  induction pieces with
  | nil => rfl
  | cons piece pieces ih =>
    obtain ⟨hpiece, hpieces⟩ := List.forall_mem_cons.mp h
    have hline : (piece ++ ['\n']).count '>' = 1 := by
      simp [List.count_append, hpiece.count_greater]
    rw [List.flatMap_cons, List.count_append, hline, ih hpieces, List.length_cons, Nat.add_comm]

/-- A value in double quotes, with the text on either side. -/
def quoted (front value back : List Char) : List Char := front ++ '"' :: (value ++ '"' :: back)

/-- A value without double quotes ends at the next one. -/
theorem quoted_inj (h : '"' ∉ value) (h' : '"' ∉ value')
    (heq : quoted front value back = quoted front value' back') :
    value = value' ∧ back = back' := by
  have htext := (List.cons.inj (List.append_cancel_left heq)).2
  clear heq
  induction value generalizing value' with
  | nil =>
    cases value' with
    | nil => exact ⟨rfl, (List.cons.inj htext).2⟩
    | cons c value' => exact absurd (List.cons.inj htext).1 (List.ne_of_not_mem_cons h')
  | cons c value ih =>
    cases value' with
    | nil => exact absurd (List.cons.inj htext).1.symm (List.ne_of_not_mem_cons h)
    | cons c' value' =>
      obtain ⟨rfl, hrest⟩ := List.cons.inj htext
      obtain ⟨rfl, hback⟩ :=
        ih (List.not_mem_of_not_mem_cons h) (List.not_mem_of_not_mem_cons h') hrest
      exact ⟨rfl, hback⟩

theorem quoted_append :
    quoted front value back ++ rest = quoted front value (back ++ rest) := by
  simp only [quoted, List.append_assoc, List.cons_append]

theorem notMem_quoted (hc : c ≠ '"') (hfront : c ∉ front) (hvalue : c ∉ value)
    (hback : c ∉ back) :
    c ∉ quoted front value back := by
  simp only [quoted, List.mem_append, List.mem_cons, not_or]
  exact ⟨hfront, hc, hvalue, hc, hback⟩

/-- A text is bracketed by what opens the front and closes the back when there are
no other brackets in its parts. -/
theorem bracketed_quoted (hfront : ∀ c ∈ ['<', '>'], c ∉ front)
    (hvalue : ∀ c ∈ ['<', '>'], c ∉ value) (hback : ∀ c ∈ ['<', '>'], c ∉ back) :
    Bracketed (quoted ('<' :: front) value (back ++ ['>'])) := by
  have hnone : ∀ c ∈ ['<', '>'], c ∉ quoted front value back := by
    intro c hc
    have hquote : ∀ c ∈ ['<', '>'], c ≠ '"' := by simp
    exact notMem_quoted (hquote c hc) (hfront c hc) (hvalue c hc) (hback c hc)
  refine ⟨quoted front value back, ?_, hnone '<' (by decide), hnone '>' (by decide)⟩
  simp only [quoted, List.append_assoc, List.cons_append]

end

namespace Page

/-- A number in decimal, with zeros in front up to two digits. -/
def numeral (n : Nat) : List Char := (Nat.toDigits 10 n).leftpad 2 '0'

/-- A link under a number, with the value of its last attribute. -/
def linkElement (number : Nat) (value : List Char) : List Char :=
  quoted "<link id=".toList ("auto".toList ++ numeral number)
    (quoted " class=\"auto\" rel=\"stylesheet\" type=\"text/css\" href=".toList value
      " />".toList)

def baseElement (value : List Char) : List Char := quoted "<base target=".toList value ">".toList

/-- Whether an id can be read from an element, where it ends at the next double quote. -/
def ReadsId (element id : List Char) : Prop :=
  '"' ∉ id ∧ ∃ rest, element = quoted "<link id=".toList id rest

/-- Whether an element links a stylesheet under a number. Its address is what the
value stands for, which ends at the next double quote. -/
def ReadsLink (element : List Char) (number : Nat) (href : String) : Prop :=
  ∃ value, element = linkElement number value ∧ '"' ∉ value ∧ Html.unescape value = href.toList

/-- Whether an element names the target window. -/
def ReadsBase (element : List Char) (target : String) : Prop :=
  ∃ value, element = baseElement value ∧ '"' ∉ value ∧ Html.unescape value = target.toList

variable {s s' : Settings} {element id value : List Char} {n n' i j : Nat}
  {href href' target target' : String}

theorem ordinal_eq (n : Nat) : (ordinal n).toList = numeral n := by
  have hdigits : (toString n).toList = Nat.toDigits 10 n := by
    rw [Nat.toString_eq_repr, Nat.toList_repr]
  unfold ordinal numeral
  split
  next hn =>
    rw [String.toList_append, hdigits, Nat.toDigits_of_lt_base hn]
    rfl
  next hn =>
    have hlen : 2 ≤ (Nat.toDigits 10 n).length := by
      by_contra hshort
      have hbound : n < 10 ^ 1 :=
        (Nat.length_toDigits_le_iff (by omega) Nat.one_pos).mp (by omega)
      omega
    rw [hdigits, List.leftpad, Nat.sub_eq_zero_of_le hlen]
    rfl

/-- The zeros in front do not change the number. -/
theorem numeral_injective (h : numeral n = numeral n') : n = n' := by
  have hvalue : ∀ n, Nat.ofDigitChars 10 (numeral n) 0 = n := by
    intro n
    rw [numeral, List.leftpad, Nat.ofDigitChars_append, Nat.ofDigitChars_replicate_zero,
      Nat.mul_zero, Nat.ofDigitChars_toDigits (by omega) (by omega)]
  rw [← hvalue n, h, hvalue]

theorem notMem_numeral {c : Char} (h : c.isDigit = false) (n : Nat) : c ∉ numeral n := by
  rw [numeral, List.leftpad, List.mem_append, not_or]
  refine ⟨fun hzero => ?_, fun hdigit => ?_⟩
  · obtain rfl := List.eq_of_mem_replicate hzero
    exact absurd h (by decide)
  · have := Nat.isDigit_of_mem_toDigits (by omega) (by omega) hdigit
    rw [h] at this
    cases this

theorem quote_notMem_id (n : Nat) : '"' ∉ "auto".toList ++ numeral n := by
  rw [List.mem_append, not_or]
  exact ⟨by decide, notMem_numeral (by decide) n⟩

namespace ReadsLink

/-- One number and one address can be read from an element. -/
theorem unique (h : ReadsLink element n href) (h' : ReadsLink element n' href') :
    n = n' ∧ href = href' := by
  obtain ⟨value, rfl, hquote, hvalue⟩ := h
  obtain ⟨value', heq, hquote', hvalue'⟩ := h'
  obtain ⟨hid, hrest⟩ := quoted_inj (quote_notMem_id n) (quote_notMem_id n') heq
  obtain ⟨rfl, _⟩ := quoted_inj hquote hquote' hrest
  exact ⟨numeral_injective (List.append_cancel_left hid),
    String.toList_inj.mp (hvalue.symm.trans hvalue')⟩

theorem not_base (h : ReadsLink element n href) : ¬ ReadsBase element target := by
  rintro ⟨value', hbase, _⟩
  obtain ⟨value, rfl, _⟩ := h
  cases hbase

theorem readsId_iff (h : ReadsLink element n href) :
    ReadsId element id ↔ id = "auto".toList ++ numeral n := by
  obtain ⟨value, rfl, _⟩ := h
  constructor
  · rintro ⟨hid, rest, heq⟩
    exact (quoted_inj (quote_notMem_id n) hid heq).1.symm
  · rintro rfl
    exact ⟨quote_notMem_id n, _, rfl⟩

end ReadsLink

namespace ReadsBase

theorem unique (h : ReadsBase element target) (h' : ReadsBase element target') :
    target = target' := by
  obtain ⟨value, rfl, hquote, hvalue⟩ := h
  obtain ⟨value', heq, hquote', hvalue'⟩ := h'
  obtain ⟨rfl, _⟩ := quoted_inj hquote hquote' heq
  exact String.toList_inj.mp (hvalue.symm.trans hvalue')

theorem not_readsId (h : ReadsBase element target) : ¬ ReadsId element id := by
  rintro ⟨_, rest, hlink⟩
  obtain ⟨value, rfl, _⟩ := h
  cases hlink

end ReadsBase

theorem bracketed_linkElement (n : Nat) (h : ∀ c ∈ ['<', '>'], c ∉ value) :
    Bracketed (linkElement n value) := by
  have hid : ∀ c ∈ ['<', '>'], c ∉ "auto".toList ++ numeral n := by
    intro c hc
    have hplain : ∀ c ∈ ['<', '>'], c ∉ "auto".toList ∧ c.isDigit = false := by simp
    rw [List.mem_append, not_or]
    exact ⟨(hplain c hc).1, notMem_numeral (hplain c hc).2 n⟩
  have hattributes : ∀ c ∈ ['<', '>'], c ∉ quoted
      " class=\"auto\" rel=\"stylesheet\" type=\"text/css\" href=".toList value " /".toList := by
    intro c hc
    have hplain : ∀ c ∈ ['<', '>'], c ≠ '"' ∧ c ∉ " /".toList ∧
        c ∉ " class=\"auto\" rel=\"stylesheet\" type=\"text/css\" href=".toList := by simp
    obtain ⟨hquote, hback, hfront⟩ := hplain c hc
    exact notMem_quoted hquote hfront (h c hc) hback
  have hopens : "<link id=".toList = '<' :: "link id=".toList := rfl
  have hcloses : " />".toList = " /".toList ++ ['>'] := rfl
  have hlink : ∀ c ∈ ['<', '>'], c ∉ "link id=".toList := by simp
  have hbracketed := bracketed_quoted hlink hid hattributes
  rwa [quoted_append, ← hopens, ← hcloses] at hbracketed

theorem bracketed_baseElement (h : ∀ c ∈ ['<', '>'], c ∉ value) :
    Bracketed (baseElement value) := by
  have hfront : ∀ c ∈ ['<', '>'], c ∉ "base target=".toList := by simp
  have hback : ∀ c ∈ ['<', '>'], c ∉ ([] : List Char) := fun _ _ => List.not_mem_nil
  exact bracketed_quoted hfront h hback

theorem stylesheetLine_eq (index : Nat) (href : String) : (stylesheetLine index href).toList =
    linkElement (index + 1) (Html.escape href).toList ++ ['\n'] := by
  have hfront : "<link id=\"auto".toList = "<link id=".toList ++ '"' :: "auto".toList := rfl
  have hmiddle : "\" class=\"auto\" rel=\"stylesheet\" type=\"text/css\" href=\"".toList =
      '"' :: (" class=\"auto\" rel=\"stylesheet\" type=\"text/css\" href=".toList ++ ['"']) := by
    simp
  have hback : "\" />\n".toList = '"' :: (" />".toList ++ ['\n']) := rfl
  have hparts : ∀ front auto digits middle value back : List Char,
      front ++ '"' :: auto ++ digits ++ '"' :: (middle ++ ['"']) ++ value ++
          '"' :: (back ++ ['\n']) =
        quoted front (auto ++ digits) (quoted middle value back) ++ ['\n'] := by
    simp [quoted]
  unfold stylesheetLine
  rw [String.toList_append, String.toList_append, String.toList_append, String.toList_append,
    ordinal_eq, hfront, hmiddle, hback]
  exact hparts ..

theorem targetLine_eq (target : String) :
    (targetLine target).toList = baseElement (Html.escape target).toList ++ ['\n'] := by
  have hfront : "<base target=\"".toList = "<base target=".toList ++ ['"'] := rfl
  have hback : "\">\n".toList = '"' :: (">".toList ++ ['\n']) := rfl
  have hparts : ∀ front value back : List Char,
      front ++ ['"'] ++ value ++ '"' :: (back ++ ['\n']) = quoted front value back ++ ['\n'] := by
    simp [quoted]
  unfold targetLine
  rw [String.toList_append, String.toList_append, hfront, hback]
  exact hparts ..

/-- The elements that settings ask for. -/
def elements (s : Settings) : List (List Char) :=
  s.stylesheets.mapIdx (fun index href => linkElement (index + 1) (Html.escape href).toList) ++
    s.targetWindow.toList.map fun target => baseElement (Html.escape target).toList

theorem headers_eq (s : Settings) :
    (headers s).toList = (elements s).flatMap (· ++ ['\n']) := by
  have hlines : (s.stylesheets.mapIdx stylesheetLine).map String.toList =
      (s.stylesheets.mapIdx fun index href =>
        linkElement (index + 1) (Html.escape href).toList).map (· ++ ['\n']) := by
    apply List.ext_getElem
    · simp
    · intro i _ _
      simp only [List.getElem_map, List.getElem_mapIdx, stylesheetLine_eq]
  have htarget : ((s.targetWindow.map targetLine).getD "").toList =
      (s.targetWindow.toList.map fun target =>
        baseElement (Html.escape target).toList).flatMap (· ++ ['\n']) := by
    cases s.targetWindow with
    | none => rfl
    | some target =>
      simp only [Option.map_some, Option.getD_some, targetLine_eq, Option.toList_some,
        List.map_cons, List.map_nil, List.flatMap_singleton]
  rw [headers, String.toList_append, String.toList_join, List.flatMap_def, hlines,
    ← List.flatMap_def, htarget, elements, List.flatMap_append]

/-- No address brings a bracket into its element. -/
theorem bracketed_of_mem_elements (h : element ∈ elements s) : Bracketed element := by
  have hnone : ∀ address : String, ∀ c ∈ ['<', '>'], c ∉ (Html.escape address).toList :=
    fun address c hc => Html.notMem_escape (List.mem_append_left ['"'] hc)
  rcases List.mem_append.mp h with hlink | hbase
  · obtain ⟨index, _, rfl⟩ := List.exists_of_mem_mapIdx hlink
    exact bracketed_linkElement _ (hnone _)
  · obtain ⟨target, _, rfl⟩ := List.mem_map.mp hbase
    exact bracketed_baseElement (hnone target)

theorem stretches_headers (s : Settings) : stretches (headers s).toList = elements s := by
  rw [headers_eq, stretches_lines fun _ => bracketed_of_mem_elements]

theorem readsLink_linkElement (n : Nat) (href : String) :
    ReadsLink (linkElement n (Html.escape href).toList) n href :=
  ⟨_, rfl, Html.notMem_escape (by decide), Html.unescape_escape href⟩

theorem readsBase_baseElement (target : String) :
    ReadsBase (baseElement (Html.escape target).toList) target :=
  ⟨_, rfl, Html.notMem_escape (by decide), Html.unescape_escape target⟩

/-- An element links the stylesheet at its place, or names the target window behind
all stylesheets. -/
theorem reads_of_getElem? (h : (elements s)[i]? = some element) :
    (∃ href, s.stylesheets[i]? = some href ∧ ReadsLink element (i + 1) href) ∨
      (s.stylesheets.length ≤ i ∧
        ∃ target, s.targetWindow = some target ∧ ReadsBase element target) := by
  rw [elements, List.getElem?_append, List.length_mapIdx] at h
  split at h
  · rw [List.getElem?_mapIdx, Option.map_eq_some_iff] at h
    obtain ⟨href, hhref, rfl⟩ := h
    exact Or.inl ⟨href, hhref, readsLink_linkElement (i + 1) href⟩
  next hi =>
    obtain ⟨target, htarget, rfl⟩ := List.mem_map.mp (List.mem_of_getElem? h)
    exact Or.inr ⟨by omega, target, Option.mem_toList.mp htarget, readsBase_baseElement target⟩

theorem stylesheets_getElem?_iff : s.stylesheets[i]? = some href ↔
    ∃ element, (elements s)[i]? = some element ∧ ReadsLink element (i + 1) href := by
  constructor
  · intro h
    have hi := (List.getElem?_eq_some_iff.mp h).1
    refine ⟨_, ?_, readsLink_linkElement (i + 1) href⟩
    rw [elements, List.getElem?_append_left (by rwa [List.length_mapIdx]),
      List.getElem?_mapIdx, h]
    rfl
  · rintro ⟨element, helement, hlink⟩
    rcases reads_of_getElem? helement with ⟨href', hhref', hlink'⟩ | ⟨_, target, _, hbase⟩
    · rw [hhref', (hlink.unique hlink').2]
    · exact absurd hbase hlink.not_base

theorem targetWindow_eq_some_iff : s.targetWindow = some target ↔
    ∃ element, (elements s).getLast? = some element ∧ ReadsBase element target := by
  constructor
  · intro h
    refine ⟨_, ?_, readsBase_baseElement target⟩
    rw [elements, h]
    exact List.getLast?_concat
  · rintro ⟨element, hlast, hbase⟩
    obtain ⟨i, hi⟩ := List.mem_iff_getElem?.mp (List.mem_of_getLast? hlast)
    rcases reads_of_getElem? hi with ⟨href, _, hlink⟩ | ⟨_, target', htarget', hbase'⟩
    · exact absurd hbase hlink.not_base
    · rw [htarget', hbase.unique hbase']

/-- Only links have ids, made from their numbers. -/
theorem readsId_iff (h : (elements s)[i]? = some element) :
    ReadsId element id ↔ i < s.stylesheets.length ∧ id = "auto".toList ++ numeral (i + 1) := by
  rcases reads_of_getElem? h with ⟨href, hhref, hlink⟩ | ⟨hi, target, _, hbase⟩
  · rw [hlink.readsId_iff, and_iff_right (List.getElem?_eq_some_iff.mp hhref).1]
  · exact iff_of_false hbase.not_readsId (by omega)

/-- The headers consist of the elements that the settings ask for, each on a line of
its own, and the elements are what stands between their brackets. The link in
every place has the id with its number, which no other element has, and the address
of the stylesheet in that place. The target window, if there is one, is named in
the last element. So no other stylesheets or target window have the same headers. -/
theorem headers_read_back (s : Settings) :
    let block := (headers s).toList
    let elements := stretches block
    let number := s.stylesheets.length + if s.targetWindow.isSome then 1 else 0
    block = elements.flatMap (· ++ ['\n']) ∧
    block.count '<' = number ∧ block.count '>' = number ∧
    (∀ i href, s.stylesheets[i]? = some href ↔
      ∃ element, elements[i]? = some element ∧ ReadsLink element (i + 1) href) ∧
    (∀ i element id, elements[i]? = some element →
      (ReadsId element id ↔ i < s.stylesheets.length ∧ id = "auto".toList ++ numeral (i + 1))) ∧
    (∀ (i j : Nat) element element' id,
      elements[i]? = some element → elements[j]? = some element' →
      ReadsId element id → ReadsId element' id → i = j) ∧
    (∀ target, s.targetWindow = some target ↔
      ∃ element, elements.getLast? = some element ∧ ReadsBase element target) ∧
    ∀ s', headers s' = headers s →
      s'.stylesheets = s.stylesheets ∧ s'.targetWindow = s.targetWindow := by
  intro block elements number
  have helements : elements = Page.elements s := stretches_headers s
  have hnumber : elements.length = number := by
    rw [helements, Page.elements, List.length_append, List.length_mapIdx, List.length_map]
    cases hwindow : s.targetWindow with
    | none => simp [number, hwindow]
    | some target => simp [number, hwindow]
  have hblock : block = elements.flatMap (· ++ ['\n']) := by
    rw [helements]
    exact headers_eq s
  have hless : block.count '<' = number := by rw [← length_stretches, ← hnumber]
  have hgreater : block.count '>' = number := by
    rw [hblock, count_greater_lines (helements ▸ fun _ => bracketed_of_mem_elements), hnumber]
  refine ⟨hblock, hless, hgreater, ?_⟩
  rw [helements]
  refine ⟨fun i href => stylesheets_getElem?_iff, fun i element id => readsId_iff, ?_,
    fun target => targetWindow_eq_some_iff, ?_⟩
  · intro i j element element' id hi hj hid hid'
    obtain ⟨_, rfl⟩ := (readsId_iff hi).mp hid
    obtain ⟨_, hsame⟩ := (readsId_iff hj).mp hid'
    have := numeral_injective (List.append_cancel_left hsame)
    omega
  · intro s' hsame
    have hsame' : Page.elements s' = Page.elements s := by
      rw [← stretches_headers, ← stretches_headers, hsame]
    constructor
    · apply List.ext_getElem?
      intro i
      apply Option.ext
      intro href
      rw [stylesheets_getElem?_iff, stylesheets_getElem?_iff, hsame']
    · apply Option.ext
      intro target
      rw [targetWindow_eq_some_iff, targetWindow_eq_some_iff, hsame']

/-- An address that looks like the end of its line and the beginning of another. -/
theorem headers_read_back_quoted :
    ∃ (s s' : Settings) (element element' : List Char),
      s = ⟨["a.css", "b\" />\n<link id=\"auto03"], some "_top", "\n"⟩ ∧
      s' = { s with lineEnding := "\r\n" } ∧ (headers s).toList.count '<' = 3 ∧
      (stretches (headers s).toList)[0]? = some element ∧
      (stretches (headers s).toList)[1]? = some element' ∧
      ReadsLink element' 2 "b\" />\n<link id=\"auto03" ∧
      (¬ ∃ id, ReadsId element id ∧ ReadsId element' id) ∧
      headers s' = headers s ∧ s'.stylesheets = s.stylesheets := by
  let s : Settings := ⟨["a.css", "b\" />\n<link id=\"auto03"], some "_top", "\n"⟩
  obtain ⟨_, hless, _, hlinks, _, hids, _, hsame⟩ := headers_read_back s
  obtain ⟨element, hfirst, _⟩ := (hlinks 0 "a.css").mp rfl
  obtain ⟨element', hsecond, hreads⟩ := (hlinks 1 "b\" />\n<link id=\"auto03").mp rfl
  refine ⟨s, { s with lineEnding := "\r\n" }, element, element', rfl, rfl, hless, hfirst, hsecond,
    hreads, ?_, rfl, (hsame { s with lineEnding := "\r\n" } rfl).1⟩
  rintro ⟨id, hid, hid'⟩
  exact absurd (hids 0 1 element element' id hfirst hsecond hid hid') (by decide)

end Page

end DeferredMarkup
