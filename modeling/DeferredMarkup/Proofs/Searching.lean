import DeferredMarkup.Proofs.Sentinels
import Mathlib.Data.List.Count

/-!
What the search for markings finds. It passes over the digits of an id, but
these hold no sentinel, so that every sentinel of a text is found, and what is
read there depends on what follows it alone. A text is that of a layout when an
id is read at every one of its sentinels.
-/
namespace DeferredMarkup

namespace Marking

/-- Every sentinel of a text that starts at `offset`, with what is read there. -/
def everyFrom (offset : Nat) : List Char → List Marking
  | [] => []
  | c :: rest =>
    if c = sentinel then ⟨offset, read rest⟩ :: everyFrom (offset + c.utf8Size) rest
    else everyFrom (offset + c.utf8Size) rest

variable {cs : List Char} {offset skip : Nat} {found : List Marking} {m : Marking}

/-- The characters over which the search passes are digits. -/
theorem sentinel_notMem_take (rest : List Char) : sentinel ∉ rest.take (read rest).length := by
  cases hread : read rest with
  | id id =>
    obtain ⟨digits, rest', rfl, hdigits⟩ := read_eq_id_iff.mp hread
    obtain ⟨hlen, hplain⟩ := MarkerId.spelling hdigits
    rw [Reading.length, List.take_left' hlen]
    intro hmem
    exact (hplain _ hmem).2 rfl
  | malformed digits => simp [Reading.length]
  | truncated => simp [Reading.length]

theorem collect_eq_everyFrom (h : sentinel ∉ cs.take skip) :
    collect offset found skip cs = found.reverse ++ everyFrom offset cs := by
  induction cs generalizing offset found skip with
  | nil => simp [collect, everyFrom]
  | cons c cs ih =>
    cases skip with
    | succ skip =>
      rw [List.take_succ_cons, List.mem_cons, not_or] at h
      rw [collect, ih h.2, everyFrom, if_neg (Ne.symm h.1)]
    | zero =>
      rw [collect, everyFrom]
      split
      · rw [ih (sentinel_notMem_take cs), List.reverse_cons, List.append_assoc]
        rfl
      · exact ih (by simp)

/-- The search finds every sentinel. -/
theorem ofText_eq_everyFrom (cs : List Char) : ofText cs = everyFrom 0 cs := by
  rw [ofText, collect_eq_everyFrom (by simp)]
  rfl

theorem mem_everyFrom_iff : m ∈ everyFrom offset cs ↔ ∃ before after,
    cs = before ++ sentinel :: after ∧ m = ⟨offset + String.utf8Len before, read after⟩ := by
  induction cs generalizing offset with
  | nil => simp [everyFrom]
  | cons c cs ih =>
    have hsplit : (∃ before after, c :: cs = before ++ sentinel :: after ∧
        m = ⟨offset + String.utf8Len before, read after⟩) ↔
          (c = sentinel ∧ m = ⟨offset, read cs⟩) ∨ m ∈ everyFrom (offset + c.utf8Size) cs := by
      have hbehind : ∀ before, offset + String.utf8Len (c :: before) =
          offset + c.utf8Size + String.utf8Len before := by
        intro before
        rw [String.utf8Len_cons]
        omega
      rw [ih]
      constructor
      · rintro ⟨before, after, hcs, hm⟩
        cases before with
        | nil =>
          cases hcs
          exact Or.inl ⟨rfl, hm⟩
        | cons c' before =>
          obtain ⟨rfl, rfl⟩ := List.cons.inj hcs
          exact Or.inr ⟨before, after, rfl, hbehind before ▸ hm⟩
      · rintro (⟨rfl, hm⟩ | ⟨before, after, rfl, hm⟩)
        · exact ⟨[], cs, rfl, hm⟩
        · exact ⟨c :: before, after, rfl, (hbehind before).symm ▸ hm⟩
    rw [hsplit, everyFrom]
    by_cases hc : c = sentinel
    · simp [hc]
    · simp [hc]

/-- The markings of a text are its sentinels, each read by what follows it. -/
theorem mem_ofText_iff : m ∈ ofText cs ↔ ∃ before after,
    cs = before ++ sentinel :: after ∧ m = ⟨String.utf8Len before, read after⟩ := by
  simp only [ofText_eq_everyFrom, mem_everyFrom_iff, Nat.zero_add]

theorem pairwise_everyFrom (offset : Nat) (cs : List Char) :
    (everyFrom offset cs).Pairwise (·.offset < ·.offset) := by
  induction cs generalizing offset with
  | nil => exact .nil
  | cons c cs ih =>
    rw [everyFrom]
    split
    · refine .cons ?_ (ih _)
      intro m hm
      obtain ⟨before, after, _, rfl⟩ := mem_everyFrom_iff.mp hm
      have hpos := c.utf8Size_pos
      show offset < offset + c.utf8Size + String.utf8Len before
      omega
    · exact ih _

/-- Markings come in the order in which they stand, no two at one place. -/
theorem pairwise_ofText (cs : List Char) : (ofText cs).Pairwise (·.offset < ·.offset) :=
  ofText_eq_everyFrom cs ▸ pairwise_everyFrom 0 cs

theorem length_everyFrom (offset : Nat) (cs : List Char) :
    (everyFrom offset cs).length = cs.count sentinel := by
  induction cs generalizing offset with
  | nil => rfl
  | cons c cs ih =>
    rw [everyFrom, List.count_cons]
    split
    next hc => simp [hc, ih]
    next hc => simp [hc, ih]

/-- What a text holds of the byte of a sentinel, it holds of the character. -/
theorem count_flatMap_utf8EncodeChar (cs : List Char) :
    (cs.flatMap String.utf8EncodeChar).count 0x1a = cs.count sentinel := by
  induction cs with
  | nil => rfl
  | cons c cs ih =>
    rw [List.flatMap_cons, List.count_append, ih, List.count_cons, Nat.add_comm]
    congr 1
    by_cases hc : c = sentinel
    · rw [hc]
      rfl
    · rw [List.count_eq_zero.mpr (mt sentinel_mem_utf8EncodeChar hc)]
      simp [hc]

/-- There is a marking for every byte of a sentinel. -/
theorem length_ofText (text : String) :
    (ofText text.toList).length = text.toUTF8.data.toList.count 0x1a := by
  rw [ofText_eq_everyFrom, length_everyFrom, toUTF8_data, count_flatMap_utf8EncodeChar]

end Marking

section

variable {text : String} {before after : List Char} {id : MarkerId} {l : Location}

/-- A placeholder stands at a sentinel where its id is read. -/
theorem standsIn_iff (htext : text.toList = before ++ sentinel :: after) :
    Location.StandsIn ⟨String.utf8Len before, id⟩ text ↔ Marking.read after = .id id := by
  constructor
  · intro h
    exact Marking.read_eq_id_iff.mpr (h.exists_digits htext rfl)
  · intro h
    obtain ⟨digits, rest, rfl, hdigits⟩ := Marking.read_eq_id_iff.mp h
    refine ⟨String.ofList before, digits, String.ofList rest, ?_, ?_, hdigits⟩
    · rw [← String.toList_inj, htext]
      simp
    · exact String.utf8ByteSize_ofList before

theorem Location.marking_mem_ofText_iff :
    l.marking ∈ Marking.ofText text.toList ↔ l.StandsIn text := by
  rw [Marking.mem_ofText_iff]
  constructor
  · rintro ⟨before, after, htext, hl⟩
    obtain ⟨hoffset, hread⟩ :
        l.offset = String.utf8Len before ∧ .id l.id = Marking.read after := by
      simpa [Location.marking] using hl
    have hstands := (standsIn_iff htext).mpr hread.symm
    rwa [← hoffset] at hstands
  · intro h
    obtain ⟨before, digits, after, htext, hoffset, hdigits⟩ := h.exists_split
    refine ⟨before, digits ++ after, htext, ?_⟩
    rw [Location.marking, hoffset, Marking.read_digits hdigits]

end

/-- A text at all of whose sentinels an id is read is that of a layout. -/
theorem exists_layout_of_read {cs : List Char}
    (h : ∀ before after, cs = before ++ sentinel :: after → ∃ id, Marking.read after = .id id) :
    ∃ d : Layout, d.text = String.ofList cs := by
  -- The next slot begins behind the digits of a placeholder, not at the next character.
  induction hn : cs.length using Nat.strong_induction_on generalizing cs with
  | h n ih =>
    subst hn
    cases cs with
    | nil => exact ⟨.ofLiteral "" (by simp), rfl⟩
    | cons c cs =>
      by_cases hc : c = sentinel
      · subst hc
        obtain ⟨id, hid⟩ := h [] cs rfl
        obtain ⟨digits, rest, rfl, hdigits⟩ := Marking.read_eq_id_iff.mp hid
        have hshorter : rest.length < (sentinel :: (digits ++ rest)).length := by
          rw [List.length_cons, List.length_append]
          omega
        have hrest : ∀ before after, rest = before ++ sentinel :: after →
            ∃ id, Marking.read after = .id id := by
          intro before after hsplit
          exact h (sentinel :: (digits ++ before)) after (by simp [hsplit])
        obtain ⟨d, hd⟩ := ih rest.length hshorter hrest rfl
        refine ⟨.ofDigits digits hdigits ++ d, ?_⟩
        rw [Layout.text_append, Layout.text_ofDigits, hd, ← String.ofList_append,
          List.cons_append]
      · have hrest : ∀ before after, cs = before ++ sentinel :: after →
            ∃ id, Marking.read after = .id id := by
          intro before after hsplit
          exact h (c :: before) after (by rw [hsplit]; rfl)
        obtain ⟨d, hd⟩ := ih cs.length (by simp) hrest rfl
        have hplain : sentinel ∉ (String.ofList [c]).toList := by
          simp [Ne.symm hc]
        refine ⟨.ofLiteral (String.ofList [c]) hplain ++ d, ?_⟩
        rw [Layout.text_append, Layout.text_ofLiteral, hd, ← String.ofList_append,
          List.singleton_append]

theorem exists_layout_of_ofText {text : String}
    (h : ∀ m ∈ Marking.ofText text.toList, ∃ id, m.reading = .id id) :
    ∃ d : Layout, d.text = text := by
  obtain ⟨d, hd⟩ := exists_layout_of_read fun before after htext =>
    h _ (Marking.mem_ofText_iff.mpr ⟨before, after, htext, rfl⟩)
  exact ⟨d, by rw [hd, String.ofList_toList]⟩

/-- When every sentinel of a text begins a placeholder, the text is that of a layout. -/
theorem exists_layout_of_standsIn {text : String}
    (h : ∀ offset, SentinelAt text offset → ∃ id, Location.StandsIn ⟨offset, id⟩ text) :
    ∃ d : Layout, d.text = text := by
  apply exists_layout_of_ofText
  intro m hm
  obtain ⟨before, after, htext, rfl⟩ := Marking.mem_ofText_iff.mp hm
  obtain ⟨id, hid⟩ := h _ (sentinelAt_iff.mpr ⟨before, after, htext, rfl⟩)
  exact ⟨id, (standsIn_iff htext).mp hid⟩

end DeferredMarkup
