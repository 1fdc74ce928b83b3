import DeferredMarkup.Proofs.Joining

/-!
Where sentinels stand in a text. A byte is that of a sentinel only where the
sentinel character stands, since the bytes of all longer characters are 128 or
more. In the text of a layout sentinels stand at the placeholders of the slots
and nowhere else.
-/
namespace DeferredMarkup

/-- The byte at an offset is that of a sentinel. -/
def SentinelAt (text : String) (offset : Nat) : Prop := text.toUTF8[offset]? = some 0x1a

/-- A placeholder of the id, with digits of either case, stands at the offset. -/
def Location.StandsIn (l : Location) (text : String) : Prop :=
  ∃ before digits after, text = before ++ String.ofList (sentinel :: digits) ++ after ∧
    before.utf8ByteSize = l.offset ∧ digits.map Char.toUpper = l.id.hex

section

variable {cs rest before after : List Char} {text : String} {offset : Nat} {l l' : Location}

theorem sentinel_mem_utf8EncodeChar {c : Char} (h : 0x1a ∈ String.utf8EncodeChar c) :
    c = sentinel := by
  have hval : c.val.toNat = c.toNat := rfl
  have hbyte : ∀ n : Nat, (0x1a : UInt8) = .ofNat n ↔ 26 = n % 256 := by
    intro n
    rw [← UInt8.toNat_inj, UInt8.toNat_ofNat']
    rfl
  have htoNat : c.toNat = 26 := by
    unfold String.utf8EncodeChar at h
    simp only [hval] at h
    split at h
    · simp only [List.mem_cons, List.not_mem_nil, or_false, hbyte] at h
      omega
    · split at h
      · simp only [List.mem_cons, List.not_mem_nil, or_false, hbyte] at h
        omega
      · split at h
        · simp only [List.mem_cons, List.not_mem_nil, or_false, hbyte] at h
          omega
        · simp only [List.mem_cons, List.not_mem_nil, or_false, hbyte] at h
          omega
  exact Char.toNat_inj.mp (htoNat.trans (by decide))

theorem length_flatMap_utf8EncodeChar (cs : List Char) :
    (cs.flatMap String.utf8EncodeChar).length = String.utf8Len cs := by
  induction cs with
  | nil => rfl
  | cons c cs ih =>
    rw [List.flatMap_cons, List.length_append, String.length_utf8EncodeChar, ih,
      String.utf8Len_cons, Nat.add_comm]

private theorem getElem?_flatMap_utf8EncodeChar :
    (cs.flatMap String.utf8EncodeChar)[offset]? = some 0x1a ↔
      ∃ before after, cs = before ++ sentinel :: after ∧ String.utf8Len before = offset := by
  constructor
  · intro h
    induction cs generalizing offset with
    | nil => simp at h
    | cons c cs ih =>
      rw [List.flatMap_cons] at h
      by_cases hlt : offset < (String.utf8EncodeChar c).length
      · rw [List.getElem?_append_left hlt] at h
        obtain rfl := sentinel_mem_utf8EncodeChar (List.mem_of_getElem? h)
        have hone : (String.utf8EncodeChar sentinel).length = 1 := rfl
        exact ⟨[], cs, rfl, by rw [String.utf8Len_nil]; omega⟩
      · rw [List.getElem?_append_right (by omega)] at h
        obtain ⟨before, after, rfl, hlen⟩ := ih h
        rw [String.length_utf8EncodeChar] at hlen hlt
        exact ⟨c :: before, after, rfl, by rw [String.utf8Len_cons]; omega⟩
  · intro h
    obtain ⟨before, after, rfl, rfl⟩ := h
    rw [List.flatMap_append, ← length_flatMap_utf8EncodeChar,
      List.getElem?_append_right (Nat.le_refl _), Nat.sub_self]
    rfl

theorem toUTF8_data (text : String) :
    text.toUTF8.data = (text.toList.flatMap String.utf8EncodeChar).toArray := by
  have hbytes : text.toUTF8 = (text.toList.flatMap String.utf8EncodeChar).toByteArray := by
    rw [String.toUTF8_eq_toByteArray, ← String.utf8Encode_toList]
    rfl
  rw [hbytes, List.data_toByteArray]

/-- The byte of a sentinel is found where the character stands. -/
theorem sentinelAt_iff : SentinelAt text offset ↔
    ∃ before after, text.toList = before ++ sentinel :: after ∧
      String.utf8Len before = offset := by
  rw [← getElem?_flatMap_utf8EncodeChar, SentinelAt]
  show text.toUTF8.data[offset]? = _ ↔ _
  rw [toUTF8_data, List.getElem?_toArray]

theorem SentinelAt.lt_utf8ByteSize {text : String} {offset : Nat} (h : SentinelAt text offset) :
    offset < text.utf8ByteSize := by
  obtain ⟨before, after, htext, rfl⟩ := sentinelAt_iff.mp h
  have hsentinel : sentinel.utf8Size = 1 := rfl
  rw [← String.utf8Len_toList, htext, String.utf8Len_append, String.utf8Len_cons, hsentinel]
  omega

/-- Behind a piece without sentinels, those of a text are those of its rest. -/
theorem split_behind_plain (hplain : sentinel ∉ cs)
    (h : cs ++ rest = before ++ sentinel :: after) :
    ∃ before', before = cs ++ before' ∧ rest = before' ++ sentinel :: after := by
  rcases List.append_eq_append_iff.mp h with ⟨before', hbefore, hrest⟩ | ⟨cs', hcs, hafter⟩
  · exact ⟨before', hbefore, hrest⟩
  · cases cs' with
    | nil => exact ⟨[], by simpa using hcs.symm, by simpa using hafter.symm⟩
    | cons c cs' =>
      rw [List.cons_append, List.cons.injEq] at hafter
      refine absurd ?_ hplain
      rw [hcs, ← hafter.1]
      simp

/-- Pieces of equal size at the front of a text are the same. -/
theorem append_inj_of_utf8Len {cs' rest' : List Char} (h : cs ++ rest = cs' ++ rest')
    (hsize : String.utf8Len cs = String.utf8Len cs') : cs = cs' ∧ rest = rest' := by
  have hsame : cs = cs' := by
    rcases List.append_eq_append_iff.mp h with ⟨between, hcs, _⟩ | ⟨between, hcs, _⟩
    · rw [hcs, String.utf8Len_append] at hsize
      rw [hcs, String.utf8Len_eq_zero.mp (by omega : String.utf8Len between = 0), List.append_nil]
    · rw [hcs, String.utf8Len_append] at hsize
      rw [hcs, String.utf8Len_eq_zero.mp (by omega : String.utf8Len between = 0), List.append_nil]
  rw [hsame] at h
  exact ⟨hsame, List.append_cancel_left h⟩

namespace Location

theorem StandsIn.exists_split (h : l.StandsIn text) :
    ∃ before digits after, text.toList = before ++ sentinel :: (digits ++ after) ∧
      String.utf8Len before = l.offset ∧ digits.map Char.toUpper = l.id.hex := by
  obtain ⟨before, digits, after, rfl, hoffset, hdigits⟩ := h
  refine ⟨before.toList, digits, after.toList, by simp, ?_, hdigits⟩
  rw [String.utf8Len_toList, hoffset]

theorem StandsIn.sentinelAt (h : l.StandsIn text) : SentinelAt text l.offset := by
  obtain ⟨before, digits, after, htext, hoffset, _⟩ := h.exists_split
  exact sentinelAt_iff.mpr ⟨before, digits ++ after, htext, hoffset⟩

/-- What follows the sentinel of a placeholder are the digits of its id. -/
theorem StandsIn.exists_digits (h : l.StandsIn text)
    (htext : text.toList = before ++ sentinel :: after)
    (hoffset : String.utf8Len before = l.offset) :
    ∃ digits rest, after = digits ++ rest ∧ digits.map Char.toUpper = l.id.hex := by
  obtain ⟨before', digits, rest, htext', hoffset', hdigits⟩ := h.exists_split
  obtain ⟨_, hrest⟩ :=
    append_inj_of_utf8Len (htext.symm.trans htext') (hoffset.trans hoffset'.symm)
  exact ⟨digits, rest, (List.cons.inj hrest).2, hdigits⟩

/-- One placeholder at most stands at an offset. -/
theorem StandsIn.unique (h : l.StandsIn text) (h' : l'.StandsIn text)
    (hoffset : l.offset = l'.offset) : l = l' := by
  obtain ⟨before, digits, after, htext, hbefore, hdigits⟩ := h.exists_split
  obtain ⟨digits', after', hafter, hdigits'⟩ :=
    h'.exists_digits htext (hbefore.trans hoffset)
  have hlen : digits.length = digits'.length :=
    (MarkerId.spelling hdigits).1.trans (MarkerId.spelling hdigits').1.symm
  obtain ⟨rfl, _⟩ := List.append_inj hafter hlen
  have hid := MarkerId.eq_of_spelled hdigits hdigits'
  cases l
  cases l'
  simp_all only

end Location

end

theorem standsIn_of_mem_locationsFrom {slots : List Slot} {lead : String} {l : Location}
    (h : l ∈ locationsFrom lead.utf8ByteSize slots) :
    l.StandsIn (lead ++ fill slots (slots.map Slot.placeholder)) := by
  induction slots generalizing lead with
  | nil => simp [locationsFrom] at h
  | cons slot slots ih =>
    rcases List.mem_cons.mp h with rfl | h
    · refine ⟨lead, slot.digits, slot.literal ++ fill slots (slots.map Slot.placeholder), ?_, rfl,
        slot.spelled⟩
      simp [fill, Slot.placeholder, String.append_assoc]
    · have hlead : lead.utf8ByteSize + Placeholder.width + slot.literal.utf8ByteSize =
          (lead ++ slot.placeholder ++ slot.literal).utf8ByteSize := by
        simp [String.utf8ByteSize_append]
      rw [hlead] at h
      have := ih h
      simp only [List.map_cons, fill, String.append_assoc] at this ⊢
      exact this

theorem exists_location_of_split {slots : List Slot} {offset : Nat} {before after : List Char}
    (h : (fill slots (slots.map Slot.placeholder)).toList = before ++ sentinel :: after) :
    ∃ l ∈ locationsFrom offset slots, l.offset = offset + String.utf8Len before := by
  induction slots generalizing offset before with
  | nil => simp [fill] at h
  | cons slot slots ih =>
    have hplain : sentinel ∉ slot.digits ++ slot.literal.toList := by
      rw [List.mem_append, not_or]
      refine ⟨?_, slot.plain⟩
      intro hmem
      exact ((MarkerId.spelling slot.spelled).2 _ hmem).2 rfl
    have htext : (fill (slot :: slots) ((slot :: slots).map Slot.placeholder)).toList =
        sentinel :: ((slot.digits ++ slot.literal.toList) ++
          (fill slots (slots.map Slot.placeholder)).toList) := by
      simp [fill, Slot.placeholder]
    rw [htext] at h
    cases before with
    | nil => exact ⟨_, List.mem_cons_self, rfl⟩
    | cons c before =>
      rw [List.cons_append, List.cons.injEq] at h
      obtain ⟨rfl, h⟩ := h
      obtain ⟨before, rfl, hrest⟩ := split_behind_plain hplain h
      obtain ⟨l, hl, hoffset⟩ := ih hrest
      refine ⟨l, List.mem_cons_of_mem _ hl, ?_⟩
      have hsentinel : sentinel.utf8Size = 1 := rfl
      rw [hoffset, String.utf8Len_cons, String.utf8Len_append, String.utf8Len_append,
        MarkerId.utf8Len_digits slot.spelled, String.utf8Len_toList, hsentinel, Placeholder.width]
      omega

namespace Layout

variable {d : Layout} {l : Location} {offset : Nat}

/-- Sentinels stand at the placeholders of a layout alone. -/
theorem sentinelAt_text_iff :
    SentinelAt d.text offset ↔ ∃ l ∈ d.locations, l.offset = offset := by
  constructor
  · intro h
    obtain ⟨before, after, htext, rfl⟩ := sentinelAt_iff.mp h
    unfold text render at htext
    rw [String.toList_append] at htext
    obtain ⟨before, rfl, hrest⟩ := split_behind_plain d.plain htext
    rw [String.utf8Len_append, String.utf8Len_toList]
    exact exists_location_of_split hrest
  · intro h
    obtain ⟨l, hl, rfl⟩ := h
    exact (standsIn_of_mem_locationsFrom hl).sentinelAt

/-- The placeholders of a layout are those that stand in its text. -/
theorem standsIn_text_iff : l.StandsIn d.text ↔ l ∈ d.locations := by
  constructor
  · intro h
    obtain ⟨l', hl', hoffset⟩ := sentinelAt_text_iff.mp h.sentinelAt
    exact h.unique (standsIn_of_mem_locationsFrom hl') hoffset.symm ▸ hl'
  · exact standsIn_of_mem_locationsFrom

end Layout

end DeferredMarkup
