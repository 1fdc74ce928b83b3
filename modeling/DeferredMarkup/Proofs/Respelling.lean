import DeferredMarkup.Proofs.Sentinels

/-!
Texts that differ in ids. The placeholders of the one text have other ids than
those of the other, and their digits may be capital or small letters in either,
up to the first sentinel that begins no placeholder. Both texts have the same
bytes outside of the digits, so that their markings stand at the same offsets,
and when the one is the text of a layout, so is the other.
-/
namespace DeferredMarkup

variable {π : MarkerId → MarkerId}

/-- The text with other ids in its placeholders, written in letters of either
case. Behind a sentinel that begins no placeholder nothing is changed. -/
inductive Respelled (π : MarkerId → MarkerId) : List Char → List Char → Prop
  | nil : Respelled π [] []
  | literal {cs cs' : List Char} (c : Char) (plain : c ≠ sentinel) (rest : Respelled π cs cs') :
      Respelled π (c :: cs) (c :: cs')
  | placeholder {cs cs' : List Char} (id : MarkerId) (digits digits' : List Char)
      (spelled : digits.map Char.toUpper = id.hex)
      (spelled' : digits'.map Char.toUpper = (π id).hex) (rest : Respelled π cs cs') :
      Respelled π (sentinel :: (digits ++ cs)) (sentinel :: (digits' ++ cs'))
  | broken (cs : List Char)
      (noId : ∀ (id : MarkerId) digits rest, cs = digits ++ rest →
        digits.map Char.toUpper ≠ id.hex) :
      Respelled π (sentinel :: cs) (sentinel :: cs)

/-- The location of a placeholder with another id. -/
def Location.rename (π : MarkerId → MarkerId) (l : Location) : Location := ⟨l.offset, π l.id⟩

@[simp] theorem Location.id_rename (l : Location) : (l.rename π).id = π l.id := rfl

namespace Respelled

variable {cs cs' digits rest : List Char} {id : MarkerId}

/-- The digits of placeholders take up four bytes each. -/
theorem utf8Len_eq (h : Respelled π cs cs') : String.utf8Len cs' = String.utf8Len cs := by
  induction h with
  | nil => rfl
  | literal c _ _ ih => rw [String.utf8Len_cons, String.utf8Len_cons, ih]
  | placeholder id digits digits' spelled spelled' _ ih =>
    rw [String.utf8Len_cons, String.utf8Len_cons, String.utf8Len_append, String.utf8Len_append,
      MarkerId.utf8Len_digits spelled, MarkerId.utf8Len_digits spelled', ih]
  | broken => rfl

theorem utf8ByteSize_eq {text text' : String} (h : Respelled π text.toList text'.toList) :
    text'.utf8ByteSize = text.utf8ByteSize := by
  rw [← String.utf8Len_toList, ← String.utf8Len_toList, h.utf8Len_eq]

/-- Any text can be written with other ids. -/
theorem exists_respelled (π : MarkerId → MarkerId) (cs : List Char) :
    ∃ cs', Respelled π cs cs' := by
  -- Behind a placeholder the rest begins after its digits.
  induction hn : cs.length using Nat.strong_induction_on generalizing cs with
  | h n ih =>
    subst hn
    cases cs with
    | nil => exact ⟨[], .nil⟩
    | cons c cs =>
      by_cases hc : c = sentinel
      · subst hc
        by_cases hid : ∃ (id : MarkerId) (digits rest : List Char),
            cs = digits ++ rest ∧ digits.map Char.toUpper = id.hex
        · obtain ⟨id, digits, rest, rfl, hdigits⟩ := hid
          have hshorter : rest.length < (sentinel :: (digits ++ rest)).length := by
            rw [List.length_cons, List.length_append]
            omega
          obtain ⟨rest', hrest⟩ := ih rest.length hshorter rest rfl
          exact ⟨_, .placeholder id digits (π id).hex hdigits (MarkerId.map_toUpper_hex _) hrest⟩
        · refine ⟨_, .broken cs ?_⟩
          intro id digits rest hcs hdigits
          exact hid ⟨id, digits, rest, hcs, hdigits⟩
      · obtain ⟨cs', hcs⟩ := ih cs.length (by simp) cs rfl
        exact ⟨_, .literal c hc hcs⟩

/-- A piece without sentinels stays as it is. -/
theorem exists_of_plain (hplain : sentinel ∉ digits) (h : Respelled π (digits ++ rest) cs') :
    ∃ rest', cs' = digits ++ rest' ∧ Respelled π rest rest' := by
  induction digits generalizing cs' with
  | nil => exact ⟨cs', rfl, h⟩
  | cons c digits ih =>
    rw [List.mem_cons, not_or] at hplain
    generalize htext : c :: digits ++ rest = text at h
    cases h with
    | nil => cases htext
    | literal c' _ hrest =>
      cases htext
      obtain ⟨rest', rfl, h⟩ := ih hplain.2 hrest
      exact ⟨rest', rfl, h⟩
    | placeholder id _ _ _ _ _ =>
      rw [List.cons_append, List.cons.injEq] at htext
      exact absurd htext.1.symm hplain.1
    | broken _ _ =>
      rw [List.cons_append, List.cons.injEq] at htext
      exact absurd htext.1.symm hplain.1

/-- The digits of a placeholder give way to those of its other id. -/
theorem exists_of_spelled (hdigits : digits.map Char.toUpper = id.hex)
    (h : Respelled π (sentinel :: (digits ++ rest)) cs') :
    ∃ digits' rest', cs' = sentinel :: (digits' ++ rest') ∧
      digits'.map Char.toUpper = (π id).hex ∧ Respelled π rest rest' := by
  generalize htext : sentinel :: (digits ++ rest) = text at h
  cases h with
  | nil => cases htext
  | literal c hplain _ =>
    rw [List.cons.injEq] at htext
    exact absurd htext.1.symm hplain
  | placeholder id' digits₂ digits' hspelled hspelled' hrest =>
    obtain ⟨_, htext⟩ := List.cons.inj htext
    have hlen : digits.length = digits₂.length :=
      (MarkerId.spelling hdigits).1.trans (MarkerId.spelling hspelled).1.symm
    obtain ⟨rfl, rfl⟩ := List.append_inj htext hlen
    obtain rfl := MarkerId.eq_of_spelled hdigits hspelled
    exact ⟨digits', _, rfl, hspelled', hrest⟩
  | broken cs hnoId =>
    obtain ⟨_, rfl⟩ := List.cons.inj htext
    exact absurd hdigits (hnoId id digits rest rfl)

end Respelled

/-! The markings of the two texts. -/

namespace Marking

/-- Markings at the same offsets that hold the one ids and the other, up to the
first that holds none. It is the same in both, and those behind it are free. -/
inductive Matched (π : MarkerId → MarkerId) : List Marking → List Marking → Prop
  | nil : Matched π [] []
  | id {ms ms' : List Marking} (offset : Nat) (id : MarkerId) (rest : Matched π ms ms') :
      Matched π (⟨offset, .id id⟩ :: ms) (⟨offset, .id (π id)⟩ :: ms')
  | broken (m : Marking) (ms ms' : List Marking) (noId : ∀ id, m.reading ≠ .id id) :
      Matched π (m :: ms) (m :: ms')

/-- What was found before stands before what is found next. -/
theorem collect_eq_append (offset : Nat) (found : List Marking) (skip : Nat) (cs : List Char) :
    collect offset found skip cs = found.reverse ++ collect offset [] skip cs := by
  induction cs generalizing offset found skip with
  | nil => simp [collect]
  | cons c cs ih =>
    cases skip with
    | succ skip => exact ih _ _ _
    | zero =>
      rw [collect, collect]
      split
      · rw [ih, ih _ [_], List.reverse_cons, List.append_assoc]
        rfl
      · exact ih _ _ _

end Marking

theorem Respelled.matched {cs cs' : List Char} (h : Respelled π cs cs') (offset : Nat) :
    Marking.Matched π (Marking.collect offset [] 0 cs) (Marking.collect offset [] 0 cs') := by
  induction h generalizing offset with
  | nil => exact .nil
  | literal c hplain _ ih =>
    rw [Marking.collect, Marking.collect, if_neg hplain, if_neg hplain]
    exact ih _
  | placeholder id digits digits' spelled spelled' _ ih =>
    rw [Marking.collect_placeholder spelled, Marking.collect_placeholder spelled',
      Marking.collect_eq_append, Marking.collect_eq_append _ [_]]
    exact .id offset id (ih _)
  | broken cs hnoId =>
    rw [Marking.collect_sentinel, Marking.collect_eq_append]
    refine .broken _ _ _ ?_
    intro id hid
    obtain ⟨digits, rest, hcs, hdigits⟩ := Marking.read_eq_id_iff.mp hid
    exact hnoId id digits rest hcs hdigits

/-! The texts of layouts. -/

/-- The slots of the one layout have the other ids, and the same literals. -/
def Slot.Renamed (π : MarkerId → MarkerId) (slot slot' : Slot) : Prop :=
  slot'.id = π slot.id ∧ slot'.literal = slot.literal

structure Layout.Renamed (π : MarkerId → MarkerId) (d d' : Layout) : Prop where
  lead : d'.lead = d.lead
  slots : List.Forall₂ (Slot.Renamed π) d.slots d'.slots

theorem Respelled.exists_slots {slots : List Slot} {cs' : List Char}
    (h : Respelled π (fill slots (slots.map Slot.placeholder)).toList cs') :
    ∃ slots', (fill slots' (slots'.map Slot.placeholder)).toList = cs' ∧
      List.Forall₂ (Slot.Renamed π) slots slots' := by
  induction slots generalizing cs' with
  | nil =>
    cases h
    exact ⟨[], rfl, .nil⟩
  | cons slot slots ih =>
    have htext : ∀ (slot : Slot) slots,
        (fill (slot :: slots) ((slot :: slots).map Slot.placeholder)).toList =
          sentinel :: (slot.digits ++ (slot.literal.toList ++
            (fill slots (slots.map Slot.placeholder)).toList)) := by
      intro slot slots
      simp [fill, Slot.placeholder]
    rw [htext] at h
    obtain ⟨digits', _, rfl, hspelled', hbehind⟩ := h.exists_of_spelled slot.spelled
    obtain ⟨_, rfl, hrest⟩ := hbehind.exists_of_plain slot.plain
    obtain ⟨slots', rfl, hslots⟩ := ih hrest
    let slot' : Slot := ⟨π slot.id, digits', slot.literal, hspelled', slot.plain⟩
    exact ⟨slot' :: slots', htext slot' slots', .cons ⟨rfl, rfl⟩ hslots⟩

/-- What a layout is written as under other ids is a layout of these. -/
theorem Respelled.exists_layout {d : Layout} {text' : String}
    (h : Respelled π d.text.toList text'.toList) :
    ∃ d' : Layout, d'.text = text' ∧ d.Renamed π d' := by
  unfold Layout.text Layout.render at h
  rw [String.toList_append] at h
  obtain ⟨rest', htext', hrest⟩ := h.exists_of_plain d.plain
  obtain ⟨slots', rfl, hslots⟩ := hrest.exists_slots
  refine ⟨⟨d.lead, slots', d.plain⟩, ?_, rfl, hslots⟩
  rw [← String.toList_inj, htext', ← String.toList_append]
  rfl

namespace Layout.Renamed

variable {d d' : Layout}

theorem locationsFrom_eq {slots slots' : List Slot}
    (h : List.Forall₂ (Slot.Renamed π) slots slots') (offset : Nat) :
    locationsFrom offset slots' = (locationsFrom offset slots).map (·.rename π) := by
  induction h generalizing offset with
  | nil => rfl
  | cons hslot _ ih =>
    rw [locationsFrom, locationsFrom, List.map_cons, ih, hslot.1, hslot.2]
    rfl

/-- The placeholders of both layouts stand at the same places. -/
theorem locations_eq (h : d.Renamed π d') : d'.locations = d.locations.map (·.rename π) := by
  unfold locations
  rw [h.lead, locationsFrom_eq h.slots]

theorem ids_eq (h : d.Renamed π d') : d'.ids = d.ids.map π := by
  rw [← map_id_locations, ← map_id_locations, h.locations_eq, List.map_map, List.map_map]
  rfl

theorem fill_eq {slots slots' : List Slot} (h : List.Forall₂ (Slot.Renamed π) slots slots')
    (texts : List String) : fill slots' texts = fill slots texts := by
  induction h generalizing texts with
  | nil => rfl
  | cons hslot _ ih =>
    cases texts with
    | nil => rfl
    | cons s texts => rw [fill, fill, ih, hslot.2]

/-- With the same texts in their slots both layouts become the same. -/
theorem render_eq (h : d.Renamed π d') (texts : List String) :
    d'.render texts = d.render texts := by
  unfold render
  rw [h.lead, fill_eq h.slots]

end Layout.Renamed

end DeferredMarkup
