import DeferredMarkup.Placement
import DeferredMarkup.Proofs.Readings

/-!
Texts given by what they are made of: a literal at the front, and then slots,
each with a placeholder and the literal behind it. Searching such a text finds
the placeholders of its slots at their offsets, and nothing else. The same
layout with other texts in its slots is what the text is to become.
-/
namespace DeferredMarkup

/-- A placeholder and the literal behind it. The digits may be capital or small
letters, and the literal holds no sentinel. -/
structure Slot where
  id : MarkerId
  digits : List Char
  literal : String
  spelled : digits.map Char.toUpper = id.hex
  plain : sentinel ∉ literal.toList

def Slot.placeholder (slot : Slot) : String := String.ofList (sentinel :: slot.digits)

structure Layout where
  lead : String
  slots : List Slot
  plain : sentinel ∉ lead.toList

/-- Slots, each with a text in the place of its placeholder. -/
def fill : List Slot → List String → String
  | slot :: slots, text :: texts => text ++ slot.literal ++ fill slots texts
  | _, _ => ""

/-- Where the placeholders of slots stand when the first starts at `offset`. -/
def locationsFrom (offset : Nat) : List Slot → List Location
  | [] => []
  | slot :: slots =>
    ⟨offset, slot.id⟩ ::
      locationsFrom (offset + Placeholder.width + slot.literal.utf8ByteSize) slots

namespace Layout

/-- The layout with the given texts in its slots. -/
def render (d : Layout) (texts : List String) : String := d.lead ++ fill d.slots texts

/-- The text of a layout, in which every slot has its placeholder. -/
def text (d : Layout) : String := d.render (d.slots.map Slot.placeholder)

/-- The ids of the placeholders, from left to right. -/
def ids (d : Layout) : List MarkerId := d.slots.map (·.id)

def locations (d : Layout) : List Location := locationsFrom d.lead.utf8ByteSize d.slots

end Layout

/-- The marking of a placeholder at its place. -/
def Location.marking (l : Location) : Marking := ⟨l.offset, .id l.id⟩

namespace Marking

variable {cs rest digits : List Char} {offset : Nat} {found : List Marking} {id : MarkerId}

theorem collect_plain (h : sentinel ∉ cs) :
    collect offset found 0 (cs ++ rest) = collect (offset + String.utf8Len cs) found 0 rest := by
  induction cs generalizing offset with
  | nil => rfl
  | cons c cs ih =>
    rw [List.mem_cons, not_or] at h
    rw [List.cons_append, collect, if_neg (Ne.symm h.1), ih h.2, String.utf8Len_cons]
    congr 1
    omega

theorem collect_skip :
    collect offset found cs.length (cs ++ rest) =
      collect (offset + String.utf8Len cs) found 0 rest := by
  induction cs generalizing offset with
  | nil => rfl
  | cons c cs ih =>
    rw [List.length_cons, List.cons_append, collect, ih, String.utf8Len_cons]
    congr 1
    omega

theorem collect_sentinel :
    collect offset found 0 (sentinel :: rest) =
      collect (offset + 1) (⟨offset, read rest⟩ :: found) (read rest).length rest := by
  rw [collect, if_pos rfl]
  rfl

/-- The search takes a placeholder for what it is and goes on behind it. -/
theorem collect_placeholder (h : digits.map Char.toUpper = id.hex) :
    collect offset found 0 (sentinel :: (digits ++ rest)) =
      collect (offset + Placeholder.width) (⟨offset, .id id⟩ :: found) 0 rest := by
  obtain ⟨hlen, _⟩ := MarkerId.spelling h
  rw [collect_sentinel, read_digits h, Reading.length, ← hlen, collect_skip,
    MarkerId.utf8Len_digits h]
  rfl

end Marking

/-- A placeholder has its width whatever the case of its digits. -/
theorem Placeholder.utf8ByteSize_digits {digits : List Char} {id : MarkerId}
    (h : digits.map Char.toUpper = id.hex) :
    (String.ofList (sentinel :: digits)).utf8ByteSize = width := by
  rw [String.utf8ByteSize_ofList, String.utf8Len_cons, MarkerId.utf8Len_digits h]
  rfl

@[simp] theorem Slot.utf8ByteSize_placeholder (slot : Slot) :
    slot.placeholder.utf8ByteSize = Placeholder.width :=
  Placeholder.utf8ByteSize_digits slot.spelled

theorem collect_fill (slots : List Slot) (offset : Nat) (found : List Marking) :
    Marking.collect offset found 0 (fill slots (slots.map Slot.placeholder)).toList =
      found.reverse ++ (locationsFrom offset slots).map Location.marking := by
  induction slots generalizing offset found with
  | nil => simp [fill, locationsFrom, Marking.collect]
  | cons slot slots ih =>
    have htext : (fill (slot :: slots) ((slot :: slots).map Slot.placeholder)).toList =
        sentinel :: (slot.digits ++ (slot.literal.toList ++
          (fill slots (slots.map Slot.placeholder)).toList)) := by
      simp [fill, Slot.placeholder]
    rw [htext, Marking.collect_placeholder slot.spelled, Marking.collect_plain slot.plain, ih,
      String.utf8Len_toList, locationsFrom, List.map_cons, List.reverse_cons, List.append_assoc]
    rfl

/-- The markings of the text of a layout are the placeholders of its slots. -/
theorem Layout.ofText_text (d : Layout) :
    Marking.ofText d.text.toList = d.locations.map Location.marking := by
  unfold Marking.ofText text render locations
  rw [String.toList_append, Marking.collect_plain d.plain, collect_fill, String.utf8Len_toList,
    Nat.zero_add, List.reverse_nil, List.nil_append]

theorem le_locationsFrom {slots : List Slot} {offset : Nat} {l : Location}
    (h : l ∈ locationsFrom offset slots) : offset ≤ l.offset := by
  induction slots generalizing offset with
  | nil => simp [locationsFrom] at h
  | cons slot slots ih =>
    rcases List.mem_cons.mp h with rfl | h
    · exact Nat.le_refl _
    · have := ih h
      omega

/-- Placeholders stand from left to right, each behind the bytes of those before it. -/
theorem pairwise_locationsFrom (slots : List Slot) (offset : Nat) :
    (locationsFrom offset slots).Pairwise (·.offset + Placeholder.width ≤ ·.offset) := by
  induction slots generalizing offset with
  | nil => exact .nil
  | cons slot slots ih =>
    refine .cons ?_ (ih _)
    intro l hl
    have := le_locationsFrom hl
    simp only
    omega

theorem Layout.ascending_locations (d : Layout) :
    d.locations.Pairwise (·.offset < ·.offset) := by
  apply (pairwise_locationsFrom d.slots _).imp
  intro l l' hlt
  simp only [Placeholder.width] at hlt
  omega

theorem map_id_locationsFrom (slots : List Slot) (offset : Nat) :
    (locationsFrom offset slots).map (·.id) = slots.map (·.id) := by
  induction slots generalizing offset with
  | nil => rfl
  | cons slot slots ih => rw [locationsFrom, List.map_cons, ih, List.map_cons]

theorem Layout.map_id_locations (d : Layout) : d.locations.map (·.id) = d.ids :=
  map_id_locationsFrom d.slots _

@[simp] theorem Layout.length_locations (d : Layout) : d.locations.length = d.slots.length := by
  have := congrArg List.length d.map_id_locations
  simpa [ids] using this

end DeferredMarkup
