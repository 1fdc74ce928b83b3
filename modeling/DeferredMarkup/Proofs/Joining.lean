import DeferredMarkup.Proofs.Layout

/-!
Layouts that stand one behind the other. The literal at the front of the second
goes to the literal at the end of the first, so that together they are a layout
again. What the two are to become is told apart by the slots, and the
placeholders of the second are found behind all the bytes of the first.
-/
namespace DeferredMarkup

/-- The location in a text with `n` more bytes before it. -/
def Location.shift (n : Nat) (l : Location) : Location := ⟨n + l.offset, l.id⟩

theorem locationsFrom_add (n offset : Nat) (slots : List Slot) :
    locationsFrom (n + offset) slots = (locationsFrom offset slots).map (.shift n) := by
  induction slots generalizing offset with
  | nil => rfl
  | cons slot slots ih =>
    rw [locationsFrom, locationsFrom, List.map_cons, ← ih, Nat.add_assoc, Nat.add_assoc,
      Nat.add_assoc]
    rfl

namespace Slot

/-- The slot with another literal behind it. -/
def before (slot : Slot) (literal : String) (plain : sentinel ∉ literal.toList) : Slot :=
  { slot with literal := literal, plain := plain }

end Slot

namespace Layout

/-- The layout with a literal and slots before it. -/
def behind (e : Layout) (lead : String) (plain : sentinel ∉ lead.toList) : List Slot → Layout
  | [] =>
    { lead := lead ++ e.lead
      slots := e.slots
      plain := by
        rw [String.toList_append, List.mem_append, not_or]
        exact ⟨plain, e.plain⟩ }
  | slot :: slots =>
    let rest := e.behind slot.literal slot.plain slots
    ⟨lead, slot.before rest.lead rest.plain :: rest.slots, plain⟩

instance : Append Layout := ⟨fun d e => e.behind d.lead d.plain d.slots⟩

/-- A text without placeholders. -/
def ofLiteral (literal : String) (plain : sentinel ∉ literal.toList) : Layout :=
  ⟨literal, [], plain⟩

/-- A placeholder without literals around it. -/
def ofDigits {id : MarkerId} (digits : List Char) (spelled : digits.map Char.toUpper = id.hex) :
    Layout :=
  ⟨"", [⟨id, digits, "", spelled, by simp⟩], by simp⟩

variable {lead : String} {plain : sentinel ∉ lead.toList}

theorem map_slots_behind {α : Type} {f : Slot → α}
    (hf : ∀ (slot : Slot) literal plain, f (slot.before literal plain) = f slot)
    (e : Layout) (slots : List Slot) :
    (e.behind lead plain slots).slots.map f = slots.map f ++ e.slots.map f := by
  induction slots generalizing lead with
  | nil => rfl
  | cons slot slots ih =>
    rw [behind, List.map_cons, hf, ih]
    rfl

theorem placeholders_append (d e : Layout) : (d ++ e).slots.map Slot.placeholder =
    d.slots.map Slot.placeholder ++ e.slots.map Slot.placeholder :=
  map_slots_behind (fun _ _ _ => rfl) e d.slots

theorem render_behind (e : Layout) {slots : List Slot} {texts : List String} (more : List String)
    (hlen : texts.length = slots.length) :
    (e.behind lead plain slots).render (texts ++ more) =
      lead ++ fill slots texts ++ e.render more := by
  induction slots generalizing lead texts with
  | nil =>
    rw [List.length_eq_zero_iff.mp hlen]
    simp [behind, render, fill, String.append_assoc]
  | cons slot slots ih =>
    cases texts with
    | nil => simp at hlen
    | cons text texts =>
      have hrest := @ih slot.literal slot.plain texts (Nat.succ.inj hlen)
      have hfill : (e.behind lead plain (slot :: slots)).render (text :: texts ++ more) =
          lead ++ (text ++ (e.behind slot.literal slot.plain slots).render (texts ++ more)) := by
        simp only [behind, render, List.cons_append, fill, Slot.before, String.append_assoc]
      rw [hfill, hrest, fill]
      simp only [String.append_assoc]

/-- Texts in the slots of both are texts in the slots of each. -/
theorem render_append (d e : Layout) {texts : List String} (more : List String)
    (hlen : texts.length = d.slots.length) :
    (d ++ e).render (texts ++ more) = d.render texts ++ e.render more :=
  render_behind e more hlen

theorem text_append (d e : Layout) : (d ++ e).text = d.text ++ e.text := by
  unfold text
  rw [placeholders_append, render_append]
  rw [List.length_map]

theorem locationsFrom_behind (e : Layout) (slots : List Slot) (n : Nat) :
    locationsFrom (n + (e.behind lead plain slots).lead.utf8ByteSize)
        (e.behind lead plain slots).slots =
      locationsFrom (n + lead.utf8ByteSize) slots ++ e.locations.map (.shift
        (n + (lead ++ fill slots (slots.map Slot.placeholder)).utf8ByteSize)) := by
  induction slots generalizing lead n with
  | nil =>
    simp only [behind, locationsFrom, List.nil_append, fill, String.append_empty,
      String.utf8ByteSize_append]
    rw [← Nat.add_assoc, locationsFrom_add]
    rfl
  | cons slot slots ih =>
    have hrest := @ih slot.literal slot.plain (n + lead.utf8ByteSize + Placeholder.width)
    have hbytes : n + lead.utf8ByteSize + Placeholder.width +
        (slot.literal ++ fill slots (slots.map Slot.placeholder)).utf8ByteSize =
          n + (lead ++
            fill (slot :: slots) ((slot :: slots).map Slot.placeholder)).utf8ByteSize := by
      rw [List.map_cons, fill]
      simp only [String.utf8ByteSize_append, Slot.utf8ByteSize_placeholder]
      omega
    rw [hbytes] at hrest
    rw [behind, locationsFrom, locationsFrom, List.cons_append, ← hrest]
    rfl

/-- The placeholders of the second layout stand behind the text of the first. -/
theorem locations_append (d e : Layout) : (d ++ e).locations =
    d.locations ++ e.locations.map (.shift d.text.utf8ByteSize) := by
  have h := @locationsFrom_behind d.lead d.plain e d.slots 0
  simp only [Nat.zero_add] at h
  exact h

@[simp] theorem text_ofLiteral (literal : String) (plain : sentinel ∉ literal.toList) :
    (ofLiteral literal plain).text = literal := String.append_empty

@[simp] theorem text_ofDigits {id : MarkerId} {digits : List Char}
    (spelled : digits.map Char.toUpper = id.hex) :
    (ofDigits digits spelled).text = String.ofList (sentinel :: digits) := by
  simp [ofDigits, text, render, fill, Slot.placeholder]

theorem locations_append_ofLiteral (d : Layout) {literal : String}
    (plain : sentinel ∉ literal.toList) :
    (d ++ ofLiteral literal plain).locations = d.locations := by
  rw [locations_append]
  exact List.append_nil _

theorem locations_append_ofDigits (d : Layout) {id : MarkerId} {digits : List Char}
    (spelled : digits.map Char.toUpper = id.hex) :
    (d ++ ofDigits digits spelled).locations =
      d.locations ++ [⟨d.text.utf8ByteSize, id⟩] := by
  rw [locations_append]
  rfl

end Layout

end DeferredMarkup
