import DeferredMarkup.Resolution
import DeferredMarkup.Proofs.Layout
import DeferredMarkup.Proofs.Sorting

/-!
Splicing from the back. Cutting a text and replacing a span of it are told by
the pieces of which the text consists, each a stretch that is kept and a stretch
that is covered by a span. Replacements that are carried out one after another,
from the last one to the first, leave the pieces with their texts in the place
of what was covered, since those further left are not moved. A layout is cut
into such pieces by the placeholders in its slots.
-/
namespace DeferredMarkup.Substitution

/-- A stretch of a text that is kept, and behind it one that is replaced. -/
structure Piece where
  kept : String
  covered : String
  inserted : String

/-- The text that consists of pieces and the rest behind them. -/
def original (rest : String) : List Piece → String
  | [] => rest
  | p :: pieces => p.kept ++ p.covered ++ original rest pieces

/-- The same text with what was inserted in the place of what was covered. -/
def revised (rest : String) : List Piece → String
  | [] => rest
  | p :: pieces => p.kept ++ p.inserted ++ revised rest pieces

/-- The replacements in pieces of which the first starts at `offset`. -/
def replacementsFrom (offset : Nat) : List Piece → List Replacement
  | [] => []
  | p :: pieces =>
    let start := offset + p.kept.utf8ByteSize
    let stop := start + p.covered.utf8ByteSize
    ⟨⟨start, stop⟩, p.inserted⟩ :: replacementsFrom stop pieces

/-- The replacements of the placeholders at some locations. -/
def fillings (ls : List Location) (texts : List String) : List Replacement :=
  (ls.zip texts).map fun (l, text) => ⟨Placeholder.span l.offset, text⟩

variable {text result front back : String} {n : Nat} {r : Replacement}

theorem cut?_append (front back : String) :
    cut? front.utf8ByteSize (front ++ back) = some (front, back) := by
  have hvalid : String.Pos.Raw.isValid (front ++ back) ⟨front.utf8ByteSize⟩ = true := by
    rw [String.Pos.Raw.isValid_eq_true_iff, String.Pos.Raw.isValid_iff_exists_append]
    exact ⟨front, back, rfl, rfl⟩
  have hend : (front ++ back).rawEndPos = ⟨front.utf8ByteSize + back.utf8ByteSize⟩ := by
    rw [← String.utf8ByteSize_append]
    rfl
  have hfront := String.extract_of_valid [] front.toList back.toList
  have hback := String.extract_of_valid front.toList back.toList []
  simp only [List.nil_append, List.append_nil, String.utf8Len_nil, Nat.zero_add,
    String.utf8Len_toList, String.ofList_append, String.ofList_toList] at hfront hback
  simp only [cut?, hvalid, if_true, hend, hback]
  exact congrArg (fun kept => some (kept, back)) hfront

/-- A text is cut where its first piece ends. -/
theorem cut?_eq_some_iff :
    cut? n text = some (front, back) ↔ text = front ++ back ∧ n = front.utf8ByteSize := by
  constructor
  · intro h
    have hvalid : String.Pos.Raw.isValid text ⟨n⟩ = true := by
      by_contra hinvalid
      simp [cut?, hinvalid] at h
    rw [String.Pos.Raw.isValid_eq_true_iff, String.Pos.Raw.isValid_iff_exists_append] at hvalid
    obtain ⟨a, b, rfl, hn⟩ := hvalid
    have hn : n = a.utf8ByteSize := congrArg String.Pos.Raw.byteIdx hn
    subst hn
    rw [cut?_append] at h
    cases h
    exact ⟨rfl, rfl⟩
  · intro h
    obtain ⟨rfl, rfl⟩ := h
    exact cut?_append front back

/-- A span is replaced where pieces of the text begin and end. -/
theorem splice?_eq_some_iff : splice? text r = some result ↔
    ∃ a b c, text = a ++ b ++ c ∧ r.span.start = a.utf8ByteSize ∧
      r.span.stop = (a ++ b).utf8ByteSize ∧ result = a ++ r.text ++ c := by
  simp only [splice?, bind, Option.bind_eq_some_iff, pure, Option.some.injEq, Prod.exists,
    cut?_eq_some_iff]
  constructor
  · intro h
    obtain ⟨_, c, ⟨rfl, hstop⟩, a, b, ⟨rfl, hstart⟩, rfl⟩ := h
    exact ⟨a, b, c, rfl, hstart, hstop, rfl⟩
  · intro h
    obtain ⟨a, b, c, rfl, hstart, hstop, rfl⟩ := h
    exact ⟨a ++ b, c, ⟨rfl, hstop⟩, a, b, ⟨rfl, hstart⟩, rfl⟩

theorem splice?_pieces (a b c text : String) :
    splice? (a ++ b ++ c) ⟨⟨a.utf8ByteSize, a.utf8ByteSize + b.utf8ByteSize⟩, text⟩ =
      some (a ++ text ++ c) :=
  splice?_eq_some_iff.mpr ⟨a, b, c, rfl, rfl, (String.utf8ByteSize_append ..).symm, rfl⟩

/-- Carried out from the last one to the first, the replacements of pieces leave
the pieces with what was inserted. -/
theorem foldlM_splice?_pieces (pieces : List Piece) (rest lead : String) :
    (replacementsFrom lead.utf8ByteSize pieces).reverse.foldlM splice?
      (lead ++ original rest pieces) = some (lead ++ revised rest pieces) := by
  induction pieces generalizing lead with
  | nil => rfl
  | cons p pieces ih =>
    -- What is behind the first piece is replaced while this piece is part of the lead.
    have hrest := ih (lead ++ p.kept ++ p.covered)
    have hfirst := splice?_pieces (lead ++ p.kept) p.covered (revised rest pieces) p.inserted
    simp only [String.utf8ByteSize_append, String.append_assoc, ← Nat.add_assoc] at hrest hfirst
    simp only [replacementsFrom, original, revised, List.reverse_cons, List.foldlM_append,
      String.append_assoc, hrest]
    simp only [bind, Option.bind_some, List.foldlM_cons, List.foldlM_nil, hfirst, pure]

/-- Replacements given from left to right are carried out in reverse. -/
theorem replace?_of_ascending {all : List Replacement}
    (hascending : all.Pairwise (·.span.start < ·.span.start)) :
    replace? all text = all.reverse.foldlM splice? text := by
  rw [replace?, descending_of_ascending hascending]

/-- Replacements are carried out on pieces of which they are the replacements. -/
theorem replace?_pieces {pieces : List Piece} {rest : String}
    (hascending : (replacementsFrom 0 pieces).Pairwise (·.span.start < ·.span.start)) :
    replace? (replacementsFrom 0 pieces) (original rest pieces) = some (revised rest pieces) := by
  have hpieces := foldlM_splice?_pieces pieces rest ""
  rw [replace?_of_ascending hascending]
  simpa using hpieces

theorem fillings_ascending {ls : List Location} {texts : List String}
    (hls : ls.Pairwise (·.offset < ·.offset)) (hlen : texts.length = ls.length) :
    (fillings ls texts).Pairwise (·.span.start < ·.span.start) := by
  have hzip : (ls.zip texts).map Prod.fst = ls := List.map_fst_zip (Nat.le_of_eq hlen.symm)
  rw [← hzip, List.pairwise_map] at hls
  exact List.pairwise_map.mpr hls

/-- Every slot covers its placeholder and keeps the literal in front of it, and
the last literal is the rest. -/
theorem exists_pieces_of_slots (slots : List Slot) (texts : List String) (lead : String)
    (offset : Nat) (hlen : texts.length = slots.length) :
    ∃ pieces rest, lead ++ fill slots (slots.map Slot.placeholder) = original rest pieces ∧
      lead ++ fill slots texts = revised rest pieces ∧
      fillings (locationsFrom (offset + lead.utf8ByteSize) slots) texts =
        replacementsFrom offset pieces := by
  induction slots generalizing texts lead offset with
  | nil =>
    rw [List.length_nil, List.length_eq_zero_iff] at hlen
    subst hlen
    exact ⟨[], lead, by simp [fill, original], by simp [fill, revised], rfl⟩
  | cons slot slots ih =>
    cases texts with
    | nil => simp at hlen
    | cons text texts =>
      rw [List.length_cons, List.length_cons, Nat.add_right_cancel_iff] at hlen
      obtain ⟨pieces, rest, horiginal, hrevised, hfillings⟩ :=
        ih texts slot.literal (offset + lead.utf8ByteSize + Placeholder.width) hlen
      refine ⟨⟨lead, slot.placeholder, text⟩ :: pieces, rest, ?_, ?_, ?_⟩
      · simp only [List.map_cons, fill, original, ← horiginal, String.append_assoc]
      · simp only [fill, revised, ← hrevised, String.append_assoc]
      · simp only [replacementsFrom, Slot.utf8ByteSize_placeholder, ← hfillings]
        rfl

/-- The replacements for a layout fit its text, and carried out from the back
they leave what the layout is with their texts in its slots. -/
theorem replace?_layout (d : Layout) {texts : List String}
    (hlen : texts.length = d.slots.length) :
    replace? (fillings d.locations texts) d.text = some (d.render texts) := by
  have hascending :=
    fillings_ascending d.ascending_locations (hlen.trans d.length_locations.symm)
  obtain ⟨pieces, rest, htext, hrender, hfillings⟩ :=
    exists_pieces_of_slots d.slots texts d.lead 0 hlen
  rw [Nat.zero_add] at hfillings
  rw [Layout.locations, hfillings] at hascending ⊢
  rw [Layout.text, Layout.render, Layout.render, htext, hrender]
  exact replace?_pieces hascending

end DeferredMarkup.Substitution
