import DeferredMarkup.Proofs.Revising

/-!
Substitution at once. Replacements are carried out one after another, from the
last span to the first, but what they come to is told by cutting the given text
into pieces with their spans. Every list of spans that fit a text and do not
overlap cuts it into such pieces, and the order in which the replacements are
given does not matter either.
-/
namespace DeferredMarkup

/-- Pieces at the front of a text, of which the first is not longer. -/
theorem exists_append_of_size_le {a b c d : String} (h : a ++ b = c ++ d)
    (hsize : a.utf8ByteSize ≤ c.utf8ByteSize) :
    ∃ between, c = a ++ between ∧ b = between ++ d := by
  have hlist : a.toList ++ b.toList = c.toList ++ d.toList := by
    simpa using congrArg String.toList h
  rcases List.append_eq_append_iff.mp hlist with ⟨between, hc, hb⟩ | ⟨between, ha, hd⟩
  · exact ⟨String.ofList between, String.toList_inj.mp (by simpa using hc),
      String.toList_inj.mp (by simpa using hb)⟩
  · have hbytes : a.utf8ByteSize = c.utf8ByteSize + String.utf8Len between := by
      rw [← String.utf8Len_toList, ha, String.utf8Len_append, String.utf8Len_toList]
    obtain rfl : between = [] := String.utf8Len_eq_zero.mp (by omega)
    refine ⟨"", String.toList_inj.mp (by simpa using ha.symm), ?_⟩
    exact String.toList_inj.mp (by simpa using hd.symm)

namespace Span

variable {s a b : Span} {front back text : String}

/-- A span in a text cuts it into three pieces. -/
theorem within_iff : s.Within text ↔ ∃ before covered after, text = before ++ covered ++ after ∧
    s.start = before.utf8ByteSize ∧ s.stop = (before ++ covered).utf8ByteSize := by
  constructor
  · intro h
    obtain ⟨before, rest, htext, hstart⟩ := String.Pos.Raw.isValid_iff_exists_append.mp h.starts
    obtain ⟨front, after, htext', hstop⟩ := String.Pos.Raw.isValid_iff_exists_append.mp h.stops
    have hstart : s.start = before.utf8ByteSize := congrArg String.Pos.Raw.byteIdx hstart
    have hstop : s.stop = front.utf8ByteSize := congrArg String.Pos.Raw.byteIdx hstop
    have hordered := h.ordered
    obtain ⟨covered, rfl, _⟩ := exists_append_of_size_le (htext.symm.trans htext') (by omega)
    exact ⟨before, covered, after, htext', hstart, hstop⟩
  · rintro ⟨before, covered, after, rfl, hstart, hstop⟩
    refine ⟨?_, ?_, ?_, ?_⟩
    · simp only [hstart, hstop, String.utf8ByteSize_append]
      omega
    · simp only [hstop, String.utf8ByteSize_append]
      omega
    · rw [String.Pos.Raw.isValid_iff_exists_append]
      exact ⟨before, covered ++ after, String.append_assoc, congrArg String.Pos.Raw.mk hstart⟩
    · rw [String.Pos.Raw.isValid_iff_exists_append]
      exact ⟨before ++ covered, after, rfl, congrArg String.Pos.Raw.mk hstop⟩

/-- A span in the front of a text does not depend on what follows. -/
theorem within_append_iff (h : s.stop ≤ front.utf8ByteSize) :
    s.Within (front ++ back) ↔ s.Within front := by
  rw [within_iff, within_iff]
  constructor
  · rintro ⟨before, covered, after, htext, hstart, hstop⟩
    obtain ⟨between, rfl, _⟩ := exists_append_of_size_le htext.symm (by omega)
    exact ⟨before, covered, between, rfl, hstart, hstop⟩
  · rintro ⟨before, covered, after, rfl, hstart, hstop⟩
    exact ⟨before, covered, after ++ back, String.append_assoc, hstart, hstop⟩

/-- Of two spans that do not overlap, the one that starts first ends where the
other starts, or before. -/
theorem stop_le_of_not_overlaps (h : ¬ a.overlaps b) (hstart : b.start < a.start)
    (hordered : a.start ≤ a.stop) : b.stop ≤ a.start := by
  simp only [overlaps, Bool.and_eq_true, decide_eq_true_eq, not_and, Nat.not_lt] at h
  omega

end Span

namespace Substitution

variable {text result : String} {all all' : List Replacement} {r : Replacement}
  {pieces : List Piece} {rest : String}

theorem exists_splice?_iff : (∃ result, splice? text r = some result) ↔ r.span.Within text := by
  simp only [splice?_eq_some_iff, Span.within_iff]
  constructor
  · rintro ⟨_, a, b, c, htext, hstart, hstop, _⟩
    exact ⟨a, b, c, htext, hstart, hstop⟩
  · rintro ⟨a, b, c, htext, hstart, hstop⟩
    exact ⟨_, a, b, c, htext, hstart, hstop, rfl⟩

/-- What is replaced further right does not matter to a span. -/
theorem within_splice?_iff {s : Span} (h : splice? text r = some result)
    (hstop : s.stop ≤ r.span.start) : s.Within result ↔ s.Within text := by
  obtain ⟨a, b, c, rfl, hstart, _, rfl⟩ := splice?_eq_some_iff.mp h
  rw [String.append_assoc, String.append_assoc, Span.within_append_iff (by omega),
    Span.within_append_iff (by omega)]

/-- One replacement starts further right than another, and they do not overlap. -/
def Beyond (a b : Replacement) : Prop := b.span.start < a.span.start ∧ ¬ a.span.overlaps b.span

/-- Replacements from the last one to the first can be carried out when each of
them fits the text as it was before any. -/
theorem exists_foldlM_splice?_iff (h : all.Pairwise Beyond) :
    (∃ result, all.foldlM splice? text = some result) ↔ ∀ r ∈ all, r.span.Within text := by
  induction all generalizing text with
  | nil => simp
  | cons r all ih =>
    obtain ⟨hr, hall⟩ := List.pairwise_cons.mp h
    rw [List.forall_mem_cons, ← exists_splice?_iff, List.foldlM_cons]
    cases hsplice : splice? text r with
    | none => simp
    | some next =>
      have hordered := (exists_splice?_iff.mp ⟨next, hsplice⟩).ordered
      have hwithin : (∀ x ∈ all, x.span.Within next) ↔ ∀ x ∈ all, x.span.Within text := by
        refine forall₂_congr fun x hx => ?_
        exact within_splice?_iff hsplice
          (Span.stop_le_of_not_overlaps (hr x hx).2 (hr x hx).1 hordered)
      rw [← hwithin]
      have hnext := @ih next hall
      simpa using hnext

/-- Spans that lie in a text and follow one another cut it into pieces. -/
theorem exists_pieces {lead tail : String}
    (hwithin : ∀ r ∈ all, r.span.Within (lead ++ tail))
    (hlead : ∀ r ∈ all, lead.utf8ByteSize ≤ r.span.start)
    (hfollow : all.Pairwise (·.span.stop ≤ ·.span.start)) :
    ∃ pieces rest, tail = original rest pieces ∧
      all = replacementsFrom lead.utf8ByteSize pieces := by
  induction all generalizing lead tail with
  | nil => exact ⟨[], tail, rfl, rfl⟩
  | cons r all ih =>
    obtain ⟨hr, hall⟩ := List.pairwise_cons.mp hfollow
    obtain ⟨hwithinr, hwithin⟩ := List.forall_mem_cons.mp hwithin
    obtain ⟨before, covered, after, htext, hstart, hstop⟩ := Span.within_iff.mp hwithinr
    have hbefore := hlead r (by simp)
    rw [String.append_assoc] at htext
    obtain ⟨kept, rfl, rfl⟩ := exists_append_of_size_le htext (by omega)
    have hnext : lead ++ (kept ++ (covered ++ after)) = (lead ++ kept ++ covered) ++ after := by
      simp [String.append_assoc]
    rw [hnext] at hwithin
    obtain ⟨pieces, rest, rfl, hrest⟩ := ih hwithin (fun x hx => hstop ▸ hr x hx) hall
    refine ⟨⟨kept, covered, r.text⟩ :: pieces, rest, by simp [original, String.append_assoc], ?_⟩
    simp only [String.utf8ByteSize_append] at hstart hstop hrest
    dsimp only [replacementsFrom]
    rw [← hrest, ← hstop, ← hstart]

theorem le_start_of_mem_replacementsFrom {offset : Nat}
    (h : r ∈ replacementsFrom offset pieces) : offset ≤ r.span.start := by
  induction pieces generalizing offset with
  | nil => simp [replacementsFrom] at h
  | cons p pieces ih =>
    rcases List.mem_cons.mp h with rfl | h
    · exact Nat.le_add_right _ _
    · have := ih h
      omega

/-- The spans of pieces come from left to right. -/
theorem pairwise_replacementsFrom (offset : Nat) (pieces : List Piece) :
    (replacementsFrom offset pieces).Pairwise (·.span.start ≤ ·.span.start) := by
  induction pieces generalizing offset with
  | nil => exact .nil
  | cons p pieces ih =>
    refine .cons ?_ (ih _)
    intro r hr
    have := le_start_of_mem_replacementsFrom hr
    simp only
    omega

/-- The conditions on a list of replacements do not depend on their order. -/
structure Apart (all : List Replacement) : Prop where
  starts : all.Pairwise (·.span.start ≠ ·.span.start)
  spans : all.Pairwise fun a b => ¬ a.span.overlaps b.span

namespace Apart

theorem perm (h : Apart all) (hperm : all'.Perm all) : Apart all' := by
  refine ⟨?_, ?_⟩
  · exact (hperm.pairwise_iff fun hne => hne.symm).mpr h.starts
  · refine (hperm.pairwise_iff ?_).mpr h.spans
    intro a b hab
    rwa [Span.overlaps, Bool.and_comm]

theorem descending (h : Apart all) : (descending all).Pairwise Beyond := by
  have hperm : (Substitution.descending all).Perm all := List.mergeSort_perm _ _
  have hapart := h.perm hperm
  refine ((pairwise_descending all).and (hapart.starts.and hapart.spans)).imp ?_
  rintro a b ⟨hge, hne, hspans⟩
  exact ⟨by omega, hspans⟩

/-- Sorting does not depend on the order in which replacements are given. -/
theorem descending_eq (h : Apart all) (hperm : all'.Perm all) :
    Substitution.descending all' = Substitution.descending all := by
  have hsorted : (Substitution.descending all).Perm all := List.mergeSort_perm _ _
  exact descending_eq_of_perm (hperm.trans hsorted.symm) (h.descending.imp fun hab => hab.1)

theorem exists_replace?_iff (h : Apart all) :
    (∃ result, replace? all text = some result) ↔ ∀ r ∈ all, r.span.Within text := by
  have hperm : (Substitution.descending all).Perm all := List.mergeSort_perm _ _
  rw [replace?, exists_foldlM_splice?_iff h.descending]
  simp only [hperm.mem_iff]

theorem ascending {offset : Nat} (h : Apart (replacementsFrom offset pieces)) :
    (replacementsFrom offset pieces).Pairwise (·.span.start < ·.span.start) := by
  refine ((pairwise_replacementsFrom offset pieces).and h.starts).imp ?_
  rintro a b ⟨hle, hne⟩
  omega

/-- Replacements that fit a text are those of pieces into which it can be cut. -/
theorem exists_perm_pieces (h : Apart all) (hwithin : ∀ r ∈ all, r.span.Within text) :
    ∃ pieces rest, text = original rest pieces ∧ all.Perm (replacementsFrom 0 pieces) := by
  have hperm : (Substitution.descending all).reverse.Perm all :=
    (List.reverse_perm _).trans (List.mergeSort_perm _ _)
  have hwithin : ∀ r ∈ (Substitution.descending all).reverse, r.span.Within ("" ++ text) := by
    intro r hr
    simpa using hwithin r (hperm.mem_iff.mp hr)
  have hfollow : (Substitution.descending all).reverse.Pairwise (·.span.stop ≤ ·.span.start) := by
    refine List.pairwise_reverse.mpr (h.descending.imp_of_mem ?_)
    intro a b ha _ hab
    exact Span.stop_le_of_not_overlaps hab.2 hab.1 (hwithin a (List.mem_reverse.mpr ha)).ordered
  obtain ⟨pieces, rest, htext, hpieces⟩ := exists_pieces hwithin (by simp) hfollow
  exact ⟨pieces, rest, htext, hpieces ▸ hperm.symm⟩

end Apart

/-- Replacements with distinct starts and spans that do not overlap can be
carried out exactly when all of these spans lie in the given text between its
characters. The text is then cut into pieces with these spans, and what stands
between them is kept, with the new texts in the place of the spans. The order
in which the replacements are given makes no difference. -/
theorem substitute_replaces_at_once (text : String) (all : List Replacement)
    (hstarts : all.Pairwise (·.span.start ≠ ·.span.start))
    (hspans : all.Pairwise fun a b => ¬ a.span.overlaps b.span) :
    ((∃ result, (Resolution.substitute? all text).value = some result) ↔
      ∀ r ∈ all, r.span.Within text) ∧
    (∀ result, (Resolution.substitute? all text).value = some result ↔
      ∃ pieces rest, text = original rest pieces ∧ all.Perm (replacementsFrom 0 pieces) ∧
        result = revised rest pieces) ∧
    ∀ all', all'.Perm all →
      Resolution.substitute? all' text = Resolution.substitute? all text := by
  have hapart : Apart all := ⟨hstarts, hspans⟩
  have hperm : ∀ {all'}, all'.Perm all → replace? all' text = replace? all text := by
    intro all' hall'
    rw [replace?, replace?, hapart.descending_eq hall']
  have hpieces : ∀ {pieces rest}, text = original rest pieces →
      all.Perm (replacementsFrom 0 pieces) → replace? all text = some (revised rest pieces) := by
    rintro pieces rest rfl hall
    rw [← hperm hall.symm]
    exact replace?_pieces (hapart.perm hall.symm).ascending
  simp only [Resolution.value_substitute?]
  refine ⟨hapart.exists_replace?_iff, ?_, ?_⟩
  · intro result
    constructor
    · intro hresult
      obtain ⟨pieces, rest, htext, hall⟩ :=
        hapart.exists_perm_pieces (hapart.exists_replace?_iff.mp ⟨result, hresult⟩)
      rw [hpieces htext hall, Option.some.injEq] at hresult
      exact ⟨pieces, rest, htext, hall, hresult.symm⟩
    · rintro ⟨pieces, rest, htext, hall, rfl⟩
      exact hpieces htext hall
  · intro all' hall'
    rw [Resolution.substitute?, Resolution.substitute?, hperm hall', hapart.descending_eq hall']

/-- A character becomes longer, a text is put in behind it, and the first letter
disappears. The spans are not given in their order. -/
theorem substitute_replaces_at_once_unordered :
    let all : List Replacement := [⟨⟨3, 3⟩, "ü"⟩, ⟨⟨0, 1⟩, ""⟩, ⟨⟨1, 3⟩, "xyz"⟩]
    all.Pairwise (·.span.start ≠ ·.span.start) ∧
      (all.Pairwise fun a b => ¬ a.span.overlaps b.span) ∧
      (∃ pieces rest, "aébc" = original rest pieces ∧ all.Perm (replacementsFrom 0 pieces) ∧
        "xyzübc" = revised rest pieces) ∧
      Resolution.substitute? all.reverse "aébc" = Resolution.substitute? all "aébc" := by
  intro all
  have hstarts : all.Pairwise (·.span.start ≠ ·.span.start) := by decide
  have hspans : all.Pairwise fun a b => ¬ a.span.overlaps b.span := by decide
  have hsorted : descending all = [⟨⟨3, 3⟩, "ü"⟩, ⟨⟨1, 3⟩, "xyz"⟩, ⟨⟨0, 1⟩, ""⟩] :=
    descending_eq_of_perm (.cons _ (.swap _ _ _)) (by decide)
  have hresult : (Resolution.substitute? all "aébc").value = some "xyzübc" := by
    rw [Resolution.value_substitute?, replace?, hsorted]
    rfl
  obtain ⟨_, hiff, hperm⟩ := substitute_replaces_at_once "aébc" all hstarts hspans
  exact ⟨hstarts, hspans, (hiff _).mp hresult, hperm _ all.reverse_perm⟩

end Substitution

end DeferredMarkup
