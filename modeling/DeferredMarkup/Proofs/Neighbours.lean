import DeferredMarkup.Proofs.Sorting

/-!
Neighbours among sorted replacements. To see that no two spans of a list share a
byte it is enough to compare each with the next, once they stand in descending
order of their starts and none is empty. A span that does not overlap the next
one starts where that one ends, or further right, and the next one in turn does
not start before any that come later have ended. An empty span would break this
chain, since it overlaps no span that starts where it does.
-/
namespace DeferredMarkup

namespace Span

variable {a b : Span}

/-- Whether the byte at an offset belongs to a span. -/
def covers (s : Span) (byte : Nat) : Bool := s.start ≤ byte && byte < s.stop

theorem covers_iff {s : Span} {byte : Nat} : s.covers byte ↔ s.start ≤ byte ∧ byte < s.stop := by
  simp [covers]

/-- Spans that are not empty overlap when they have a byte in common. -/
theorem overlaps_iff_exists_covers (ha : a.start < a.stop) (hb : b.start < b.stop) :
    a.overlaps b ↔ ∃ byte, a.covers byte ∧ b.covers byte := by
  simp only [covers_iff, overlaps, Bool.and_eq_true, decide_eq_true_eq]
  constructor
  · rintro ⟨hab, hba⟩
    exact ⟨max a.start b.start, by omega⟩
  · rintro ⟨byte, hbytea, hbyteb⟩
    omega

end Span

namespace Substitution

variable {all : List Replacement}

/-- No byte belongs to the spans of both. -/
def SharesNoByte (a b : Replacement) : Prop := ∀ byte, ¬ (a.span.covers byte ∧ b.span.covers byte)

theorem forall_countP_covers_le_one_iff :
    (∀ byte, all.countP (·.span.covers byte) ≤ 1) ↔ all.Pairwise SharesNoByte := by
  induction all with
  | nil => simp
  | cons a rest ih =>
    rw [List.pairwise_cons, ← ih]
    constructor
    · intro h
      refine ⟨?_, ?_⟩
      · rintro b hb byte ⟨ha, hbyte⟩
        have hpos : 0 < rest.countP (·.span.covers byte) := List.countP_pos_iff.mpr ⟨b, hb, hbyte⟩
        have hle := h byte
        rw [List.countP_cons, if_pos ha] at hle
        omega
      · intro byte
        have hle := h byte
        rw [List.countP_cons] at hle
        omega
    · rintro ⟨ha, hrest⟩ byte
      by_cases hbyte : a.span.covers byte
      · have hnone : rest.countP (·.span.covers byte) = 0 :=
          List.countP_eq_zero.mpr fun b hb hcovers => ha b hb byte ⟨hbyte, hcovers⟩
        have hone : (a :: rest).countP (·.span.covers byte) = 1 := by
          rw [List.countP_cons, if_pos hbyte, hnone]
        exact Nat.le_of_eq hone
      · rw [List.countP_cons, if_neg hbyte]
        exact hrest byte

/-- Each span ends where one that stands before it starts, or earlier. -/
theorem pairwise_stop_le_of_neighboursApart (hnonempty : ∀ r ∈ all, r.span.start < r.span.stop)
    (hsorted : all.Pairwise (·.span.start ≥ ·.span.start)) (h : neighboursApart all) :
    all.Pairwise fun a b => b.span.stop ≤ a.span.start := by
  induction all with
  | nil => exact .nil
  | cons a rest ih =>
    obtain ⟨ha, hnonempty⟩ := List.forall_mem_cons.mp hnonempty
    obtain ⟨hstarts, hsorted⟩ := List.pairwise_cons.mp hsorted
    cases rest with
    | nil => exact List.pairwise_singleton _ a
    | cons b rest =>
      rw [neighboursApart, Bool.and_eq_true] at h
      have hrest := ih hnonempty hsorted h.2
      have hstart : b.span.start ≤ a.span.start := hstarts b List.mem_cons_self
      have hnonemptyb : b.span.start < b.span.stop := hnonempty b List.mem_cons_self
      have hab : b.span.stop ≤ a.span.start := by
        have hnot := h.1
        simp only [Span.overlaps, Bool.not_eq_true', Bool.and_eq_false_iff,
          decide_eq_false_iff_not, Nat.not_lt] at hnot
        omega
      refine List.pairwise_cons.mpr ⟨?_, hrest⟩
      intro x hx
      rcases List.mem_cons.mp hx with rfl | hx
      · exact hab
      · have hbx : x.span.stop ≤ b.span.start := (List.pairwise_cons.mp hrest).1 x hx
        omega

theorem neighboursApart_of_pairwise (h : all.Pairwise fun a b => ¬ a.span.overlaps b.span) :
    neighboursApart all := by
  induction all with
  | nil => rfl
  | cons a rest ih =>
    obtain ⟨ha, hrest⟩ := List.pairwise_cons.mp h
    cases rest with
    | nil => rfl
    | cons b rest =>
      rw [neighboursApart, ih hrest, Bool.and_true, Bool.not_eq_true', Bool.eq_false_iff]
      exact ha b List.mem_cons_self

/-- In a sorted list it is enough to compare neighbours. -/
theorem neighboursApart_iff_pairwise (hnonempty : ∀ r ∈ all, r.span.start < r.span.stop)
    (hsorted : all.Pairwise (·.span.start ≥ ·.span.start)) :
    neighboursApart all ↔ all.Pairwise SharesNoByte := by
  constructor
  · intro h
    refine (pairwise_stop_le_of_neighboursApart hnonempty hsorted h).imp ?_
    rintro a b hab byte ⟨ha, hb⟩
    rw [Span.covers_iff] at ha hb
    omega
  · intro h
    refine neighboursApart_of_pairwise (h.imp_of_mem ?_)
    intro a b ha hb hnone hoverlaps
    obtain ⟨byte, hbyte⟩ :=
      (Span.overlaps_iff_exists_covers (hnonempty a ha) (hnonempty b hb)).mp hoverlaps
    exact hnone byte hbyte

/-- The two outer spans share a byte, but the empty one keeps them from being neighbours. -/
example : neighboursApart [⟨⟨5, 8⟩, ""⟩, ⟨⟨5, 5⟩, ""⟩, ⟨⟨5, 7⟩, ""⟩] := by decide

/-- Among replacements of spans that are not empty, no two neighbours overlap in
the order in which they are carried out exactly when no byte belongs to two of the
spans. Where spans start together, the check comes out the same in either order. -/
theorem neighbours_apart_iff_covered_once (all : List Replacement)
    (hnonempty : ∀ r ∈ all, r.span.start < r.span.stop) :
    (neighboursApart (descending all) ↔ ∀ byte, all.countP (·.span.covers byte) ≤ 1) ∧
    ∀ sorted, sorted.Perm all → sorted.Pairwise (·.span.start ≥ ·.span.start) →
      neighboursApart sorted = neighboursApart (descending all) := by
  have hcovered : ∀ sorted, sorted.Perm all → sorted.Pairwise (·.span.start ≥ ·.span.start) →
      (neighboursApart sorted ↔ ∀ byte, all.countP (·.span.covers byte) ≤ 1) := by
    intro sorted hperm hsorted
    have hnonempty : ∀ r ∈ sorted, r.span.start < r.span.stop := fun r hr =>
      hnonempty r (hperm.mem_iff.mp hr)
    rw [neighboursApart_iff_pairwise hnonempty hsorted, ← forall_countP_covers_le_one_iff]
    simp only [hperm.countP_eq]
  have hdescending :=
    hcovered (descending all) (List.mergeSort_perm _ _) (pairwise_descending all)
  refine ⟨hdescending, ?_⟩
  intro sorted hperm hsorted
  rw [Bool.eq_iff_iff, hcovered sorted hperm hsorted, hdescending]

/-- A span that holds two others, and three spans that follow one another. -/
theorem neighbours_apart_iff_covered_once_nested :
    let nested : List Replacement := [⟨⟨0, 10⟩, "a"⟩, ⟨⟨6, 8⟩, ""⟩, ⟨⟨2, 4⟩, "b"⟩]
    let following : List Replacement := [⟨⟨4, 6⟩, "x"⟩, ⟨⟨0, 1⟩, ""⟩, ⟨⟨1, 4⟩, "y"⟩]
    (∀ r ∈ nested ++ following, r.span.start < r.span.stop) ∧
      nested.countP (·.span.covers 3) = 2 ∧ ¬ neighboursApart (descending nested) ∧
      neighboursApart (descending following) ∧
      ∀ byte, following.countP (·.span.covers byte) ≤ 1 := by
  intro nested following
  have hnonempty : ∀ r ∈ nested ++ following, r.span.start < r.span.stop := by decide
  obtain ⟨hnested, hfollowing⟩ := List.forall_mem_append.mp hnonempty
  have htwice : nested.countP (·.span.covers 3) = 2 := by decide
  have hsorted : descending following = [⟨⟨4, 6⟩, "x"⟩, ⟨⟨1, 4⟩, "y"⟩, ⟨⟨0, 1⟩, ""⟩] :=
    descending_eq_of_perm (by decide) (by decide)
  have hapart : neighboursApart (descending following) := by
    rw [hsorted]
    decide
  refine ⟨hnonempty, htwice, ?_, hapart, ?_⟩
  · intro h
    have hle := (neighbours_apart_iff_covered_once nested hnested).1.mp h 3
    omega
  · exact (neighbours_apart_iff_covered_once following hfollowing).1.mp hapart

end Substitution

end DeferredMarkup
