import DeferredMarkup.Registry
import DeferredMarkup.Substitution
import Mathlib.Data.List.Pairwise

/-!
The two sorts. A list that is strictly ascending is what sorting makes of its
permutations. Markers are sorted by offset and then by id, and replacements by
where they start, from the last one to the first.
-/
namespace DeferredMarkup

/-- Sorting has one result when no two members compare equal. -/
theorem mergeSort_eq_of_perm {α : Type} {le : α → α → Bool} {l l' : List α}
    (trans : ∀ a b c, le a b → le b c → le a c) (total : ∀ a b, le a b || le b a)
    (hperm : l.Perm l') (hstrict : l'.Pairwise fun a b => le a b ∧ ¬ le b a) :
    l.mergeSort le = l' := by
  have hsame : (l.mergeSort le).Perm l' := (List.mergeSort_perm l le).trans hperm
  have hsymm : Std.Symm fun a b => ¬ (le a b ∧ le b a) := ⟨fun a b h h' => h h'.symm⟩
  have hdistinct : l'.Pairwise fun a b => ¬ (le a b ∧ le b a) :=
    hstrict.imp fun h h' => h.2 h'.2
  refine List.Perm.eq_of_pairwise ?_ (List.pairwise_mergeSort trans total l)
    (hstrict.imp fun h => h.1) hsame
  intro a b ha hb hab hba
  by_contra hne
  exact hdistinct.forall (hsame.mem_iff.mp ha) hb hne ⟨hab, hba⟩

namespace Marker

theorem order_isLE_iff (a b : Marker) : (order a b).isLE ↔
    match a.offset, b.offset with
    | some x, some y => x < y ∨ x = y ∧ a.id.toNat ≤ b.id.toNat
    | some _, none => True
    | none, some _ => False
    | none, none => a.id.toNat ≤ b.id.toNat := by
  have hid : (compare a.id b.id).isLE ↔ a.id.toNat ≤ b.id.toNat := by
    rw [Std.isLE_compare, UInt16.le_iff_toNat_le]
  unfold order
  cases a.offset with
  | none =>
    cases b.offset with
    | none => exact hid
    | some y => simp
  | some x =>
    cases b.offset with
    | none => simp
    | some y =>
      simp [Ordering.isLE_then_iff_or, hid, Nat.compare_eq_lt]

/-- Document order is a total order, up to what a marker stands for. -/
instance : Std.TransCmp order where
  eq_swap {a b} := by
    unfold order
    cases a.offset with
    | none =>
      cases b.offset with
      | none => exact Std.OrientedOrd.eq_swap
      | some y => rfl
    | some x =>
      cases b.offset with
      | none => rfl
      | some y =>
        rw [Ordering.swap_then, ← Std.OrientedOrd.eq_swap, ← Std.OrientedOrd.eq_swap]
  isLE_trans {a b c} hab hbc := by
    rw [order_isLE_iff] at hab hbc ⊢
    cases ha : a.offset <;> cases hb : b.offset <;> cases hc : c.offset <;>
      simp only [ha, hb, hc] at hab hbc ⊢ <;> omega

private theorem order_trans (a b c : Marker) :
    (order a b).isLE → (order b c).isLE → (order a c).isLE := Std.TransCmp.isLE_trans

private theorem order_total (a b : Marker) : (order a b).isLE || (order b a).isLE := by
  rw [Bool.or_eq_true]
  by_cases h : (order a b).isLE
  · exact Or.inl h
  · exact Or.inr (by rw [Std.OrientedCmp.lt_of_not_isLE h]; rfl)

theorem pairwise_inDocumentOrder (markers : List Marker) :
    (inDocumentOrder markers).Pairwise fun a b => (order a b).isLE :=
  List.pairwise_mergeSort order_trans order_total markers

/-- Markers are put into the one order in which they ascend. -/
theorem inDocumentOrder_eq_of_perm {markers sorted : List Marker} (hperm : markers.Perm sorted)
    (hascending : sorted.Pairwise fun a b => order a b = .lt) :
    inDocumentOrder markers = sorted := by
  refine mergeSort_eq_of_perm order_trans order_total hperm (hascending.imp ?_)
  intro a b h
  exact ⟨by rw [h]; rfl, Std.OrientedCmp.not_isLE_of_lt h⟩

end Marker

namespace Substitution

variable {all sorted : List Replacement}

private theorem behind_trans (a b c : Replacement) :
    decide (b.span.start ≤ a.span.start) → decide (c.span.start ≤ b.span.start) →
      decide (c.span.start ≤ a.span.start) := by
  simp only [decide_eq_true_eq]
  omega

private theorem behind_total (a b : Replacement) :
    (decide (b.span.start ≤ a.span.start) || decide (a.span.start ≤ b.span.start)) := by
  simp only [Bool.or_eq_true, decide_eq_true_eq]
  omega

theorem pairwise_descending (all : List Replacement) :
    (descending all).Pairwise (·.span.start ≥ ·.span.start) :=
  (List.pairwise_mergeSort behind_trans behind_total all).imp fun h => of_decide_eq_true h

/-- Replacements are put into the one order in which their starts descend. -/
theorem descending_eq_of_perm (hperm : all.Perm sorted)
    (h : sorted.Pairwise (·.span.start > ·.span.start)) : descending all = sorted := by
  refine mergeSort_eq_of_perm behind_trans behind_total hperm (h.imp ?_)
  intro a b hab
  simp only [decide_eq_true_eq]
  omega

/-- Replacements that start further and further right are carried out in
reverse. -/
theorem descending_of_ascending (h : all.Pairwise (·.span.start < ·.span.start)) :
    descending all = all.reverse :=
  descending_eq_of_perm all.reverse_perm.symm (List.pairwise_reverse.mpr h)

end Substitution

end DeferredMarkup
