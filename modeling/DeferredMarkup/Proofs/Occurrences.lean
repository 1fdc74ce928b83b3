import DeferredMarkup.Page
import Mathlib.Data.List.Basic

/-!
Words in a text, told piece by piece. Replacing a word leaves a character at
which the word does not begin, and goes on behind the word where it does. The
words of interest are anchored: they begin with a dollar sign and hold no other,
so that none of them begins inside of another one.
-/
namespace DeferredMarkup.Occurrence

variable {word inserted text front back rest : List Char} {c : Char}

theorem replaceFrom_eq (word inserted done : List Char) (skip : Nat) (text : List Char) :
    replaceFrom word inserted done skip text =
      done.reverse ++ replaceAll word inserted (text.drop skip) := by
  induction text generalizing done skip with
  | nil => simp [replaceFrom, replaceAll]
  | cons c rest ih =>
    cases skip with
    | succ skip => rw [replaceFrom, ih, List.drop_succ_cons]
    | zero =>
      rw [List.drop_zero, replaceAll, replaceFrom, replaceFrom]
      by_cases h : word.isPrefixOf (c :: rest)
      · rw [if_pos h, if_pos h, ih, ih]
        simp
      · rw [if_neg h, if_neg h, ih, ih [c]]
        simp

@[simp] theorem replaceAll_nil (word inserted : List Char) :
    replaceAll word inserted [] = [] := rfl

theorem replaceAll_cons (h : ¬ word <+: c :: rest) :
    replaceAll word inserted (c :: rest) = c :: replaceAll word inserted rest := by
  rw [← List.isPrefixOf_iff_prefix] at h
  rw [replaceAll, replaceFrom, if_neg h, replaceFrom_eq]
  rfl

theorem replaceAll_word (hword : word ≠ []) (rest : List Char) :
    replaceAll word inserted (word ++ rest) = inserted ++ replaceAll word inserted rest := by
  obtain ⟨c, tail, rfl⟩ := List.exists_cons_of_ne_nil hword
  have h : (c :: tail).isPrefixOf (c :: (tail ++ rest)) :=
    List.isPrefixOf_iff_prefix.mpr (List.prefix_append (c :: tail) rest)
  rw [List.cons_append, replaceAll, replaceFrom, if_pos h, replaceFrom_eq, List.append_nil,
    List.reverse_reverse, List.length_cons, Nat.add_sub_cancel, List.drop_left]

/-- How often a word that is not empty occurs in a text. -/
def count (word : List Char) : List Char → Nat
  | [] => 0
  | c :: rest => count word rest + if word.isPrefixOf (c :: rest) then 1 else 0

theorem count_cons_le (word : List Char) (c : Char) (rest : List Char) :
    count word rest ≤ count word (c :: rest) := Nat.le_add_right ..

theorem count_cons_eq_iff : count word (c :: rest) = count word rest ↔ ¬ word <+: c :: rest := by
  rw [count, ← List.isPrefixOf_iff_prefix]
  by_cases h : word.isPrefixOf (c :: rest)
  · simp [h]
  · simp [h]

theorem count_le_append (word front back : List Char) :
    count word back ≤ count word (front ++ back) := by
  induction front with
  | nil => exact Nat.le_refl _
  | cons c front ih => exact Nat.le_trans ih (count_cons_le word c (front ++ back))

theorem count_eq_zero_of_not_occurs (h : occurs word text = false) : count word text = 0 := by
  induction text with
  | nil => rfl
  | cons c rest ih =>
    rw [occurs, Bool.or_eq_false_iff] at h
    simp [count, h.1, ih h.2]

/-- The front of a text is not touched when the word does not begin in it. -/
theorem replaceAll_append (h : count word (front ++ back) = count word back) :
    replaceAll word inserted (front ++ back) = front ++ replaceAll word inserted back := by
  induction front with
  | nil => rfl
  | cons c front ih =>
    have hle := count_le_append word front back
    have hcons := count_cons_le word c (front ++ back)
    rw [List.cons_append] at h
    have hfront : count word (front ++ back) = count word back := by omega
    have hnot : ¬ word <+: c :: (front ++ back) := count_cons_eq_iff.mp (by omega)
    rw [List.cons_append, replaceAll_cons hnot, ih hfront, List.cons_append]

theorem occurs_iff : occurs word text ↔ word <:+: text := by
  induction text with
  | nil => simp [occurs]
  | cons c rest ih =>
    rw [occurs, Bool.or_eq_true, List.isPrefixOf_iff_prefix, ih, List.infix_cons_iff]

/-- A text in which the word does not occur is not touched. -/
theorem replaceAll_of_not_occurring (h : ¬ word <:+: text) :
    replaceAll word inserted text = text := by
  rw [← occurs_iff, Bool.not_eq_true] at h
  have hcount : count word (text ++ []) = count word [] := by
    rw [List.append_nil, count_eq_zero_of_not_occurs h]
    rfl
  have hreplace : replaceAll word inserted (text ++ []) = text ++ replaceAll word inserted [] :=
    replaceAll_append hcount
  rwa [List.append_nil, replaceAll_nil, List.append_nil] at hreplace

/-- A word that begins with a dollar sign and holds no other. -/
def Anchored (word : List Char) : Prop := ∃ tail, word = '$' :: tail ∧ '$' ∉ tail

namespace Anchored

theorem ne_nil (h : Anchored word) : word ≠ [] := by
  obtain ⟨tail, rfl, _⟩ := h
  exact List.cons_ne_nil _ _

theorem not_begins (h : Anchored word) (hc : c ≠ '$') : ¬ word <+: c :: rest := by
  obtain ⟨tail, rfl, _⟩ := h
  intro hbegins
  exact hc (List.cons_prefix_cons.mp hbegins).1.symm

/-- An anchored word does not begin where there is no dollar sign. -/
theorem count_append (h : Anchored word) (hfront : '$' ∉ front) (back : List Char) :
    count word (front ++ back) = count word back := by
  induction front with
  | nil => rfl
  | cons c front ih =>
    rw [List.mem_cons, not_or] at hfront
    rw [List.cons_append, count_cons_eq_iff.mpr (h.not_begins (Ne.symm hfront.1)), ih hfront.2]

theorem count_word (h : Anchored word) (rest : List Char) :
    count word (word ++ rest) = count word rest + 1 := by
  have hbegins : word.isPrefixOf (word ++ rest) :=
    List.isPrefixOf_iff_prefix.mpr (List.prefix_append word rest)
  obtain ⟨tail, hword, htail⟩ := id h
  rw [hword, List.cons_append, count, ← hword, h.count_append htail, ← List.cons_append, ← hword,
    if_pos hbegins]

/-- Nor does it begin inside of another anchored word. -/
theorem count_other {other : List Char} (h : Anchored word) (hother : Anchored other)
    (hnot : ¬ word <+: other ++ rest) : count word (other ++ rest) = count word rest := by
  obtain ⟨tail, rfl, htail⟩ := hother
  rw [List.cons_append] at hnot ⊢
  rw [count_cons_eq_iff.mpr hnot, h.count_append htail]

end Anchored

end DeferredMarkup.Occurrence
