import DeferredMarkup.Proofs.Occurrences
import Mathlib.Data.List.Induction
import Mathlib.Data.List.Pairwise

/-!
Points filled at once. Replacing one point after another, each in the result of
those before, is not the same as filling all of them in one pass that leaves
inserted text alone. The two agree as long as no point comes up, in inserted
text or where it meets the rest, whose turn is still to come.
-/
namespace DeferredMarkup

open Occurrence

/-- A point and the text that is to take its place. -/
structure Insertion where
  point : List Char
  text : List Char

namespace Filling

/-- Fills the points of a text from left to right, of which `skip` more
characters belong to the point that was filled last. -/
def fillFrom (table : List Insertion) : Nat → List Char → List Char
  | _, [] => []
  | skip + 1, _ :: rest => fillFrom table skip rest
  | 0, c :: rest =>
    match table.find? (·.point.isPrefixOf (c :: rest)) with
    | some i => i.text ++ fillFrom table (i.point.length - 1) rest
    | none => c :: fillFrom table 0 rest

/-- The text with all its points filled, in a pass over the text alone. -/
def fillAtOnce (table : List Insertion) (text : List Char) : List Char := fillFrom table 0 text

/-- Points that can be told apart wherever they begin. -/
structure Apart (table : List Insertion) : Prop where
  anchored : ∀ i ∈ table, Anchored i.point
  unlike : table.Pairwise fun i j => ¬ i.point <+: j.point ∧ ¬ j.point <+: i.point

variable {table : List Insertion} {i j : Insertion} {text front back rest : List Char} {c : Char}

namespace Apart

theorem eq_of_begins (h : Apart table) (hi : i ∈ table) (hj : j ∈ table)
    (hbegins : i.point <+: text) (hbegins' : j.point <+: text) : i = j := by
  have hsymm : Std.Symm fun i j : Insertion =>
      ¬ i.point <+: j.point ∧ ¬ j.point <+: i.point := ⟨fun _ _ h => ⟨h.2, h.1⟩⟩
  by_contra hne
  obtain ⟨hnot, hnot'⟩ := h.unlike.forall hi hj hne
  rcases List.prefix_or_prefix_of_prefix hbegins hbegins' with hij | hji
  · exact hnot hij
  · exact hnot' hji

theorem of_append {later : List Insertion} (h : Apart (table ++ later)) : Apart table where
  anchored := fun j hj => h.anchored j (List.mem_append_left later hj)
  unlike := (List.pairwise_append.mp h.unlike).1

/-- No point but its own begins where the last one does. -/
theorem not_begins (h : Apart (table ++ [i])) (hi : i.point <+: text) (hj : j ∈ table) :
    ¬ j.point <+: text := by
  intro hbegins
  obtain ⟨_, _, hcross⟩ := List.pairwise_append.mp h.unlike
  obtain ⟨hnot, hnot'⟩ := hcross j hj i (List.mem_singleton_self i)
  rcases List.prefix_or_prefix_of_prefix hbegins hi with hji | hij
  · exact hnot hji
  · exact hnot' hij

end Apart

theorem fillFrom_eq (table : List Insertion) (skip : Nat) (text : List Char) :
    fillFrom table skip text = fillAtOnce table (text.drop skip) := by
  induction text generalizing skip with
  | nil => simp [fillFrom, fillAtOnce]
  | cons c rest ih =>
    cases skip with
    | zero => rfl
    | succ skip => rw [fillFrom, ih, List.drop_succ_cons]

theorem fillAtOnce_cons (h : ∀ i ∈ table, ¬ i.point <+: c :: rest) :
    fillAtOnce table (c :: rest) = c :: fillAtOnce table rest := by
  have hnone : table.find? (·.point.isPrefixOf (c :: rest)) = none := by
    rw [List.find?_eq_none]
    intro i hi
    rw [List.isPrefixOf_iff_prefix]
    exact h i hi
  rw [fillAtOnce, fillFrom, hnone]
  rfl

theorem fillAtOnce_point (h : Apart table) (hi : i ∈ table) (rest : List Char) :
    fillAtOnce table (i.point ++ rest) = i.text ++ fillAtOnce table rest := by
  have hbegins : i.point <+: i.point ++ rest := List.prefix_append ..
  obtain ⟨c, tail, hpoint⟩ := List.exists_cons_of_ne_nil (h.anchored i hi).ne_nil
  have hfind : table.find? (·.point.isPrefixOf (i.point ++ rest)) = some i := by
    obtain ⟨j, hj⟩ : ∃ j, table.find? (·.point.isPrefixOf (i.point ++ rest)) = some j := by
      rw [← Option.isSome_iff_exists, List.find?_isSome]
      exact ⟨i, hi, List.isPrefixOf_iff_prefix.mpr hbegins⟩
    have hbegins' := List.find?_some hj
    rw [List.isPrefixOf_iff_prefix] at hbegins'
    rw [hj, h.eq_of_begins hi (List.mem_of_find?_eq_some hj) hbegins hbegins']
  rw [hpoint, List.cons_append] at hfind ⊢
  rw [fillAtOnce, fillFrom, hfind]
  simp only
  rw [fillFrom_eq, hpoint, List.length_cons, Nat.add_sub_cancel, List.drop_left]

/-- Nothing is filled where no dollar sign is. -/
theorem fillAtOnce_append (hanchored : ∀ i ∈ table, Anchored i.point) (hfront : '$' ∉ front)
    (back : List Char) : fillAtOnce table (front ++ back) = front ++ fillAtOnce table back := by
  induction front with
  | nil => rfl
  | cons c front ih =>
    rw [List.mem_cons, not_or] at hfront
    rw [List.cons_append, fillAtOnce_cons fun i hi =>
      (hanchored i hi).not_begins (Ne.symm hfront.1), ih hfront.2, List.cons_append]

/-- A spelling that is not in the table stays as it is. -/
theorem fillAtOnce_other (h : Apart (table ++ [i])) (rest : List Char) :
    fillAtOnce table (i.point ++ rest) = i.point ++ fillAtOnce table rest := by
  obtain ⟨tail, hpoint, htail⟩ := h.anchored i (by simp)
  have hnot : ∀ j ∈ table, ¬ j.point <+: '$' :: (tail ++ rest) := by
    intro j hj
    refine h.not_begins ?_ hj
    rw [hpoint, ← List.cons_append]
    exact List.prefix_append ..
  rw [hpoint, List.cons_append, fillAtOnce_cons hnot,
    fillAtOnce_append h.of_append.anchored htail, List.cons_append]

/-- A text consists of points and of characters at which no point begins. -/
@[elab_as_elim]
theorem pieces_induction {motive : List Char → Prop} (table : List Insertion)
    (hanchored : ∀ i ∈ table, Anchored i.point) (nil : motive [])
    (point : ∀ i ∈ table, ∀ rest, motive rest → motive (i.point ++ rest))
    (char : ∀ c rest, (∀ i ∈ table, ¬ i.point <+: c :: rest) → motive rest → motive (c :: rest))
    (text : List Char) : motive text := by
  induction hlen : text.length using Nat.strongRecOn generalizing text with
  | _ n ih =>
    by_cases hpoint : ∃ i ∈ table, i.point <+: text
    · obtain ⟨i, hi, rest, rfl⟩ := hpoint
      have hpos := List.length_pos_iff.mpr (hanchored i hi).ne_nil
      rw [List.length_append] at hlen
      exact point i hi rest (ih rest.length (by omega) rest rfl)
    · cases text with
      | nil => exact nil
      | cons c rest =>
        have hnot : ∀ i ∈ table, ¬ i.point <+: c :: rest :=
          fun i hi hbegins => hpoint ⟨i, hi, hbegins⟩
        rw [List.length_cons] at hlen
        exact char c rest hnot (ih rest.length (by omega) rest rfl)

/-- Another point holds no occurrence of the last one, and none begins there. -/
theorem count_point (h : Apart (table ++ [i])) (hj : j ∈ table) (rest : List Char) :
    count i.point (j.point ++ rest) = count i.point rest := by
  have hnot : ¬ i.point <+: j.point ++ rest :=
    fun hi => h.not_begins hi hj (List.prefix_append ..)
  exact (h.anchored i (by simp)).count_other (h.anchored j (List.mem_append_left _ hj)) hnot

/-- Filling other points takes away none of the occurrences of a point. -/
theorem count_le_fillAtOnce (h : Apart (table ++ [i])) (text : List Char) :
    count i.point text ≤ count i.point (fillAtOnce table text) := by
  have hanchored : Anchored i.point := h.anchored i (by simp)
  induction text using pieces_induction (table ++ [i]) h.anchored with
  | nil => exact Nat.le_refl _
  | point j hj rest ih =>
    rcases List.mem_append.mp hj with hj | hj
    · rw [count_point h hj, fillAtOnce_point h.of_append hj]
      exact Nat.le_trans ih (count_le_append ..)
    · obtain rfl := List.mem_singleton.mp hj
      rw [fillAtOnce_other h, hanchored.count_word, hanchored.count_word]
      omega
  | char c rest hnot ih =>
    rw [count_cons_eq_iff.mpr (hnot i (by simp)),
      fillAtOnce_cons fun j hj => hnot j (List.mem_append_left _ hj)]
    exact Nat.le_trans ih (count_cons_le ..)

/-- Replacing one more point, after others were filled at once, fills all of them
at once when the point occurs no more often than in the text itself. -/
theorem replaceAll_fillAtOnce (h : Apart (table ++ [i])) {text : List Char}
    (hcount : count i.point (fillAtOnce table text) = count i.point text) :
    replaceAll i.point i.text (fillAtOnce table text) = fillAtOnce (table ++ [i]) text := by
  have hanchored : Anchored i.point := h.anchored i (by simp)
  induction text using pieces_induction (table ++ [i]) h.anchored with
  | nil => rfl
  | point j hj rest ih =>
    have hle := count_le_fillAtOnce h rest
    rw [fillAtOnce_point h hj]
    rcases List.mem_append.mp hj with hj | hj
    · have hfront := count_le_append i.point j.text (fillAtOnce table rest)
      rw [count_point h hj, fillAtOnce_point h.of_append hj] at hcount
      rw [fillAtOnce_point h.of_append hj, replaceAll_append (by omega), ih (by omega)]
    · obtain rfl := List.mem_singleton.mp hj
      rw [fillAtOnce_other h, hanchored.count_word, hanchored.count_word] at hcount
      rw [fillAtOnce_other h, replaceAll_word hanchored.ne_nil, ih (by omega)]
  | char c rest hnot ih =>
    have hle := count_le_fillAtOnce h rest
    have hcons := count_cons_le i.point c (fillAtOnce table rest)
    have hnone : ∀ j ∈ table, ¬ j.point <+: c :: rest :=
      fun j hj => hnot j (List.mem_append_left _ hj)
    rw [count_cons_eq_iff.mpr (hnot i (by simp)), fillAtOnce_cons hnone] at hcount
    have hnext : ¬ i.point <+: c :: fillAtOnce table rest := count_cons_eq_iff.mp (by omega)
    rw [fillAtOnce_cons hnone, fillAtOnce_cons hnot, replaceAll_cons hnext, ih (by omega)]

/-- Whichever point of the table comes next, no further occurrence of it comes up
when those before it are filled at once. -/
def Settled (table : List Insertion) (text : List Char) : Prop :=
  ∀ earlier i later, table = earlier ++ i :: later →
    count i.point (fillAtOnce earlier text) = count i.point text

/-- The passes over a text, one for each point. -/
def fillInTurn (table : List Insertion) (text : List Char) : List Char :=
  table.foldl (fun text i => replaceAll i.point i.text text) text

theorem fillAtOnce_nil (text : List Char) : fillAtOnce [] text = text := by
  induction text with
  | nil => rfl
  | cons c rest ih => rw [fillAtOnce_cons fun i hi => absurd hi List.not_mem_nil, ih]

theorem fillInTurn_eq (h : Apart table) (hsettled : Settled table text) :
    fillInTurn table text = fillAtOnce table text := by
  induction table using List.reverseRecOn with
  | nil => exact (fillAtOnce_nil text).symm
  | append_singleton table i ih =>
    have hearlier : Settled table text := by
      intro earlier j later htable
      exact hsettled earlier j (later ++ [i]) (by rw [htable, List.append_assoc]; rfl)
    rw [fillInTurn, List.foldl_concat]
    show replaceAll i.point i.text (fillInTurn table text) = _
    rw [ih h.of_append hearlier, replaceAll_fillAtOnce h (hsettled table i [] rfl)]

/-- A text at whose ends no occurrence of a word can begin or end, and in which
there is none. -/
structure Inert (word text : List Char) : Prop where
  first : ∃ c rest, text = c :: rest ∧ c ∉ word
  last : ∃ rest c, text = rest ++ [c] ∧ c ∉ word
  none : count word text = 0

variable {word : List Char}

theorem count_of_last (hword : word ≠ []) (hc : c ∉ word) (h : count word (front ++ [c]) = 0)
    (back : List Char) : count word (front ++ [c] ++ back) = count word back := by
  induction front with
  | nil =>
    refine count_cons_eq_iff.mpr ?_
    intro hbegins
    obtain ⟨first, tail, rfl⟩ := List.exists_cons_of_ne_nil hword
    exact hc (List.mem_cons.mpr (Or.inl (List.cons_prefix_cons.mp hbegins).1.symm))
  | cons first front ih =>
    have hle := count_cons_le word first (front ++ [c])
    rw [List.cons_append] at h
    have hnot : ¬ word <+: first :: (front ++ [c]) := count_cons_eq_iff.mp (by omega)
    have hnot' : ¬ word <+: first :: (front ++ [c] ++ back) := by
      intro hbegins
      have hpiece : first :: (front ++ [c]) <+: first :: (front ++ [c] ++ back) :=
        List.prefix_append (first :: (front ++ [c])) back
      rcases List.prefix_or_prefix_of_prefix hbegins hpiece with hshort | hlong
      · exact hnot hshort
      · exact hc (hlong.subset (by simp))
    rw [List.cons_append, List.cons_append, count_cons_eq_iff.mpr hnot', ih (by omega)]

theorem Inert.count_append (h : Inert word text) (hword : word ≠ []) (back : List Char) :
    count word (text ++ back) = count word back := by
  obtain ⟨rest, c, rfl, hc⟩ := h.last
  exact count_of_last hword hc h.none back

/-- What begins with characters of a word was there before inert texts came in. -/
theorem prefix_of_prefix_fillAtOnce (h : Apart table)
    (hinert : ∀ j ∈ table, count j.point text ≠ 0 → Inert word j.text) {start : List Char}
    (hstart : start ⊆ word) (hbegins : start <+: fillAtOnce table text) : start <+: text := by
  induction text using pieces_induction table h.anchored generalizing start with
  | nil => exact hbegins
  | point j hj rest ih =>
    cases start with
    | nil => exact List.nil_prefix
    | cons c start =>
      have hcount : count j.point (j.point ++ rest) ≠ 0 := by
        rw [(h.anchored j hj).count_word]
        exact Nat.succ_ne_zero _
      obtain ⟨first, tail, htext, hfirst⟩ := (hinert j hj hcount).first
      rw [fillAtOnce_point h hj, htext, List.cons_append, List.cons_prefix_cons] at hbegins
      exact absurd (hbegins.1 ▸ hstart List.mem_cons_self) hfirst
  | char c rest hnot ih =>
    cases start with
    | nil => exact List.nil_prefix
    | cons first start =>
      rw [fillAtOnce_cons hnot, List.cons_prefix_cons] at hbegins
      obtain ⟨rfl, hbegins⟩ := hbegins
      rw [List.cons_prefix_cons]
      refine ⟨rfl, ih ?_ (fun x hx => hstart (List.mem_cons_of_mem _ hx)) hbegins⟩
      intro j hj hcount
      refine hinert j hj ?_
      have := count_cons_le j.point first rest
      omega

/-- Inert texts bring up no further occurrence of a point. -/
theorem count_fillAtOnce (h : Apart (table ++ [i]))
    (hinert : ∀ j ∈ table, count j.point text ≠ 0 → Inert i.point j.text) :
    count i.point (fillAtOnce table text) = count i.point text := by
  have hanchored : Anchored i.point := h.anchored i (by simp)
  induction text using pieces_induction (table ++ [i]) h.anchored with
  | nil => rfl
  | point j hj rest ih =>
    have hrest : ∀ k ∈ table, count k.point rest ≠ 0 → Inert i.point k.text := by
      intro k hk hcount
      refine hinert k hk ?_
      have := count_le_append k.point j.point rest
      omega
    rcases List.mem_append.mp hj with hj | hj
    · have hcount : count j.point (j.point ++ rest) ≠ 0 := by
        rw [(h.of_append.anchored j hj).count_word]
        exact Nat.succ_ne_zero _
      rw [fillAtOnce_point h.of_append hj, (hinert j hj hcount).count_append hanchored.ne_nil,
        ih hrest, count_point h hj]
    · obtain rfl := List.mem_singleton.mp hj
      rw [fillAtOnce_other h, hanchored.count_word, hanchored.count_word, ih hrest]
  | char c rest hnot ih =>
    have hrest : ∀ k ∈ table, count k.point rest ≠ 0 → Inert i.point k.text := by
      intro k hk hcount
      refine hinert k hk ?_
      have := count_cons_le k.point c rest
      omega
    have hfilled : fillAtOnce table (c :: rest) = c :: fillAtOnce table rest :=
      fillAtOnce_cons fun j hj => hnot j (List.mem_append_left _ hj)
    have hnext : ¬ i.point <+: c :: fillAtOnce table rest := by
      intro hbegins
      rw [← hfilled] at hbegins
      exact hnot i (by simp)
        (prefix_of_prefix_fillAtOnce h.of_append hinert (List.Subset.refl _) hbegins)
    rw [hfilled, count_cons_eq_iff.mpr hnext, ih hrest, count_cons_eq_iff.mpr (hnot i (by simp))]

/-- It is enough that every text that is put in is inert for the points whose
turn is still to come. -/
theorem settled_of_inert (h : Apart table)
    (hinert : table.Pairwise fun j i => count j.point text ≠ 0 → Inert i.point j.text) :
    Settled table text := by
  intro earlier i later htable
  rw [← List.singleton_append, ← List.append_assoc] at htable
  rw [htable] at h hinert
  obtain ⟨_, _, hcross⟩ := List.pairwise_append.mp (List.pairwise_append.mp hinert).1
  exact count_fillAtOnce h.of_append fun j hj => hcross j hj i (List.mem_singleton_self i)

end Filling

end DeferredMarkup
