import DeferredMarkup.Proofs.WellNested
import Mathlib.Data.Nat.Find

/-!
Tags that a sequence of marks opens and does not close. The spine of such a
sequence splits it at these tags into well nested stretches, and its positions
are what a stack of open tags has to hold. When the whole sequence is well
nested, a tag is open at a position exactly if its close still follows.
-/
namespace DeferredMarkup.Nesting

/-- A tag that was opened at a position and has no close. -/
def StillOpen (ms : List Mark) (category : Category) (i : Nat) : Prop :=
  (∃ name classes, ms[i]? = some (.opening category name classes)) ∧
    ∀ j, ¬ TagPair ms category i j

/-- The open tag of a category that was opened last. -/
def Innermost (ms : List Mark) (category : Category) (i : Nat) : Prop :=
  StillOpen ms category i ∧ ∀ j, StillOpen ms category j → j ≤ i

/-- A position between an opening tag of a category and its close. -/
def Inside (ms : List Mark) (category : Category) (k : Nat) : Prop :=
  ∃ i j, i < k ∧ k < j ∧ TagPair ms category i j

section

variable {ms ns : List Mark} {category category' : Category} {i j k : Nat}

theorem StillOpen.lt_length (h : StillOpen ms category i) : i < ms.length := by
  obtain ⟨⟨_, _, hopen⟩, _⟩ := h
  exact (List.getElem?_eq_some_iff.mp hopen).1

theorem Innermost.unique (h : Innermost ms category i) (h' : Innermost ms category j) : i = j :=
  Nat.le_antisymm (h'.2 i h.1) (h.2 j h'.1)

/-- Wherever a tag of a category is open, one of them was opened last. -/
theorem exists_innermost (h : StillOpen ms category i) : ∃ j, Innermost ms category j := by
  classical
  have hi : i ≤ ms.length := Nat.le_of_lt h.lt_length
  refine ⟨Nat.findGreatest (StillOpen ms category) ms.length, Nat.findGreatest_spec hi h, ?_⟩
  intro j hj
  exact Nat.le_findGreatest (Nat.le_of_lt hj.lt_length) hj

/-- In well nested marks the tags open at a position are those whose close
stands at that position or behind it. -/
theorem stillOpen_take_iff (hms : WellNested ms) :
    StillOpen (ms.take k) category i ↔ i < k ∧ ∃ j, k ≤ j ∧ TagPair ms category i j := by
  constructor
  · intro h
    obtain ⟨⟨name, classes, hopen⟩, hnone⟩ := h
    have hik := (List.getElem?_eq_some_iff.mp hopen).1
    simp only [List.length_take] at hik
    rw [List.getElem?_take_of_lt (by omega)] at hopen
    obtain ⟨hi, _⟩ := List.getElem?_eq_some_iff.mp hopen
    obtain ⟨j, hpair⟩ := (hms.paired i hi).closed hopen
    refine ⟨by omega, j, ?_, hpair⟩
    by_contra hj
    exact hnone j ((TagPair.take_iff (by omega)).mpr hpair)
  · intro h
    obtain ⟨hik, j, hkj, hpair⟩ := h
    obtain ⟨name, classes, _, hopen, _, _⟩ := id hpair
    refine ⟨⟨name, classes, by rwa [List.getElem?_take_of_lt hik]⟩, ?_⟩
    intro j' hpair'
    have hj' := hpair'.lt_length
    simp only [List.length_take] at hj'
    have hpair' := (TagPair.take_iff (by omega)).mp hpair'
    have := hpair.close_unique hpair'
    omega

/-- The tag of a close in well nested marks was opened last of all that are open
before it. One opened later would have its close before this one. -/
theorem exists_last_opened {rest : List Mark} {name : String}
    (hms : WellNested (ms ++ .closing category name :: rest)) :
    ∃ i classes, ms[i]? = some (.opening category name classes) ∧ StillOpen ms category i ∧
      ∀ c j, StillOpen ms c j → j ≤ i := by
  have htake : (ms ++ .closing category name :: rest).take ms.length = ms := List.take_left
  have hhere : (ms ++ .closing category name :: rest)[ms.length]? =
      some (.closing category name) := by simp
  obtain ⟨i, hpair⟩ := (hms.paired ms.length (by simp)).opened hhere
  have hopen := (stillOpen_take_iff hms).mpr ⟨hpair.lt, ms.length, Nat.le_refl _, hpair⟩
  rw [htake] at hopen
  obtain ⟨name', classes, hlt, hget, hclose, _⟩ := id hpair
  cases hhere.symm.trans hclose
  rw [List.getElem?_append_left hlt] at hget
  refine ⟨i, classes, hget, hopen, ?_⟩
  intro c j hj
  rw [← htake] at hj
  obtain ⟨hlen, k, hk, hpair'⟩ := (stillOpen_take_iff hms).mp hj
  by_contra hlater
  have := hpair.close_inside hpair' (by omega) hlen
  omega

/-- A mark that closes nothing stands inside a pair if a tag is open before it. -/
theorem inside_iff (hms : WellNested ms) (hk : ∀ c name, ms[k]? ≠ some (.closing c name)) :
    Inside ms category k ↔ ∃ i, StillOpen (ms.take k) category i := by
  constructor
  · intro h
    obtain ⟨i, j, hik, hkj, hpair⟩ := h
    exact ⟨i, (stillOpen_take_iff hms).mpr ⟨hik, j, Nat.le_of_lt hkj, hpair⟩⟩
  · intro h
    obtain ⟨i, hopen⟩ := h
    obtain ⟨hik, j, hkj, hpair⟩ := (stillOpen_take_iff hms).mp hopen
    refine ⟨i, j, hik, Nat.lt_of_le_of_ne hkj ?_, hpair⟩
    intro hkj
    subst hkj
    obtain ⟨name, _, _, _, hclose, _⟩ := hpair
    exact hk _ _ hclose

end

/-- The positions of the open tags of a sequence of marks, innermost first.
Between and behind them all marks are well nested. -/
inductive Spine : List Mark → List Nat → Prop
  | flat {ms : List Mark} : WellNested ms → Spine ms []
  | opened {ms inner : List Mark} {stack : List Nat} {category : Category} {name : String}
      {classes : List String} :
      Spine ms stack → WellNested inner →
        Spine (ms ++ .opening category name classes :: inner) (ms.length :: stack)

namespace Spine

variable {ms ns : List Mark} {stack : List Nat} {category : Category} {name : String}
  {classes : List String} {i : Nat}

theorem append_wellNested (h : Spine ms stack) (hns : WellNested ns) :
    Spine (ms ++ ns) stack := by
  cases h with
  | flat hms => exact .flat (hms.append hns)
  | opened h hinner =>
    rw [List.append_assoc, List.cons_append]
    exact .opened h (hinner.append hns)

theorem append_opening (h : Spine ms stack) :
    Spine (ms ++ [.opening category name classes]) (ms.length :: stack) :=
  .opened h .nil

/-- A close with the name and category of the innermost open tag belongs to it. -/
theorem append_closing (h : Spine ms (i :: stack))
    (hi : ms[i]? = some (.opening category name classes)) :
    Spine (ms ++ [.closing category name]) stack ∧
      TagPair (ms ++ [.closing category name]) category i ms.length := by
  cases h with
  | @opened ms inner _ category' name' classes' h hinner =>
    simp only [List.getElem?_append_right (Nat.le_refl _), Nat.sub_self,
      List.getElem?_cons_zero, Option.some.injEq, Mark.opening.injEq] at hi
    obtain ⟨rfl, rfl, rfl⟩ := hi
    constructor
    · rw [List.append_assoc, List.cons_append]
      exact h.append_wellNested (.pair hinner .nil)
    · have haround : TagPair (.opening category' name' classes' ::
          (inner ++ [.closing category' name'])) category' 0 (inner.length + 1) :=
        .around name' classes' [] hinner
      simpa [Nat.add_assoc] using haround.prepend ms

theorem lt_length (h : Spine ms stack) : ∀ i ∈ stack, i < ms.length := by
  induction h with
  | flat => simp
  | opened _ _ ih =>
    intro i hi
    rcases List.mem_cons.mp hi with rfl | hi
    · simp
    · have := ih i hi
      simp only [List.length_append]
      omega

/-- The innermost tag was opened last. -/
theorem descending (h : Spine ms stack) : stack.Pairwise (· > ·) := by
  induction h with
  | flat => exact .nil
  | opened h _ ih => exact .cons h.lt_length ih

/-- No close in well nested marks belongs to the tag that stands before them
or to one further out. -/
private theorem not_tagPair_across {ms inner : List Mark} {category category' : Category}
    {name : String} {classes : List String} {i j : Nat} (hinner : WellNested inner)
    (hi : i ≤ ms.length) (hj : ms.length ≤ j) :
    ¬ TagPair (ms ++ .opening category name classes :: inner) category' i j := by
  intro h
  obtain ⟨name', classes', hij, hopen, hclose, hbetween⟩ := h
  obtain ⟨k, rfl⟩ := Nat.exists_eq_add_of_le hj
  rw [List.getElem?_append_right (by omega), Nat.add_sub_cancel_left] at hclose
  cases k with
  | zero => simp at hclose
  | succ k =>
    rw [List.take_length_add_append, List.take_succ_cons] at hbetween
    have hnonneg := hinner.depth_take_nonneg k
    rcases Nat.eq_or_lt_of_le hi with rfl | hlt
    · -- The marks up to the close are a prefix of `inner`, and with the close a longer one.
      have hwhole : (ms ++ .opening category name classes :: inner.take k).drop (ms.length + 1) =
          inner.take k := by
        rw [List.drop_length_add_append, List.drop_succ_cons, List.drop_zero]
      rw [hwhole] at hbetween
      have hnext := hinner.depth_take_nonneg (k + 1)
      rw [List.getElem?_cons_succ] at hclose
      rw [List.take_add_one, hclose] at hnext
      simp [rise, hbetween.depth_eq_zero] at hnext
    · have hnonpos := hbetween.depth_drop_nonpos (ms.length - (i + 1))
      rw [List.drop_drop, show i + 1 + (ms.length - (i + 1)) = ms.length by omega,
        List.drop_left] at hnonpos
      simp only [depth_cons, rise] at hnonpos
      omega

/-- The spine holds the open tags and no other positions. -/
theorem mem_iff (h : Spine ms stack) : i ∈ stack ↔ ∃ c, StillOpen ms c i := by
  induction h with
  | flat hms =>
    constructor
    · simp
    · intro h
      obtain ⟨c, ⟨name, classes, hopen⟩, hnone⟩ := h
      obtain ⟨hi, _⟩ := List.getElem?_eq_some_iff.mp hopen
      obtain ⟨j, hj⟩ := (hms.paired i hi).closed hopen
      exact absurd hj (hnone j)
  | @opened ms inner stack category name classes h hinner ih =>
    rcases Nat.lt_trichotomy i ms.length with hlt | rfl | hgt
    · rw [List.mem_cons, or_iff_right (by omega), ih]
      refine exists_congr fun c => ?_
      unfold StillOpen
      rw [List.getElem?_append_left hlt]
      refine and_congr_right fun _ => forall_congr' fun j => ?_
      rcases Nat.lt_or_ge j ms.length with hj | hj
      · rw [TagPair.append_iff hj]
      · refine not_congr ⟨fun hpair => ?_, fun hpair => ?_⟩
        · exact absurd hpair.lt_length (by omega)
        · exact absurd hpair (not_tagPair_across hinner (by omega) hj)
    · refine iff_of_true List.mem_cons_self
        ⟨category, ⟨name, classes, by simp⟩, fun j hpair => ?_⟩
      exact not_tagPair_across hinner (Nat.le_refl _) (Nat.le_of_lt hpair.lt) hpair
    · refine iff_of_false ?_ ?_
      · intro hi
        rcases List.mem_cons.mp hi with rfl | hi
        · omega
        · have := h.lt_length i hi
          omega
      · intro hstill
        obtain ⟨c, ⟨name', classes', hopen⟩, hnone⟩ := hstill
        obtain ⟨k, rfl⟩ := Nat.exists_eq_add_of_lt hgt
        rw [List.getElem?_append_right (by omega),
          show ms.length + k + 1 - ms.length = k + 1 by omega, List.getElem?_cons_succ] at hopen
        obtain ⟨hk, _⟩ := List.getElem?_eq_some_iff.mp hopen
        obtain ⟨j, hj⟩ := (hinner.paired k hk).closed hopen
        apply hnone (ms.length + (1 + j))
        have := (hj.prepend [.opening category name classes]).prepend ms
        simpa [Nat.add_comm 1 k, Nat.add_assoc] using this

theorem wellNested (h : Spine ms []) : WellNested ms := by
  cases h with
  | flat h => exact h

end Spine

end DeferredMarkup.Nesting
