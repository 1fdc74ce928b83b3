import DeferredMarkup.Marker
import Mathlib.Data.List.Basic

/-!
The grammar of tags. Marks are well nested when every opening tag is followed
by well nested marks and then by a close with its name and category. The depth
of a sequence counts opening tags up and closes down. It never falls below zero
in a prefix of well nested marks, and so an opening tag has one close only.
-/
namespace DeferredMarkup.Nesting

/-- Stylers and atomic tags nest by themselves, opening tags with their close. -/
inductive WellNested : List Mark → Prop
  | nil : WellNested []
  | styler {target : Category} {direction : Direction} {className : String}
      {rest : List Mark} :
      WellNested rest → WellNested (.styler target direction className :: rest)
  | atomic {category : Category} {name : String} {classes : List String}
      {rest : List Mark} :
      WellNested rest → WellNested (.atomic category name classes :: rest)
  | pair {category : Category} {name : String} {classes : List String}
      {inner rest : List Mark} :
      WellNested inner → WellNested rest →
        WellNested (.opening category name classes :: (inner ++ .closing category name :: rest))

/-- How much deeper the nesting is behind a mark. -/
def rise : Mark → Int
  | .opening .. => 1
  | .atomic .. => 0
  | .closing .. => -1
  | .styler .. => 0

/-- How many tags a sequence of marks opens and does not close. -/
def depth : List Mark → Int
  | [] => 0
  | m :: ms => rise m + depth ms

@[simp] theorem depth_nil : depth [] = 0 := rfl

@[simp] theorem depth_cons (m : Mark) (ms : List Mark) :
    depth (m :: ms) = rise m + depth ms := rfl

@[simp] theorem depth_append (ms ns : List Mark) : depth (ms ++ ns) = depth ms + depth ns := by
  induction ms with
  | nil => simp
  | cons m ms ih =>
    rw [List.cons_append, depth_cons, depth_cons, ih]
    omega

namespace WellNested

variable {ms ns : List Mark}

theorem append (hms : WellNested ms) (hns : WellNested ns) : WellNested (ms ++ ns) := by
  induction hms with
  | nil => exact hns
  | styler _ ih => exact .styler ih
  | atomic _ ih => exact .atomic ih
  | pair hinner _ _ ih =>
    simp only [List.cons_append, List.append_assoc]
    exact .pair hinner ih

theorem depth_eq_zero (h : WellNested ms) : depth ms = 0 := by
  induction h with
  | nil => rfl
  | styler _ ih => simp [rise, ih]
  | atomic _ ih => simp [rise, ih]
  | pair _ _ ihInner ihRest => simp [rise, ihInner, ihRest]

/-- No prefix of well nested marks closes more tags than it opens. -/
theorem depth_take_nonneg (h : WellNested ms) (n : Nat) : 0 ≤ depth (ms.take n) := by
  induction h generalizing n with
  | nil => simp
  | styler _ ih =>
    cases n with
    | zero => simp
    | succ n => simpa [rise] using ih n
  | atomic _ ih =>
    cases n with
    | zero => simp
    | succ n => simpa [rise] using ih n
  | @pair category name classes inner rest hinner _ ihInner ihRest =>
    cases n with
    | zero => simp
    | succ n =>
      simp only [List.take_succ_cons, List.take_append, depth_cons, depth_append, rise]
      cases hk : n - inner.length with
      | zero =>
        have := ihInner n
        simp only [List.take_zero, depth_nil]
        omega
      | succ k =>
        have hall : inner.take n = inner := List.take_of_length_le (by omega)
        have := ihRest k
        simp only [hall, hinner.depth_eq_zero, List.take_succ_cons, depth_cons, rise]
        omega

/-- No suffix of well nested marks opens more tags than it closes. -/
theorem depth_drop_nonpos (h : WellNested ms) (n : Nat) : depth (ms.drop n) ≤ 0 := by
  have hsplit : depth (ms.take n) + depth (ms.drop n) = 0 := by
    rw [← depth_append, List.take_append_drop, h.depth_eq_zero]
  have := h.depth_take_nonneg n
  omega

end WellNested

/-- An opening tag and the close that belongs to it, at their positions. -/
inductive TagPair (ms : List Mark) (category : Category) (i j : Nat) : Prop
  | intro (name : String) (classes : List String) (lt : i < j)
      (opens : ms[i]? = some (.opening category name classes))
      (closes : ms[j]? = some (.closing category name))
      (inner : WellNested ((ms.take j).drop (i + 1)))

namespace TagPair

variable {ms ns : List Mark} {category category' : Category} {i i' j j' : Nat}

theorem lt (h : TagPair ms category i j) : i < j := by
  obtain ⟨_, _, hlt, _, _, _⟩ := h
  exact hlt

theorem lt_length (h : TagPair ms category i j) : j < ms.length := by
  obtain ⟨_, _, _, _, hclose, _⟩ := h
  exact (List.getElem?_eq_some_iff.mp hclose).1

/-- A pair depends on nothing behind its close. -/
theorem take_iff {n : Nat} (hj : j < n) :
    TagPair (ms.take n) category i j ↔ TagPair ms category i j := by
  have htake : (ms.take n).take j = ms.take j := by
    rw [List.take_take, Nat.min_eq_left (by omega)]
  constructor
  · intro h
    obtain ⟨name, classes, hlt, hopen, hclose, hinner⟩ := h
    rw [List.getElem?_take_of_lt (by omega)] at hopen hclose
    exact ⟨name, classes, hlt, hopen, hclose, htake ▸ hinner⟩
  · intro h
    obtain ⟨name, classes, hlt, hopen, hclose, hinner⟩ := h
    refine ⟨name, classes, hlt, ?_, ?_, htake.symm ▸ hinner⟩
    · rwa [List.getElem?_take_of_lt (by omega)]
    · rwa [List.getElem?_take_of_lt hj]

theorem append_iff (hj : j < ms.length) :
    TagPair (ms ++ ns) category i j ↔ TagPair ms category i j := by
  rw [← take_iff hj, List.take_left]

theorem append (h : TagPair ms category i j) : TagPair (ms ++ ns) category i j :=
  (append_iff h.lt_length).mpr h

theorem prepend (ms : List Mark) (h : TagPair ns category i j) :
    TagPair (ms ++ ns) category (ms.length + i) (ms.length + j) := by
  obtain ⟨name, classes, hlt, hopen, hclose, hinner⟩ := h
  refine ⟨name, classes, by omega, ?_, ?_, ?_⟩
  · rwa [List.getElem?_append_right (by omega), Nat.add_sub_cancel_left]
  · rwa [List.getElem?_append_right (by omega), Nat.add_sub_cancel_left]
  · rwa [List.take_length_add_append, Nat.add_assoc, List.drop_length_add_append]

/-- The tag that opens and closes at the two ends of well nested marks. -/
theorem around (name : String) (classes : List String) (ns : List Mark) (h : WellNested ms) :
    TagPair (.opening category name classes :: (ms ++ .closing category name :: ns)) category 0
      (ms.length + 1) := by
  refine ⟨name, classes, by omega, rfl, by simp, ?_⟩
  simpa using h

/-- An opening tag has one close only: well nested marks do not hold the close
of the tag before them. -/
theorem close_unique (h : TagPair ms category i j) (h' : TagPair ms category' i j') : j = j' := by
  have key : ∀ {c c' : Category} {j j' : Nat},
      TagPair ms c i j → TagPair ms c' i j' → ¬ j < j' := by
    intro c c' j j' h h' hjj
    obtain ⟨name, classes, hlt, hopen, hclose, hinner⟩ := h
    obtain ⟨_, _, _, _, _, hinner'⟩ := h'
    have htaken : ((ms.take j').drop (i + 1)).take (j - i) =
        (ms.take j).drop (i + 1) ++ [.closing c name] := by
      rw [List.take_drop, List.take_take, Nat.min_eq_left (by omega),
        show i + 1 + (j - i) = j + 1 by omega, List.take_add_one, hclose,
        List.drop_append_of_le_length (by
          have := (List.getElem?_eq_some_iff.mp hclose).1
          simp only [List.length_take]
          omega)]
      rfl
    have hnonneg := hinner'.depth_take_nonneg (j - i)
    rw [htaken] at hnonneg
    simp [rise, hinner.depth_eq_zero] at hnonneg
  have h₁ := key h h'
  have h₂ := key h' h
  omega

/-- A close belongs to one opening tag only. -/
theorem open_unique (h : TagPair ms category i j) (h' : TagPair ms category' i' j) : i = i' := by
  have key : ∀ {c c' : Category} {i i' : Nat},
      TagPair ms c i j → TagPair ms c' i' j → ¬ i < i' := by
    intro c c' i i' h h' hii
    obtain ⟨_, _, _, _, _, hinner⟩ := h
    obtain ⟨name, classes, hlt', hopen', _, hinner'⟩ := h'
    have hsuffix : ((ms.take j).drop (i + 1)).drop (i' - (i + 1)) =
        .opening c' name classes :: (ms.take j).drop (i' + 1) := by
      have hget : (ms.take j)[i']? = some (.opening c' name classes) := by
        rwa [List.getElem?_take_of_lt hlt']
      obtain ⟨hi', hget⟩ := List.getElem?_eq_some_iff.mp hget
      rw [List.drop_drop, show i + 1 + (i' - (i + 1)) = i' by omega,
        List.drop_eq_getElem_cons hi', hget]
    have hnonpos := hinner.depth_drop_nonpos (i' - (i + 1))
    rw [hsuffix] at hnonpos
    simp [rise, hinner'.depth_eq_zero] at hnonpos
  have h₁ := key h h'
  have h₂ := key h' h
  omega

end TagPair

/-- An opening tag or a close at a position has its counterpart. -/
structure Paired (ms : List Mark) (k : Nat) : Prop where
  closed : ∀ {category : Category} {name : String} {classes : List String},
    ms[k]? = some (.opening category name classes) → ∃ j, TagPair ms category k j
  opened : ∀ {category : Category} {name : String},
    ms[k]? = some (.closing category name) → ∃ i, TagPair ms category i k

namespace Paired

variable {ms : List Mark} {k : Nat}

/-- Counterparts stay counterparts when marks are put around them. -/
theorem within (before after : List Mark) (hk : k < ms.length) (h : Paired ms k) :
    Paired (before ++ (ms ++ after)) (before.length + k) := by
  have hget : (before ++ (ms ++ after))[before.length + k]? = ms[k]? := by
    rw [List.getElem?_append_right (by omega), Nat.add_sub_cancel_left,
      List.getElem?_append_left hk]
  constructor
  · intro category name classes hopen
    obtain ⟨j, hj⟩ := h.closed (hget ▸ hopen)
    exact ⟨_, hj.append.prepend before⟩
  · intro category name hclose
    obtain ⟨i, hi⟩ := h.opened (hget ▸ hclose)
    exact ⟨_, hi.append.prepend before⟩

theorem cons {m : Mark} (hk : k < ms.length) (h : Paired ms k) : Paired (m :: ms) (k + 1) := by
  have := within [m] [] hk h
  simpa [Nat.add_comm] using this

end Paired

/-- In well nested marks every opening tag has a close and every close a tag. -/
theorem WellNested.paired {ms : List Mark} (h : WellNested ms) :
    ∀ k < ms.length, Paired ms k := by
  induction h with
  | nil => simp
  | styler _ ih =>
    intro k hk
    cases k with
    | zero => exact ⟨by simp, by simp⟩
    | succ k => exact .cons (by simpa using hk) (ih k (by simpa using hk))
  | atomic _ ih =>
    intro k hk
    cases k with
    | zero => exact ⟨by simp, by simp⟩
    | succ k => exact .cons (by simpa using hk) (ih k (by simpa using hk))
  | @pair category name classes inner rest hinner _ ihInner ihRest =>
    intro k hk
    simp only [List.length_cons, List.length_append] at hk
    have haround : TagPair (.opening category name classes ::
        (inner ++ .closing category name :: rest)) category 0 (inner.length + 1) :=
      .around name classes rest hinner
    rcases Nat.lt_trichotomy k (inner.length + 1) with hlt | rfl | hgt
    · cases k with
      | zero =>
        refine ⟨?_, by simp⟩
        intro category' name' classes' hopen
        cases hopen
        exact ⟨_, haround⟩
      | succ k =>
        refine .cons (by simp; omega) ?_
        simpa using (ihInner k (by omega)).within [] _ (by omega)
    · refine ⟨by simp, ?_⟩
      intro category' name' hclose
      simp only [List.getElem?_cons_succ, List.getElem?_append_right (Nat.le_refl _),
        Nat.sub_self, List.getElem?_cons_zero, Option.some.injEq, Mark.closing.injEq] at hclose
      exact ⟨0, hclose.1 ▸ haround⟩
    · obtain ⟨k, rfl⟩ := Nat.exists_eq_add_of_lt hgt
      have hin := (ihRest k (by omega)).within
        (.opening category name classes :: (inner ++ [.closing category name])) [] (by omega)
      simp only [List.append_nil, List.cons_append, List.append_assoc, List.nil_append,
        List.length_cons, List.length_append, List.length_nil] at hin
      rwa [show inner.length + 1 + k + 1 = inner.length + (0 + 1) + 1 + k by omega]

/-- Pairs do not cross: a tag that opens inside of one closes inside of it. -/
theorem TagPair.close_inside {ms : List Mark} {category category' : Category} {i i' j j' : Nat}
    (h : TagPair ms category i j) (h' : TagPair ms category' i' j') (hopen : i < i')
    (hclose : i' < j) : j' < j := by
  obtain ⟨_, _, hij, _, _, hinner⟩ := id h
  obtain ⟨name, classes, _, hget, _, _⟩ := id h'
  have hjlen := h.lt_length
  have hlength : ((ms.take j).take (i + 1)).length = i + 1 := by
    simp only [List.length_take]
    omega
  have hshift : ∀ k, i + 1 ≤ k → ((ms.take j).drop (i + 1))[k - (i + 1)]? = (ms.take j)[k]? := by
    intro k hk
    rw [List.getElem?_drop, show i + 1 + (k - (i + 1)) = k by omega]
  have hin : ((ms.take j).drop (i + 1))[i' - (i + 1)]? =
      some (.opening category' name classes) := by
    rw [hshift i' hopen, List.getElem?_take_of_lt hclose, hget]
  obtain ⟨hbound, _⟩ := List.getElem?_eq_some_iff.mp hin
  obtain ⟨k, hk⟩ := (hinner.paired _ hbound).closed hin
  have hpair : TagPair (ms.take j) category' i' (i + 1 + k) := by
    have := hk.prepend ((ms.take j).take (i + 1))
    rwa [List.take_append_drop, hlength, show i + 1 + (i' - (i + 1)) = i' by omega] at this
  have hk' := hpair.lt_length
  rw [List.length_take] at hk'
  have := h'.close_unique ((TagPair.take_iff (by omega)).mp hpair)
  omega

end DeferredMarkup.Nesting
