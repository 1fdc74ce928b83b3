import DeferredMarkup.Proofs.OpenTags
import Mathlib.Data.List.Forall2

/-!
The tags that stylers aim at, told from positions alone. A styler that looks
ahead aims at the first tag of its category behind it. One that looks around
itself aims at the innermost tag that is open, and one that looks back at the
tag which the latest tag or close of its category stands for. What is known of
a sequence of marks is carried on to the sequence with one more mark.
-/
namespace DeferredMarkup.Nesting

/-- A tag of a category, which opens or stands alone. -/
def IsTag (category : Category) (m : Mark) : Prop := ∃ name, m.tag? = some (category, name)

/-- A tag or a close of a category. -/
def IsEvent (category : Category) (m : Mark) : Prop :=
  IsTag category m ∨ ∃ name, m = .closing category name

def TagAt (ms : List Mark) (category : Category) (i : Nat) : Prop :=
  ∃ m, ms[i]? = some m ∧ IsTag category m

def EventAt (ms : List Mark) (category : Category) (l : Nat) : Prop :=
  ∃ m, ms[l]? = some m ∧ IsEvent category m

/-- The last tag or close of a category. -/
def Latest (ms : List Mark) (category : Category) (l : Nat) : Prop :=
  EventAt ms category l ∧ ∀ j, EventAt ms category j → j ≤ l

/-- The tag that a look back reaches through the mark at a position: an atomic
tag itself, the tag that a close closes, and the tag around an opening tag. -/
def StandsFor (ms : List Mark) (l : Nat) : Mark → Nat → Prop
  | .opening category _ _, i => Innermost (ms.take l) category i
  | .atomic _ _ _, i => i = l
  | .closing category _, i => TagPair ms category i l
  | .styler _ _ _, _ => False

/-- The tag that a look back from behind the marks reaches. -/
def Recent (ms : List Mark) (category : Category) (i : Nat) : Prop :=
  ∃ l m, Latest ms category l ∧ ms[l]? = some m ∧ StandsFor ms l m i

/-- A styler that looks ahead and has no tag of its category behind it. -/
def Waiting (ms : List Mark) (category : Category) (k : Nat) : Prop :=
  (∃ name, ms[k]? = some (.styler category .next name)) ∧ ∀ j, k < j → ¬ TagAt ms category j

/-- The styler at a position and the tag to which it gives its class. -/
inductive Target (ms : List Mark) (k i : Nat) : Prop
  | next (category : Category) (name : String)
      (styler : ms[k]? = some (.styler category .next name)) (ahead : k < i)
      (tag : TagAt ms category i) (first : ∀ j, k < j → TagAt ms category j → i ≤ j)
  | container (category : Category) (name : String)
      (styler : ms[k]? = some (.styler category .container name))
      (around : Innermost (ms.take k) category i)
  | previous (category : Category) (name : String)
      (styler : ms[k]? = some (.styler category .previous name))
      (back : Recent (ms.take k) category i)

section

variable {category category' : Category} {name : String} {classes : List String}
  {direction : Direction}

@[simp] theorem isTag_opening :
    IsTag category (.opening category' name classes) ↔ category' = category := by
  simp [IsTag, Mark.tag?]

@[simp] theorem isTag_atomic :
    IsTag category (.atomic category' name classes) ↔ category' = category := by
  simp [IsTag, Mark.tag?]

@[simp] theorem not_isTag_closing : ¬ IsTag category (.closing category' name) := by
  simp [IsTag, Mark.tag?]

@[simp] theorem not_isTag_styler : ¬ IsTag category (.styler category' direction name) := by
  simp [IsTag, Mark.tag?]

@[simp] theorem isEvent_opening :
    IsEvent category (.opening category' name classes) ↔ category' = category := by
  simp [IsEvent]

@[simp] theorem isEvent_atomic :
    IsEvent category (.atomic category' name classes) ↔ category' = category := by
  simp [IsEvent]

@[simp] theorem isEvent_closing :
    IsEvent category (.closing category' name) ↔ category' = category := by
  simp [IsEvent]

@[simp] theorem not_isEvent_styler : ¬ IsEvent category (.styler category' direction name) := by
  simp [IsEvent]

end

section

variable {ms ns : List Mark} {m : Mark} {category : Category} {i j k l : Nat}

theorem getElem?_concat {x : Mark} :
    (ms ++ [m])[i]? = some x ↔ ms[i]? = some x ∨ (i = ms.length ∧ m = x) := by
  rcases Nat.lt_trichotomy i ms.length with hlt | rfl | hgt
  · rw [List.getElem?_append_left hlt]
    simp [Nat.ne_of_lt hlt]
  · simp
  · rw [List.getElem?_eq_none (by simp; omega), List.getElem?_eq_none (by omega)]
    simp [Nat.ne_of_gt hgt]

theorem lt_length_of_getElem? {x : Mark} (h : ms[i]? = some x) : i < ms.length :=
  (List.getElem?_eq_some_iff.mp h).1

theorem TagAt.lt_length (h : TagAt ms category i) : i < ms.length := by
  obtain ⟨_, hm, _⟩ := h
  exact lt_length_of_getElem? hm

theorem EventAt.lt_length (h : EventAt ms category l) : l < ms.length := by
  obtain ⟨_, hm, _⟩ := h
  exact lt_length_of_getElem? hm

theorem Waiting.lt_length (h : Waiting ms category k) : k < ms.length := by
  obtain ⟨⟨_, hm⟩, _⟩ := h
  exact lt_length_of_getElem? hm

theorem tagAt_concat :
    TagAt (ms ++ [m]) category i ↔ TagAt ms category i ∨ (i = ms.length ∧ IsTag category m) := by
  simp only [TagAt, getElem?_concat, or_and_right, exists_or]
  simp

theorem eventAt_concat :
    EventAt (ms ++ [m]) category l ↔
      EventAt ms category l ∨ (l = ms.length ∧ IsEvent category m) := by
  simp only [EventAt, getElem?_concat, or_and_right, exists_or]
  simp

theorem Latest.unique (h : Latest ms category l) (h' : Latest ms category j) : l = j :=
  Nat.le_antisymm (h'.2 l h.1) (h.2 j h'.1)

theorem latest_concat_of_isEvent (h : IsEvent category m) :
    Latest (ms ++ [m]) category l ↔ l = ms.length := by
  have hnew : EventAt (ms ++ [m]) category ms.length := eventAt_concat.mpr (Or.inr ⟨rfl, h⟩)
  have hlatest : Latest (ms ++ [m]) category ms.length := by
    refine ⟨hnew, ?_⟩
    intro j hj
    have := hj.lt_length
    simp only [List.length_append, List.length_singleton] at this
    omega
  constructor
  · intro hl
    exact hl.unique hlatest
  · intro hl
    exact hl ▸ hlatest

theorem latest_concat_of_not_isEvent (h : ¬ IsEvent category m) :
    Latest (ms ++ [m]) category l ↔ Latest ms category l := by
  simp [Latest, eventAt_concat, h]

theorem StillOpen.tagAt (h : StillOpen ms category i) : TagAt ms category i := by
  obtain ⟨⟨name, classes, hopen⟩, _⟩ := h
  exact ⟨_, hopen, name, rfl⟩

theorem TagAt.of_take (h : TagAt (ms.take k) category i) : TagAt ms category i := by
  obtain ⟨m, hm, htag⟩ := h
  rw [List.getElem?_take] at hm
  split at hm
  · exact ⟨m, hm, htag⟩
  · simp at hm

theorem StandsFor.unique (h : StandsFor ms l m i) (h' : StandsFor ms l m j) : i = j := by
  cases m with
  | opening category name classes => exact Innermost.unique h h'
  | atomic category name classes => exact h.trans h'.symm
  | closing category name => exact TagPair.open_unique h h'
  | styler target direction className => exact False.elim h

theorem Recent.unique (h : Recent ms category i) (h' : Recent ms category j) : i = j := by
  obtain ⟨l, m, hlatest, hm, hi⟩ := h
  obtain ⟨l', m', hlatest', hm', hj⟩ := h'
  cases hlatest.unique hlatest'
  cases hm.symm.trans hm'
  exact hi.unique hj

/-- A look back reaches a tag of the category from which it started. -/
theorem Recent.tagAt (h : Recent ms category i) : TagAt ms category i := by
  obtain ⟨l, m, ⟨⟨x, hx, hevent⟩, _⟩, hm, hi⟩ := h
  cases hx.symm.trans hm
  rcases hevent with ⟨name, htag⟩ | ⟨name, rfl⟩
  · cases m with
    | opening c n classes =>
      obtain ⟨rfl, rfl⟩ : c = category ∧ n = name := by simpa [Mark.tag?] using htag
      have haround : Innermost (ms.take l) c i := hi
      exact haround.1.tagAt.of_take
    | atomic c n classes =>
      have : i = l := hi
      exact ⟨_, this ▸ hx, name, htag⟩
    | closing c n => simp [Mark.tag?] at htag
    | styler target direction className => simp [Mark.tag?] at htag
  · obtain ⟨name', classes, _, hopen, _, _⟩ : TagPair ms category i l := hi
    exact ⟨_, hopen, name', rfl⟩

/-- A mark that is no tag or close of a category changes no look back of it. -/
theorem recent_concat_of_not_isEvent (h : ¬ IsEvent category m) :
    Recent (ms ++ [m]) category i ↔ Recent ms category i := by
  have hstands : ∀ l < ms.length, ∀ x, StandsFor (ms ++ [m]) l x i ↔ StandsFor ms l x i := by
    intro l hl x
    cases x with
    | opening c name classes =>
      simp only [StandsFor]
      rw [List.take_append_of_le_length (Nat.le_of_lt hl)]
    | atomic c name classes => exact Iff.rfl
    | closing c name => exact TagPair.append_iff hl
    | styler target direction className => exact Iff.rfl
  unfold Recent
  constructor
  · intro hrecent
    obtain ⟨l, x, hlatest, hx, hi⟩ := hrecent
    have hlatest := (latest_concat_of_not_isEvent h).mp hlatest
    have hl := hlatest.1.lt_length
    rw [List.getElem?_append_left hl] at hx
    exact ⟨l, x, hlatest, hx, (hstands l hl x).mp hi⟩
  · intro hrecent
    obtain ⟨l, x, hlatest, hx, hi⟩ := hrecent
    have hl := hlatest.1.lt_length
    refine ⟨l, x, (latest_concat_of_not_isEvent h).mpr hlatest, ?_, (hstands l hl x).mpr hi⟩
    rwa [List.getElem?_append_left hl]

theorem recent_concat_of_isEvent (h : IsEvent category m) :
    Recent (ms ++ [m]) category i ↔ StandsFor (ms ++ [m]) ms.length m i := by
  constructor
  · intro hrecent
    obtain ⟨l, x, hlatest, hx, hi⟩ := hrecent
    cases (latest_concat_of_isEvent h).mp hlatest
    rw [List.getElem?_concat_length, Option.some.injEq] at hx
    exact hx ▸ hi
  · intro hi
    exact ⟨ms.length, m, (latest_concat_of_isEvent h).mpr rfl, by simp, hi⟩

theorem waiting_concat_of_isTag (h : IsTag category m) :
    ¬ Waiting (ms ++ [m]) category k := by
  intro hwaiting
  obtain ⟨⟨name, hstyler⟩, hnone⟩ := hwaiting
  rcases getElem?_concat.mp hstyler with hstyler | ⟨rfl, rfl⟩
  · have hk := lt_length_of_getElem? hstyler
    exact hnone ms.length hk (tagAt_concat.mpr (Or.inr ⟨rfl, h⟩))
  · obtain ⟨name', htag⟩ := h
    simp [Mark.tag?] at htag

theorem waiting_concat_of_not_isTag (h : ¬ IsTag category m) :
    Waiting (ms ++ [m]) category k ↔
      Waiting ms category k ∨ (k = ms.length ∧ ∃ name, m = .styler category .next name) := by
  simp only [Waiting, getElem?_concat, tagAt_concat, h, and_false, or_false]
  constructor
  · intro hwaiting
    obtain ⟨⟨name, hstyler | ⟨hk, hm⟩⟩, hnone⟩ := hwaiting
    · exact Or.inl ⟨⟨name, hstyler⟩, hnone⟩
    · exact Or.inr ⟨hk, name, hm⟩
  · intro hwaiting
    rcases hwaiting with ⟨⟨name, hstyler⟩, hnone⟩ | ⟨rfl, name, rfl⟩
    · exact ⟨⟨name, Or.inl hstyler⟩, hnone⟩
    · refine ⟨⟨name, Or.inr ⟨rfl, rfl⟩⟩, ?_⟩
      intro j hj htag
      have := htag.lt_length
      omega

namespace Target

theorem lt_length (h : Target ms k i) : k < ms.length ∧ i < ms.length := by
  cases h with
  | next category name hstyler hahead htag hfirst =>
    exact ⟨lt_length_of_getElem? hstyler, htag.lt_length⟩
  | container category name hstyler haround =>
    exact ⟨lt_length_of_getElem? hstyler, haround.1.tagAt.of_take.lt_length⟩
  | previous category name hstyler hback =>
    exact ⟨lt_length_of_getElem? hstyler, hback.tagAt.of_take.lt_length⟩

/-- Every target is a tag of the category at which its styler aims. -/
theorem tagAt {direction : Direction} {name : String} (h : Target ms k i)
    (hk : ms[k]? = some (.styler category direction name)) : TagAt ms category i := by
  cases h with
  | next c name' hstyler hahead htag hfirst =>
    cases hk.symm.trans hstyler
    exact htag
  | container c name' hstyler haround =>
    cases hk.symm.trans hstyler
    exact haround.1.tagAt.of_take
  | previous c name' hstyler hback =>
    cases hk.symm.trans hstyler
    exact hback.tagAt.of_take

/-- A styler gives its class to one tag only. -/
theorem unique (h : Target ms k i) (h' : Target ms k j) : i = j := by
  cases h with
  | next c name hstyler hahead htag hfirst =>
    cases h' with
    | next c' name' hstyler' hahead' htag' hfirst' =>
      cases hstyler.symm.trans hstyler'
      exact Nat.le_antisymm (hfirst j hahead' htag') (hfirst' i hahead htag)
    | container c' name' hstyler' _ => cases hstyler.symm.trans hstyler'
    | previous c' name' hstyler' _ => cases hstyler.symm.trans hstyler'
  | container c name hstyler haround =>
    cases h' with
    | next c' name' hstyler' _ _ _ => cases hstyler.symm.trans hstyler'
    | container c' name' hstyler' haround' =>
      cases hstyler.symm.trans hstyler'
      exact haround.unique haround'
    | previous c' name' hstyler' _ => cases hstyler.symm.trans hstyler'
  | previous c name hstyler hback =>
    cases h' with
    | next c' name' hstyler' _ _ _ => cases hstyler.symm.trans hstyler'
    | container c' name' hstyler' _ => cases hstyler.symm.trans hstyler'
    | previous c' name' hstyler' hback' =>
      cases hstyler.symm.trans hstyler'
      exact hback.unique hback'

/-- What is aimed at stays so when marks follow. -/
theorem concat (h : Target ms k i) : Target (ms ++ [m]) k i := by
  obtain ⟨hk, hi⟩ := h.lt_length
  have htake : (ms ++ [m]).take k = ms.take k := List.take_append_of_le_length (Nat.le_of_lt hk)
  cases h with
  | next c name hstyler hahead htag hfirst =>
    refine .next c name (getElem?_concat.mpr (Or.inl hstyler)) hahead
      (tagAt_concat.mpr (Or.inl htag)) ?_
    intro j hj hjtag
    rcases tagAt_concat.mp hjtag with hjtag | ⟨rfl, _⟩
    · exact hfirst j hj hjtag
    · exact Nat.le_of_lt hi
  | container c name hstyler haround =>
    exact .container c name (getElem?_concat.mpr (Or.inl hstyler)) (htake.symm ▸ haround)
  | previous c name hstyler hback =>
    exact .previous c name (getElem?_concat.mpr (Or.inl hstyler)) (htake.symm ▸ hback)

/-- A styler that looks around itself aims at the innermost tag open before it. -/
theorem container_concat_iff {name : String} :
    Target (ms ++ [.styler category .container name]) ms.length i ↔ Innermost ms category i := by
  constructor
  · intro h
    cases h with
    | next c name' hstyler hahead htag hfirst => simp at hstyler
    | container c name' hstyler haround =>
      rw [List.getElem?_concat_length, Option.some.injEq, Mark.styler.injEq] at hstyler
      rw [List.take_left] at haround
      exact hstyler.1 ▸ haround
    | previous c name' hstyler hback => simp at hstyler
  · intro h
    exact .container category name (by simp) (by rwa [List.take_left])

/-- A styler that looks back aims at the tag which a look back reaches before it. -/
theorem previous_concat_iff {name : String} :
    Target (ms ++ [.styler category .previous name]) ms.length i ↔ Recent ms category i := by
  constructor
  · intro h
    cases h with
    | next c name' hstyler hahead htag hfirst => simp at hstyler
    | container c name' hstyler haround => simp at hstyler
    | previous c name' hstyler hback =>
      rw [List.getElem?_concat_length, Option.some.injEq, Mark.styler.injEq] at hstyler
      rw [List.take_left] at hback
      exact hstyler.1 ▸ hback
  · intro h
    exact .previous category name (by simp) (by rwa [List.take_left])

/-- With one more mark, a tag becomes the target of the stylers that waited for
it, and a styler that does not wait finds its target. -/
theorem concat_iff : Target (ms ++ [m]) k i ↔ Target ms k i ∨
    (i = ms.length ∧ ∃ c, IsTag c m ∧ Waiting ms c k) ∨
    (k = ms.length ∧ ∃ c name, (m = .styler c .container name ∧ Innermost ms c i) ∨
      (m = .styler c .previous name ∧ Recent ms c i)) := by
  constructor
  · intro h
    cases h with
    | next c name hstyler hahead htag hfirst =>
      have hki : k < ms.length := by
        have := htag.lt_length
        simp only [List.length_append, List.length_singleton] at this
        omega
      rw [List.getElem?_append_left hki] at hstyler
      rcases tagAt_concat.mp htag with htag | ⟨rfl, hm⟩
      · apply Or.inl
        apply Target.next c name hstyler hahead htag
        intro j hj hjtag
        exact hfirst j hj (tagAt_concat.mpr (Or.inl hjtag))
      · refine Or.inr (Or.inl ⟨rfl, c, hm, ⟨name, hstyler⟩, ?_⟩)
        intro j hj hjtag
        have := hfirst j hj (tagAt_concat.mpr (Or.inl hjtag))
        have := hjtag.lt_length
        omega
    | container c name hstyler haround =>
      rcases getElem?_concat.mp hstyler with hstyler | ⟨rfl, hm⟩
      · have hk := Nat.le_of_lt (lt_length_of_getElem? hstyler)
        rw [List.take_append_of_le_length hk] at haround
        exact Or.inl (.container c name hstyler haround)
      · rw [List.take_left] at haround
        exact Or.inr (Or.inr ⟨rfl, c, name, Or.inl ⟨hm, haround⟩⟩)
    | previous c name hstyler hback =>
      rcases getElem?_concat.mp hstyler with hstyler | ⟨rfl, hm⟩
      · rw [List.take_append_of_le_length (Nat.le_of_lt (lt_length_of_getElem? hstyler))] at hback
        exact Or.inl (.previous c name hstyler hback)
      · rw [List.take_left] at hback
        exact Or.inr (Or.inr ⟨rfl, c, name, Or.inr ⟨hm, hback⟩⟩)
  · intro h
    rcases h with h | ⟨rfl, c, hm, hwaiting⟩ | ⟨rfl, c, name, ⟨rfl, haround⟩ | ⟨rfl, hback⟩⟩
    · exact h.concat
    · obtain ⟨⟨name, hstyler⟩, hnone⟩ := hwaiting
      refine .next c name (getElem?_concat.mpr (Or.inl hstyler)) (lt_length_of_getElem? hstyler)
        (tagAt_concat.mpr (Or.inr ⟨rfl, hm⟩)) ?_
      intro j hj hjtag
      rcases tagAt_concat.mp hjtag with hjtag | ⟨rfl, _⟩
      · exact absurd hjtag (hnone j hj)
      · exact Nat.le_refl _
    · exact .container c name (by simp) (by rwa [List.take_left])
    · exact .previous c name (by simp) (by rwa [List.take_left])

end Target

end

/-- A styler with a class name stands at a position. -/
def StylerNamed (ms : List Mark) (k : Nat) (name : String) : Prop :=
  ∃ category direction, ms[k]? = some (.styler category direction name)

theorem StylerNamed.unique {ms : List Mark} {k : Nat} {name name' : String}
    (h : StylerNamed ms k name) (h' : StylerNamed ms k name') : name = name' := by
  obtain ⟨_, _, h⟩ := h
  obtain ⟨_, _, h'⟩ := h'
  cases h.symm.trans h'
  rfl

/-- Positions in ascending order are told by what is among them. -/
theorem eq_of_ascending {ks ks' : List Nat} (h : ks.Pairwise (· < ·)) (h' : ks'.Pairwise (· < ·))
    (hmem : ∀ k, k ∈ ks ↔ k ∈ ks') : ks = ks' := by
  refine List.Perm.eq_of_pairwise ?_ h h' ?_
  · intro a b _ _ hab hba
    omega
  · exact (List.perm_ext_iff_of_nodup (h.imp Nat.ne_of_lt) (h'.imp Nat.ne_of_lt)).mpr hmem

/-- The class names of exactly the stylers at the positions with a property, in
the order in which they stand. -/
def ClassesOf (ms : List Mark) (P : Nat → Prop) (names : List String) : Prop :=
  ∃ ks : List Nat, ks.Pairwise (· < ·) ∧ (∀ k, k ∈ ks ↔ P k) ∧
    List.Forall₂ (StylerNamed ms) ks names

namespace ClassesOf

variable {ms : List Mark} {m : Mark} {P Q : Nat → Prop} {names names' : List String}

theorem congr (h : ClassesOf ms P names) (hPQ : ∀ k, P k ↔ Q k) : ClassesOf ms Q names := by
  obtain ⟨ks, hks, hmem, hnames⟩ := h
  exact ⟨ks, hks, fun k => (hmem k).trans (hPQ k), hnames⟩

theorem empty (h : ∀ k, ¬ P k) : ClassesOf ms P [] :=
  ⟨[], .nil, fun k => iff_of_false List.not_mem_nil (h k), .nil⟩

theorem eq_nil (h : ClassesOf ms P names) (hP : ∀ k, ¬ P k) : names = [] := by
  obtain ⟨ks, _, hmem, hnames⟩ := h
  have hks : ks = [] := List.eq_nil_iff_forall_not_mem.mpr fun k hk => hP k ((hmem k).mp hk)
  subst hks
  exact List.forall₂_nil_left_iff.mp hnames

theorem not_of_nil (h : ClassesOf ms P []) (k : Nat) : ¬ P k := by
  obtain ⟨ks, _, hmem, hnames⟩ := h
  have hks : ks = [] := List.forall₂_nil_right_iff.mp hnames
  rw [← hmem k, hks]
  exact List.not_mem_nil

theorem concat (h : ClassesOf ms P names) : ClassesOf (ms ++ [m]) P names := by
  obtain ⟨ks, hks, hmem, hnames⟩ := h
  refine ⟨ks, hks, hmem, hnames.imp ?_⟩
  intro k name hk
  obtain ⟨category, direction, hk⟩ := hk
  exact ⟨category, direction, getElem?_concat.mpr (Or.inl hk)⟩

/-- Stylers that all stand further right are listed behind. -/
theorem append (h : ClassesOf ms P names) (h' : ClassesOf ms Q names')
    (hlt : ∀ j k, P j → Q k → j < k) : ClassesOf ms (fun k => P k ∨ Q k) (names ++ names') := by
  obtain ⟨js, hjs, hjmem, hjnames⟩ := h
  obtain ⟨ks, hks, hkmem, hknames⟩ := h'
  refine ⟨js ++ ks, ?_, ?_, List.rel_append hjnames hknames⟩
  · refine List.pairwise_append.mpr ⟨hjs, hks, ?_⟩
    intro j hj k hk
    exact hlt j k ((hjmem j).mp hj) ((hkmem k).mp hk)
  · intro k
    rw [List.mem_append, hjmem, hkmem]

theorem single {category : Category} {direction : Direction} {name : String} :
    ClassesOf (ms ++ [.styler category direction name]) (· = ms.length) [name] :=
  ⟨[ms.length], List.pairwise_singleton _ _, fun k => List.mem_singleton,
    .cons ⟨category, direction, by simp⟩ .nil⟩

/-- The positions and the names they stand for leave no choice. -/
theorem unique (h : ClassesOf ms P names) (h' : ClassesOf ms P names') : names = names' := by
  obtain ⟨ks, hks, hmem, hnames⟩ := h
  obtain ⟨ks', hks', hmem', hnames'⟩ := h'
  have hsame : ks = ks' := by
    apply eq_of_ascending hks hks'
    intro k
    rw [hmem, hmem']
  subst hsame
  have hone : Relator.RightUnique (StylerNamed ms) := by
    intro k name name' hk hk'
    exact hk.unique hk'
  exact List.right_unique_forall₂' hone hnames hnames'

theorem exists_styler (h : ClassesOf ms P names) {name : String} (hname : name ∈ names) :
    ∃ k, P k ∧ StylerNamed ms k name := by
  obtain ⟨ks, _, hmem, hnames⟩ := h
  obtain ⟨i, hi, rfl⟩ := List.getElem_of_mem hname
  have hlen := hnames.length_eq
  exact ⟨ks[i], (hmem _).mp (List.getElem_mem _), hnames.get (by omega) hi⟩

/-- Every styler at a position with the property has its name among those listed. -/
theorem mem_of_stylerNamed (h : ClassesOf ms P names) {k : Nat} {name : String} (hk : P k)
    (hnamed : StylerNamed ms k name) : name ∈ names := by
  obtain ⟨ks, _, hmem, hall⟩ := h
  obtain ⟨n, hn, rfl⟩ := List.getElem_of_mem ((hmem k).mpr hk)
  have hlen := hall.length_eq
  have hget := hall.get hn (by omega)
  rw [List.get_eq_getElem, List.get_eq_getElem] at hget
  exact hnamed.unique hget ▸ List.getElem_mem _

end ClassesOf

end DeferredMarkup.Nesting
