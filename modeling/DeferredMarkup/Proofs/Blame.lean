import DeferredMarkup.Proofs.Tracking
import Mathlib.Data.List.Nodup

/-!
Who is to blame. The first marker that does not fit is refused with a fault
that the markers before it decide alone. A close is measured by the tag that
was opened last, then by the atomic tags behind that one, and of these the
latest is named. A styler is refused where there is no tag to give its class to.
-/
namespace DeferredMarkup.Nesting

/-- The tag that was opened last of all that are still open. -/
def LastOpened (ms : List Mark) (i : Nat) : Prop :=
  (∃ c, StillOpen ms c i) ∧ ∀ c j, StillOpen ms c j → j ≤ i

/-- The marker of the tag that was opened last, or none when no tag is open. -/
def InnermostOpen (before : List Marker) : Option Marker → Prop
  | none => ∀ c i, ¬ StillOpen (marksOf before) c i
  | some tag => ∃ i, LastOpened (marksOf before) i ∧ before[i]? = some tag

/-- An atomic tag of a name and any category, behind the tag that was opened last. -/
def AtomicBehind (ms : List Mark) (name : String) (j : Nat) : Prop :=
  (∃ category classes, ms[j]? = some (.atomic category name classes)) ∧
    ∀ i, LastOpened ms i → i < j

/-- The latest of the atomic tags behind the tag that was opened last. -/
def LatestAtomic (before : List Marker) (name : String) (tag : Marker) : Prop :=
  ∃ j, AtomicBehind (marksOf before) name j ∧
    (∀ k, AtomicBehind (marksOf before) name k → k ≤ j) ∧ before[j]? = some tag

/-- The tag that was opened last, if there is one, has another name. -/
def Unnamed (last : Option Marker) (name : String) : Prop :=
  ∀ tag ∈ last, ∀ category classes, tag.mark ≠ .opening category name classes

/-- Why a marker does not fit behind others, told without a walk over these. -/
inductive Blame (before : List Marker) (m : Marker) : Fault → Prop
  | category (category category' : Category) (name : String) (classes : List String)
      (last : Marker) (mark : m.mark = .closing category name)
      (innermost : InnermostOpen before (some last))
      (named : last.mark = .opening category' name classes) (other : category' ≠ category) :
      Blame before m (.wrongCategory m.describe last.describe)
  | atomic (category : Category) (name : String) (last : Option Marker) (tag : Marker)
      (mark : m.mark = .closing category name) (innermost : InnermostOpen before last)
      (unnamed : Unnamed last name) (latest : LatestAtomic before name tag) :
      Blame before m (.closesAtomic m.describe tag.describe)
  | name (category : Category) (name : String) (last : Option Marker)
      (mark : m.mark = .closing category name) (innermost : InnermostOpen before last)
      (unnamed : Unnamed last name) (nothing : ∀ j, ¬ AtomicBehind (marksOf before) name j) :
      Blame before m (.unmatchedClose m.describe (last.map Marker.describe))
  | previous (category : Category) (name : String)
      (mark : m.mark = .styler category .previous name)
      (nothing : ∀ i, ¬ Recent (marksOf before) category i) :
      Blame before m (.nothingBefore category m.describe)
  | container (category : Category) (name : String)
      (mark : m.mark = .styler category .container name)
      (nothing : ∀ i, ¬ StillOpen (marksOf before) category i) :
      Blame before m (.nothingAround category m.describe)

section

variable {markers before : List Marker} {m : Marker} {s s' : State} {fault : Fault}
  {category : Category} {name : String} {i j : Nat}

theorem LastOpened.unique (h : LastOpened (marksOf before) i)
    (h' : LastOpened (marksOf before) j) : i = j := by
  obtain ⟨⟨c, hi⟩, hlast⟩ := h
  obtain ⟨⟨c', hj⟩, hlast'⟩ := h'
  exact Nat.le_antisymm (hlast' c i hi) (hlast c' j hj)

theorem mem_sites {t : Site} : t ∈ sites markers ↔ markers[t.index]? = some t.marker := by
  unfold sites
  rw [List.mem_mapIdx]
  constructor
  · rintro ⟨i, hi, rfl⟩
    exact List.getElem?_eq_getElem hi
  · intro h
    obtain ⟨hi, hget⟩ := List.getElem?_eq_some_iff.mp h
    exact ⟨t.index, hi, by rw [hget]⟩

theorem index_lt_of_mem_sites {t : Site} (h : t ∈ sites markers) : t.index < markers.length :=
  (List.getElem?_eq_some_iff.mp (mem_sites.mp h)).1

/-- Behind the markers visited last stand those visited before. -/
theorem descending_sites (markers : List Marker) :
    (sites markers).reverse.Pairwise (·.index > ·.index) := by
  induction markers using List.reverseRecOn with
  | nil => exact .nil
  | append_singleton markers m ih =>
    rw [sites_concat, List.reverse_concat]
    refine .cons ?_ ih
    intro t ht
    exact index_lt_of_mem_sites (List.mem_reverse.mp ht)

theorem Step.visited {site : Site} (h : Step s site s') : s'.visited = s.visited := by
  cases h <;> rfl

theorem Reached.visited (h : Reached markers s) : s.visited = (sites markers).reverse := by
  induction h with
  | start => rfl
  | concat _ hstep ih =>
    rw [hstep.visited, sites_concat, List.reverse_concat]
    exact congrArg _ ih

/-- Of sites in descending order the first with a property is the one with the
greatest index. -/
theorem find?_eq_some_iff_of_descending {l : List Site} {p : Site → Bool} {t : Site}
    (hl : l.Pairwise (·.index > ·.index)) :
    l.find? p = some t ↔ t ∈ l ∧ p t ∧ ∀ u ∈ l, p u → u.index ≤ t.index := by
  have hgreatest : ∀ {t}, l.find? p = some t →
      t ∈ l ∧ p t ∧ ∀ u ∈ l, p u → u.index ≤ t.index := by
    intro t h
    obtain ⟨ht, front, back, rfl, hfront⟩ := List.find?_eq_some_iff_append.mp h
    refine ⟨by simp, ht, ?_⟩
    intro u hu hpu
    have hback := (List.pairwise_append.mp hl).2.1
    rcases List.mem_append.mp hu with hu | hu
    · exact absurd hpu (by simpa using hfront u hu)
    · rcases List.mem_cons.mp hu with rfl | hu
      · exact Nat.le_refl _
      · exact Nat.le_of_lt ((List.pairwise_cons.mp hback).1 u hu)
  constructor
  · exact hgreatest
  · rintro ⟨hmem, ht, hmax⟩
    obtain ⟨u, hu⟩ := Option.isSome_iff_exists.mp (List.find?_isSome.mpr ⟨t, hmem, ht⟩)
    obtain ⟨humem, hpu, humax⟩ := hgreatest hu
    have hindex : u.index = t.index := Nat.le_antisymm (hmax u humem hpu) (humax t hmem ht)
    have hinj : (l.map (·.index)).Nodup := List.pairwise_map.mpr (hl.imp fun h => Nat.ne_of_gt h)
    exact List.inj_on_of_nodup_map hinj humem hmem hindex ▸ hu

/-- What is visited later stands further right, so that the search for an atomic
tag ends where the tag that was opened last is reached. -/
theorem find?_takeWhile_of_descending {l : List Site} {last : Option Site} {q : Site → Bool}
    (hl : l.Pairwise (·.index > ·.index)) :
    (l.takeWhile fun v => last.all (·.index < v.index)).find? q =
      l.find? fun v => last.all (·.index < v.index) && q v := by
  induction l with
  | nil => rfl
  | cons v l ih =>
    obtain ⟨hv, hl⟩ := List.pairwise_cons.mp hl
    by_cases hp : last.all (·.index < v.index)
    · simp only [List.takeWhile_cons, hp, if_true, List.find?_cons, Bool.true_and, ih hl]
    · have hnone : l.find? (fun v => last.all (·.index < v.index) && q v) = none := by
        rw [List.find?_eq_none]
        intro u hu hboth
        rw [Bool.and_eq_true] at hboth
        have hlt := hv u hu
        cases last with
        | none => exact hp rfl
        | some t =>
          simp only [Option.all_some, decide_eq_true_eq] at hp hboth
          omega
      simp [hp, hnone]

namespace Aligned

/-- The top of the stack was opened last. -/
theorem head_openTags_iff (h : Aligned markers s) :
    s.openTags.head?.map (·.index) = some i ↔ LastOpened (marksOf markers) i := by
  have hdescending := h.spine.descending
  have hmem : ∀ {j}, j ∈ s.openTags.map (·.index) ↔ ∃ c, StillOpen (marksOf markers) c j :=
    h.spine.mem_iff
  cases hstack : s.openTags with
  | nil =>
    simp only [List.head?_nil, Option.map_none, reduceCtorEq, false_iff]
    rintro ⟨hopen, _⟩
    simpa [hstack] using hmem.mpr hopen
  | cons top outer =>
    have htop : LastOpened (marksOf markers) top.index := by
      refine ⟨hmem.mp (by simp [hstack]), ?_⟩
      intro c j hj
      have hj' := hmem.mpr ⟨c, hj⟩
      rw [hstack, List.map_cons] at hj' hdescending
      rcases List.mem_cons.mp hj' with rfl | hj'
      · exact Nat.le_refl _
      · exact Nat.le_of_lt ((List.pairwise_cons.mp hdescending).1 j hj')
    simp only [List.head?_cons, Option.map_some, Option.some.injEq]
    exact ⟨fun hi => hi ▸ htop, fun hi => htop.unique hi⟩

theorem innermostOpen_iff (h : Aligned markers s) {last : Option Marker} :
    InnermostOpen markers last ↔ s.openTags.head?.map (·.marker) = last := by
  cases last with
  | none =>
    rw [Option.map_eq_none_iff, List.head?_eq_none_iff, ← List.map_eq_nil_iff (f := (·.index)),
      List.eq_nil_iff_forall_not_mem]
    simp only [InnermostOpen, h.spine.mem_iff, not_exists]
    exact forall_comm
  | some tag =>
    simp only [InnermostOpen, ← h.head_openTags_iff, Option.map_eq_some_iff]
    constructor
    · rintro ⟨_, ⟨t, ht, rfl⟩, htag⟩
      have hsite := h.sited t (List.mem_of_head? ht)
      exact ⟨t, ht, Option.some.inj (hsite.symm.trans htag)⟩
    · rintro ⟨t, ht, rfl⟩
      exact ⟨t.index, ⟨t, ht, rfl⟩, h.sited t (List.mem_of_head? ht)⟩

end Aligned

theorem isAtomicNamed_iff {x : Mark} :
    x.isAtomicNamed name ↔ ∃ category classes, x = .atomic category name classes := by
  cases x <;> simp [Mark.isAtomicNamed]

/-- Whether a site may be found by the search for an atomic tag, at a close. -/
theorem Aligned.atomicBehind_iff (h : Aligned before s) {t : Site} (ht : t ∈ sites before) :
    AtomicBehind (marksOf before) name t.index ↔
      s.openTags.head?.all (·.index < t.index) && t.marker.mark.isAtomicNamed name := by
  have hmark : (marksOf before)[t.index]? = some t.marker.mark :=
    getElem?_marksOf (mem_sites.mp ht)
  have hbehind : (∀ i, LastOpened (marksOf before) i → i < t.index) ↔
      s.openTags.head?.all (·.index < t.index) := by
    simp only [← h.head_openTags_iff]
    cases s.openTags.head? <;> simp
  rw [AtomicBehind, hbehind, hmark, Bool.and_eq_true, isAtomicNamed_iff, and_comm]
  simp

theorem AtomicBehind.exists_site (h : AtomicBehind (marksOf before) name j) :
    ∃ t ∈ sites before, t.index = j := by
  obtain ⟨⟨category, classes, hj⟩, _⟩ := h
  have hlt : j < before.length := by
    simpa using lt_length_of_getElem? hj
  exact ⟨⟨j, before[j]⟩, mem_sites.mpr (List.getElem?_eq_getElem hlt), rfl⟩

/-- A close looks for an atomic tag among the markers before it, the latest first. -/
theorem Reached.atomicSince_eq (h : Reached before s) (hm : m.mark = .closing category name) :
    (s.visit ⟨before.length, m⟩).atomicSince name s.openTags.head? =
      (sites before).reverse.find? fun v =>
        s.openTags.head?.all (·.index < v.index) && v.marker.mark.isAtomicNamed name := by
  have hvisited : (s.visit ⟨before.length, m⟩).visited = (sites (before ++ [m])).reverse := by
    rw [State.visit, h.visited, sites_concat, List.reverse_concat]
  have hclose : m.mark.isAtomicNamed name = false := by
    rw [hm]
    rfl
  unfold State.atomicSince
  rw [hvisited, find?_takeWhile_of_descending (descending_sites _), sites_concat,
    List.reverse_concat, List.find?_cons]
  simp only [hclose, Bool.and_false]

theorem Reached.atomicSince_eq_some_iff (h : Reached before s)
    (hm : m.mark = .closing category name) {t : Site} :
    (s.visit ⟨before.length, m⟩).atomicSince name s.openTags.head? = some t ↔
      t ∈ sites before ∧ AtomicBehind (marksOf before) name t.index ∧
        ∀ j, AtomicBehind (marksOf before) name j → j ≤ t.index := by
  rw [h.atomicSince_eq hm, find?_eq_some_iff_of_descending (descending_sites before),
    List.mem_reverse]
  refine and_congr_right fun ht => ?_
  rw [← h.aligned.atomicBehind_iff ht]
  refine and_congr_right fun _ => ?_
  constructor
  · intro hmax j hj
    obtain ⟨u, hu, rfl⟩ := hj.exists_site
    exact hmax u (List.mem_reverse.mpr hu) ((h.aligned.atomicBehind_iff hu).mp hj)
  · intro hmax u hu hpu
    exact hmax u.index ((h.aligned.atomicBehind_iff (List.mem_reverse.mp hu)).mpr hpu)

theorem Reached.atomicSince_eq_none_iff (h : Reached before s)
    (hm : m.mark = .closing category name) :
    (s.visit ⟨before.length, m⟩).atomicSince name s.openTags.head? = none ↔
      ∀ j, ¬ AtomicBehind (marksOf before) name j := by
  rw [h.atomicSince_eq hm, List.find?_eq_none]
  constructor
  · intro hnone j hj
    obtain ⟨t, ht, rfl⟩ := hj.exists_site
    exact hnone t (List.mem_reverse.mpr ht) ((h.aligned.atomicBehind_iff ht).mp hj)
  · intro hnone t ht hp
    exact hnone t.index ((h.aligned.atomicBehind_iff (List.mem_reverse.mp ht)).mpr hp)

/-- The fault of a close whose name does not match is the one to blame. -/
theorem Reached.blame_misfit (h : Reached before s) (hm : m.mark = .closing category name)
    {last : Option Marker} (hlast : InnermostOpen before last) (hunnamed : Unnamed last name) :
    Blame before m ((s.visit ⟨before.length, m⟩).misfit name ⟨before.length, m⟩) := by
  have hhead := h.aligned.innermostOpen_iff.mp hlast
  have hstack : (s.visit ⟨before.length, m⟩).openTags = s.openTags := rfl
  unfold State.misfit
  rw [hstack]
  split
  next atomic hatomic =>
    obtain ⟨ht, hbehind, hmax⟩ := (h.atomicSince_eq_some_iff hm).mp hatomic
    exact .atomic category name last atomic.marker hm hlast hunnamed
      ⟨atomic.index, hbehind, hmax, mem_sites.mp ht⟩
  next hnone =>
    have hdescribe : s.openTags.head?.map Site.describe = last.map Marker.describe := by
      rw [← hhead, Option.map_map]
      rfl
    rw [hdescribe]
    exact .name category name last hm hlast hunnamed ((h.atomicSince_eq_none_iff hm).mp hnone)

/-- What the walk reports at a marker is what that marker is to blame for. -/
theorem Reached.blame (h : Reached before s)
    (hfail : (s.visit ⟨before.length, m⟩).step ⟨before.length, m⟩ = .error fault) :
    Blame before m fault := by
  have haligned := h.aligned
  cases haligned.refused hfail with
  | misfit category name hmark hunnamed =>
    have hlast := haligned.innermostOpen_iff.mpr rfl
    refine h.blame_misfit hmark hlast ?_
    intro tag htag c classes hopening
    cases hstack : s.openTags with
    | nil => simp [hstack] at htag
    | cons top outer =>
      have htop : top.marker = tag := by simpa [hstack] using htag
      exact hunnamed top outer hstack c (by rw [htop, hopening]; rfl)
  | category category category' name last outer hmark hstack htag hother =>
    have hstack : s.openTags = last :: outer := hstack
    have hlast : last ∈ s.openTags := by simp [hstack]
    obtain ⟨classes, hopening⟩ := haligned.last_eq_opening hlast htag
    refine .category category category' name classes last.marker hmark ?_ hopening hother
    exact haligned.innermostOpen_iff.mpr (by simp [hstack])
  | previous category name hmark hpointer =>
    have hpointer : (s.lane category).previous = none := hpointer
    refine .previous category name hmark ?_
    intro i hi
    have := (h.tracked.recent category i).mpr hi
    simp [hpointer] at this
  | container category name hmark hpointer =>
    have hpointer : (s.lane category).openTags = [] := hpointer
    refine .container category name hmark ?_
    intro i hi
    obtain ⟨j, hj⟩ := Nesting.exists_innermost hi
    have := haligned.head_iff.mpr hj
    simp [hpointer] at this

/-- A close whose name does not match is refused as a misfit. -/
theorem Reached.closeTag_eq_misfit (h : Reached before s) {last : Option Marker}
    (hlast : InnermostOpen before last) (hunnamed : Unnamed last name) :
    (s.visit ⟨before.length, m⟩).closeTag category name ⟨before.length, m⟩ =
      .error ((s.visit ⟨before.length, m⟩).misfit name ⟨before.length, m⟩) := by
  have hhead := h.aligned.innermostOpen_iff.mp hlast
  unfold State.closeTag
  cases hstack : (s.visit ⟨before.length, m⟩).openTags with
  | nil => rfl
  | cons top outer =>
    have hstack : s.openTags = top :: outer := hstack
    have htop : last = some top.marker := by simp [← hhead, hstack]
    obtain ⟨name', classes, hopening, _⟩ := h.aligned.opening (t := top) (by simp [hstack])
    have hname : name' ≠ name := by
      rintro rfl
      exact hunnamed top.marker (by simp [htop]) _ _ hopening
    have htag : top.marker.mark.tag? = some (top.marker.mark.category, name') := by
      rw [hopening]
      rfl
    simp [htag, hname]

/-- A marker that is to blame is refused with the fault for which it is. -/
theorem Blame.step_eq (h : Blame before m fault) (hreached : Reached before s) :
    (s.visit ⟨before.length, m⟩).step ⟨before.length, m⟩ = .error fault := by
  have haligned := hreached.aligned
  unfold State.step
  cases h with
  | category category category' name classes last hmark hlast hnamed hother =>
    obtain ⟨top, htop, rfl⟩ := Option.map_eq_some_iff.mp (haligned.innermostOpen_iff.mp hlast)
    obtain ⟨outer, hstack⟩ := List.head?_eq_some_iff.mp htop
    have hvisit : (s.visit ⟨before.length, m⟩).openTags = top :: outer := hstack
    simp [hmark, State.closeTag, hvisit, hnamed, Mark.tag?, hother, Site.describe]
  | atomic category name last tag hmark hlast hunnamed hlatest =>
    obtain ⟨j, hbehind, hmax, htag⟩ := hlatest
    have hfound : (s.visit ⟨before.length, m⟩).atomicSince name s.openTags.head? =
        some ⟨j, tag⟩ :=
      (hreached.atomicSince_eq_some_iff hmark).mpr ⟨mem_sites.mpr htag, hbehind, hmax⟩
    have hmisfit : (s.visit ⟨before.length, m⟩).misfit name ⟨before.length, m⟩ =
        .closesAtomic m.describe tag.describe := by
      have hstack : (s.visit ⟨before.length, m⟩).openTags = s.openTags := rfl
      rw [State.misfit, hstack, hfound]
      rfl
    simp [hmark, hreached.closeTag_eq_misfit hlast hunnamed, hmisfit]
  | name category name last hmark hlast hunnamed hnothing =>
    have hnone := (hreached.atomicSince_eq_none_iff hmark).mpr hnothing
    have hmisfit : (s.visit ⟨before.length, m⟩).misfit name ⟨before.length, m⟩ =
        .unmatchedClose m.describe (last.map Marker.describe) := by
      have hstack : (s.visit ⟨before.length, m⟩).openTags = s.openTags := rfl
      rw [State.misfit, hstack, hnone, ← haligned.innermostOpen_iff.mp hlast, Option.map_map]
      rfl
    simp [hmark, hreached.closeTag_eq_misfit hlast hunnamed, hmisfit]
  | previous category name hmark hnothing =>
    have hpointer : ((s.visit ⟨before.length, m⟩).lane category).previous = none := by
      rw [Option.eq_none_iff_forall_ne_some]
      intro t ht
      have ht : (s.lane category).previous = some t := ht
      exact hnothing t.index ((hreached.tracked.recent category t.index).mp (by simp [ht]))
    simp [hmark, State.style, hpointer, Site.describe]
  | container category name hmark hnothing =>
    have hpointer : ((s.visit ⟨before.length, m⟩).lane category).openTags = [] := by
      rw [List.eq_nil_iff_forall_not_mem]
      intro t ht
      obtain ⟨hstack, rfl⟩ := haligned.mem_lane.mp ht
      obtain ⟨_, _, _, hopen⟩ := haligned.opening hstack
      exact hnothing t.index hopen
    simp [hmark, State.style, hpointer, Site.describe]

/-- A marker behind others that fit does not fit either exactly when it is to
blame for something. -/
theorem Reached.advance_concat_iff (h : Reached before s) :
    (State.advance {} (sites (before ++ [m]))).2 = some fault ↔ Blame before m fault := by
  constructor
  · intro hfault
    cases hstep : (s.visit ⟨before.length, m⟩).step ⟨before.length, m⟩ with
    | ok s' =>
      rw [(h.concat (State.step_eq_ok_iff.mp hstep)).advance_eq] at hfault
      cases hfault
    | error fault' =>
      rw [h.advance_eq_error hstep []] at hfault
      cases hfault
      exact h.blame hstep
  · intro hblame
    rw [h.advance_eq_error (hblame.step_eq h) []]

/-- Only closes and stylers that look back or around are ever to blame. -/
theorem Blame.not_tag_or_next (h : Blame before m fault) :
    m.mark.tag? = none ∧ ∀ category name, m.mark ≠ .styler category .next name := by
  cases h with
  | category _ _ _ _ _ hmark => simp [hmark, Mark.tag?]
  | atomic _ _ _ _ hmark => simp [hmark, Mark.tag?]
  | name _ _ _ hmark => simp [hmark, Mark.tag?]
  | previous _ _ hmark => simp [hmark, Mark.tag?]
  | container _ _ hmark => simp [hmark, Mark.tag?]

end

/-- The first marker at which a walk fails is refused with the fault for which
it is to blame behind the markers before it, whatever comes after. Tags and
stylers that look ahead are never refused. -/
theorem walk_blames_first_misfit (markers : List Marker) (k : Nat) (m : Marker)
    (hm : markers[k]? = some m)
    (hbefore : (State.advance {} ((sites markers).take k)).2 = none) :
    (∀ fault, (State.advance {} ((sites markers).take (k + 1))).2 = some fault ↔
      Blame (markers.take k) m fault) ∧
    (∀ fault, Blame (markers.take k) m fault → (walk markers).value.outcome = .error fault) ∧
    ((m.mark.tag?.isSome ∨ ∃ category name, m.mark = .styler category .next name) →
      (State.advance {} ((sites markers).take (k + 1))).2 = none) := by
  obtain ⟨hk, hget⟩ := List.getElem?_eq_some_iff.mp hm
  have hsplit : markers = markers.take k ++ m :: markers.drop (k + 1) := by
    rw [← hget, ← List.drop_eq_getElem_cons hk, List.take_append_drop]
  have hnext : (sites markers).take (k + 1) = sites (markers.take k ++ [m]) := by
    rw [take_sites, List.take_add_one, hm, Option.toList_some]
  obtain ⟨s, hreached⟩ : ∃ s, Reached (markers.take k) s := by
    rw [take_sites] at hbefore
    exact ⟨_, reached_iff.mp (Prod.ext rfl hbefore)⟩
  have hiff : ∀ fault, (State.advance {} ((sites markers).take (k + 1))).2 = some fault ↔
      Blame (markers.take k) m fault := by
    intro fault
    rw [hnext, hreached.advance_concat_iff]
  refine ⟨hiff, ?_, ?_⟩
  · intro fault hblame
    have hadvance := hreached.advance_eq_error (hblame.step_eq hreached) (markers.drop (k + 1))
    rw [← hsplit] at hadvance
    simp [walk, State.run, hadvance, verdict]
  · intro hfits
    rw [Option.eq_none_iff_forall_ne_some]
    intro fault hfault
    obtain ⟨hnone, hnot⟩ := ((hiff fault).mp hfault).not_tag_or_next
    rcases hfits with htag | ⟨category, name, hnext⟩
    · simp [hnone] at htag
    · exact hnot category name hnext

/-- A close with the name of two line breaks, of which the second is named. -/
theorem walk_blames_first_misfit_line_break :
    let markers : List Marker := [⟨0, none, .opening .block "p" []⟩,
      ⟨1, none, .atomic .inline "br" []⟩, ⟨2, none, .atomic .jcx "br" []⟩,
      ⟨3, none, .closing .inline "br"⟩, ⟨4, none, .closing .block "p"⟩]
    markers[3]? = some ⟨3, none, .closing .inline "br"⟩ ∧
      (State.advance {} ((sites markers).take 3)).2 = none ∧
      Blame (markers.take 3) ⟨3, none, .closing .inline "br"⟩
        (.closesAtomic "Inline </br> #0003" "JCX <br /> #0002") ∧
      (walk markers).value.outcome =
        .error (.closesAtomic "Inline </br> #0003" "JCX <br /> #0002") := by
  intro markers
  have hbefore : (State.advance {} ((sites markers).take 3)).2 = none := rfl
  obtain ⟨hiff, houtcome, _⟩ := walk_blames_first_misfit markers 3 _ rfl hbefore
  have hblame := (hiff (.closesAtomic "Inline </br> #0003" "JCX <br /> #0002")).mp rfl
  exact ⟨rfl, hbefore, hblame, houtcome _ hblame⟩

end DeferredMarkup.Nesting
