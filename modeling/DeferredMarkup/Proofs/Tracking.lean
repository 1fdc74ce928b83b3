import DeferredMarkup.Proofs.Stacks

/-!
Pointers, queues and grants of the nesting walk. What the walk has recorded so
far is what the visited marks say: the pointers reach the tags of a look back,
the queues hold the classes of the stylers that still wait, and every tag has
been granted the classes of exactly those stylers that aim at it, in the order
in which these stand.
-/
namespace DeferredMarkup.Nesting

/-- The records of a walk agree with the positions of the visited marks. -/
structure Tracked (markers : List Marker) (s : State) : Prop where
  aligned : Aligned markers s
  recent : ∀ c i, (s.lane c).previous.map (·.index) = some i ↔ Recent (marksOf markers) c i
  queued : ∀ c, ClassesOf (marksOf markers) (Waiting (marksOf markers) c)
    (s.lane c).queued.reverse
  granted : ∀ i, ClassesOf (marksOf markers) (Target (marksOf markers) · i)
    (grantedTo s.grants i)

section

variable {markers : List Marker} {m : Marker} {s s' : State} {category : Category} {i : Nat}

/-- The innermost tag of a lane was opened last of all that are open. -/
theorem Aligned.head_iff (h : Aligned markers s) :
    (s.lane category).openTags.head?.map (·.index) = some i ↔
      Innermost (marksOf markers) category i := by
  have hmem : ∀ j, StillOpen (marksOf markers) category j →
      ∃ t ∈ (s.lane category).openTags, t.index = j := by
    intro j hj
    obtain ⟨t, ht, rfl⟩ := List.mem_map.mp (h.spine.mem_iff.mpr ⟨category, hj⟩)
    obtain ⟨name, classes, hmark, _⟩ := h.opening ht
    obtain ⟨⟨name', classes', hget⟩, _⟩ := hj
    have := (getElem?_marksOf (h.sited t ht)).symm.trans hget
    rw [hmark, Option.some.injEq, Mark.opening.injEq] at this
    exact ⟨t, h.mem_lane.mpr ⟨ht, this.1⟩, rfl⟩
  have hdescending : ((s.lane category).openTags.map (·.index)).Pairwise (· > ·) := by
    rw [h.lanes]
    exact h.spine.descending.sublist (List.filter_sublist.map _)
  cases hlane : (s.lane category).openTags with
  | nil =>
    simp only [List.head?_nil, Option.map_none, reduceCtorEq, false_iff]
    intro hi
    obtain ⟨t, ht, _⟩ := hmem i hi.1
    simp [hlane] at ht
  | cons top rest =>
    have htop : Innermost (marksOf markers) category top.index := by
      have hin : top ∈ (s.lane category).openTags := hlane ▸ List.mem_cons_self
      obtain ⟨hstack, hcategory⟩ := h.mem_lane.mp hin
      obtain ⟨_, _, _, hopen⟩ := h.opening hstack
      refine ⟨hcategory ▸ hopen, ?_⟩
      intro j hj
      obtain ⟨t, ht, rfl⟩ := hmem j hj
      rw [hlane] at ht hdescending
      rcases List.mem_cons.mp ht with rfl | ht
      · exact Nat.le_refl _
      · rw [List.map_cons, List.pairwise_cons] at hdescending
        exact Nat.le_of_lt (hdescending.1 _ (List.mem_map_of_mem ht))
    simp only [List.head?_cons, Option.map_some, Option.some.injEq]
    constructor
    · intro hi
      exact hi ▸ htop
    · intro hi
      exact htop.unique hi

namespace Tracked

theorem start : Tracked [] {} where
  aligned := .start
  recent := by
    intro c i
    refine iff_of_false (by cases c <;> simp [State.lane, Lanes.get]) ?_
    intro h
    have := h.tagAt.lt_length
    simp [marksOf] at this
  queued := by
    intro c
    have : (State.lane {} c).queued = [] := by cases c <;> rfl
    rw [this]
    apply ClassesOf.empty
    intro k h
    have := h.lt_length
    simp [marksOf] at this
  granted := by
    intro i
    apply ClassesOf.empty
    intro k h
    have := h.lt_length.1
    simp [marksOf] at this

/-- A look back changes where a tag or close of its category has come, and
there it reaches what this mark stands for. -/
private theorem recent_set (h : Tracked markers s) (category : Category) (pointer : Option Site)
    (hevent : ∀ c, IsEvent c m.mark ↔ category = c)
    (hpointer : ∀ i, pointer.map (·.index) = some i ↔
      StandsFor (marksOf markers ++ [m.mark]) markers.length m.mark i)
    (hlane : ∀ c, (s'.lane c).previous = if c = category then pointer else (s.lane c).previous)
    (c : Category) (i : Nat) :
    (s'.lane c).previous.map (·.index) = some i ↔ Recent (marksOf (markers ++ [m])) c i := by
  rw [marksOf_concat, hlane c]
  by_cases hc : c = category
  · subst hc
    rw [if_pos rfl, hpointer i, recent_concat_of_isEvent ((hevent c).mpr rfl), length_marksOf]
  · rw [if_neg hc, recent_concat_of_not_isEvent (mt (hevent c).mp (Ne.symm hc))]
    exact h.recent c i

private theorem recent_kept (h : Tracked markers s) (hevent : ∀ c, ¬ IsEvent c m.mark)
    (hlane : ∀ c, (s'.lane c).previous = (s.lane c).previous) (c : Category) (i : Nat) :
    (s'.lane c).previous.map (·.index) = some i ↔ Recent (marksOf (markers ++ [m])) c i := by
  rw [marksOf_concat, hlane c, recent_concat_of_not_isEvent (hevent c)]
  exact h.recent c i

/-- A mark that is neither a tag nor waits for one leaves the stylers that wait
as they were. -/
private theorem queued_kept (h : Tracked markers s) {c : Category} (htag : ¬ IsTag c m.mark)
    (hstyler : ∀ name, m.mark ≠ .styler c .next name)
    (hlane : (s'.lane c).queued = (s.lane c).queued) :
    ClassesOf (marksOf (markers ++ [m])) (Waiting (marksOf (markers ++ [m])) c)
      (s'.lane c).queued.reverse := by
  rw [marksOf_concat, hlane]
  apply (h.queued c).concat.congr
  intro k
  rw [waiting_concat_of_not_isTag htag]
  simp [hstyler]

/-- A tag takes the classes that wait for it and leaves nothing waiting. -/
private theorem queued_tag (h : Tracked markers s) (htag : ∀ c, IsTag c m.mark ↔ category = c)
    (hlane : ∀ c, (s'.lane c).queued = if c = category then [] else (s.lane c).queued)
    (c : Category) :
    ClassesOf (marksOf (markers ++ [m])) (Waiting (marksOf (markers ++ [m])) c)
      (s'.lane c).queued.reverse := by
  by_cases hc : c = category
  · rw [hlane c, if_pos hc, marksOf_concat]
    exact .empty fun k => waiting_concat_of_isTag ((htag c).mpr hc.symm)
  · apply h.queued_kept
    · exact mt (htag c).mp (Ne.symm hc)
    · intro name hm
      have := (htag category).mpr rfl
      rw [hm] at this
      exact not_isTag_styler this
    · rw [hlane c, if_neg hc]

/-- A mark that is no tag and no styler that aims at one visited before
decides no target. -/
private theorem granted_kept (h : Tracked markers s) (htag : ∀ c, ¬ IsTag c m.mark)
    (hstyler : ∀ c direction name, m.mark = .styler c direction name → direction = .next) :
    ClassesOf (marksOf (markers ++ [m])) (Target (marksOf (markers ++ [m])) · i)
      (grantedTo s.grants i) := by
  rw [marksOf_concat]
  apply (h.granted i).concat.congr
  intro k
  rw [Target.concat_iff]
  constructor
  · exact Or.inl
  · intro hk
    rcases hk with hk | ⟨_, c, hc, _⟩ | ⟨_, c, name, ⟨hm, _⟩ | ⟨hm, _⟩⟩
    · exact hk
    · exact absurd hc (htag c)
    · cases hstyler c _ name hm
    · cases hstyler c _ name hm

/-- A tag is granted the classes that waited for it. -/
private theorem granted_tag (h : Tracked markers s)
    (htag : ∀ c, IsTag c m.mark ↔ category = c) (i : Nat) :
    ClassesOf (marksOf (markers ++ [m])) (Target (marksOf (markers ++ [m])) · i)
      (grantedTo (s.flush ⟨markers.length, m⟩ (s.lane category).queued) i) := by
  have hstyler : ∀ c direction name, m.mark ≠ .styler c direction name := by
    intro c direction name hm
    have := (htag category).mpr rfl
    rw [hm] at this
    exact not_isTag_styler this
  have htarget : ∀ k, Target (marksOf markers ++ [m.mark]) k i ↔
      Target (marksOf markers) k i ∨
        (i = markers.length ∧ Waiting (marksOf markers) category k) := by
    intro k
    rw [Target.concat_iff, length_marksOf]
    apply or_congr_right
    constructor
    · intro hk
      rcases hk with ⟨hi, c, hc, hwaiting⟩ | ⟨_, c, name, ⟨hm, _⟩ | ⟨hm, _⟩⟩
      · exact ⟨hi, (htag c).mp hc ▸ hwaiting⟩
      · exact absurd hm (hstyler c _ name)
      · exact absurd hm (hstyler c _ name)
    · intro hk
      exact Or.inl ⟨hk.1, category, (htag category).mpr rfl, hk.2⟩
  rw [marksOf_concat, grantedTo_flush]
  by_cases hi : markers.length = i
  · rw [if_pos hi]
    -- Nothing visited before aims at the new tag, so what waited comes first.
    have hnone : ∀ k, ¬ Target (marksOf markers) k i := by
      intro k hk
      have := hk.lt_length.2
      rw [length_marksOf] at this
      omega
    refine ((h.granted i).append (h.queued category) ?_).concat.congr ?_
    · intro j k hj _
      exact absurd hj (hnone j)
    · intro k
      rw [htarget]
      simp [hi]
  · rw [if_neg hi]
    apply (h.granted i).concat.congr
    intro k
    rw [htarget]
    simp [Ne.symm hi]

/-- A styler that aims at a tag visited before grants its class to it. -/
private theorem granted_styler {c : Category} {direction : Direction} {name : String}
    {tag : Site} (h : Tracked markers s) (hmark : m.mark = .styler c direction name)
    (haim : ∀ i, Target (marksOf markers ++ [m.mark]) markers.length i ↔ tag.index = i) :
    ClassesOf (marksOf (markers ++ [m])) (Target (marksOf (markers ++ [m])) · i)
      (grantedTo (⟨tag.index, name⟩ :: s.grants) i) := by
  have htarget : ∀ k, Target (marksOf markers ++ [m.mark]) k i ↔
      Target (marksOf markers) k i ∨ (k = markers.length ∧ tag.index = i) := by
    intro k
    constructor
    · intro hk
      rcases Target.concat_iff.mp hk with hold | ⟨_, c', hc', _⟩ | ⟨hlast, _⟩
      · exact Or.inl hold
      · rw [hmark] at hc'
        exact absurd hc' not_isTag_styler
      · rw [length_marksOf] at hlast
        subst hlast
        exact Or.inr ⟨rfl, (haim i).mp hk⟩
    · intro hk
      rcases hk with hk | ⟨rfl, hi⟩
      · exact hk.concat
      · exact (haim i).mpr hi
  rw [marksOf_concat, grantedTo_cons]
  by_cases hi : tag.index = i
  · rw [if_pos hi]
    have hsingle : ClassesOf (marksOf markers ++ [m.mark]) (· = markers.length) [name] := by
      have : ClassesOf (marksOf markers ++ [.styler c direction name])
          (· = (marksOf markers).length) [name] := .single
      rwa [← hmark, length_marksOf] at this
    refine ((h.granted i).concat.append hsingle ?_).congr ?_
    · intro j k hj hk
      have := hj.lt_length.1
      rw [length_marksOf] at this
      omega
    · intro k
      rw [htarget]
      simp [hi]
  · rw [if_neg hi]
    apply (h.granted i).concat.congr
    intro k
    rw [htarget]
    simp [hi]

/-- A tag is granted what waited for it. How stylers of its category look back
depends on whether it is open now. -/
private theorem visitTag {openTags : List Site} {pointer : Option Site} (h : Tracked markers s)
    (htag : ∀ c, IsTag c m.mark ↔ category = c) (hevent : ∀ c, IsEvent c m.mark ↔ category = c)
    (hpointer : ∀ i, pointer.map (·.index) = some i ↔
      StandsFor (marksOf markers ++ [m.mark]) markers.length m.mark i)
    (haligned : Aligned (markers ++ [m]) s')
    (hlanes : s'.lanes = s.lanes.set category
      { openTags := openTags, previous := pointer, queued := [] })
    (hgrants : s'.grants = s.flush ⟨markers.length, m⟩ (s.lane category).queued) :
    Tracked (markers ++ [m]) s' := by
  refine ⟨haligned, h.recent_set category pointer hevent hpointer ?_, h.queued_tag htag ?_, ?_⟩
  · intro c
    simp only [State.lane, hlanes, Lanes.get_set]
    split <;> rfl
  · intro c
    simp only [State.lane, hlanes, Lanes.get_set]
    split <;> rfl
  · rw [hgrants]
    exact h.granted_tag htag

/-- A close changes only where its category has come, which is the tag it ends. -/
private theorem closeTag {name : String} {last : Site} {outer outer' : List Site}
    (h : Tracked markers s) (hmark : m.mark = .closing category name)
    (hstack : s.openTags = last :: outer) (htag : last.marker.mark.tag? = some (category, name))
    (haligned : Aligned (markers ++ [m]) s')
    (hlanes : s'.lanes = s.lanes.set category
      { s.lane category with openTags := outer', previous := some last })
    (hgrants : s'.grants = s.grants) : Tracked (markers ++ [m]) s' := by
  refine ⟨haligned, ?_, ?_, ?_⟩
  · apply h.recent_set category (some last) (by simp [hmark])
    · intro i
      have hpair := h.aligned.tagPair_of_closing hstack htag
      rw [length_marksOf] at hpair
      simp only [hmark, StandsFor, Option.map_some, Option.some.injEq]
      constructor
      · intro hi
        exact hi ▸ hpair
      · intro hi
        exact hpair.open_unique hi
    · intro c
      simp only [State.lane, hlanes, Lanes.get_set]
      split <;> rfl
  · intro c
    apply h.queued_kept (by simp [hmark]) (by simp [hmark])
    simp only [State.lane, hlanes, Lanes.get_set]
    by_cases hc : c = category
    · rw [if_pos hc, hc]
    · rw [if_neg hc]
  · intro i
    rw [hgrants]
    exact h.granted_kept (by simp [hmark]) (by simp [hmark])

/-- A styler that aims at a tag visited before changes nothing but what this
tag has been granted. -/
private theorem grantTag {direction : Direction} {name : String} {tag : Site}
    (h : Tracked markers s) (hmark : m.mark = .styler category direction name)
    (hdirection : direction ≠ .next)
    (haim : ∀ i, Target (marksOf markers ++ [m.mark]) markers.length i ↔ tag.index = i)
    (haligned : Aligned (markers ++ [m]) s') (hlanes : s'.lanes = s.lanes)
    (hgrants : s'.grants = ⟨tag.index, name⟩ :: s.grants) : Tracked (markers ++ [m]) s' := by
  have hlane : ∀ c, s'.lane c = s.lane c := by
    intro c
    rw [State.lane, hlanes, State.lane]
  refine ⟨haligned, ?_, ?_, ?_⟩
  · apply h.recent_kept (by simp [hmark])
    intro c
    rw [hlane]
  · intro c
    apply h.queued_kept (by simp [hmark]) (by simp [hmark, hdirection])
    rw [hlane]
  · intro i
    rw [hgrants]
    exact h.granted_styler hmark haim

/-- A styler whose tag is still to come is the last one of those that wait. -/
private theorem queueClass {name : String} (h : Tracked markers s)
    (hmark : m.mark = .styler category .next name) (haligned : Aligned (markers ++ [m]) s')
    (hlanes : s'.lanes = s.lanes.set category
      { s.lane category with queued := name :: (s.lane category).queued })
    (hgrants : s'.grants = s.grants) : Tracked (markers ++ [m]) s' := by
  refine ⟨haligned, h.recent_kept (by simp [hmark]) ?_, ?_, ?_⟩
  · intro c
    simp only [State.lane, hlanes, Lanes.get_set]
    by_cases hc : c = category
    · rw [if_pos hc, hc]
    · rw [if_neg hc]
  · intro c
    by_cases hc : c = category
    · subst hc
      simp only [State.lane, hlanes, Lanes.get_set, if_true]
      rw [List.reverse_cons, marksOf_concat, hmark]
      refine ((h.queued c).concat.append .single ?_).congr ?_
      · intro j k hj hk
        have := hj.lt_length
        omega
      · intro k
        rw [waiting_concat_of_not_isTag not_isTag_styler]
        simp
    · apply h.queued_kept (by simp [hmark]) (by simp [hmark, Ne.symm hc])
      simp only [State.lane, hlanes, Lanes.get_set]
      rw [if_neg hc]
  · intro i
    rw [hgrants]
    exact h.granted_kept (by simp [hmark]) (by simp [hmark])

/-- Every step of the walk keeps its records in agreement with the marks. -/
theorem step (h : Tracked markers s)
    (hstep : Step (s.visit ⟨markers.length, m⟩) ⟨markers.length, m⟩ s') :
    Tracked (markers ++ [m]) s' := by
  have haligned := h.aligned.step hstep
  cases hstep with
  | opening c name classes hmark =>
    have hmark : m.mark = .opening c name classes := hmark
    refine h.visitTag (by simp [hmark]) (by simp [hmark]) ?_ haligned rfl rfl
    intro i
    simp only [hmark, StandsFor]
    rw [← length_marksOf, List.take_left]
    exact h.aligned.head_iff
  | atomic c name classes hmark =>
    have hmark : m.mark = .atomic c name classes := hmark
    refine h.visitTag (by simp [hmark]) (by simp [hmark]) ?_ haligned rfl rfl
    intro i
    simp [hmark, StandsFor, eq_comm]
  | closing c name last top outer outer' hmark hstack htag hlane hsame =>
    exact h.closeTag hmark hstack htag haligned rfl rfl
  | previous c name tag hmark hpointer hgranted =>
    have hmark : m.mark = .styler c .previous name := hmark
    have hpointer : (s.lane c).previous = some tag := hpointer
    refine h.grantTag hmark (by simp) ?_ haligned rfl rfl
    intro i
    rw [hmark, ← length_marksOf, Target.previous_concat_iff, ← h.recent c i, hpointer]
    simp
  | container c name tag hmark hpointer hgranted =>
    have hmark : m.mark = .styler c .container name := hmark
    have hpointer : (s.lane c).openTags.head? = some tag := hpointer
    refine h.grantTag hmark (by simp) ?_ haligned rfl rfl
    intro i
    rw [hmark, ← length_marksOf, Target.container_concat_iff, ← h.aligned.head_iff, hpointer]
    simp
  | next c name hmark => exact h.queueClass hmark haligned rfl rfl

end Tracked

theorem Reached.tracked (h : Reached markers s) : Tracked markers s := by
  induction h with
  | start => exact .start
  | concat _ hstep ih => exact ih.step hstep

end

end DeferredMarkup.Nesting
