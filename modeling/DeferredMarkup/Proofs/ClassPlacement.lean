import DeferredMarkup.Proofs.Acceptance

/-!
Where classes go. In an accepted document every styler has one target, and the
walk has handed every tag the classes of the stylers that aim at it. Nothing
else about a marker has changed. Whether a document is accepted, and with which
classes, depends on its marks alone, wherever their placeholders stand.
-/
namespace DeferredMarkup.Nesting

section

variable {markers markers' : List Marker} {m : Marker} {category : Category}
  {direction : Direction} {name : String} {i k : Nat}

/-- An accepted walk leaves every marker as it was, but for the classes of the
stylers that aim at it. -/
theorem getElem?_walk (h : (walk markers).value.outcome = .ok ()) (hm : markers[i]? = some m) :
    ∃ names, ClassesOf (marksOf markers) (Target (marksOf markers) · i) names ∧
      (walk markers).value.markers[i]? = some (m.addClasses names) := by
  obtain ⟨s, hreached, _, hmarkers⟩ := reached_of_walk_ok h
  refine ⟨grantedTo s.grants i, hreached.tracked.granted i, ?_⟩
  rw [hmarkers, getElem?_handOut, hm, Option.map_some]

theorem length_walk (markers : List Marker) :
    (walk markers).value.markers.length = markers.length := by
  rcases walk_outcome_cases markers with ⟨s, _, hvalue⟩ | ⟨s, fault, _, hvalue⟩
  · rw [hvalue, length_handOut]
  · rw [hvalue, length_handOut]

/-- A styler of an accepted document has a target, which is a tag of the
category at which it aims, and it has no other. -/
theorem exists_target_iff (h : (walk markers).value.outcome = .ok ())
    (hk : (marksOf markers)[k]? = some (.styler category direction name)) :
    ∃ i, TagAt (marksOf markers) category i ∧ ∀ j, Target (marksOf markers) k j ↔ j = i := by
  obtain ⟨i, hi⟩ := (fits_of_walk_ok h).exists_target hk
  refine ⟨i, hi.tagAt hk, ?_⟩
  intro j
  constructor
  · intro hj
    exact hj.unique hi
  · intro hj
    exact hj ▸ hi

theorem classes?_addClasses {classes : List String} (added : List String)
    (h : m.mark.classes? = some classes) :
    (m.addClasses added).mark.classes? = some (classes ++ added) := by
  unfold Marker.addClasses
  cases hmark : m.mark with
  | opening category name classes' =>
    rw [hmark, Mark.classes?, Option.some.injEq] at h
    rw [Mark.addClasses, Mark.classes?, h]
  | atomic category name classes' =>
    rw [hmark, Mark.classes?, Option.some.injEq] at h
    rw [Mark.addClasses, Mark.classes?, h]
  | closing category name => simp [hmark, Mark.classes?] at h
  | styler category direction name => simp [hmark, Mark.classes?] at h

/-- In an accepted document every styler has exactly one target, and a tag of
the category at which it aims. The classes of every tag are those that it had
and behind them the classes of exactly the stylers that aim at it, in the order
in which these stand. -/
theorem walk_places_classes (markers : List Marker)
    (h : (walk markers).value.outcome = .ok ()) :
    (∀ k category direction name,
      (marksOf markers)[k]? = some (.styler category direction name) →
      ∃ i, TagAt (marksOf markers) category i ∧ ∀ j, Target (marksOf markers) k j ↔ j = i) ∧
    (walk markers).value.markers.length = markers.length ∧
    ∀ i m classes, markers[i]? = some m → m.mark.classes? = some classes →
      ∃ m' names, (walk markers).value.markers[i]? = some m' ∧
        ClassesOf (marksOf markers) (Target (marksOf markers) · i) names ∧
        m'.mark.classes? = some (classes ++ names) := by
  refine ⟨?_, length_walk markers, ?_⟩
  · intro k category direction name hk
    exact exists_target_iff h hk
  · intro i m classes hm hclasses
    obtain ⟨names, hnames, hget⟩ := getElem?_walk h hm
    exact ⟨_, names, hget, hnames, classes?_addClasses names hclasses⟩

/-- A paragraph that is styled from before, from within and from behind. -/
theorem walk_places_classes_paragraph :
    let markers : List Marker := [⟨3, none, .styler .block .next "lead"⟩,
      ⟨4, none, .opening .block "p" ["text"]⟩, ⟨5, none, .styler .block .container "wide"⟩,
      ⟨8, none, .closing .block "p"⟩, ⟨6, none, .styler .block .previous "last"⟩]
    (walk markers).value.outcome = .ok () ∧
      ∃ m' names, (walk markers).value.markers[1]? = some m' ∧
        ClassesOf (marksOf markers) (Target (marksOf markers) · 1) names ∧
        m'.mark.classes? = some (["text"] ++ names) :=
  ⟨rfl, (walk_places_classes _ rfl).2.2 1 _ ["text"] rfl rfl⟩

theorem walk_ok_congr (hmarks : marksOf markers = marksOf markers')
    (h : (walk markers).value.outcome = .ok ()) : (walk markers').value.outcome = .ok () := by
  have hfits := fits_of_walk_ok h
  rw [hmarks] at hfits
  exact walk_ok_of_fits hfits

/-- Documents with the same marks are given the same classes. -/
theorem marksOf_walk_congr (hmarks : marksOf markers = marksOf markers')
    (h : (walk markers).value.outcome = .ok ()) :
    marksOf (walk markers).value.markers = marksOf (walk markers').value.markers := by
  have h' := walk_ok_congr hmarks h
  have hlen := congrArg List.length hmarks
  rw [length_marksOf, length_marksOf] at hlen
  apply List.ext_getElem?
  intro i
  by_cases hi : i < markers.length
  · have hm := List.getElem?_eq_getElem hi
    have hm' := List.getElem?_eq_getElem (hlen ▸ hi : i < markers'.length)
    obtain ⟨names, hnames, hget⟩ := getElem?_walk h hm
    obtain ⟨names', hnames', hget'⟩ := getElem?_walk h' hm'
    rw [hmarks] at hnames
    have hmark : markers[i].mark = markers'[i].mark := by
      have := congrArg (·[i]?) hmarks
      simpa [marksOf, hm, hm'] using this
    simp [marksOf, hget, hget', Marker.addClasses, hmark, hnames.unique hnames']
  · rw [List.getElem?_eq_none, List.getElem?_eq_none]
    · rw [length_marksOf, length_walk]
      omega
    · rw [length_marksOf, length_walk]
      omega

/-- Classes are all that the walk adds to a marker. -/
theorem map_offset_walk (markers : List Marker) :
    (walk markers).value.markers.map (·.offset) = markers.map (·.offset) := by
  have hgrants : ∀ grants, (handOut markers grants).map (·.offset) = markers.map (·.offset) := by
    intro grants
    apply List.ext_getElem?
    intro i
    rw [List.getElem?_map, getElem?_handOut, List.getElem?_map, Option.map_map]
    rfl
  rcases walk_outcome_cases markers with ⟨s, _, hvalue⟩ | ⟨s, fault, _, hvalue⟩
  · rw [hvalue, hgrants]
  · rw [hvalue, hgrants]

theorem mem_strings_addClasses {m : Mark} {added : List String} {s : String} :
    s ∈ (m.addClasses added).strings ↔ s ∈ m.strings ∨ (m.tag?.isSome ∧ s ∈ added) := by
  cases m with
  | opening category name classes => simp [Mark.addClasses, Mark.strings, Mark.tag?, or_assoc]
  | atomic category name classes => simp [Mark.addClasses, Mark.strings, Mark.tag?, or_assoc]
  | closing category name => simp [Mark.addClasses, Mark.strings, Mark.tag?]
  | styler category direction name => simp [Mark.addClasses, Mark.strings, Mark.tag?]

/-- The strings in the marks of an accepted document are those it had, since
every class that is handed out stands in a styler. -/
theorem forall_strings_walk {p : String → Prop} (h : (walk markers).value.outcome = .ok ()) :
    (∀ x ∈ marksOf (walk markers).value.markers, ∀ s ∈ x.strings, p s) ↔
      ∀ x ∈ marksOf markers, ∀ s ∈ x.strings, p s := by
  constructor
  · intro hwalked x hx s hs
    obtain ⟨m, hm, rfl⟩ := List.mem_map.mp hx
    obtain ⟨i, hi⟩ := List.mem_iff_getElem?.mp hm
    obtain ⟨names, _, hget⟩ := getElem?_walk h hi
    have hmem : (m.addClasses names).mark ∈ marksOf (walk markers).value.markers :=
      List.mem_map_of_mem (List.mem_of_getElem? hget)
    exact hwalked _ hmem s (mem_strings_addClasses.mpr (Or.inl hs))
  · intro hmarkers x hx s hs
    obtain ⟨m', hm', rfl⟩ := List.mem_map.mp hx
    obtain ⟨i, hi⟩ := List.mem_iff_getElem?.mp hm'
    have hlt : i < markers.length := by
      rw [← length_walk]
      exact (List.getElem?_eq_some_iff.mp hi).1
    have hm := List.getElem?_eq_getElem hlt
    obtain ⟨names, hnames, hget⟩ := getElem?_walk h hm
    cases hi.symm.trans hget
    rcases mem_strings_addClasses.mp hs with hs | ⟨_, hs⟩
    · exact hmarkers _ (List.mem_map_of_mem (List.getElem_mem hlt)) s hs
    · obtain ⟨k, _, category, direction, hk⟩ := hnames.exists_styler hs
      exact hmarkers _ (List.mem_of_getElem? hk) s (by simp [Mark.strings])

end

end DeferredMarkup.Nesting
