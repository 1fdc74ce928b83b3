import DeferredMarkup.Proofs.Embedding
import DeferredMarkup.Proofs.SentinelFree

/-!
Which marker a sentinel is found in. The strings of the markers are looked
through from left to right, but only after the walk has given the classes of
stylers to their tags. The marker that is named is thus the first one that
holds a sentinel or is aimed at by a styler that does. A styler that looks
ahead stands before its tag and is found itself. One that looks back or around
itself stands behind its tag, and it is the tag that is named in its place.
-/
namespace DeferredMarkup

open Nesting

/-- A styler that gives its class to a tag before it. -/
def Mark.ReachesBack : Mark → Prop
  | .styler _ .previous _ => True
  | .styler _ .container _ => True
  | _ => False

theorem Mark.holdsSentinel_iff_exists {m : Mark} :
    m.HoldsSentinel ↔ ∃ s ∈ m.strings, sentinel ∈ s.toList := by
  simp [Mark.holdsSentinel_iff, Mark.Clean]

namespace Nesting

/-- A marker at a position holds a sentinel, or else a styler that aims at it. -/
def Tainted (ms : List Mark) (i : Nat) : Prop :=
  ∃ k m, ms[k]? = some m ∧ m.HoldsSentinel ∧ (k = i ∨ Target ms k i)

section

variable {ms : List Mark} {m : Mark} {markers : List Marker} {i k : Nat}

/-- A styler stands behind its tag exactly when it looks back or around itself. -/
theorem Target.lt_iff_reachesBack (h : Target ms k i) (hk : ms[k]? = some m) :
    i < k ↔ m.ReachesBack := by
  have hbefore : ∀ {c}, TagAt (ms.take k) c i → i < k := by
    intro c htag
    have := htag.lt_length
    rw [List.length_take] at this
    omega
  cases h with
  | next c name hstyler hahead htag hfirst =>
    cases hk.symm.trans hstyler
    simp only [Mark.ReachesBack, iff_false]
    omega
  | container c name hstyler haround =>
    cases hk.symm.trans hstyler
    simp only [Mark.ReachesBack, iff_true]
    exact hbefore haround.1.tagAt
  | previous c name hstyler hback =>
    cases hk.symm.trans hstyler
    simp only [Mark.ReachesBack, iff_true]
    exact hbefore hback.tagAt

/-- The first tainted marker holds a sentinel itself, or a styler behind it does. -/
theorem Tainted.holder_or_behind (h : Tainted ms i) (hfirst : ∀ j < i, ¬ Tainted ms j)
    (hm : ms[i]? = some m) : m.HoldsSentinel ∨
      ∃ k styler, i < k ∧ ms[k]? = some styler ∧ styler.HoldsSentinel ∧ styler.ReachesBack ∧
        Target ms k i := by
  obtain ⟨k, x, hk, hholds, rfl | htarget⟩ := h
  · cases hm.symm.trans hk
    exact Or.inl hholds
  · have hik : i < k := by
      have hself : ¬ k < i := fun hlt => hfirst k hlt ⟨k, x, hk, hholds, Or.inl rfl⟩
      rcases Nat.lt_trichotomy i k with hlt | rfl | hgt
      · exact hlt
      · obtain ⟨c, direction, name, hstyler⟩ := htarget.styler
        obtain ⟨tag, htag, htagged⟩ := htarget.tagAt hstyler
        cases hstyler.symm.trans htag
        exact absurd htagged not_isTag_styler
      · exact absurd hgt hself
    exact Or.inr ⟨k, x, hik, hk, hholds, (htarget.lt_iff_reachesBack hk).mp hik, htarget⟩

/-- A marker comes out of an accepted walk with a sentinel when it was tainted. -/
theorem holdsSentinel_walk_iff (h : (walk markers).value.outcome = .ok ()) {m' : Marker}
    (hm' : (walk markers).value.markers[i]? = some m') :
    m'.mark.HoldsSentinel ↔ Tainted (marksOf markers) i := by
  have hi : i < (marksOf markers).length := by
    rw [length_marksOf, ← length_walk]
    exact (List.getElem?_eq_some_iff.mp hm').1
  have hm := List.getElem?_eq_getElem hi
  obtain ⟨names, hnames, hget⟩ := getElem?_marksOf_walk h hm
  have hmark : m'.mark = (marksOf markers)[i].addClasses names :=
    Option.some.inj ((getElem?_marksOf hm').symm.trans hget)
  rw [hmark, Mark.holdsSentinel_iff_exists]
  simp only [mem_strings_addClasses]
  constructor
  · rintro ⟨s, hs | ⟨_, hs⟩, hmem⟩
    · exact ⟨i, _, hm, Mark.holdsSentinel_iff_exists.mpr ⟨s, hs, hmem⟩, Or.inl rfl⟩
    · obtain ⟨k, hk, c, direction, hstyler⟩ := hnames.exists_styler hs
      exact ⟨k, _, hstyler, hmem, Or.inr hk⟩
  · rintro ⟨k, x, hk, hholds, rfl | htarget⟩
    · cases hm.symm.trans hk
      obtain ⟨s, hs, hmem⟩ := Mark.holdsSentinel_iff_exists.mp hholds
      exact ⟨s, Or.inl hs, hmem⟩
    · obtain ⟨c, direction, name, hstyler⟩ := htarget.styler
      cases hk.symm.trans hstyler
      obtain ⟨tag, htag, htagged⟩ := htarget.tagAt hstyler
      cases hm.symm.trans htag
      obtain ⟨tagName, htagged⟩ := htagged
      have hnamed : StylerNamed (marksOf markers) k name := ⟨c, direction, hstyler⟩
      refine ⟨name, Or.inr ⟨?_, hnames.mem_of_stylerNamed htarget hnamed⟩, hholds⟩
      rw [htagged, Option.isSome_some]

/-- The first marker that comes out of an accepted walk unclean is the first
that was tainted. -/
theorem exists_first_tainted {before after : List Marker} {m' : Marker}
    (h : (walk markers).value.outcome = .ok ())
    (hsplit : (walk markers).value.markers = before ++ m' :: after)
    (hbefore : ∀ x ∈ before, x.mark.Clean) (hunclean : ¬ m'.mark.Clean) :
    ∃ m, markers[before.length]? = some m ∧ m.id = m'.id ∧
      Tainted (marksOf markers) before.length ∧
      ∀ j < before.length, ¬ Tainted (marksOf markers) j := by
  have hm' : (walk markers).value.markers[before.length]? = some m' := by
    rw [hsplit, List.getElem?_append_right (Nat.le_refl _), Nat.sub_self]
    rfl
  have hlt : before.length < markers.length := by
    rw [← length_walk markers, hsplit, List.length_append, List.length_cons]
    omega
  have hm := List.getElem?_eq_getElem hlt
  obtain ⟨names, _, hget⟩ := getElem?_walk h hm
  refine ⟨_, hm, ?_, (holdsSentinel_walk_iff h hm').mp (Mark.holdsSentinel_iff.mpr hunclean), ?_⟩
  · cases hm'.symm.trans hget
    rfl
  · intro j hj htainted
    have hx : (walk markers).value.markers[j]? = some before[j] := by
      rw [hsplit, List.getElem?_append_left hj, List.getElem?_eq_getElem hj]
    have hholds := (holdsSentinel_walk_iff h hx).mpr htainted
    exact Mark.holdsSentinel_iff.mp hholds (hbefore _ (List.getElem_mem hj))

end

end Nesting

variable {text : String} {r : Registry} {ls : List Location} {m : Marker} {id : MarkerId}

/-- A placed marker is a registered one. -/
theorem exists_get?_of_mem_placed (h : m ∈ placed r ls) :
    ∃ x, r.get? m.id = some x ∧ x.mark = m.mark := by
  obtain ⟨l, _, hl⟩ := List.mem_filterMap.mp h
  obtain ⟨x, hx, rfl⟩ := Option.map_eq_some_iff.mp hl
  have hid : x.id = l.id := Registry.id_of_get? hx
  exact ⟨x, hid ▸ hx, rfl⟩

/-- A resolution that finds a sentinel names the first marker that is tainted. -/
theorem exists_first_tainted_of_resolve
    (h : (resolve text r).value = .error (.sentinelWithin id)) :
    ∃ markers i m, (Placement.place text r).value.registry.sorted = .ok markers ∧
      (∀ m ∈ markers, ∃ x, r.get? m.id = some x ∧ x.mark = m.mark) ∧
      markers[i]? = some m ∧ m.id = id ∧
      Tainted (marksOf markers) i ∧ ∀ j < i, ¬ Tainted (marksOf markers) j := by
  rcases Resolution.resolve_eq_error_iff.mp h with hplace | ⟨ls, hplace, _⟩
  · exact absurd hplace (Placement.place_ne_sentinelWithin id)
  · obtain ⟨hlen, hfree, d, rfl, hlists, _⟩ := place_eq_ok_iff.mp hplace
    rcases (Layout.resolve_text_eq_error_iff hlen hlists hfree).mp h with
      hwalk | ⟨hok, before, m', after, hsplit, hbefore, hunclean, hid⟩
    · cases isInternal_walk hwalk
    · cases hid
      obtain ⟨m, hm, hid, hfirst⟩ := exists_first_tainted hok hsplit hbefore hunclean
      refine ⟨_, before.length, m, ?_, fun m hm => exists_get?_of_mem_placed hm, hm, hid, hfirst⟩
      rw [Layout.place_text hlen hlists hfree, Layout.sorted_recordAll hlists]

/-- A sentinel is found in the first marker, in the order of the placeholders,
that holds one or is aimed at by a styler that does. The marker that is named
was registered with a sentinel in it, unless a styler behind it that looks back
or around itself gives it a class with one. Where no such styler is registered
with a sentinel, the marker that is named always holds one. -/
theorem resolve_blames_first_tainted (text : String) (r : Registry) (id : MarkerId)
    (h : (resolve text r).value = .error (.sentinelWithin id)) :
    ∃ x, r.get? id = some x ∧
      (∃ markers i m, (Placement.place text r).value.registry.sorted = .ok markers ∧
        markers[i]? = some m ∧ m.id = id ∧ (∀ j < i, ¬ Tainted (marksOf markers) j) ∧
        (x.mark.HoldsSentinel ∨ ∃ k styler, i < k ∧ (marksOf markers)[k]? = some styler ∧
          styler.HoldsSentinel ∧ styler.ReachesBack ∧ Target (marksOf markers) k i)) ∧
      ((∀ id' x', r.get? id' = some x' → x'.mark.HoldsSentinel → ¬ x'.mark.ReachesBack) →
        x.mark.HoldsSentinel) := by
  obtain ⟨markers, i, m, hsorted, hregistered, hm, rfl, htainted, hfirst⟩ :=
    exists_first_tainted_of_resolve h
  obtain ⟨x, hx, hmark⟩ := hregistered m (List.mem_of_getElem? hm)
  have hblamed := htainted.holder_or_behind hfirst (getElem?_marksOf hm)
  rw [← hmark] at hblamed
  refine ⟨x, hx, ⟨markers, i, m, hsorted, hm, rfl, hfirst, hblamed⟩, ?_⟩
  intro hnone
  rcases hblamed with hholds | ⟨k, styler, _, hk, hholds, hback, _⟩
  · exact hholds
  · obtain ⟨y, hy, rfl⟩ := getElem?_marksOf_eq_some hk
    obtain ⟨x', hx', hmark'⟩ := hregistered y (List.mem_of_getElem? hy)
    rw [← hmark'] at hholds hback
    exact absurd hback (hnone _ x' hx' hholds)

/-- A styler that looks ahead is named itself, and the tag behind it is not. -/
theorem resolve_blames_first_tainted_ahead :
    ∃ r₁ r : Registry, (∅ : Registry).register (.styler .inline .next "\x1a") = ⟨r₁, .ok 0⟩ ∧
      r₁.register (.atomic .inline "br" []) = ⟨r, .ok 1⟩ ∧
      (resolve "\x1a0000\x1a0001" r).value = .error (.sentinelWithin 0) ∧
      (∀ id x, r.get? id = some x → x.mark.HoldsSentinel → ¬ x.mark.ReachesBack) ∧
      ∃ x, r.get? 0 = some x ∧ x.mark.HoldsSentinel := by
  obtain ⟨r₁, r, hregister₁, hregister, hplaced, hnonempty, hperm⟩ : ∃ r₁ r : Registry,
      (∅ : Registry).register (.styler .inline .next "\x1a") = ⟨r₁, .ok 0⟩ ∧
      r₁.register (.atomic .inline "br" []) = ⟨r, .ok 1⟩ ∧
      (Placement.place "\x1a0000\x1a0001" r).value.outcome = .ok [⟨0, 0⟩, ⟨5, 1⟩] ∧
      (Placement.place "\x1a0000\x1a0001" r).value.registry.isEmpty = false ∧
      (Placement.place "\x1a0000\x1a0001" r).value.registry.markers.Perm
        [⟨0, some 0, .styler .inline .next "\x1a"⟩, ⟨1, some 5, .atomic .inline "br" []⟩] :=
    ⟨_, _, rfl, rfl, rfl, rfl, .of_eq rfl⟩
  have hsorted := Registry.sorted_of_perm hperm (by decide) (by decide)
  have hresolve : (resolve "\x1a0000\x1a0001" r).value = .error (.sentinelWithin 0) :=
    Resolution.resolve_eq_error_iff.mpr
      (Or.inr ⟨_, hplaced, hnonempty, Or.inr ⟨_, hsorted, Or.inr ⟨rfl, rfl⟩⟩⟩)
  have hahead : ∀ id x, r.get? id = some x → x.mark.HoldsSentinel → ¬ x.mark.ReachesBack := by
    intro id x hx _
    rw [Registry.get?_register hregister, Registry.get?_register hregister₁,
      Registry.get?_empty] at hx
    split at hx
    · cases hx
      simp [Mark.ReachesBack]
    · split at hx
      · cases hx
        simp [Mark.ReachesBack]
      · cases hx
  obtain ⟨x, hx, _, hholds⟩ := resolve_blames_first_tainted _ r 0 hresolve
  exact ⟨r₁, r, hregister₁, hregister, hresolve, hahead, x, hx, hholds hahead⟩

/-- The sentinel stands in the class of a styler, and the tag around it is named. -/
theorem resolve_blames_tag_for_styler :
    ¬ ∀ (text : String) (r : Registry) (id : MarkerId), r.Built →
      (resolve text r).value = .error (.sentinelWithin id) →
      ∃ x, r.get? id = some x ∧ x.mark.HoldsSentinel := by
  intro hclaim
  let sorted : List Marker := [⟨0, some 0, .opening .block "p" []⟩,
    ⟨1, some 5, .styler .block .container "\x1a"⟩, ⟨2, some 10, .closing .block "p"⟩]
  obtain ⟨r₁, r₂, r, hregister₁, hregister₂, hregister, hplaced, hnonempty, hperm, hget⟩ :
      ∃ r₁ r₂ r : Registry,
        (∅ : Registry).register (.opening .block "p" []) = ⟨r₁, .ok 0⟩ ∧
        r₁.register (.styler .block .container "\x1a") = ⟨r₂, .ok 1⟩ ∧
        r₂.register (.closing .block "p") = ⟨r, .ok 2⟩ ∧
        (Placement.place "\x1a0000\x1a0001\x1a0002" r).value.outcome =
          .ok [⟨0, 0⟩, ⟨5, 1⟩, ⟨10, 2⟩] ∧
        (Placement.place "\x1a0000\x1a0001\x1a0002" r).value.registry.isEmpty = false ∧
        (Placement.place "\x1a0000\x1a0001\x1a0002" r).value.registry.markers.Perm sorted ∧
        r.get? 0 = some ⟨0, none, .opening .block "p" []⟩ :=
    ⟨_, _, _, rfl, rfl, rfl, rfl, rfl, .of_eq rfl, rfl⟩
  have hsorted := Registry.sorted_of_perm hperm (by simp [sorted]) (by decide +zetaReduce)
  have hresolve : (resolve "\x1a0000\x1a0001\x1a0002" r).value = .error (.sentinelWithin 0) :=
    Resolution.resolve_eq_error_iff.mpr
      (Or.inr ⟨_, hplaced, hnonempty, Or.inr ⟨_, hsorted, Or.inr ⟨rfl, rfl⟩⟩⟩)
  have hbuilt : r.Built :=
    .register (.register (.register .empty hregister₁) hregister₂) hregister
  obtain ⟨x, hx, hholds⟩ := hclaim _ r 0 hbuilt hresolve
  cases hx.symm.trans hget
  simp [Mark.HoldsSentinel, sentinel] at hholds

end DeferredMarkup
