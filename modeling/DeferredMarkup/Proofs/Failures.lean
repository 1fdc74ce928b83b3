import DeferredMarkup.Proofs.Matching
import DeferredMarkup.Proofs.Rendering

/-!
How a resolution fails. Once a text has been placed, its markers can be sorted,
since all of them are located, and what is left are the faults that the walk
finds in the document, and marks with a sentinel in them. The walk never blames
what is not the document's fault, and the placement never misses a location.
-/
namespace DeferredMarkup

open Nesting

namespace Nesting

variable {markers : List Marker} {s : State} {fault : Fault}

theorem Refused.isInternal {site : Site} (h : Refused s site fault) :
    fault.isInternal = false := by
  cases h with
  | misfit category name _ _ =>
    unfold State.misfit
    cases s.atomicSince name s.openTags.head? with
    | none => rfl
    | some atomic => rfl
  | category => rfl
  | previous => rfl
  | container => rfl

theorem State.isInternal_leftover? (h : s.leftover? = some fault) : fault.isInternal = false := by
  unfold State.leftover? at h
  split at h
  · cases h
    rfl
  · split at h
    · cases h
      rfl
    · obtain ⟨c, _, rfl⟩ := Option.map_eq_some_iff.mp h
      rfl

/-- What the walk finds wrong is a fault of the document. -/
theorem isInternal_walk (h : (walk markers).value.outcome = .error fault) :
    fault.isInternal = false := by
  rcases walk_outcome_cases markers with ⟨s, _, hvalue⟩ | ⟨s, fault', hstopped, hvalue⟩
  · rw [hvalue] at h
    cases hleft : s.leftover? with
    | none => simp [hleft, verdict] at h
    | some fault' =>
      simp only [hleft, verdict, Except.error.injEq] at h
      exact h ▸ State.isInternal_leftover? hleft
  · rw [hvalue] at h
    obtain ⟨before, after, m, last, _, hreached, hfailed, _⟩ := hstopped
    cases h
    exact (hreached.aligned.refused hfailed).isInternal

end Nesting

namespace Placement

variable {length : Nat} {s s' : State} {m : Marking} {markings : List Marking} {fault : Fault}

/-- A placement fails at a marking that does not fit, or for what it counts. -/
def IsMisplacement : Fault → Prop
  | .textTooLong .. | .truncatedMarking .. | .malformedMarking .. | .unknownMarker ..
  | .locatedTwice .. | .miscount .. => True
  | _ => False

theorem IsMisplacement.isInternal (h : IsMisplacement fault) : fault.isInternal := by
  cases fault <;> first | rfl | cases h

theorem isMisplacement_accept (h : accept length s m = .error fault) : IsMisplacement fault := by
  unfold accept at h
  split at h
  · cases h
    trivial
  · cases h
    trivial
  · split at h
    · cases h
      trivial
    · cases h
      trivial
    · cases h

theorem isMisplacement_acceptAll (h : acceptAll length s markings = (s', some fault)) :
    IsMisplacement fault := by
  induction markings generalizing s with
  | nil => cases h
  | cons m markings ih =>
    rw [acceptAll] at h
    cases haccept : accept length s m with
    | ok next =>
      rw [haccept] at h
      exact ih h
    | error fault' =>
      rw [haccept] at h
      cases h
      exact isMisplacement_accept haccept

theorem isMisplacement_place {text : String} {r : Registry}
    (h : (place text r).value.outcome = .error fault) : IsMisplacement fault := by
  unfold place at h
  dsimp only at h
  split at h
  · cases h
    trivial
  · split at h
    · rename_i haccept
      cases h
      exact isMisplacement_acceptAll haccept
    · split at h
      · cases h
      · cases h
        trivial

theorem place_ne_neverLocated {text : String} {r : Registry} (id : MarkerId) :
    (place text r).value.outcome ≠ .error (.neverLocated id) :=
  fun h => isMisplacement_place h

theorem place_ne_sentinelWithin {text : String} {r : Registry} (id : MarkerId) :
    (place text r).value.outcome ≠ .error (.sentinelWithin id) :=
  fun h => isMisplacement_place h

end Placement

namespace Resolution

variable {markers : List Marker} {m : Marker} {fault : Fault}

theorem replacement_eq_error_iff : replacement m = .error fault ↔
    m.offset = none ∧ fault = .neverLocated m.id ∨
      m.offset.isSome ∧ ¬ m.mark.Clean ∧ fault = .sentinelWithin m.id := by
  unfold replacement
  rw [Mark.clean_iff, not_not]
  cases m.offset with
  | none =>
    constructor
    · intro h
      cases h
      exact Or.inl ⟨rfl, rfl⟩
    · intro h
      rcases h with ⟨_, rfl⟩ | ⟨hsome, _⟩
      · rfl
      · cases hsome
  | some offset =>
    dsimp only
    by_cases hunclean : m.mark.strings.any (·.toList.contains sentinel)
    · rw [if_pos hunclean]
      constructor
      · intro h
        cases h
        exact Or.inr ⟨rfl, hunclean, rfl⟩
      · intro h
        rcases h with ⟨hnone, _⟩ | ⟨_, _, rfl⟩
        · cases hnone
        · rfl
    · rw [if_neg hunclean]
      refine iff_of_false (by simp) ?_
      intro h
      rcases h with ⟨hnone, _⟩ | ⟨_, hsome, _⟩
      · cases hnone
      · exact hunclean hsome

theorem exists_replacement_iff :
    (∃ x, replacement m = .ok x) ↔ m.offset.isSome ∧ m.mark.Clean := by
  simp only [replacement_eq_ok_iff, Option.isSome_iff_exists]
  constructor
  · intro h
    obtain ⟨_, hclean, offset, hoffset, _⟩ := h
    exact ⟨⟨offset, hoffset⟩, hclean⟩
  · intro h
    obtain ⟨⟨offset, hoffset⟩, hclean⟩ := h
    exact ⟨_, hclean, offset, hoffset, rfl⟩

theorem mapM_cons_eq_error_iff : (m :: markers).mapM replacement = .error fault ↔
    replacement m = .error fault ∨
      (∃ x, replacement m = .ok x) ∧ markers.mapM replacement = .error fault := by
  rw [List.mapM_cons]
  cases replacement m with
  | error fault' => simp [bind, Except.bind]
  | ok x =>
    cases markers.mapM replacement with
    | error fault' => simp [bind, Except.bind]
    | ok rest => simp [bind, Except.bind, pure, Except.pure]

/-- The replacements of markers fail at the first marker that has none. -/
theorem replacements_eq_error_iff : (replacements markers).value = .error fault ↔
    ∃ before m after, markers = before ++ m :: after ∧
      (∀ x ∈ before, x.offset.isSome ∧ x.mark.Clean) ∧ replacement m = .error fault := by
  rw [value_replacements]
  induction markers with
  | nil => simp [pure, Except.pure]
  | cons m markers ih =>
    rw [mapM_cons_eq_error_iff, exists_replacement_iff, ih]
    constructor
    · intro h
      rcases h with hfirst | ⟨hm, before, m', after, rfl, hbefore, hfailed⟩
      · exact ⟨[], m, markers, rfl, by simp, hfirst⟩
      · exact ⟨m :: before, m', after, rfl, List.forall_mem_cons.mpr ⟨hm, hbefore⟩, hfailed⟩
    · intro h
      obtain ⟨before, m', after, hsplit, hbefore, hfailed⟩ := h
      cases before with
      | nil =>
        rw [List.nil_append, List.cons.injEq] at hsplit
        exact Or.inl (hsplit.1 ▸ hfailed)
      | cons x before =>
        rw [List.cons_append, List.cons.injEq] at hsplit
        obtain ⟨rfl, rfl⟩ := hsplit
        obtain ⟨hm, hbefore⟩ := List.forall_mem_cons.mp hbefore
        exact Or.inr ⟨hm, before, m', after, rfl, hbefore, hfailed⟩

/-- Among located markers, the first with a sentinel in it is the one that fails. -/
theorem replacements_located_eq_error_iff (hlocated : ∀ m ∈ markers, m.offset.isSome) :
    (replacements markers).value = .error fault ↔
      ∃ before m after, markers = before ++ m :: after ∧ (∀ x ∈ before, x.mark.Clean) ∧
        ¬ m.mark.Clean ∧ fault = .sentinelWithin m.id := by
  rw [replacements_eq_error_iff]
  refine exists_congr fun before => exists_congr fun m => exists_congr fun after => ?_
  refine and_congr_right fun hsplit => ?_
  rw [hsplit] at hlocated
  have hm : m.offset.isSome := hlocated m (by simp)
  have hbefore : ∀ x ∈ before, x.offset.isSome := fun x hx => hlocated x (by simp [hx])
  have hnone : m.offset ≠ none := Option.isSome_iff_ne_none.mp hm
  rw [replacement_eq_error_iff]
  simp only [hm, hnone, false_and, false_or, true_and]
  refine and_congr_left fun _ => ?_
  exact ⟨fun h x hx => (h x hx).2, fun h x hx => ⟨hbefore x hx, h x hx⟩⟩

end Resolution

theorem Layout.isSome_offset_walk {d : Layout} {r : Registry} (hlists : r.Lists d.ids) :
    ∀ m ∈ (walk (placed r d.locations)).value.markers, m.offset.isSome := by
  intro m hm
  obtain ⟨l, _, hl⟩ :=
    List.mem_map.mp (d.map_offset_walk_placed hlists ▸ List.mem_map_of_mem hm)
  rw [← hl]
  rfl

/-- A layout whose markers are registered is refused for what the walk finds,
or else for the first of the walked markers that has a sentinel in it. -/
theorem Layout.resolve_text_eq_error_iff {d : Layout} {r : Registry} {fault : Fault}
    (hlen : d.text.utf8ByteSize ≤ longestText) (hlists : r.Lists d.ids) (hfree : r.Unlocated) :
    (resolve d.text r).value = .error fault ↔
      (walk (placed r d.locations)).value.outcome = .error fault ∨
      (walk (placed r d.locations)).value.outcome = .ok () ∧
        ∃ before m after, (walk (placed r d.locations)).value.markers = before ++ m :: after ∧
          (∀ x ∈ before, x.mark.Clean) ∧ ¬ m.mark.Clean ∧ fault = .sentinelWithin m.id := by
  rw [Resolution.resolve_eq_error_iff, Layout.place_text hlen hlists hfree]
  simp only [Except.ok.injEq, exists_eq_left', reduceCtorEq, false_or,
    Layout.sorted_recordAll hlists,
    Resolution.replacements_located_eq_error_iff (isSome_offset_walk hlists)]
  refine and_iff_right_of_imp ?_
  intro h
  by_contra hempty
  rw [Bool.not_eq_false] at hempty
  rw [hlists.placed_eq_nil (hlists.isEmpty_recordAll ▸ hempty)] at h
  rcases h with h | ⟨_, before, m, after, hsplit, _⟩
  · cases h
  · cases before with
    | nil => cases hsplit
    | cons x before => cases hsplit

end DeferredMarkup
