import DeferredMarkup.Proofs.Blame
import DeferredMarkup.Proofs.Misplacing
import DeferredMarkup.Proofs.Revising

/-!
What a resolution writes into its journal. The records come stage by stage, and
those of a stage are written whether the next one begins or not. So a journal has
always the same parts, of which some are missing when a resolution ends early, and
what is there tells how it ended.
-/
namespace DeferredMarkup

open Nesting

namespace Attempt

variable {α β : Type} {text : String}

/-- The records of an attempt on a text without its result. -/
def records (x : Attempt α) (text : String) : List Record :=
  ((ExceptT.run x).run text).records

theorem records_ofExcept (x : Except Fault α) : (ofExcept x).records text = [] := rfl

theorem records_ofLogged (x : Logged α) : (ofLogged x).records text = x.records :=
  (List.append_nil _).trans (List.append_nil _)

theorem records_pure (a : α) : (pure a : Attempt α).records text = [] := rfl

theorem records_get : Attempt.records get text = [] := rfl

/-- The records of what comes after an outcome, unless it is a fault. -/
def after : Except Fault α → (α → List Record) → List Record
  | .ok a, next => next a
  | .error _, _ => []

@[simp] theorem after_ok (a : α) (next : α → List Record) : after (.ok a) next = next a := rfl

@[simp] theorem after_error (fault : Fault) (next : α → List Record) :
    after (.error fault) next = [] := rfl

/-- What is recorded of an outcome in the end. -/
def ending : Except Fault α → List Record
  | .ok _ => []
  | .error fault => [.ofFailure fault]

@[simp] theorem ending_ok (a : α) : ending (.ok a) = [] := rfl

@[simp] theorem ending_error (fault : Fault) :
    ending (.error fault : Except Fault α) = [.ofFailure fault] := rfl

/-- One attempt writes its records behind those of the other, unless that has failed. -/
theorem records_bind (x : Attempt α) (f : α → Attempt β) : (x >>= f).records text =
    x.records text ++ after (x.result text).1 fun a => (f a).records (x.result text).2 := by
  unfold records result
  show ((ExceptT.run x).run text).records ++ (((ExceptT.bindCont f
    ((ExceptT.run x).run text).value.1).run ((ExceptT.run x).run text).value.2)).records = _
  rcases ((ExceptT.run x).run text).value with ⟨outcome, left⟩
  cases outcome with
  | ok a => rfl
  | error fault => rfl

end Attempt

/-- The parts of a journal, in the order in which they are written. -/
structure Journal where
  markings : Option (List Nat)
  misplaced : Option Fault
  visited : List Marker
  unwritable : Option MarkerId
  applied : Option (List Nat)
  failure : Option Fault

/-- The records of a journal, of which the one that ends it depends on whether its
failure is internal. -/
def Journal.records (j : Journal) : List Record :=
  (j.markings.map Record.markings).toList ++ (j.misplaced.map Record.misplaced).toList ++
    j.visited.map Record.visit ++
    (j.unwritable.map fun id => Record.unwritable (.sentinelWithin id)).toList ++
    (j.applied.map Record.applied).toList ++
    (j.failure.map fun fault =>
      if fault.isInternal then Record.aborted fault else .rejected fault).toList

/-- All placeholders of a text can be read and their markers be located. The text is
not too long, and nothing is wrong at any of its sentinels. -/
structure Readable (text : String) (r : Registry) : Prop where
  short : text.utf8ByteSize ≤ longestText
  fitting : ∀ offset fault, ¬ Misplaced text r offset fault

/-- The offsets of the sentinels of a text, from left to right. -/
structure SentinelOffsets (text : String) (offsets : List Nat) : Prop where
  ascending : offsets.Pairwise (· < ·)
  mem_iff : ∀ offset, offset ∈ offsets ↔ SentinelAt text offset

/-- The markers at which a walk looks: all of them, or those up to the first that
does not fit, at which it fails. -/
inductive Visits (markers : List Marker) : List Marker → Prop
  | all (fits : ∀ k m fault, markers[k]? = some m → ¬ Blame (markers.take k) m fault) :
      Visits markers markers
  | through (before after : List Marker) (m : Marker) (fault : Fault)
      (split : markers = before ++ m :: after)
      (fits : ∀ k x fault', before[k]? = some x → ¬ Blame (before.take k) x fault')
      (blamed : Blame before m fault) (failed : (walk markers).value.outcome = .error fault) :
      Visits markers (before ++ [m])

/-- A journal tells how a resolution went. -/
structure Journal.Tells (j : Journal) (text : String) (r : Registry) : Prop where
  markings_iff : ∀ offsets, j.markings = some offsets ↔
    Readable text r ∧ SentinelOffsets text offsets
  misplaced_iff : ∀ fault, j.misplaced = some fault ↔
    (Placement.place text r).value.outcome = .error fault
  visited_misplaced : ∀ fault, (Placement.place text r).value.outcome = .error fault →
    j.visited = []
  visited_placed : ∀ ls, (Placement.place text r).value.outcome = .ok ls →
    ∃ markers, (Placement.place text r).value.registry.sorted = .ok markers ∧
      Visits markers j.visited
  unwritable_iff : ∀ id, j.unwritable = some id ↔
    (revise text r).value.outcome = .error (.sentinelWithin id)
  applied_iff : ∀ starts, j.applied = some starts ↔
    (revise text r).value.outcome = .ok () ∧ r.isEmpty = false ∧ j.markings = some starts.reverse
  failure_iff : ∀ fault, j.failure = some fault ↔ (revise text r).value.outcome = .error fault

variable {text : String} {r : Registry} {offsets offsets' : List Nat} {fault : Fault}

theorem SentinelOffsets.unique (h : SentinelOffsets text offsets)
    (h' : SentinelOffsets text offsets') : offsets = offsets' := by
  have hperm : offsets.Perm offsets' := by
    refine (List.perm_ext_iff_of_nodup ?_ ?_).mpr fun offset => ?_
    · exact h.ascending.imp Nat.ne_of_lt
    · exact h'.ascending.imp Nat.ne_of_lt
    · rw [h.mem_iff, h'.mem_iff]
  refine hperm.eq_of_pairwise ?_ h.ascending h'.ascending
  intro a b _ _ hab hba
  omega

theorem sentinelOffsets_ofText (text : String) :
    SentinelOffsets text ((Marking.ofText text.toList).map (·.offset)) := by
  refine ⟨List.pairwise_map.mpr (Marking.pairwise_ofText _), ?_⟩
  intro offset
  rw [sentinelAt_iff, List.mem_map]
  constructor
  · rintro ⟨m, hm, rfl⟩
    obtain ⟨before, after, htext, rfl⟩ := Marking.mem_ofText_iff.mp hm
    exact ⟨before, after, htext, rfl⟩
  · rintro ⟨before, after, htext, rfl⟩
    exact ⟨_, Marking.mem_ofText_iff.mpr ⟨before, after, htext, rfl⟩, rfl⟩

namespace Placement

/-- Where all markings are accepted, they are recorded at all sentinels. -/
theorem readable_of_acceptAll {s : State} (hlen : text.utf8ByteSize ≤ longestText)
    (h : acceptAll text.utf8ByteSize ⟨r, []⟩ (Marking.ofText text.toList) = (s, none)) :
    Readable text r ∧ SentinelOffsets text (s.located.reverse.map (·.offset)) := by
  constructor
  · obtain ⟨limit, ls, hplaced, _, ⟨_, rfl, _⟩ | ⟨_, hnot, _⟩⟩ := exists_placedUpTo h
    · exact ⟨hlen, fun offset fault hfault =>
        hplaced.not_misplaced hfault.sentinelAt.lt_utf8ByteSize hfault⟩
    · cases hnot
  · obtain ⟨ls, hmarkings, _, rfl⟩ := acceptAll_of_none h
    have hoffsets := sentinelOffsets_ofText text
    rw [hmarkings, List.map_map] at hoffsets
    rw [List.append_nil, List.reverse_reverse]
    exact hoffsets

/-- A placement records the markings when all of them can be read, and then its
fault, if there is one. -/
theorem exists_records (text : String) (r : Registry) :
    ∃ (markings : Option (List Nat)) (misplaced : Option Fault),
      (place text r).records =
        (markings.map .markings).toList ++ (misplaced.map .misplaced).toList ∧
      (∀ offsets, markings = some offsets ↔ Readable text r ∧ SentinelOffsets text offsets) ∧
      (∀ fault, misplaced = some fault ↔ (place text r).value.outcome = .error fault) ∧
      ∀ ls, (place text r).value.outcome = .ok ls → markings = some (ls.map (·.offset)) := by
  by_cases hlen : text.utf8ByteSize ≤ longestText
  · rcases haccept : acceptAll text.utf8ByteSize ⟨r, []⟩ (Marking.ofText text.toList)
      with ⟨s, stop⟩
    cases stop with
    | some found =>
      have hunread : ¬ Readable text r := by
        obtain ⟨limit, _, _, _, ⟨hnot, _⟩ | ⟨_, _, hfound⟩⟩ := exists_placedUpTo haccept
        · cases hnot
        · exact fun h => h.fitting limit _ hfound
      have hplace : place text r = ⟨⟨s.registry, .error found⟩, [.misplaced found]⟩ := by
        simp [place, Nat.not_lt.mpr hlen, haccept]
      rw [hplace]
      exact ⟨none, some found, rfl, by simp [hunread], by simp, by simp⟩
    | none =>
      obtain ⟨hreadable, hoffsets⟩ := readable_of_acceptAll hlen haccept
      have hmarkings : ∀ offsets, some (s.located.reverse.map (·.offset)) = some offsets ↔
          Readable text r ∧ SentinelOffsets text offsets := by
        intro offsets
        rw [Option.some.injEq, and_iff_right hreadable]
        exact ⟨fun h => h ▸ hoffsets, hoffsets.unique⟩
      by_cases hcount : s.located.reverse.length = s.registry.size
      · have hplace : place text r = ⟨⟨s.registry, .ok s.located.reverse⟩,
            [.markings (s.located.reverse.map (·.offset))]⟩ := by
          simp only [place, Nat.not_lt.mpr hlen, if_false, haccept, hcount, if_true]
        rw [hplace]
        refine ⟨_, none, rfl, hmarkings, by simp, ?_⟩
        intro ls hls
        cases hls
        rfl
      · obtain ⟨fault, hplace⟩ : ∃ fault, place text r = ⟨⟨s.registry, .error fault⟩,
            [.markings (s.located.reverse.map (·.offset)), .misplaced fault]⟩ := by
          simp only [place, Nat.not_lt.mpr hlen, if_false, haccept, hcount]
          exact ⟨_, rfl⟩
        rw [hplace]
        exact ⟨_, some fault, rfl, hmarkings, by simp, by simp⟩
  · have hunread : ¬ Readable text r := fun h => hlen h.short
    obtain ⟨fault, hplace⟩ : ∃ fault,
        place text r = ⟨⟨r, .error fault⟩, [.misplaced fault]⟩ := by
      simp only [place, Nat.not_le.mp hlen, if_true]
      exact ⟨_, rfl⟩
    rw [hplace]
    exact ⟨none, some fault, rfl, by simp [hunread], by simp, by simp⟩

end Placement

namespace Nesting

variable {markers : List Marker} {s : State}

/-- No marker is to blame over which a walk has gone. -/
theorem Reached.not_blame (h : Reached markers s) {k : Nat} {m : Marker}
    (hm : markers[k]? = some m) : ¬ Blame (markers.take k) m fault := by
  intro hblame
  obtain ⟨last, next, hreached, hstep⟩ := h.step_at hm
  have hk : (markers.take k).length = k := by
    have := (List.getElem?_eq_some_iff.mp hm).1
    rw [List.length_take]
    omega
  have hfailed := hblame.step_eq hreached
  rw [hk, State.step_eq_ok_iff.mpr hstep] at hfailed
  cases hfailed

theorem map_marker_sites (markers : List Marker) : (sites markers).map (·.marker) = markers := by
  apply List.ext_getElem?
  intro i
  simp [sites, Function.comp_def]

/-- The records of a walk are those of its visits. -/
theorem records_walk {stop : Option Fault} {visited : List Marker}
    (hrun : State.run {} (sites markers) = (s, stop))
    (hvisited : s.visited.reverse = sites visited) :
    (walk markers).records = visited.map .visit := by
  have houtcome : (walk markers).value.outcome = verdict stop := by
    simp only [walk, hrun]
  have hdrift : driftRecord stop = [] := by
    unfold driftRecord
    split
    next tag => exact absurd trivial (walk_not_isDrift markers houtcome)
    next => rfl
  have hrecords : (walk markers).records =
      (s.visited.reverse.map (·.marker)).map .visit ++ driftRecord stop := by
    rw [List.map_map]
    simp only [walk, hrun]
    rfl
  rw [hrecords, hdrift, hvisited, map_marker_sites, List.append_nil]

theorem exists_records_walk (markers : List Marker) :
    ∃ visited, (walk markers).records = visited.map .visit ∧ Visits markers visited := by
  rcases reached_or_stopped markers with ⟨s, hreached, hadvance⟩ | ⟨s, fault, hstopped, hadvance⟩
  · have hrun : State.run {} (sites markers) = (s, s.leftover?) := by
      simp only [State.run, hadvance]
    have hvisited : s.visited.reverse = sites markers := by
      rw [hreached.visited, List.reverse_reverse]
    exact ⟨markers, records_walk hrun hvisited, .all fun _ _ _ => hreached.not_blame⟩
  · have hrun : State.run {} (sites markers) = (s, some fault) := by
      simp only [State.run, hadvance]
    have houtcome : (walk markers).value.outcome = .error fault := by
      simp only [walk, hrun, verdict]
    obtain ⟨before, after, m, last, hsplit, hreached, hfailed, rfl⟩ := hstopped
    have hvisited : (last.visit ⟨before.length, m⟩).visited.reverse = sites (before ++ [m]) := by
      show (⟨before.length, m⟩ :: last.visited).reverse = _
      rw [hreached.visited, List.reverse_cons, List.reverse_reverse, sites_concat]
    exact ⟨before ++ [m], records_walk hrun hvisited, .through before after m fault hsplit
      (fun _ _ _ => hreached.not_blame) (hreached.blame hfailed) houtcome⟩

end Nesting

namespace Resolution

theorem records_substitute (all : List Replacement) (text : String) :
    (substitute all).records text = (substitute? all text).records := by
  unfold substitute
  simp only [Attempt.records_bind, Attempt.records_get, Attempt.records_ofLogged,
    Attempt.result_get, Attempt.result_ofLogged, Attempt.after_ok, List.nil_append]
  cases (substitute? all text).value with
  | some result => exact List.append_nil _
  | none => exact List.append_nil _

/-- The stages of a resolution write one after another, up to the one that fails. -/
theorem records_run (text : String) (r : Registry) : (run r).records text =
    let placing := Placement.place text r
    placing.records ++ Attempt.after placing.value.outcome fun _ =>
      if placing.value.registry.isEmpty then []
      else Attempt.after placing.value.registry.sorted fun markers =>
        (walk markers).records ++ Attempt.after (walk markers).value.outcome fun _ =>
          let rewriting := replacements (walk markers).value.markers
          rewriting.records ++ Attempt.after rewriting.value fun all =>
            (substitute? all text).records := by
  unfold run
  simp only [Attempt.records_bind, Attempt.records_ofLogged, Attempt.result_ofLogged,
    Attempt.records_ofExcept, Attempt.result_ofExcept, Attempt.records_get, Attempt.result_get,
    Attempt.after_ok, List.nil_append, apply_ite Attempt.records, ite_apply, Attempt.records_pure,
    records_substitute]

theorem records_revise (text : String) (r : Registry) : (revise text r).records =
    (run r).records text ++ Attempt.ending (revise text r).value.outcome := by
  rw [value_revise_eq_result]
  unfold revise Attempt.records Attempt.result
  rcases (ExceptT.run (run r)).run text with ⟨⟨outcome, left⟩, records⟩
  cases outcome with
  | ok _ => exact (List.append_nil _).symm
  | error fault => rfl

variable {markers : List Marker} {all : List Replacement} {id : MarkerId}

theorem records_replacements_of_ok (h : (replacements markers).value = .ok all) :
    (replacements markers).records = [] := by
  rw [value_replacements] at h
  simp only [replacements, writeReplacements_eq, h]

theorem records_replacements_of_sentinelWithin
    (h : (replacements markers).value = .error (.sentinelWithin id)) :
    (replacements markers).records = [.unwritable (.sentinelWithin id)] := by
  rw [value_replacements] at h
  simp only [replacements, writeReplacements_eq, h]

/-- Replacements for the slots of a layout are recorded from right to left. -/
theorem records_substitute? (d : Layout) {texts : List String}
    (hlen : texts.length = d.slots.length) :
    (substitute? (Substitution.fillings d.locations texts) d.text).records =
      [.applied (d.locations.map (·.offset)).reverse] := by
  have hlen' : texts.length = d.locations.length := hlen.trans d.length_locations.symm
  have hstarts : (Substitution.fillings d.locations texts).map (·.span.start) =
      d.locations.map (·.offset) := by
    have hspans := congrArg (List.map Span.start) (Substitution.map_span_fillings hlen')
    rwa [List.map_map, List.map_map] at hspans
  have hascending := Substitution.fillings_ascending d.ascending_locations hlen'
  simp only [substitute?, Substitution.replace?_layout d hlen]
  rw [Substitution.descending_of_ascending hascending, List.map_reverse, hstarts]

end Resolution

namespace Journal

variable {j : Journal}

/-- The id of the marker that a fault finds a sentinel in. -/
def tainted? : Fault → Option MarkerId
  | .sentinelWithin id => some id
  | _ => none

theorem tainted?_eq_none (h : ∀ id, fault ≠ .sentinelWithin id) : tainted? fault = none := by
  unfold tainted?
  split
  next id => exact absurd rfl (h id)
  next => rfl

/-- The journal of a resolution that has come to its outcome. The placeholders are
replaced at the end of one that succeeds, unless there are none. -/
def ended (markings : Option (List Nat)) (misplaced : Option Fault) (visited : List Marker)
    (empty : Bool) : Except Fault Unit → Journal
  | .ok _ =>
    ⟨markings, misplaced, visited, none, if empty then none else markings.map List.reverse, none⟩
  | .error fault => ⟨markings, misplaced, visited, tainted? fault, none, some fault⟩

variable {markings : Option (List Nat)} {misplaced : Option Fault} {visited : List Marker}

/-- A journal whose first parts tell how far a resolution came tells how it ended. -/
theorem tells_ended
    (hmarkings : ∀ offsets, markings = some offsets ↔
      Readable text r ∧ SentinelOffsets text offsets)
    (hmisplaced : ∀ fault, misplaced = some fault ↔
      (Placement.place text r).value.outcome = .error fault)
    (hunvisited : ∀ fault, (Placement.place text r).value.outcome = .error fault → visited = [])
    (hvisited : ∀ ls, (Placement.place text r).value.outcome = .ok ls →
      ∃ markers, (Placement.place text r).value.registry.sorted = .ok markers ∧
        Visits markers visited) :
    (ended markings misplaced visited r.isEmpty (revise text r).value.outcome).Tells text r := by
  have hparts : ∀ outcome, (ended markings misplaced visited r.isEmpty outcome).markings =
      markings ∧ (ended markings misplaced visited r.isEmpty outcome).misplaced = misplaced ∧
      (ended markings misplaced visited r.isEmpty outcome).visited = visited := by
    intro outcome
    cases outcome <;> exact ⟨rfl, rfl, rfl⟩
  obtain ⟨hmarkingsPart, hmisplacedPart, hvisitedPart⟩ := hparts (revise text r).value.outcome
  refine ⟨?_, ?_, ?_, ?_, ?_, ?_, ?_⟩
  · rwa [hmarkingsPart]
  · rwa [hmisplacedPart]
  · rwa [hvisitedPart]
  · rwa [hvisitedPart]
  · intro id
    cases (revise text r).value.outcome with
    | ok _ => simp [ended]
    | error fault => cases fault <;> simp [ended, tainted?]
  · intro starts
    rw [hmarkingsPart]
    cases (revise text r).value.outcome with
    | ok _ =>
      cases hempty : r.isEmpty with
      | true => simp [ended]
      | false => simp [ended, List.reverse_eq_iff]
    | error fault => simp [ended]
  · intro fault
    cases (revise text r).value.outcome with
    | ok _ => simp [ended]
    | error fault' => simp [ended]

end Journal

namespace Layout

variable {d : Layout} {visited : List Marker}

/-- What is recorded behind the markings of a layout: the visits of the walk, and then
what became of it. -/
theorem records_revise (hlen : d.text.utf8ByteSize ≤ longestText) (hlists : r.Lists d.ids)
    (hfree : r.Unlocated)
    (hplacing : (Placement.place d.text r).records = [.markings (d.locations.map (·.offset))])
    (hvisited : (walk (placed r d.locations)).records = visited.map .visit) :
    (revise d.text r).records = (Journal.ended (some (d.locations.map (·.offset))) none visited
      r.isEmpty (revise d.text r).value.outcome).records := by
  have hstages := Resolution.records_run d.text r
  dsimp only at hstages
  rw [hplacing, place_text hlen hlists hfree, Attempt.after_ok, sorted_recordAll hlists,
    Attempt.after_ok, hvisited, hlists.isEmpty_recordAll] at hstages
  rw [Resolution.records_revise, hstages]
  -- Without markers the walk is left out, but it would visit nothing.
  by_cases hempty : r.isEmpty
  · have hnone := hlists.placed_eq_nil hempty
    have hunvisited : visited = [] := by
      rw [hnone] at hvisited
      exact List.map_eq_nil_iff.mp hvisited.symm
    have houtcome : (revise d.text r).value.outcome = .ok () := by
      refine outcome_revise_eq_ok_iff.mpr
        ⟨d.render [], (resolve_text_eq_ok_iff hlen hlists hfree).mpr ?_⟩
      rw [hnone]
      exact ⟨rfl, fun x hx => absurd hx List.not_mem_nil, rfl⟩
    simp [hempty, hunvisited, houtcome, Journal.ended, Journal.records]
  · cases houtcome : (revise d.text r).value.outcome with
    | error fault =>
      rw [outcome_revise_eq_error_iff, resolve_text_eq_error_iff hlen hlists hfree] at houtcome
      rcases houtcome with hwalk | ⟨hwalk, before, m, after, hsplit, hbefore, hm, rfl⟩
      · have huntainted : Journal.tainted? fault = none := by
          apply Journal.tainted?_eq_none
          rintro id rfl
          cases isInternal_walk hwalk
        simp [hempty, hwalk, Journal.ended, Journal.records, huntainted, Record.ofFailure]
      · have hrefused := (Resolution.replacements_located_eq_error_iff
          (isSome_offset_walk hlists)).mpr ⟨before, m, after, hsplit, hbefore, hm, rfl⟩
        simp [hempty, hwalk, Journal.ended, Journal.records, Journal.tainted?, hrefused,
          Resolution.records_replacements_of_sentinelWithin hrefused, Record.ofFailure]
    | ok _ =>
      obtain ⟨_, hresolve⟩ := outcome_revise_eq_ok_iff.mp houtcome
      obtain ⟨hwalk, hclean, _⟩ := (resolve_text_eq_ok_iff hlen hlists hfree).mp hresolve
      have hoffsets := d.map_offset_walk_placed hlists
      have hall := (Resolution.replacements_eq_ok_iff hoffsets).mpr ⟨hclean, rfl⟩
      have htexts : ((walk (placed r d.locations)).value.markers.map (·.mark.html)).length =
          d.slots.length := by
        have := congrArg List.length hoffsets
        simpa using this
      simp [hempty, hwalk, Journal.ended, Journal.records, hall,
        Resolution.records_replacements_of_ok hall, Resolution.records_substitute? d htexts]

end Layout

/-- Every journal has the parts that tell how its resolution went. -/
theorem exists_journal (text : String) (r : Registry) : ∃ j : Journal,
    (revise text r).records = j.records ∧ j.Tells text r := by
  obtain ⟨markings, misplaced, hplacing, hmarkings, hmisplaced, hoffsets⟩ :=
    Placement.exists_records text r
  cases hplace : (Placement.place text r).value.outcome with
  | error fault =>
    obtain rfl : misplaced = some fault := (hmisplaced fault).mpr hplace
    have houtcome : (revise text r).value.outcome = .error fault := by
      rw [outcome_revise_eq_error_iff, Resolution.resolve_eq_error_iff]
      exact Or.inl hplace
    have huntainted : Journal.tainted? fault = none := by
      apply Journal.tainted?_eq_none
      rintro id rfl
      exact Placement.place_ne_sentinelWithin id hplace
    have htells := Journal.tells_ended hmarkings hmisplaced (fun _ _ => rfl) (by simp [hplace])
    refine ⟨_, ?_, htells⟩
    rw [Resolution.records_revise, Resolution.records_run]
    simp [hplacing, hplace, houtcome, huntainted, Journal.ended, Journal.records,
      Record.ofFailure]
  | ok ls =>
    obtain rfl : misplaced = none := by
      rw [Option.eq_none_iff_forall_ne_some]
      intro fault hfault
      cases hplace.symm.trans ((hmisplaced fault).mp hfault)
    obtain rfl := hoffsets ls hplace
    obtain ⟨hlen, hfree, d, rfl, hlists, rfl⟩ := place_eq_ok_iff.mp hplace
    obtain ⟨visited, hvisited, hvisits⟩ := exists_records_walk (placed r d.locations)
    have hsorted : (Placement.place d.text r).value.registry.sorted =
        .ok (placed r d.locations) := by
      rw [Layout.place_text hlen hlists hfree, Layout.sorted_recordAll hlists]
    exact ⟨_, Layout.records_revise hlen hlists hfree hplacing hvisited,
      Journal.tells_ended hmarkings hmisplaced (by simp [hplace])
        fun _ _ => ⟨_, hsorted, hvisits⟩⟩

namespace Journal

variable {j : Journal} {starts : List Nat}

theorem markings_mem_records_iff : .markings offsets ∈ j.records ↔ j.markings = some offsets := by
  have hending : ∀ fault : Fault, (if fault.isInternal then Record.aborted fault
      else .rejected fault) ≠ .markings offsets := by
    intro fault
    split <;> simp
  simp [Journal.records, hending]

theorem applied_mem_records_iff : .applied starts ∈ j.records ↔ j.applied = some starts := by
  have hending : ∀ fault : Fault, (if fault.isInternal then Record.aborted fault
      else .rejected fault) ≠ .applied starts := by
    intro fault
    split <;> simp
  simp [Journal.records, hending]

end Journal

namespace Journal.Tells

variable {j : Journal}

/-- An error is recorded for an internal fault and for nothing else. -/
theorem exists_error_iff (h : j.Tells text r) :
    (∃ record ∈ j.records, record.severity = .error) ↔
      ∃ fault, (revise text r).value.outcome = .error fault ∧ fault.isInternal := by
  constructor
  · rintro ⟨record, hmem, hseverity⟩
    simp only [Journal.records, List.mem_append, Option.mem_toList,
      Option.map_eq_some_iff, List.mem_map] at hmem
    rcases hmem with ((((⟨offsets, _, rfl⟩ | ⟨fault, hfault, rfl⟩) | ⟨m, _, rfl⟩) |
      ⟨id, hid, rfl⟩) | ⟨starts, _, rfl⟩) | ⟨fault, hfault, rfl⟩
    · cases hseverity
    · have hplace := (h.misplaced_iff fault).mp hfault
      refine ⟨fault, ?_, ?_⟩
      · rw [outcome_revise_eq_error_iff, Resolution.resolve_eq_error_iff]
        exact Or.inl hplace
      · exact (Placement.isMisplacement_place hplace).isInternal
    · cases hseverity
    · exact ⟨_, (h.unwritable_iff id).mp hid, rfl⟩
    · cases hseverity
    · refine ⟨fault, (h.failure_iff fault).mp hfault, ?_⟩
      by_contra hinternal
      rw [if_neg hinternal] at hseverity
      cases hseverity
  · rintro ⟨fault, houtcome, hinternal⟩
    refine ⟨.aborted fault, ?_, rfl⟩
    simp [Journal.records, (h.failure_iff fault).mpr houtcome, hinternal]

theorem exists_last (h : j.Tells text r)
    (houtcome : (revise text r).value.outcome = .error fault) :
    ∃ record, j.records.getLast? = some record ∧
      record.severity = if fault.isInternal then .error else .debug := by
  rw [Journal.records, (h.failure_iff fault).mpr houtcome, Option.map_some, Option.toList_some,
    List.getLast?_concat]
  refine ⟨_, rfl, ?_⟩
  split
  · rfl
  · rfl

theorem exists_applied (h : j.Tells text r) (houtcome : (revise text r).value.outcome = .ok ())
    (hnonempty : r.isEmpty = false) :
    ∃ offsets, j.markings = some offsets ∧ j.applied = some offsets.reverse := by
  obtain ⟨_, hresolve⟩ := outcome_revise_eq_ok_iff.mp houtcome
  obtain ⟨ls, hplace, _⟩ := Resolution.resolve_eq_ok_iff.mp hresolve
  obtain ⟨markings, _, _, hmarkings, _, hoffsets⟩ := Placement.exists_records text r
  have hread := (h.markings_iff _).mpr ((hmarkings _).mp (hoffsets ls hplace))
  refine ⟨_, hread, (h.applied_iff _).mpr ⟨houtcome, hnonempty, ?_⟩⟩
  rw [hread, List.reverse_reverse]

end Journal.Tells

/-- A resolution records the markings if all of them can be read, then why a text
cannot be placed, then every marker that the walk visits, then the sentinel for which
a marker cannot be written, then the placeholders that were replaced, and in the end
the fault if there is one. What it records as an error is an internal fault. Where a
resolution with markers succeeds, the placeholders are recorded twice, from left to
right when they are read and from right to left when they are replaced. -/
theorem revise_journals (text : String) (r : Registry) :
    (∃ j : Journal, (revise text r).records = j.records ∧ j.Tells text r) ∧
    ((∃ record ∈ (revise text r).records, record.severity = .error) ↔
      ∃ fault, (revise text r).value.outcome = .error fault ∧ fault.isInternal) ∧
    (∀ fault, (revise text r).value.outcome = .error fault →
      ∃ record, (revise text r).records.getLast? = some record ∧
        record.severity = if fault.isInternal then .error else .debug) ∧
    ((revise text r).value.outcome = .ok () → r.isEmpty = false →
      ∃ offsets, .markings offsets ∈ (revise text r).records ∧
        .applied offsets.reverse ∈ (revise text r).records) ∧
    ∀ offsets starts, .markings offsets ∈ (revise text r).records →
      .applied starts ∈ (revise text r).records → starts = offsets.reverse := by
  obtain ⟨j, hrecords, htells⟩ := exists_journal text r
  simp only [hrecords, Journal.markings_mem_records_iff, Journal.applied_mem_records_iff]
  refine ⟨⟨j, rfl, htells⟩, htells.exists_error_iff, fun _ => htells.exists_last,
    htells.exists_applied, ?_⟩
  intro offsets starts hmarkings happlied
  obtain ⟨_, _, hsame⟩ := (htells.applied_iff starts).mp happlied
  rw [hmarkings, Option.some.injEq] at hsame
  rw [hsame, List.reverse_reverse]

/-- Two paragraphs, one that is closed and one that is not. -/
theorem revise_journals_paragraph :
    (∃ r₁ r : Registry, (∅ : Registry).register (.opening .block "p" []) = ⟨r₁, .ok 0⟩ ∧
      r₁.register (.closing .block "p") = ⟨r, .ok 1⟩ ∧
      (revise "\x1a0000é\x1a0001" r).value.outcome = .ok () ∧ r.isEmpty = false ∧
      ∃ offsets, .markings offsets ∈ (revise "\x1a0000é\x1a0001" r).records ∧
        .applied offsets.reverse ∈ (revise "\x1a0000é\x1a0001" r).records) ∧
    ∃ r : Registry, (∅ : Registry).register (.opening .block "p" []) = ⟨r, .ok 0⟩ ∧
      (revise "\x1a0000é" r).value.outcome = .error (.unclosedTags ["Block <p> #0000@0"]) ∧
      ∃ record, (revise "\x1a0000é" r).records.getLast? = some record ∧
        record.severity = .debug := by
  constructor
  · let sorted : List Marker :=
      [⟨0, some 0, .opening .block "p" []⟩, ⟨1, some 7, .closing .block "p"⟩]
    obtain ⟨r₁, r, hopen, hclose, hplaced, hplacedNonempty, hperm, hnonempty⟩ : ∃ r₁ r : Registry,
        (∅ : Registry).register (.opening .block "p" []) = ⟨r₁, .ok 0⟩ ∧
        r₁.register (.closing .block "p") = ⟨r, .ok 1⟩ ∧
        (Placement.place "\x1a0000é\x1a0001" r).value.outcome = .ok [⟨0, 0⟩, ⟨7, 1⟩] ∧
        (Placement.place "\x1a0000é\x1a0001" r).value.registry.isEmpty = false ∧
        (Placement.place "\x1a0000é\x1a0001" r).value.registry.markers.Perm sorted ∧
        r.isEmpty = false :=
      ⟨_, _, rfl, rfl, rfl, rfl, .of_eq rfl, rfl⟩
    have hsorted := Registry.sorted_of_perm hperm (by simp [sorted]) (by decide +zetaReduce)
    have hresult : Substitution.replace? [⟨⟨0, 5⟩, "<p>"⟩, ⟨⟨7, 12⟩, "</p>"⟩]
        "\x1a0000é\x1a0001" = some "<p>é</p>" := by
      rw [Substitution.replace?_of_ascending (by decide)]
      rfl
    have houtcome := outcome_revise_eq_ok_iff.mpr
      ⟨_, Resolution.resolve_eq_ok hplaced hplacedNonempty hsorted rfl rfl hresult⟩
    obtain ⟨_, _, _, happlied, _⟩ := revise_journals "\x1a0000é\x1a0001" r
    exact ⟨r₁, r, hopen, hclose, houtcome, hnonempty, happlied houtcome hnonempty⟩
  · obtain ⟨r, hopen, houtcome⟩ : ∃ r : Registry,
        (∅ : Registry).register (.opening .block "p" []) = ⟨r, .ok 0⟩ ∧
        (revise "\x1a0000é" r).value.outcome = .error (.unclosedTags ["Block <p> #0000@0"]) :=
      ⟨_, rfl, by decide +kernel⟩
    obtain ⟨_, _, hlast, _⟩ := revise_journals "\x1a0000é" r
    exact ⟨r, hopen, houtcome, hlast _ houtcome⟩

end DeferredMarkup
