import DeferredMarkup.Proofs.Matching

/-!
How a placement fails, and what it leaves behind. It fails at the leftmost
sentinel that begins no placeholder, or the placeholder of a marker that cannot
be located there. The markers whose placeholders stand further left keep their
offsets, and no other marker has changed. Where there is no such sentinel, there
are too few placeholders for the markers.
-/
namespace DeferredMarkup

/-- How the four bytes behind the sentinel at an offset are shown. -/
def DigitsAt (text : String) (offset : Nat) (digits : String) : Prop :=
  ∃ before after, text.toList = before ++ sentinel :: after ∧ String.utf8Len before = offset ∧
    Marking.Window 4 after digits.toList

/-- Where the marker of an id has been located when the search comes to an offset:
where it was before, or else at the first placeholder with the id. -/
inductive LocatedBy (text : String) (r : Registry) (offset : Nat) (id : MarkerId) : Nat → Prop
  | before (m : Marker) (first : Nat) (marker : r.get? id = some m)
      (located : m.offset = some first) : LocatedBy text r offset id first
  | here (m : Marker) (first : Nat) (marker : r.get? id = some m) (free : m.offset = none)
      (stands : Location.StandsIn ⟨first, id⟩ text) (left : first < offset)
      (earliest : ∀ j, Location.StandsIn ⟨j, id⟩ text → first ≤ j) :
      LocatedBy text r offset id first

/-- What is wrong at the sentinel at an offset: fewer than four bytes follow, or
they are no id, or no marker has that id, or its marker was located already. -/
inductive Misplaced (text : String) (r : Registry) (offset : Nat) : Fault → Prop
  | truncated (found : SentinelAt text offset)
      (near : text.utf8ByteSize < offset + Placeholder.width) :
      Misplaced text r offset (.truncatedMarking offset text.utf8ByteSize)
  | malformed (digits : String) (shown : DigitsAt text offset digits)
      (noId : ∀ id, ¬ Location.StandsIn ⟨offset, id⟩ text) :
      Misplaced text r offset (.malformedMarking offset digits)
  | unknown (id : MarkerId) (stands : Location.StandsIn ⟨offset, id⟩ text)
      (unregistered : r.get? id = none) : Misplaced text r offset (.unknownMarker id offset)
  | again (id : MarkerId) (first : Nat) (stands : Location.StandsIn ⟨offset, id⟩ text)
      (located : LocatedBy text r offset id first) :
      Misplaced text r offset (.locatedTwice id first offset)

/-- One registry is another in which exactly the markers whose placeholders stand
left of an offset have been located, where these stand. -/
structure LocatedUpTo (text : String) (r : Registry) (limit : Nat) (r' : Registry) : Prop where
  located : ∀ l : Location, l.StandsIn text → l.offset < limit → ∃ m, r.get? l.id = some m ∧
    m.offset = none ∧ r'.get? l.id = some (m.placedAt l.offset)
  kept : ∀ id, (∀ offset < limit, ¬ Location.StandsIn ⟨offset, id⟩ text) → r'.get? id = r.get? id
  cursor : r'.cursor = r.cursor

section

variable {text : String} {r : Registry} {before after : List Char} {offset : Nat} {fault : Fault}

theorem digitsAt_iff {digits : String} (htext : text.toList = before ++ sentinel :: after) :
    DigitsAt text (String.utf8Len before) digits ↔ Marking.Window 4 after digits.toList := by
  constructor
  · rintro ⟨before', after', htext', hoffset, hwindow⟩
    obtain ⟨_, hrest⟩ := append_inj_of_utf8Len (htext.symm.trans htext') hoffset.symm
    rwa [(List.cons.inj hrest).2]
  · intro h
    exact ⟨before, after, htext, rfl, h⟩

theorem truncated_iff (htext : text.toList = before ++ sentinel :: after) :
    text.utf8ByteSize < String.utf8Len before + Placeholder.width ↔
      Marking.read after = .truncated := by
  have hsentinel : sentinel.utf8Size = 1 := rfl
  rw [Marking.read_eq_truncated_iff, ← String.utf8Len_toList, htext, String.utf8Len_append,
    String.utf8Len_cons, hsentinel, Placeholder.width]
  omega

/-- What is wrong at a sentinel, told by what is read there. -/
theorem misplaced_iff (htext : text.toList = before ++ sentinel :: after)
    (hoffset : String.utf8Len before = offset) : Misplaced text r offset fault ↔
      match Marking.read after with
      | .truncated => fault = .truncatedMarking offset text.utf8ByteSize
      | .malformed digits => fault = .malformedMarking offset digits
      | .id id => (r.get? id = none ∧ fault = .unknownMarker id offset) ∨
          ∃ first, LocatedBy text r offset id first ∧ fault = .locatedTwice id first offset := by
  subst hoffset
  constructor
  · intro h
    cases h with
    | truncated _ near => rw [(truncated_iff htext).mp near]
    | malformed digits shown noId =>
      have hread : Marking.read after = .malformed digits := by
        refine Marking.read_eq_malformed_iff.mpr ⟨(digitsAt_iff htext).mp shown, ?_⟩
        intro id
        exact mt (standsIn_iff htext).mpr (noId id)
      rw [hread]
    | unknown id stands unregistered =>
      rw [(standsIn_iff htext).mp stands]
      exact Or.inl ⟨unregistered, rfl⟩
    | again id first stands located =>
      rw [(standsIn_iff htext).mp stands]
      exact Or.inr ⟨first, located, rfl⟩
  · intro h
    cases hread : Marking.read after with
    | truncated =>
      rw [hread] at h
      subst h
      exact .truncated (sentinelAt_iff.mpr ⟨before, after, htext, rfl⟩)
        ((truncated_iff htext).mpr hread)
    | malformed digits =>
      rw [hread] at h
      subst h
      obtain ⟨hwindow, hnoId⟩ := Marking.read_eq_malformed_iff.mp hread
      refine .malformed digits ((digitsAt_iff htext).mpr hwindow) ?_
      intro id
      exact mt (standsIn_iff htext).mp (hnoId id)
    | id id =>
      rw [hread] at h
      have hstands := (standsIn_iff htext).mpr hread
      rcases h with ⟨hnone, rfl⟩ | ⟨first, hlocated, rfl⟩
      · exact .unknown id hstands hnone
      · exact .again id first hstands hlocated

theorem Misplaced.sentinelAt (h : Misplaced text r offset fault) : SentinelAt text offset := by
  cases h with
  | truncated found _ => exact found
  | malformed digits shown _ =>
    obtain ⟨before, after, htext, hoffset, _⟩ := shown
    exact sentinelAt_iff.mpr ⟨before, after, htext, hoffset⟩
  | unknown id stands _ => exact stands.sentinelAt
  | again id first stands _ => exact stands.sentinelAt

end

namespace Placement

variable {length : Nat} {s : State} {m : Marking} {fault : Fault}

/-- A marking is refused for what is read there, or for what is known of its marker. -/
theorem accept_eq_error_iff : accept length s m = .error fault ↔
    match m.reading with
    | .truncated => fault = .truncatedMarking m.offset length
    | .malformed digits => fault = .malformedMarking m.offset digits
    | .id id => (s.registry.get? id = none ∧ fault = .unknownMarker id m.offset) ∨
        ∃ first, (∃ x, s.registry.get? id = some x ∧ x.offset = some first) ∧
          fault = .locatedTwice id first m.offset := by
  unfold accept
  cases m.reading with
  | truncated => simp [eq_comm]
  | malformed digits => simp [eq_comm]
  | id id =>
    dsimp only
    rw [Registry.locate_eq]
    cases hget : s.registry.get? id with
    | none => simp [eq_comm]
    | some x =>
      cases hoffset : x.offset with
      | none => simp [hoffset]
      | some first => simp [hoffset, eq_comm]

end Placement

/-- The locations recorded when the search comes to an offset: the placeholders
further left. No sentinel there begins anything else. -/
structure PlacedUpTo (text : String) (r : Registry) (limit : Nat) (ls : List Location) :
    Prop where
  accepted : Placement.Accepted r ls
  mem_iff : ∀ l, l ∈ ls ↔ l.StandsIn text ∧ l.offset < limit
  covered : ∀ offset < limit, SentinelAt text offset → ∃ l ∈ ls, l.offset = offset

namespace PlacedUpTo

variable {text : String} {r : Registry} {limit offset : Nat} {ls : List Location}
  {fault fault' : Fault} {id : MarkerId} {first : Nat}

/-- There is one placeholder of an id among them at most. -/
theorem offset_unique (h : PlacedUpTo text r limit ls) {l : Location} (hl : l ∈ ls)
    (hstands : Location.StandsIn ⟨first, l.id⟩ text) (hleft : first < limit) :
    first = l.offset := by
  have hfirst : ⟨first, l.id⟩ ∈ ls := (h.mem_iff _).mpr ⟨hstands, hleft⟩
  rw [← List.inj_on_of_nodup_map h.accepted.distinct hfirst hl rfl]

theorem not_misplaced (h : PlacedUpTo text r limit ls) (hoffset : offset < limit) :
    ¬ Misplaced text r offset fault := by
  intro hmisplaced
  obtain ⟨l, hl, rfl⟩ := h.covered offset hoffset hmisplaced.sentinelAt
  obtain ⟨x, hx, hnone⟩ := h.accepted.free l hl
  obtain ⟨before, digits, after, htext, hbefore, hdigits⟩ := ((h.mem_iff l).mp hl).1.exists_split
  rw [misplaced_iff htext hbefore, Marking.read_digits hdigits] at hmisplaced
  rcases hmisplaced with ⟨hunregistered, _⟩ | ⟨first, hlocated, _⟩
  · cases hx.symm.trans hunregistered
  · cases hlocated with
    | before m _ hm hfirst =>
      cases hx.symm.trans hm
      cases hnone.symm.trans hfirst
    | here m _ _ _ hstands hleft _ =>
      have := h.offset_unique hl hstands (by omega)
      omega

/-- What the registry says by then of a marker is where it has been located. -/
theorem locatedBy_iff (h : PlacedUpTo text r limit ls) :
    (∃ x, (r.recordAll ls).get? id = some x ∧ x.offset = some first) ↔
      LocatedBy text r limit id first := by
  by_cases hid : id ∈ ls.map (·.id)
  · obtain ⟨l, hl, rfl⟩ := List.mem_map.mp hid
    obtain ⟨x, hx, hnone⟩ := h.accepted.free l hl
    obtain ⟨hstands, hleft⟩ := (h.mem_iff l).mp hl
    rw [Registry.get?_recordAll_of_mem h.accepted.distinct hl, hx]
    constructor
    · rintro ⟨_, hy, hfirst⟩
      cases hy
      cases hfirst
      refine .here x l.offset hx hnone hstands hleft ?_
      intro j hj
      by_contra hlt
      have := h.offset_unique hl hj (by omega)
      omega
    · intro hlocated
      cases hlocated with
      | before m _ hm hfirst =>
        cases hx.symm.trans hm
        cases hnone.symm.trans hfirst
      | here m _ _ _ hstands' hleft' _ =>
        rw [h.offset_unique hl hstands' hleft']
        exact ⟨_, rfl, rfl⟩
  · rw [Registry.get?_recordAll_of_notMem hid]
    constructor
    · rintro ⟨x, hx, hfirst⟩
      exact .before x first hx hfirst
    · intro hlocated
      cases hlocated with
      | before m _ hm hfirst => exact ⟨m, hm, hfirst⟩
      | here m _ _ _ hstands hleft _ =>
        exact absurd (List.mem_map_of_mem ((h.mem_iff ⟨first, id⟩).mpr ⟨hstands, hleft⟩)) hid

/-- The marking that comes next is refused for what is wrong there. -/
theorem accept_eq_error_iff (h : PlacedUpTo text r limit ls) {before after : List Char}
    (htext : text.toList = before ++ sentinel :: after) (hlimit : String.utf8Len before = limit)
    (located : List Location) :
    Placement.accept text.utf8ByteSize ⟨r.recordAll ls, located⟩ ⟨limit, Marking.read after⟩ =
      .error fault ↔ Misplaced text r limit fault := by
  have hnone : ∀ id, (r.recordAll ls).get? id = none ↔ r.get? id = none := by
    intro id
    rw [Registry.get?_eq_none_iff, Registry.get?_eq_none_iff, Registry.mem_recordAll]
  rw [Placement.accept_eq_error_iff, misplaced_iff htext hlimit]
  simp only [hnone, h.locatedBy_iff]

theorem misplaced_unique (h : PlacedUpTo text r limit ls) (hfault : Misplaced text r limit fault)
    (hfault' : Misplaced text r limit fault') : fault = fault' := by
  obtain ⟨before, after, htext, hlimit⟩ := sentinelAt_iff.mp hfault.sentinelAt
  have hrefused := (h.accept_eq_error_iff htext hlimit []).mpr hfault
  have hrefused' := (h.accept_eq_error_iff htext hlimit []).mpr hfault'
  exact Except.error.inj (hrefused.symm.trans hrefused')

theorem locatedUpTo (h : PlacedUpTo text r limit ls) :
    LocatedUpTo text r limit (r.recordAll ls) := by
  refine ⟨?_, ?_, Registry.cursor_recordAll r ls⟩
  · intro l hstands hleft
    have hl := (h.mem_iff l).mpr ⟨hstands, hleft⟩
    obtain ⟨x, hx, hnone⟩ := h.accepted.free l hl
    refine ⟨x, hx, hnone, ?_⟩
    rw [Registry.get?_recordAll_of_mem h.accepted.distinct hl, hx, Option.map_some]
  · intro id hid
    apply Registry.get?_recordAll_of_notMem
    intro hmem
    obtain ⟨l, hl, rfl⟩ := List.mem_map.mp hmem
    obtain ⟨hstands, hleft⟩ := (h.mem_iff l).mp hl
    exact hid l.offset hleft hstands

/-- Markings that have been accepted are all those left of the ones that follow. -/
theorem of_split {rest : List Marking} (haccepted : Placement.Accepted r ls)
    (hsplit : Marking.ofText text.toList = ls.map Location.marking ++ rest)
    (hfront : ∀ l ∈ ls, l.offset < limit) (hback : ∀ m ∈ rest, limit ≤ m.offset) :
    PlacedUpTo text r limit ls := by
  refine ⟨haccepted, ?_, ?_⟩
  · intro l
    rw [← Location.marking_mem_ofText_iff, hsplit, List.mem_append,
      List.mem_map_of_injective Location.marking_injective]
    constructor
    · intro hl
      exact ⟨Or.inl hl, hfront l hl⟩
    · rintro ⟨hl | hl, hleft⟩
      · exact hl
      · exact absurd hleft (Nat.not_lt.mpr (hback _ hl))
  · intro offset hleft hoffset
    obtain ⟨before, after, htext, rfl⟩ := sentinelAt_iff.mp hoffset
    have hmem := Marking.mem_ofText_iff.mpr ⟨before, after, htext, rfl⟩
    rw [hsplit] at hmem
    rcases List.mem_append.mp hmem with hmem | hmem
    · obtain ⟨l, hl, hmarking⟩ := List.mem_map.mp hmem
      exact ⟨l, hl, congrArg Marking.offset hmarking⟩
    · exact absurd hleft (Nat.not_lt.mpr (hback _ hmem))

end PlacedUpTo

/-- A placement accepts all placeholders of a text, or those that stand left of a
sentinel at which something is wrong. -/
theorem exists_placedUpTo {text : String} {r : Registry} {s : Placement.State}
    {stop : Option Fault} (h : Placement.acceptAll text.utf8ByteSize ⟨r, []⟩
      (Marking.ofText text.toList) = (s, stop)) :
    ∃ limit ls, PlacedUpTo text r limit ls ∧ s = ⟨r.recordAll ls, ls.reverse⟩ ∧
      ((stop = none ∧ limit = text.utf8ByteSize ∧
          ls.length = text.toUTF8.data.toList.count 0x1a) ∨
        ∃ fault, stop = some fault ∧ Misplaced text r limit fault) := by
  obtain ⟨ls, rest, hsplit, haccepted, hs, hstop⟩ := Placement.acceptAll_cases h
  rw [List.append_nil] at hs
  rcases hstop with ⟨rfl, rfl⟩ | ⟨fault, m, after, rfl, rfl, hrefused⟩
  · have hfront : ∀ l ∈ ls, l.offset < text.utf8ByteSize := by
      intro l hl
      have hmem : l.marking ∈ Marking.ofText text.toList := by
        rw [hsplit, List.append_nil]
        exact List.mem_map_of_mem hl
      exact (Location.marking_mem_ofText_iff.mp hmem).sentinelAt.lt_utf8ByteSize
    refine ⟨_, ls, .of_split haccepted hsplit hfront (by simp), hs, Or.inl ⟨rfl, rfl, ?_⟩⟩
    rw [← Marking.length_ofText, hsplit, List.append_nil, List.length_map]
  · have hordered := Marking.pairwise_ofText text.toList
    rw [hsplit, List.pairwise_append, List.pairwise_cons] at hordered
    obtain ⟨_, ⟨hbehind, _⟩, hacross⟩ := hordered
    have hplaced : PlacedUpTo text r m.offset ls := by
      refine .of_split haccepted hsplit ?_ ?_
      · intro l hl
        exact hacross _ (List.mem_map_of_mem hl) m List.mem_cons_self
      · intro m' hm'
        rcases List.mem_cons.mp hm' with rfl | hm'
        · exact Nat.le_refl _
        · exact Nat.le_of_lt (hbehind m' hm')
    have hm : m ∈ Marking.ofText text.toList := by
      rw [hsplit]
      exact List.mem_append_right _ List.mem_cons_self
    obtain ⟨before, after', htext, rfl⟩ := Marking.mem_ofText_iff.mp hm
    subst hs
    exact ⟨_, ls, hplaced, rfl, Or.inr ⟨fault, rfl,
      (hplaced.accept_eq_error_iff htext rfl _).mp hrefused⟩⟩

/-- A placement fails at the leftmost sentinel where something is wrong, for what
is wrong there. Where nothing is, it can only fail since the text has fewer
sentinels than there are markers. What was located before the failure stays so,
and nothing else has changed. -/
theorem place_fails_at_leftmost (text : String) (r : Registry)
    (hlen : text.utf8ByteSize ≤ longestText) :
    (∀ offset fault, Misplaced text r offset fault →
      (∀ left < offset, ∀ fault', ¬ Misplaced text r left fault') →
      (Placement.place text r).value.outcome = .error fault ∧
        LocatedUpTo text r offset (Placement.place text r).value.registry) ∧
    ∀ fault, (∀ offset fault', ¬ Misplaced text r offset fault') →
      (Placement.place text r).value.outcome = .error fault →
      fault = .miscount (text.toUTF8.data.toList.count 0x1a) r.size ∧
        text.toUTF8.data.toList.count 0x1a < r.size ∧
        LocatedUpTo text r text.utf8ByteSize (Placement.place text r).value.registry := by
  rcases haccept : Placement.acceptAll text.utf8ByteSize ⟨r, []⟩ (Marking.ofText text.toList)
    with ⟨s, stop⟩
  obtain ⟨limit, ls, hplaced, rfl, ⟨rfl, rfl, hcount⟩ | ⟨found, rfl, hfound⟩⟩ :=
    exists_placedUpTo haccept
  · have hvalue : (Placement.place text r).value = ⟨r.recordAll ls,
        if ls.length = r.size then .ok ls else .error (.miscount ls.length r.size)⟩ := by
      simp only [Placement.place, Nat.not_lt.mpr hlen, if_false, haccept, List.reverse_reverse,
        Registry.size_recordAll]
      split <;> rfl
    rw [hvalue]
    constructor
    · intro offset fault hfault _
      exact absurd hfault (hplaced.not_misplaced hfault.sentinelAt.lt_utf8ByteSize)
    · intro fault _ houtcome
      have hle := Registry.length_le_size hplaced.accepted.distinct hplaced.accepted.registered
      rw [List.length_map] at hle
      dsimp only at houtcome
      split at houtcome
      · cases houtcome
      · cases houtcome
        rw [hcount] at *
        exact ⟨rfl, by omega, hplaced.locatedUpTo⟩
  · have hvalue : (Placement.place text r).value = ⟨r.recordAll ls, .error found⟩ := by
      simp only [Placement.place, Nat.not_lt.mpr hlen, if_false, haccept]
    rw [hvalue]
    constructor
    · intro offset fault hfault hleftmost
      have hle : limit ≤ offset := by
        by_contra hlt
        exact hplaced.not_misplaced (by omega) hfault
      have hge : offset ≤ limit := by
        by_contra hlt
        exact hleftmost limit (by omega) found hfound
      obtain rfl : offset = limit := by omega
      rw [hplaced.misplaced_unique hfault hfound]
      exact ⟨rfl, hplaced.locatedUpTo⟩
    · intro fault hnone _
      exact absurd hfound (hnone limit found)

/-- A placeholder before a sentinel behind which a character is cut, and a text
that has one placeholder for two markers. -/
theorem place_fails_at_leftmost_cut :
    (∃ r : Registry, (∅ : Registry).register (.atomic .inline "br" []) = ⟨r, .ok 0⟩ ∧
      "é\x1a0000\x1a00gé".utf8ByteSize ≤ longestText ∧
      Misplaced "é\x1a0000\x1a00gé" r 7 (.malformedMarking 7 "00g\ufffd") ∧
      (Placement.place "é\x1a0000\x1a00gé" r).value.outcome =
        .error (.malformedMarking 7 "00g\ufffd") ∧
      LocatedUpTo "é\x1a0000\x1a00gé" r 7
        (Placement.place "é\x1a0000\x1a00gé" r).value.registry) ∧
    ∃ r₁ r : Registry, (∅ : Registry).register (.opening .block "p" []) = ⟨r₁, .ok 0⟩ ∧
      r₁.register (.closing .block "p") = ⟨r, .ok 1⟩ ∧
      "\x1a0001".utf8ByteSize ≤ longestText ∧
      (∀ offset fault, ¬ Misplaced "\x1a0001" r offset fault) ∧
      (Placement.place "\x1a0001" r).value.outcome = .error (.miscount 1 2) ∧
      LocatedUpTo "\x1a0001" r 5 (Placement.place "\x1a0001" r).value.registry := by
  constructor
  · have hlen : "é\x1a0000\x1a00gé".utf8ByteSize ≤ longestText := by decide
    obtain ⟨r, hregister, s, haccept⟩ : ∃ r : Registry,
        (∅ : Registry).register (.atomic .inline "br" []) = ⟨r, .ok 0⟩ ∧
        ∃ s, Placement.acceptAll "é\x1a0000\x1a00gé".utf8ByteSize ⟨r, []⟩
          (Marking.ofText "é\x1a0000\x1a00gé".toList) =
            (s, some (.malformedMarking 7 "00g\ufffd")) := ⟨_, rfl, _, rfl⟩
    obtain ⟨limit, ls, hplaced, _, ⟨hnot, _⟩ | ⟨fault, hfault, hfound⟩⟩ :=
      exists_placedUpTo haccept
    · cases hnot
    · cases hfault
      obtain rfl : limit = 7 := by
        cases hfound
        rfl
      obtain ⟨houtcome, hlocated⟩ := (place_fails_at_leftmost _ r hlen).1 7 _ hfound
        fun left hleft fault => hplaced.not_misplaced hleft
      exact ⟨r, hregister, hlen, hfound, houtcome, hlocated⟩
  · have hlen : "\x1a0001".utf8ByteSize ≤ longestText := by decide
    obtain ⟨r₁, r, hfirst, hsecond, houtcome, s, haccept⟩ : ∃ r₁ r : Registry,
        (∅ : Registry).register (.opening .block "p" []) = ⟨r₁, .ok 0⟩ ∧
        r₁.register (.closing .block "p") = ⟨r, .ok 1⟩ ∧
        (Placement.place "\x1a0001" r).value.outcome = .error (.miscount 1 2) ∧
        ∃ s, Placement.acceptAll "\x1a0001".utf8ByteSize ⟨r, []⟩
          (Marking.ofText "\x1a0001".toList) = (s, none) := ⟨_, _, rfl, rfl, rfl, _, rfl⟩
    obtain ⟨limit, ls, hplaced, _, ⟨_, rfl, _⟩ | ⟨_, hnot, _⟩⟩ := exists_placedUpTo haccept
    · have hnone : ∀ offset fault, ¬ Misplaced "\x1a0001" r offset fault := by
        intro offset fault h
        exact hplaced.not_misplaced h.sentinelAt.lt_utf8ByteSize h
      obtain ⟨_, _, hlocated⟩ := (place_fails_at_leftmost _ r hlen).2 _ hnone houtcome
      exact ⟨r₁, r, hfirst, hsecond, hlen, hnone, houtcome, hlocated⟩
    · cases hnot

end DeferredMarkup
