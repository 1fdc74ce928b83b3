import DeferredMarkup.Resolution
import DeferredMarkup.Proofs.Joining
import DeferredMarkup.Proofs.SentinelFree

/-!
Drafts as calls write them. What is followed through the calls is a layout with
the text of the draft: a literal adds to its end, and a mark that is pushed adds
a slot with the next id, which is the number of marks pushed before. The markers
of the registry are those of the slots, so that text and registry fit together
whatever was written, and also after the ids have run out.
-/
namespace DeferredMarkup

/-- A call on a draft. -/
inductive Call
  | write (literal : String)
  | push (mark : Mark)
deriving DecidableEq, Repr

/-- What is written as a literal must hold no sentinel. -/
def Call.Plain : Call → Prop
  | write literal => sentinel ∉ literal.toList
  | push _ => True

instance : DecidablePred Call.Plain
  | .write literal => inferInstanceAs (Decidable (sentinel ∉ literal.toList))
  | .push _ => inferInstanceAs (Decidable True)

/-- The mark that is pushed, if one is. -/
def Call.mark? : Call → Option Mark
  | write _ => none
  | push mark => some mark

/-- A mark that was pushed, with the id that was returned for it and the number
of bytes that were written before. -/
structure Pushed where
  location : Location
  mark : Mark
deriving DecidableEq, Repr

/-- The marker under which a pushed mark is registered. -/
def Pushed.marker (p : Pushed) : Marker := ⟨p.location.id, none, p.mark⟩

/-- A draft that is being written, and the marks that were pushed on it so far,
without those that were refused. -/
structure Drafting where
  draft : Draft := {}
  pushed : List Pushed := []

namespace Drafting

/-- The drafting after one more call. -/
def after (s : Drafting) : Call → Drafting
  | .write literal => { s with draft := s.draft.write literal }
  | .push mark =>
    match s.draft.push mark with
    | ⟨draft, .ok id⟩ => ⟨draft, s.pushed ++ [⟨⟨s.draft.text.utf8ByteSize, id⟩, mark⟩]⟩
    | ⟨draft, .error _⟩ => { s with draft }

/-- What calls on a new draft lead to. -/
def of (calls : List Call) : Drafting := calls.foldl after {}

theorem of_concat (calls : List Call) (call : Call) :
    of (calls ++ [call]) = (of calls).after call := List.foldl_concat ..

/-- The text and the registry of a draft fit together, and so do the ids that
were returned. The registry has given out all ids before its cursor and no other. -/
structure Together (s : Drafting) : Prop where
  layout : ∃ d : Layout, d.text = s.draft.text ∧ d.locations = s.pushed.map (·.location)
  ids : s.pushed.map (·.location.id.toNat) = List.range s.pushed.length
  cursor : s.draft.registry.cursor = s.pushed.length
  registered : ∀ id m, s.draft.registry.get? id = some m ↔
    ∃ p ∈ s.pushed, p.location.id = id ∧ m = p.marker

variable {s : Drafting} {mark : Mark} {literal : String} {id : MarkerId}

theorem after_push_of_ok {draft : Draft} (h : s.draft.push mark = ⟨draft, .ok id⟩) :
    s.after (.push mark) =
      ⟨draft, s.pushed ++ [⟨⟨s.draft.text.utf8ByteSize, id⟩, mark⟩]⟩ := by
  rw [after, h]

theorem after_push_of_error {fault : Fault} (h : s.draft.push mark = ⟨s.draft, .error fault⟩) :
    s.after (.push mark) = s := by
  rw [after, h]

namespace Together

/-- The ids that are taken are as many as the marks that were pushed. -/
theorem exists_get?_iff (h : s.Together) (id : MarkerId) :
    (∃ m, s.draft.registry.get? id = some m) ↔ id.toNat < s.pushed.length := by
  rw [← List.mem_range, ← h.ids, List.mem_map]
  simp only [h.registered, UInt16.toNat_inj]
  constructor
  · intro hm
    obtain ⟨_, p, hp, hid, _⟩ := hm
    exact ⟨p, hp, hid⟩
  · intro hp
    obtain ⟨p, hp, hid⟩ := hp
    exact ⟨p.marker, p, hp, hid, rfl⟩

theorem length_le_count (h : s.Together) : s.pushed.length ≤ MarkerId.count := by
  by_contra hlong
  have hmem : MarkerId.count ∈ s.pushed.map (·.location.id.toNat) := by
    rw [h.ids, List.mem_range]
    omega
  obtain ⟨p, _, hp⟩ := List.mem_map.mp hmem
  exact absurd hp (Nat.ne_of_lt p.location.id.toNat_lt)

theorem unlocated (h : s.Together) : s.draft.registry.Unlocated := by
  intro id m hm
  obtain ⟨p, _, _, rfl⟩ := (h.registered id m).mp hm
  rfl

/-- The registered ids are those of the placeholders. -/
theorem lists (h : s.Together) {d : Layout} (hd : d.locations = s.pushed.map (·.location)) :
    s.draft.registry.Lists d.ids := by
  have hids : d.ids = s.pushed.map (·.location.id) := by
    rw [← d.map_id_locations, hd, List.map_map]
    rfl
  have hnat : d.ids.map UInt16.toNat = List.range s.pushed.length := by
    rw [hids, ← h.ids, List.map_map]
    rfl
  refine ⟨List.Nodup.of_map UInt16.toNat (hnat ▸ List.nodup_range), ?_⟩
  intro id
  rw [h.exists_get?_iff, ← List.mem_range, ← hnat, List.mem_map_of_injective]
  exact fun _ _ => UInt16.toNat.inj

theorem size_eq (h : s.Together) : s.draft.registry.size = s.pushed.length := by
  obtain ⟨d, _, hd⟩ := h.layout
  rw [← (h.lists hd).length_eq, ← d.map_id_locations, hd, List.length_map, List.length_map]

theorem empty : Together {} where
  layout := ⟨.ofLiteral "" (by simp), rfl, rfl⟩
  ids := rfl
  cursor := rfl
  registered := by
    intro id m
    simp

theorem write (h : s.Together) (hplain : sentinel ∉ literal.toList) :
    (s.after (.write literal)).Together where
  layout := by
    obtain ⟨d, htext, hlocations⟩ := h.layout
    refine ⟨d ++ .ofLiteral literal hplain, ?_, ?_⟩
    · rw [Layout.text_append, Layout.text_ofLiteral, htext]
      rfl
    · exact (d.locations_append_ofLiteral hplain).trans hlocations
  ids := h.ids
  cursor := h.cursor
  registered := h.registered

/-- A mark is given the next id as long as there is one. When there is none the mark is
refused, and since the cursor stands behind all ids already, the draft stays as it is. -/
theorem push_cases (h : s.Together) (mark : Mark) :
    (s.pushed.length < MarkerId.count ∧ ∃ id registry, id.toNat = s.pushed.length ∧
      s.draft.registry.register mark = ⟨registry, .ok id⟩ ∧
      registry.cursor = s.pushed.length + 1 ∧
      s.draft.push mark = ⟨⟨s.draft.text ++ Placeholder.text id, registry⟩, .ok id⟩) ∨
    (s.pushed.length = MarkerId.count ∧
      s.draft.push mark = ⟨s.draft, .error (.idsExhausted MarkerId.count)⟩) := by
  unfold Draft.push
  rcases Nat.lt_or_eq_of_le h.length_le_count with hlt | heq
  · have hfree : ∀ id ∈ s.draft.registry.entries, id.toNat < s.draft.registry.cursor := by
      intro id hid
      rw [h.cursor, ← h.exists_get?_iff, Registry.exists_get?_iff]
      exact hid
    have hnext := Registry.nextFree?_eq_cursor hfree (h.cursor ▸ hlt)
    have hnat : (UInt16.ofNat s.draft.registry.cursor).toNat = s.pushed.length := by
      rw [h.cursor]
      exact UInt16.toNat_ofNat_of_lt' hlt
    obtain ⟨registry, hregister, hcursor⟩ := Registry.exists_register mark hnext
    rw [hnat] at hcursor
    refine Or.inl ⟨hlt, _, registry, hnat, hregister, hcursor, ?_⟩
    rw [hregister]
  · have hcursor : MarkerId.count ≤ s.draft.registry.cursor :=
      Nat.le_of_eq (heq.symm.trans h.cursor.symm)
    refine Or.inr ⟨heq, ?_⟩
    rw [Registry.register_eq_error mark hcursor]

/-- With a mark under an id that was free, the registry holds one marker more. -/
theorem registered_concat (h : s.Together) (hid : id.toNat = s.pushed.length)
    {registry : Registry} (hregister : s.draft.registry.register mark = ⟨registry, .ok id⟩)
    (offset : Nat) (other : MarkerId) (m : Marker) : registry.get? other = some m ↔
      ∃ p ∈ s.pushed ++ [⟨⟨offset, id⟩, mark⟩], p.location.id = other ∧ m = p.marker := by
  have hfresh : ∀ p ∈ s.pushed, p.location.id ≠ id := by
    intro p hp heq
    have := (h.exists_get?_iff id).mp ⟨_, (h.registered id p.marker).mpr ⟨p, hp, heq, rfl⟩⟩
    omega
  rw [Registry.get?_register hregister]
  simp only [List.mem_append, List.mem_singleton, or_and_right, exists_or, exists_eq_left]
  by_cases hother : other = id
  · subst hother
    rw [if_pos rfl]
    constructor
    · intro hm
      cases hm
      exact Or.inr ⟨rfl, rfl⟩
    · intro hm
      rcases hm with ⟨p, hp, heq, _⟩ | ⟨_, rfl⟩
      · exact absurd heq (hfresh p hp)
      · rfl
  · rw [if_neg hother, h.registered]
    exact (or_iff_left fun hm => hother hm.1.symm).symm

theorem push (h : s.Together) (mark : Mark) : (s.after (.push mark)).Together := by
  rcases h.push_cases mark with ⟨_, id, registry, hid, hregister, hcursor, hpush⟩ | ⟨_, hpush⟩
  · rw [after_push_of_ok hpush]
    refine ⟨?_, ?_, ?_, h.registered_concat hid hregister _⟩
    · obtain ⟨d, htext, hlocations⟩ := h.layout
      refine ⟨d ++ .ofDigits id.hex id.map_toUpper_hex, ?_, ?_⟩
      · rw [Layout.text_append, Layout.text_ofDigits, htext]
        rfl
      · rw [Layout.locations_append_ofDigits, hlocations, htext, List.map_append]
        rfl
    · rw [List.map_append, h.ids, List.length_append, List.length_singleton, List.range_succ,
        List.map_singleton, hid]
    · rw [List.length_append]
      exact hcursor
  · rwa [after_push_of_error hpush]

end Together

/-- One call keeps text and registry together. -/
theorem Together.after (h : s.Together) {call : Call} (hplain : call.Plain) :
    (s.after call).Together := by
  cases call with
  | write literal => exact h.write hplain
  | push mark => exact h.push mark

/-- So do all calls on a new draft. -/
theorem together_of {calls : List Call} (hplain : ∀ call ∈ calls, call.Plain) :
    (of calls).Together := by
  induction calls using List.reverseRecOn with
  | nil => exact .empty
  | append_singleton calls call ih =>
    obtain ⟨hcalls, hcall⟩ := List.forall_mem_append.mp hplain
    rw [of_concat]
    exact (ih hcalls).after (hcall call (List.mem_singleton_self call))

/-- The marks that are registered are the first ones, as many as there are ids. -/
theorem marks_of {calls : List Call} (hplain : ∀ call ∈ calls, call.Plain) :
    (of calls).pushed.map (·.mark) = (calls.filterMap Call.mark?).take MarkerId.count := by
  induction calls using List.reverseRecOn with
  | nil => rfl
  | append_singleton calls call ih =>
    have hcalls : ∀ call ∈ calls, call.Plain := (List.forall_mem_append.mp hplain).1
    rw [of_concat, List.filterMap_append]
    cases call with
    | write literal =>
      have hnone : [Call.write literal].filterMap Call.mark? = [] := rfl
      rw [hnone, List.append_nil]
      exact ih hcalls
    | push mark =>
      have hlen := congrArg List.length (ih hcalls)
      rw [List.length_map, List.length_take] at hlen
      rcases (together_of hcalls).push_cases mark with ⟨hlt, id, _, _, _, _, hpush⟩ | ⟨heq, hpush⟩
      · have hshort : (calls.filterMap Call.mark?).length + 1 ≤ MarkerId.count := by omega
        rw [after_push_of_ok hpush, List.map_append, ih hcalls, List.take_of_length_le (by omega),
          List.take_of_length_le]
        · rfl
        · rw [List.length_append]
          exact hshort
      · rw [after_push_of_error hpush, List.take_append_of_le_length (by omega)]
        exact ih hcalls

/-- A mark is refused when all ids are taken, and for no other reason. -/
theorem Together.outcome_push_eq_error_iff (h : s.Together) {fault : Fault} :
    (s.draft.push mark).outcome = .error fault ↔
      s.draft.registry.size = MarkerId.count ∧ fault = .idsExhausted MarkerId.count := by
  rw [h.size_eq]
  rcases h.push_cases mark with ⟨hlt, _, _, _, _, _, hpush⟩ | ⟨heq, hpush⟩
  · simp [hpush, Nat.ne_of_lt hlt]
  · rw [hpush, Except.error.injEq, eq_comm]
    simp [heq]

/-- The placeholders are found where they were written. -/
theorem Together.place (h : s.Together) (hlen : s.draft.text.utf8ByteSize ≤ longestText) :
    (Placement.place s.draft.text s.draft.registry).value.outcome =
      .ok (s.pushed.map (·.location)) := by
  obtain ⟨d, htext, hlocations⟩ := h.layout
  exact place_eq_ok_iff.mpr ⟨hlen, h.unlocated, d, htext, h.lists hlocations, hlocations⟩

/-- Only a sentinel in a mark makes a draft fail for an internal reason. -/
theorem Together.isInternal_finish (h : s.Together)
    (hlen : s.draft.text.utf8ByteSize ≤ longestText) {fault : Fault}
    (hfault : s.draft.finish.value = .error fault) (hinternal : fault.isInternal) :
    (∃ id, fault = .sentinelWithin id) ∧ ∃ p ∈ s.pushed, p.mark.HoldsSentinel := by
  obtain ⟨d, htext, hlocations⟩ := h.layout
  rw [Draft.finish, ← htext] at hfault
  rw [← htext] at hlen
  obtain ⟨hid, id, m, hm, hholds⟩ :=
    Layout.isInternal_resolve hlen (h.lists hlocations) h.unlocated hfault hinternal
  obtain ⟨p, hp, _, rfl⟩ := (h.registered id m).mp hm
  exact ⟨hid, p, hp, hholds⟩

end Drafting

/-- Text and registry never drift apart. Whatever calls lead to a draft, the
first marks pushed are registered, as many as there are ids, and the ids returned
for them are 0, 1, 2 and so on. A mark is refused when all ids are taken, and
only then, which leaves everything as it is. A draft that is not too long can be
placed, with every placeholder where its mark was pushed. When it cannot be
finished, the document is at fault, unless some mark that was pushed holds a
sentinel, which is then the fault. -/
theorem drafting_never_drifts (calls : List Call) (hplain : ∀ call ∈ calls, call.Plain) :
    let s := Drafting.of calls
    (s.pushed.map (·.mark) = (calls.filterMap Call.mark?).take MarkerId.count ∧
      s.pushed.map (·.location.id.toNat) = List.range s.pushed.length) ∧
    (s.draft.registry.size = s.pushed.length ∧ s.draft.registry.cursor = s.pushed.length ∧
      ∀ id m, s.draft.registry.get? id = some m ↔
        ∃ p ∈ s.pushed, p.location.id = id ∧ m = ⟨id, none, p.mark⟩) ∧
    (∀ mark, (∀ fault, (s.draft.push mark).outcome = .error fault ↔
        s.draft.registry.size = MarkerId.count ∧ fault = .idsExhausted MarkerId.count) ∧
      (s.draft.registry.size = MarkerId.count →
        Drafting.of (calls ++ [.push mark]) = s)) ∧
    (s.draft.text.utf8ByteSize ≤ longestText →
      (Placement.place s.draft.text s.draft.registry).value.outcome =
        .ok (s.pushed.map (·.location)) ∧
      (∀ fault, s.draft.finish.value = .error fault → fault.isInternal →
        (∃ id, fault = .sentinelWithin id) ∧ ∃ p ∈ s.pushed, p.mark.HoldsSentinel) ∧
      ((∀ p ∈ s.pushed, ¬ p.mark.HoldsSentinel) →
        ∀ fault, s.draft.finish.value = .error fault → fault.isInternal = false)) := by
  intro s
  have h : s.Together := Drafting.together_of hplain
  refine ⟨⟨Drafting.marks_of hplain, h.ids⟩, ⟨h.size_eq, h.cursor, ?_⟩, ?_, ?_⟩
  · intro id m
    rw [h.registered]
    refine exists_congr fun p => and_congr_right fun _ => and_congr_right fun hid => ?_
    rw [← hid]
    rfl
  · intro mark
    refine ⟨fun _ => h.outcome_push_eq_error_iff, ?_⟩
    intro hfull
    rw [h.size_eq] at hfull
    rcases h.push_cases mark with ⟨hlt, _⟩ | ⟨_, hpush⟩
    · omega
    · exact (Drafting.of_concat calls _).trans (Drafting.after_push_of_error hpush)
  · intro hlen
    refine ⟨h.place hlen, fun _ => h.isInternal_finish hlen, ?_⟩
    intro hclean fault hfault
    by_contra hinternal
    rw [Bool.not_eq_false] at hinternal
    obtain ⟨_, p, hp, hholds⟩ := h.isInternal_finish hlen hfault hinternal
    exact hclean p hp hholds

/-- A paragraph whose styler brings a sentinel, and a tag that is left open. -/
theorem drafting_never_drifts_paragraph :
    (∃ calls : List Call, calls = [.write "é", .push (.opening .block "p" []), .write "x",
        .push (.styler .block .container "\x1a"), .push (.closing .block "p")] ∧
      (∀ call ∈ calls, call.Plain) ∧
      (Drafting.of calls).draft.text = "é\x1a0000x\x1a0001\x1a0002" ∧
      (Placement.place "é\x1a0000x\x1a0001\x1a0002"
        (Drafting.of calls).draft.registry).value.outcome = .ok [⟨2, 0⟩, ⟨8, 1⟩, ⟨13, 2⟩] ∧
      (Drafting.of calls).draft.finish.value = .error (.sentinelWithin 0) ∧
      ∃ p ∈ (Drafting.of calls).pushed, p.mark.HoldsSentinel) ∧
    ∃ calls : List Call, calls = [.push (.opening .inline "b" ["a&b"]), .write "x"] ∧
      (∀ call ∈ calls, call.Plain) ∧
      (∀ p ∈ (Drafting.of calls).pushed, ¬ p.mark.HoldsSentinel) ∧
      ∃ fault, (Drafting.of calls).draft.finish.value = .error fault ∧
        fault.isInternal = false := by
  refine ⟨?_, ?_⟩
  · let calls : List Call := [.write "é", .push (.opening .block "p" []), .write "x",
      .push (.styler .block .container "\x1a"), .push (.closing .block "p")]
    have hplain : ∀ call ∈ calls, call.Plain := by decide
    have htext : (Drafting.of calls).draft.text = "é\x1a0000x\x1a0001\x1a0002" := rfl
    have hlocations : (Drafting.of calls).pushed.map (·.location) =
        [⟨2, 0⟩, ⟨8, 1⟩, ⟨13, 2⟩] := rfl
    let sorted : List Marker := [⟨0, some 2, .opening .block "p" []⟩,
      ⟨1, some 8, .styler .block .container "\x1a"⟩, ⟨2, some 13, .closing .block "p"⟩]
    obtain ⟨hplaced, hnonempty, hperm⟩ : let placed := (Placement.place
          (Drafting.of calls).draft.text (Drafting.of calls).draft.registry).value
        placed.outcome = .ok [⟨2, 0⟩, ⟨8, 1⟩, ⟨13, 2⟩] ∧ placed.registry.isEmpty = false ∧
          placed.registry.markers.Perm sorted := by
      decide +kernel +zetaReduce
    have hsorted := Registry.sorted_of_perm hperm (by simp [sorted]) (by decide +zetaReduce)
    have hfinish : (Drafting.of calls).draft.finish.value = .error (.sentinelWithin 0) :=
      Resolution.resolve_eq_error_iff.mpr
        (Or.inr ⟨_, hplaced, hnonempty, Or.inr ⟨_, hsorted, Or.inr ⟨rfl, rfl⟩⟩⟩)
    have hlen : (Drafting.of calls).draft.text.utf8ByteSize ≤ longestText := by decide
    obtain ⟨_, _, _, hrest⟩ := drafting_never_drifts calls hplain
    obtain ⟨hplace, hinternal, _⟩ := hrest hlen
    rw [htext, hlocations] at hplace
    exact ⟨calls, rfl, hplain, htext, hplace, hfinish, (hinternal _ hfinish rfl).2⟩
  · let calls : List Call := [.push (.opening .inline "b" ["a&b"]), .write "x"]
    have hplain : ∀ call ∈ calls, call.Plain := by decide
    have hclean : ∀ p ∈ (Drafting.of calls).pushed, ¬ p.mark.HoldsSentinel := by
      have hpushed : (Drafting.of calls).pushed = [⟨⟨0, 0⟩, .opening .inline "b" ["a&b"]⟩] := rfl
      rw [hpushed]
      simp [Mark.HoldsSentinel, sentinel]
    have hlen : (Drafting.of calls).draft.text.utf8ByteSize ≤ longestText := by decide
    have hfinish : (Drafting.of calls).draft.finish.value =
        .error (.unclosedTags ["Inline <b> #0000@0"]) := by decide +kernel
    obtain ⟨_, _, _, hrest⟩ := drafting_never_drifts calls hplain
    exact ⟨calls, rfl, hplain, hclean, _, hfinish, (hrest hlen).2.2 hclean _ hfinish⟩

end DeferredMarkup
