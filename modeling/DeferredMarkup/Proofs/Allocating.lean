import DeferredMarkup.Proofs.Matching
import Mathlib.Data.List.Induction

/-!
Ids as they are given out and chosen. Whatever is done with a registry, an id is
given out only when it is the least that is free, also where others were chosen
before it was their turn. The ids run out when all of them are taken and not
before, and a mark that cannot be registered changes nothing.
-/
namespace DeferredMarkup

namespace Registry

variable {r : Registry} {id other : MarkerId} {mark : Mark} {fault : Fault} {m : Marker}

def Registered (r : Registry) (id : MarkerId) : Prop := ∃ m, r.get? id = some m

/-- The id itself is free, and all before it are not. -/
def IsLeastFree (r : Registry) (id : MarkerId) : Prop :=
  ¬ r.Registered id ∧ ∀ other : MarkerId, other.toNat < id.toNat → r.Registered other

theorem registered_iff : r.Registered id ↔ id ∈ r.entries := exists_get?_iff

theorem IsLeastFree.unique (h : r.IsLeastFree id) (h' : r.IsLeastFree other) : id = other := by
  apply UInt16.toNat.inj
  by_contra hne
  rcases Nat.lt_or_gt_of_ne hne with hlt | hlt
  · exact h.1 (h'.2 id hlt)
  · exact h'.1 (h.2 other hlt)

theorem nextFree?_eq_none_iff : r.nextFree? = none ↔ ∀ id, r.Registered id := by
  constructor
  · intro h id
    exact registered_iff.mpr (mem_of_nextFree?_eq_none h id)
  · intro h
    rw [Option.eq_none_iff_forall_ne_some]
    intro id hid
    exact notMem_of_leastFree? hid (registered_iff.mp (h id))

theorem nextFree?_eq_some_iff : r.nextFree? = some id ↔ r.IsLeastFree id := by
  have hleast : ∀ {id}, r.nextFree? = some id → r.IsLeastFree id := by
    intro id h
    refine ⟨mt registered_iff.mp (notMem_of_leastFree? h), ?_⟩
    intro other hlt
    rw [registered_iff]
    apply mem_of_nextFree?
    simpa [h] using hlt
  constructor
  · exact hleast
  · intro h
    cases hnext : r.nextFree? with
    | none => exact absurd (nextFree?_eq_none_iff.mp hnext id) h.1
    | some found => rw [(hleast hnext).unique h]

/-- An id is given out when it is the least that is free. -/
theorem outcome_register_eq_ok_iff :
    (r.register mark).outcome = .ok id ↔ r.IsLeastFree id := by
  rw [← nextFree?_eq_some_iff]
  rcases r.register_cases mark with ⟨found, _, hnext, hregister⟩ | ⟨_, hnext, hregister⟩
  · rw [hregister, hnext, Except.ok.injEq, Option.some.injEq]
  · simp [hregister, hnext]

theorem outcome_register_eq_error_iff : (r.register mark).outcome = .error fault ↔
    fault = .idsExhausted MarkerId.count ∧ ∀ id, r.Registered id := by
  rw [← nextFree?_eq_none_iff]
  rcases r.register_cases mark with ⟨found, _, hnext, hregister⟩ | ⟨_, hnext, hregister⟩
  · simp [hregister, hnext]
  · simp [hregister, hnext, eq_comm]

theorem insert_eq_error_iff : r.insert id mark = .error fault ↔
    fault = .idTaken id ∧ r.Registered id := by
  rw [registered_iff, insert]
  by_cases hmem : id ∈ r.entries
  · simp [hmem, eq_comm]
  · simp [hmem]

/-- The markers are those that are found under their own ids. -/
theorem get?_eq_some_iff_mem_markers :
    r.get? id = some m ↔ m ∈ r.markers ∧ m.id = id := by
  rw [markers_eq_filterMap, List.mem_filterMap]
  constructor
  · intro h
    have hmem := registered_iff.mp ⟨m, h⟩
    exact ⟨⟨id, Std.TreeMap.mem_keys.mpr hmem, h⟩, id_of_get? h⟩
  · rintro ⟨⟨key, _, hkey⟩, rfl⟩
    rwa [id_of_get? hkey]

end Registry

/-- What is done with a registry. -/
inductive Operation
  | register (mark : Mark)
  | insert (id : MarkerId) (mark : Mark)
  | locate (id : MarkerId) (offset : Nat)
  | addClass (id : MarkerId) (className : String)
  | place (text : String)
deriving DecidableEq, Repr

/-- An operation that would register a mark and cannot. -/
inductive Operation.Refused (r : Registry) : Operation → Fault → Prop
  | register {mark : Mark} {fault : Fault}
      (failed : (r.register mark).outcome = .error fault) : Refused r (.register mark) fault
  | insert {id : MarkerId} {mark : Mark} {fault : Fault}
      (failed : r.insert id mark = .error fault) : Refused r (.insert id mark) fault

/-- A registry in use, and the ids under which marks have been registered in it,
in the order in which this was done. -/
structure Session where
  registry : Registry := ∅
  taken : List MarkerId := []

namespace Session

/-- The session after one more operation. -/
def after (s : Session) : Operation → Session
  | .register mark =>
    match s.registry.register mark with
    | ⟨registry, .ok id⟩ => ⟨registry, s.taken ++ [id]⟩
    | ⟨registry, .error _⟩ => { s with registry }
  | .insert id mark =>
    match s.registry.insert id mark with
    | .ok registry => ⟨registry, s.taken ++ [id]⟩
    | .error _ => s
  | .locate id offset =>
    match s.registry.locate id offset with
    | .ok registry => { s with registry }
    | .error _ => s
  | .addClass id className => { s with registry := s.registry.addClass id className }
  | .place text => { s with registry := (Placement.place text s.registry).value.registry }

/-- What operations on an empty registry lead to. -/
def of (operations : List Operation) : Session := operations.foldl after {}

theorem of_concat (operations : List Operation) (operation : Operation) :
    of (operations ++ [operation]) = (of operations).after operation := List.foldl_concat ..

variable {s : Session} {operation : Operation} {fault : Fault}

/-- Only operations that register a mark take an id, and each of them a free one. -/
theorem lists_after (h : s.registry.Lists s.taken) (operation : Operation) :
    (s.after operation).registry.Lists (s.after operation).taken := by
  cases operation with
  | register mark =>
    rw [after]
    split
    next r id hregister =>
      exact h.concat (Registry.notMem_of_register hregister) (Registry.get?_register hregister)
    next r _ hregister =>
      exact h.congr fun _ => by rw [Registry.entries_of_register_error hregister]
  | insert id mark =>
    rw [after]
    split
    next r hinsert =>
      exact h.concat (Registry.notMem_of_insert hinsert) (Registry.get?_insert hinsert)
    next => exact h
  | locate id offset =>
    rw [after]
    split
    next r hlocate =>
      obtain ⟨_, rfl⟩ := Registry.locate_eq_ok_iff.mp hlocate
      exact h.congr fun _ => Std.TreeMap.mem_modify
    next => exact h
  | addClass id className => exact h.congr fun _ => Std.TreeMap.mem_modify
  | place text =>
    obtain ⟨ls, hplace⟩ := Placement.exists_recordAll text s.registry
    rw [after, hplace]
    exact h.recordAll

/-- The ids that were taken are those that are registered, each taken once. -/
theorem lists_of (operations : List Operation) :
    (of operations).registry.Lists (of operations).taken := by
  induction operations using List.reverseRecOn with
  | nil => exact ⟨.nil, by simp [of]⟩
  | append_singleton operations operation ih =>
    rw [of_concat]
    exact lists_after ih operation

/-- Where no id is chosen, ids are given out in ascending order. -/
theorem registered_replicate_iff {n : Nat} (mark : Mark) (hn : n ≤ MarkerId.count)
    (id : MarkerId) :
    (of (List.replicate n (.register mark))).registry.Registered id ↔ id.toNat < n := by
  induction n generalizing id with
  | zero => simp [of, Registry.Registered]
  | succ n ih =>
    have hnat : (UInt16.ofNat n).toNat = n := UInt16.toNat_ofNat_of_lt' hn
    have hleast : (of (List.replicate n (.register mark))).registry.IsLeastFree (.ofNat n) := by
      simp only [Registry.IsLeastFree, ih (by omega), hnat]
      simp
    obtain ⟨r, hregister, _⟩ :=
      Registry.exists_register mark (Registry.nextFree?_eq_some_iff.mpr hleast)
    rw [List.replicate_succ', of_concat, after, hregister, Registry.Registered]
    dsimp only
    rw [Registry.get?_register hregister]
    by_cases hid : id = .ofNat n
    · rw [if_pos hid, hid, hnat]
      simp
    · have hne : id.toNat ≠ n := by
        rintro rfl
        exact hid UInt16.ofNat_toNat.symm
      rw [if_neg hid]
      exact (ih (by omega) id).trans (by omega)

/-- A mark that cannot be registered leaves everything under its id, although the
search for a free one may have moved the cursor. -/
theorem entries_after_of_refused (h : operation.Refused s.registry fault) :
    (s.after operation).registry.entries = s.registry.entries := by
  cases h with
  | @register mark _ failed =>
    rcases hregister : s.registry.register mark with ⟨r, outcome⟩
    rw [hregister] at failed
    obtain rfl : outcome = .error fault := failed
    simp only [after, hregister]
    exact Registry.entries_of_register_error hregister
  | insert failed => simp only [after, failed]

/-- Whatever was done with a registry, markers are found under their ids, and
they are as many as the registrations that succeeded. The next id that is given
out is the least that is free, and there is none only when all are registered.
An id can be chosen unless it is registered. What is refused changes nothing. -/
theorem allocates_least_free (operations : List Operation) :
    (∀ id m, (of operations).registry.get? id = some m ↔
      m ∈ (of operations).registry.markers ∧ m.id = id) ∧
    (of operations).registry.size = (of operations).taken.length ∧
    (∀ mark id, ((of operations).registry.register mark).outcome = .ok id ↔
      (of operations).registry.IsLeastFree id) ∧
    (∀ mark fault, ((of operations).registry.register mark).outcome = .error fault ↔
      fault = .idsExhausted 65536 ∧ ∀ id, (of operations).registry.Registered id) ∧
    (∀ id mark fault, (of operations).registry.insert id mark = .error fault ↔
      fault = .idTaken id ∧ (of operations).registry.Registered id) ∧
    ∀ operation fault, operation.Refused (of operations).registry fault →
      (of (operations ++ [operation])).registry.size = (of operations).registry.size ∧
      ∀ id, (of (operations ++ [operation])).registry.get? id =
        (of operations).registry.get? id := by
  refine ⟨?_, (lists_of operations).length_eq.symm, ?_, ?_, ?_, ?_⟩
  · intro id m
    exact Registry.get?_eq_some_iff_mem_markers
  · intro mark id
    exact Registry.outcome_register_eq_ok_iff
  · intro mark fault
    exact Registry.outcome_register_eq_error_iff
  · intro id mark fault
    exact Registry.insert_eq_error_iff
  · intro operation fault hrefused
    have hentries := entries_after_of_refused hrefused
    rw [← of_concat] at hentries
    refine ⟨congrArg Std.TreeMap.size hentries, ?_⟩
    intro id
    rw [Registry.get?, Registry.get?, hentries]

/-- After as many marks as there are ids the next one is refused. -/
theorem allocates_least_free_exhausted : ∃ operations : List Operation,
    (∀ id, (of operations).registry.Registered id) ∧
    ((of operations).registry.register (.closing .block "p")).outcome =
      .error (.idsExhausted 65536) ∧
    ∀ id, (of (operations ++ [.register (.closing .block "p")])).registry.get? id =
      (of operations).registry.get? id := by
  obtain ⟨operations, hall⟩ : ∃ operations, ∀ id, (of operations).registry.Registered id :=
    ⟨_, fun id => (registered_replicate_iff (.opening .block "p" []) (Nat.le_refl _) id).mpr
      id.toNat_lt⟩
  obtain ⟨_, _, _, hregister, _, hrefused⟩ := allocates_least_free operations
  have hfault := (hregister (.closing .block "p") _).mpr ⟨rfl, hall⟩
  exact ⟨operations, hall, hfault, (hrefused _ _ (.register hfault)).2⟩

/-- Ids that were chosen are passed over, and one that was given out cannot be chosen. -/
example : (of [.insert 1 (.atomic .inline "br" []), .register (.opening .block "p" []),
    .insert 0 (.atomic .block "hr" []), .locate 1 7, .register (.closing .block "p")]).taken =
      [1, 0, 2] := rfl

end Session

end DeferredMarkup
