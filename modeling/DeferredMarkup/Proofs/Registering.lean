import DeferredMarkup.Proofs.Sorting
import Mathlib.Data.List.Basic

/-!
What a registry holds, told by looking ids up. Registering a mark adds one
marker, which is not located, and a registry that has only been built locates
none. The markers come sorted in the one order in which they ascend.
-/
namespace DeferredMarkup.Registry

/-- The registries to which calls that register markers lead, also when some of
these calls are refused. -/
inductive Built : Registry → Prop
  | empty : Built ∅
  | insert {r r' : Registry} {id : MarkerId} {mark : Mark} : Built r →
      r.insert id mark = .ok r' → Built r'
  | register {r r' : Registry} {outcome : Except Fault MarkerId} {mark : Mark} : Built r →
      r.register mark = ⟨r', outcome⟩ → Built r'

variable {r r' : Registry} {id other : MarkerId} {mark : Mark} {m : Marker} {fault : Fault}

@[simp] theorem get?_empty (id : MarkerId) : (∅ : Registry).get? id = none :=
  Std.TreeMap.getElem?_emptyc

/-- A marker that is found under an id has this id. -/
theorem id_of_get? (h : r.get? id = some m) : m.id = id := r.id_of_entry h

theorem exists_get?_iff : (∃ m, r.get? id = some m) ↔ id ∈ r.entries := by
  rw [← Option.isSome_iff_exists, get?, Std.TreeMap.mem_iff_isSome_getElem?]

theorem get?_eq_none_iff : r.get? id = none ↔ id ∉ r.entries := by
  rw [← exists_get?_iff, ← Option.isSome_iff_exists, Option.not_isSome_iff_eq_none]

theorem get?_enter (r : Registry) (id other : MarkerId) (mark : Mark) (cursor : Nat)
    (h : ∀ x : MarkerId, x.toNat < cursor → x = id ∨ x ∈ r.entries) :
    (r.enter id mark cursor h).get? other =
      if other = id then some ⟨id, none, mark⟩ else r.get? other := by
  unfold enter get?
  rw [Std.TreeMap.getElem?_insert]
  by_cases hother : other = id
  · simp [hother]
  · simp [hother, Ne.symm hother]

theorem get?_modify (r : Registry) (id other : MarkerId) (f : Marker → Marker)
    (hf : ∀ m, (f m).id = m.id) : (r.modify id f hf).get? other =
      if other = id then (r.get? other).map f else r.get? other := by
  unfold modify get?
  rw [Std.TreeMap.getElem?_modify]
  by_cases h : other = id
  · subst h
    simp only [Std.compare_self, if_true]
  · rw [if_neg h, if_neg]
    intro heq
    exact h (Std.LawfulEqOrd.eq_of_compare heq).symm

theorem get?_insert (h : r.insert id mark = .ok r') :
    r'.get? other = if other = id then some ⟨id, none, mark⟩ else r.get? other := by
  unfold insert at h
  split at h
  · cases h
  · cases h
    exact get?_enter ..

/-- A mark is kept under the next free id, and refused when there is none. -/
theorem register_cases (r : Registry) (mark : Mark) :
    (∃ id h, r.nextFree? = some id ∧
      r.register mark = ⟨r.enter id mark (id.toNat + 1) h, .ok id⟩) ∨
    ∃ h, r.nextFree? = none ∧
      r.register mark = ⟨r.exhaust h, .error (.idsExhausted MarkerId.count)⟩ := by
  unfold register
  split
  next hnone => exact Or.inr ⟨mem_of_nextFree?_eq_none hnone, hnone, rfl⟩
  next id hsome => exact Or.inl ⟨id, fun _ => eq_or_mem_of_nextFree?_eq_some hsome, hsome, rfl⟩

theorem get?_register (h : r.register mark = ⟨r', .ok id⟩) :
    r'.get? other = if other = id then some ⟨id, none, mark⟩ else r.get? other := by
  rcases r.register_cases mark with ⟨_, _, _, hregister⟩ | ⟨_, _, hregister⟩
  · cases h.symm.trans hregister
    exact get?_enter ..
  · cases h.symm.trans hregister

/-- A mark that is refused leaves everything under its id. -/
theorem entries_of_register_error (h : r.register mark = ⟨r', .error fault⟩) :
    r'.entries = r.entries := by
  rcases r.register_cases mark with ⟨_, _, _, hregister⟩ | ⟨_, _, hregister⟩
  · cases h.symm.trans hregister
  · cases h.symm.trans hregister
    rfl

theorem get?_register_of_error (h : r.register mark = ⟨r', .error fault⟩) :
    r'.get? id = r.get? id := by
  rw [get?, get?, entries_of_register_error h]

theorem notMem_of_insert (h : r.insert id mark = .ok r') : id ∉ r.entries := by
  unfold insert at h
  split at h
  · cases h
  · assumption

theorem notMem_of_leastFree? {entries : Std.TreeMap MarkerId Marker} {left : Nat}
    (h : leastFree? entries left = some id) : id ∉ entries := by
  induction left with
  | zero => cases h
  | succ left ih =>
    rw [leastFree?] at h
    split at h
    · exact ih h
    · cases h
      assumption

/-- An id that is given out was free. -/
theorem notMem_of_register (h : r.register mark = ⟨r', .ok id⟩) : id ∉ r.entries := by
  rcases r.register_cases mark with ⟨_, _, hnext, hregister⟩ | ⟨_, _, hregister⟩
  · cases h.symm.trans hregister
    exact notMem_of_leastFree? hnext
  · cases h.symm.trans hregister

theorem exists_insert (mark : Mark) (h : id ∉ r.entries) : ∃ r', r.insert id mark = .ok r' := by
  unfold insert
  rw [if_neg h]
  exact ⟨_, rfl⟩

/-- The id at the cursor is given out next when all from there on are free. -/
theorem nextFree?_eq_cursor (hfree : ∀ id ∈ r.entries, id.toNat < r.cursor)
    (hcursor : r.cursor < MarkerId.count) : r.nextFree? = some (.ofNat r.cursor) := by
  obtain ⟨left, hleft⟩ : ∃ left, MarkerId.count - r.cursor = left + 1 :=
    ⟨MarkerId.count - r.cursor - 1, by omega⟩
  have hfirst : MarkerId.count - (left + 1) = r.cursor := by omega
  have hnat : (UInt16.ofNat r.cursor).toNat = r.cursor := UInt16.toNat_ofNat_of_lt' hcursor
  have hnotMem : UInt16.ofNat r.cursor ∉ r.entries := by
    intro hmem
    have := hfree _ hmem
    omega
  unfold nextFree?
  rw [hleft, leastFree?, hfirst, if_neg hnotMem]

theorem nextFree?_eq_none (hcursor : MarkerId.count ≤ r.cursor) : r.nextFree? = none := by
  unfold nextFree?
  rw [Nat.sub_eq_zero_of_le hcursor, leastFree?]

theorem exists_register (mark : Mark) (h : r.nextFree? = some id) :
    ∃ r', r.register mark = ⟨r', .ok id⟩ ∧ r'.cursor = id.toNat + 1 := by
  rcases r.register_cases mark with ⟨_, _, hnext, hregister⟩ | ⟨_, hnext, _⟩
  · cases h.symm.trans hnext
    exact ⟨_, hregister, rfl⟩
  · cases h.symm.trans hnext

/-- Where the cursor stands behind all ids, nothing changes at all. -/
theorem register_eq_error (mark : Mark) (hcursor : MarkerId.count ≤ r.cursor) :
    r.register mark = ⟨r, .error (.idsExhausted MarkerId.count)⟩ := by
  rcases r.register_cases mark with ⟨_, _, hnext, _⟩ | ⟨_, _, hregister⟩
  · cases (nextFree?_eq_none hcursor).symm.trans hnext
  · simp only [hregister, exhaust, Nat.max_eq_left hcursor]

/-- Building a registry locates no marker. -/
theorem Built.unlocated (h : r.Built) (hm : r.get? id = some m) : m.offset = none := by
  induction h with
  | empty => simp at hm
  | insert _ hinsert ih =>
    rw [get?_insert hinsert] at hm
    split at hm
    · cases hm
      rfl
    · exact ih hm
  | @register _ _ outcome _ _ hregister ih =>
    cases outcome with
    | ok id =>
      rw [get?_register hregister] at hm
      split at hm
      · cases hm
        rfl
      · exact ih hm
    | error fault =>
      rw [get?_register_of_error hregister] at hm
      exact ih hm

theorem markers_eq_filterMap (r : Registry) : r.markers = r.entries.keys.filterMap r.get? := by
  unfold markers
  rw [← Std.TreeMap.map_fst_toList_eq_keys, List.filterMap_map, eq_comm]
  apply List.filterMap_eq_map_iff_forall_eq_some.mpr
  intro entry hentry
  exact Std.TreeMap.mem_toList_iff_getElem?_eq_some.mp hentry

/-- A list of the registered ids, each of them once. -/
def Lists (r : Registry) (ids : List MarkerId) : Prop :=
  ids.Nodup ∧ ∀ id, id ∈ ids ↔ ∃ m, r.get? id = some m

/-- Located markers are sorted into the one list in which they ascend. -/
theorem sorted_of_perm {sorted : List Marker} (hperm : r.markers.Perm sorted)
    (hlocated : ∀ m ∈ sorted, m.offset.isSome)
    (hascending : sorted.Pairwise fun a b => Marker.order a b = .lt) :
    r.sorted = .ok sorted := by
  have hnone : sorted.find? (·.offset.isNone) = none := by
    rw [List.find?_eq_none]
    intro m hm
    have := hlocated m hm
    simp [Option.isSome_iff_ne_none.mp this]
  unfold Registry.sorted
  rw [Marker.inDocumentOrder_eq_of_perm hperm hascending]
  simp only [hnone]

namespace Lists

variable {ids : List MarkerId}

theorem keys_perm (h : r.Lists ids) : r.entries.keys.Perm ids := by
  apply (List.perm_ext_iff_of_nodup Std.TreeMap.nodup_keys h.1).mpr
  intro id
  rw [h.2, exists_get?_iff, Std.TreeMap.mem_keys]

/-- Where the same ids are registered, the same list tells of them. -/
theorem congr (h : r.Lists ids) (hmem : ∀ id, id ∈ r'.entries ↔ id ∈ r.entries) :
    r'.Lists ids := by
  refine ⟨h.1, ?_⟩
  intro id
  rw [h.2, exists_get?_iff, exists_get?_iff, hmem]

/-- In which order the ids are listed does not matter. -/
theorem of_perm {ids' : List MarkerId} (h : r.Lists ids) (hperm : ids.Perm ids') :
    r.Lists ids' := by
  refine ⟨hperm.nodup_iff.mp h.1, ?_⟩
  intro id
  rw [← hperm.mem_iff, h.2]

/-- An id that is registered behind others comes last. -/
theorem concat (h : r.Lists ids) (hfree : id ∉ r.entries)
    (hget : ∀ {other}, r'.get? other = if other = id then some m else r.get? other) :
    r'.Lists (ids ++ [id]) := by
  constructor
  · rw [← exists_get?_iff, ← h.2] at hfree
    refine List.nodup_append.mpr ⟨h.1, List.pairwise_singleton _ _, ?_⟩
    intro other hother last hlast heq
    rw [List.mem_singleton.mp hlast] at heq
    exact hfree (heq ▸ hother)
  · intro other
    rw [List.mem_append, List.mem_singleton, h.2, hget]
    by_cases hother : other = id
    · simp [hother]
    · simp [hother]

theorem length_eq (h : r.Lists ids) : ids.length = r.size := by
  rw [← h.keys_perm.length_eq, Std.TreeMap.length_keys]
  rfl

theorem isEmpty_iff (h : r.Lists ids) : r.isEmpty ↔ ids = [] := by
  rw [← List.length_eq_zero_iff, h.length_eq]
  unfold isEmpty size
  rw [Std.TreeMap.isEmpty_eq_size_eq_zero, beq_iff_eq]

/-- The markers of a registry come in document order from any list of its ids
along which they ascend. -/
theorem sorted_eq (h : r.Lists ids) (hlocated : ∀ m ∈ ids.filterMap r.get?, m.offset.isSome)
    (hascending : (ids.filterMap r.get?).Pairwise fun a b => Marker.order a b = .lt) :
    r.sorted = .ok (ids.filterMap r.get?) := by
  apply sorted_of_perm _ hlocated hascending
  rw [markers_eq_filterMap]
  exact h.keys_perm.filterMap _

end Lists

end DeferredMarkup.Registry
