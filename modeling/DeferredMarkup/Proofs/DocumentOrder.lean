import DeferredMarkup.Proofs.Allocating

/-!
Markers have one order. Those of a registry differ in their ids, so that no two
of them compare equal, and however they are enumerated and sorted, they come in
the one list in which they ascend. Markers that have not been located stand
behind all others by ascending id, so that the first of them to be met is the one
with the least id.
-/
namespace DeferredMarkup

namespace Marker

/-- Located markers ascend by offset, and at one offset by id. -/
def Precedes (a b : Marker) : Prop :=
  ∃ x y, a.offset = some x ∧ b.offset = some y ∧ (x < y ∨ x = y ∧ a.id.toNat < b.id.toNat)

/-- What becomes of markers that have been sorted: the first that was not located
ends the matter. -/
def delivered (ordered : List Marker) : Except Fault (List Marker) :=
  match ordered.find? (·.offset.isNone) with
  | some m => .error (.neverLocated m.id)
  | none => .ok ordered

variable {a b m : Marker} {ordered ms : List Marker} {fault : Fault}

theorem delivered_eq_ok_iff :
    delivered ordered = .ok ms ↔ (∀ m ∈ ordered, m.offset.isSome) ∧ ordered = ms := by
  have hnone : ordered.find? (·.offset.isNone) = none ↔ ∀ m ∈ ordered, m.offset.isSome := by
    simp [Option.isSome_iff_ne_none]
  rw [← hnone, delivered]
  cases ordered.find? (·.offset.isNone) with
  | none => simp
  | some m => simp

theorem delivered_eq_error_iff : delivered ordered = .error fault ↔
    ∃ front m back, ordered = front ++ m :: back ∧ (∀ x ∈ front, x.offset.isSome) ∧
      m.offset = none ∧ fault = .neverLocated m.id := by
  have hsome : ∀ m, ordered.find? (·.offset.isNone) = some m ↔ m.offset = none ∧
      ∃ front back, ordered = front ++ m :: back ∧ ∀ x ∈ front, x.offset.isSome := by
    intro m
    rw [List.find?_eq_some_iff_append]
    simp [Option.isSome_iff_ne_none]
  constructor
  · intro h
    unfold delivered at h
    split at h
    next m hm =>
      cases h
      obtain ⟨hnone, front, back, hsplit, hfront⟩ := (hsome m).mp hm
      exact ⟨front, m, back, hsplit, hfront, hnone, rfl⟩
    next => cases h
  · rintro ⟨front, m, back, hsplit, hfront, hnone, rfl⟩
    rw [delivered, (hsome m).mpr ⟨hnone, front, back, hsplit, hfront⟩]

/-- Markers compare equal only under one id. -/
theorem order_eq_lt_of_isLE (h : (order a b).isLE) (hid : a.id ≠ b.id) : order a b = .lt := by
  have hne : a.id.toNat ≠ b.id.toNat := fun heq => hid (UInt16.toNat.inj heq)
  by_contra hnot
  have hback : (order b a).isLE := by
    cases horder : order a b with
    | lt => exact absurd horder hnot
    | eq => rw [Std.OrientedCmp.eq_symm horder]; rfl
    | gt =>
      rw [horder] at h
      cases h
  rw [order_isLE_iff] at h hback
  cases ha : a.offset <;> cases hb : b.offset <;> simp only [ha, hb] at h hback <;> omega

theorem precedes_of_order_eq_lt (h : order a b = .lt) (hid : a.id ≠ b.id)
    (ha : a.offset.isSome) (hb : b.offset.isSome) : a.Precedes b := by
  obtain ⟨x, hx⟩ := Option.isSome_iff_exists.mp ha
  obtain ⟨y, hy⟩ := Option.isSome_iff_exists.mp hb
  have hne : a.id.toNat ≠ b.id.toNat := fun heq => hid (UInt16.toNat.inj heq)
  have hle : (order a b).isLE := by
    rw [h]
    rfl
  rw [order_isLE_iff] at hle
  simp only [hx, hy] at hle
  exact ⟨x, y, hx, hy, by omega⟩

theorem Precedes.order_isLE (h : a.Precedes b) : (order a b).isLE := by
  obtain ⟨x, y, hx, hy, hlt⟩ := h
  rw [order_isLE_iff]
  simp only [hx, hy]
  omega

end Marker

namespace Registry

variable {r : Registry} {ms ordered : List Marker} {fault : Fault}

/-- A list of the registered markers, each of them once, in any order. -/
def Enumerates (r : Registry) (ms : List Marker) : Prop :=
  ms.Nodup ∧ ∀ m, m ∈ ms ↔ r.get? m.id = some m

/-- A registry all of whose markers have been located. -/
def Located (r : Registry) : Prop := ∀ id m, r.get? id = some m → m.offset.isSome

/-- The marker of an id has not been located, nor that of any lesser id. -/
def IsLeastUnlocated (r : Registry) (id : MarkerId) : Prop :=
  (∃ m, r.get? id = some m ∧ m.offset = none) ∧
    ∀ other m, r.get? other = some m → m.offset = none → id.toNat ≤ other.toNat

theorem nodup_id_markers (r : Registry) : (r.markers.map (·.id)).Nodup := by
  have hids : r.markers.map (·.id) = r.entries.keys := by
    rw [markers, List.map_map, ← Std.TreeMap.map_fst_toList_eq_keys]
    apply List.map_congr_left
    intro entry hentry
    exact r.id_of_entry (Std.TreeMap.mem_toList_iff_getElem?_eq_some.mp hentry)
  rw [hids]
  exact Std.TreeMap.nodup_keys

theorem enumerates_iff : r.Enumerates ms ↔ ms.Perm r.markers := by
  have hmem : ∀ m, m ∈ r.markers ↔ r.get? m.id = some m := by
    intro m
    rw [get?_eq_some_iff_mem_markers]
    simp
  have hnodup : r.markers.Nodup := r.nodup_id_markers.of_map
  constructor
  · rintro ⟨hms, hlisted⟩
    apply (List.perm_ext_iff_of_nodup hms hnodup).mpr
    intro m
    rw [hlisted, hmem]
  · intro h
    refine ⟨h.nodup_iff.mpr hnodup, ?_⟩
    intro m
    rw [h.mem_iff, hmem]

namespace Enumerates

theorem distinct (h : r.Enumerates ms) : ms.Pairwise (·.id ≠ ·.id) := by
  have hids : (ms.map (·.id)).Nodup :=
    ((enumerates_iff.mp h).map (·.id)).nodup_iff.mpr r.nodup_id_markers
  exact List.pairwise_map.mp hids

theorem located_iff (h : r.Enumerates ms) : (∀ m ∈ ms, m.offset.isSome) ↔ r.Located := by
  constructor
  · intro hall id m hm
    obtain rfl := id_of_get? hm
    exact hall m ((h.2 m).mpr hm)
  · intro hlocated m hm
    exact hlocated m.id m ((h.2 m).mp hm)

/-- Whichever way markers are enumerated and sorted, they come in document order. -/
theorem inDocumentOrder_eq (h : r.Enumerates ordered)
    (hascending : ordered.Pairwise fun a b => (Marker.order a b).isLE) :
    Marker.inDocumentOrder r.markers = ordered := by
  apply Marker.inDocumentOrder_eq_of_perm (enumerates_iff.mp h).symm
  exact (hascending.and h.distinct).imp fun hab => Marker.order_eq_lt_of_isLE hab.1 hab.2

/-- Among sorted markers the first without a location has the least id of these. -/
theorem isLeastUnlocated {front back : List Marker} {m : Marker}
    (h : r.Enumerates (front ++ m :: back))
    (hascending : (front ++ m :: back).Pairwise fun a b => (Marker.order a b).isLE)
    (hfront : ∀ x ∈ front, x.offset.isSome) (hnone : m.offset = none) :
    r.IsLeastUnlocated m.id := by
  refine ⟨⟨m, (h.2 m).mp (by simp), hnone⟩, ?_⟩
  intro other x hx hxnone
  obtain rfl := id_of_get? hx
  have hmem := (h.2 x).mpr hx
  rw [List.mem_append, List.mem_cons] at hmem
  rcases hmem with hmem | rfl | hmem
  · have hsome := hfront x hmem
    simp [hxnone] at hsome
  · exact Nat.le_refl _
  · have hbehind := (List.pairwise_cons.mp (List.pairwise_append.mp hascending).2.1).1 x hmem
    rw [Marker.order_isLE_iff] at hbehind
    simpa only [hnone, hxnone] using hbehind

end Enumerates

theorem IsLeastUnlocated.unique {id other : MarkerId} (h : r.IsLeastUnlocated id)
    (h' : r.IsLeastUnlocated other) : id = other := by
  obtain ⟨⟨m, hm, hnone⟩, hleast⟩ := h
  obtain ⟨⟨m', hm', hnone'⟩, hleast'⟩ := h'
  exact UInt16.toNat.inj
    (Nat.le_antisymm (hleast other m' hm' hnone') (hleast' id m hm hnone))

theorem sorted_eq_delivered (h : r.Enumerates ordered)
    (hascending : ordered.Pairwise fun a b => (Marker.order a b).isLE) :
    r.sorted = Marker.delivered ordered := by
  rw [← h.inDocumentOrder_eq hascending]
  rfl

theorem exists_ordered (r : Registry) : ∃ ordered, r.Enumerates ordered ∧
    ordered.Pairwise fun a b => (Marker.order a b).isLE :=
  ⟨Marker.inDocumentOrder r.markers, enumerates_iff.mpr (List.mergeSort_perm _ _),
    Marker.pairwise_inDocumentOrder r.markers⟩

/-- What sorting gives is the list of the markers that ascends, if all are located. -/
theorem sorted_eq_ok_iff :
    r.sorted = .ok ms ↔ r.Located ∧ r.Enumerates ms ∧ ms.Pairwise Marker.Precedes := by
  constructor
  · intro h
    obtain ⟨ordered, henumerates, hascending⟩ := r.exists_ordered
    rw [sorted_eq_delivered henumerates hascending, Marker.delivered_eq_ok_iff] at h
    obtain ⟨hall, rfl⟩ := h
    refine ⟨henumerates.located_iff.mp hall, henumerates, ?_⟩
    apply (hascending.and henumerates.distinct).imp_of_mem
    intro a b ha hb hab
    exact Marker.precedes_of_order_eq_lt (Marker.order_eq_lt_of_isLE hab.1 hab.2) hab.2
      (hall a ha) (hall b hb)
  · rintro ⟨hlocated, henumerates, hascending⟩
    rw [sorted_eq_delivered henumerates (hascending.imp fun h => h.order_isLE),
      Marker.delivered_eq_ok_iff]
    exact ⟨henumerates.located_iff.mpr hlocated, rfl⟩

/-- Sorting fails for the least id whose marker has not been located. -/
theorem sorted_eq_error_iff :
    r.sorted = .error fault ↔ ∃ id, r.IsLeastUnlocated id ∧ fault = .neverLocated id := by
  have hleast : ∀ {fault}, r.sorted = .error fault →
      ∃ id, r.IsLeastUnlocated id ∧ fault = .neverLocated id := by
    intro fault h
    obtain ⟨ordered, henumerates, hascending⟩ := r.exists_ordered
    rw [sorted_eq_delivered henumerates hascending, Marker.delivered_eq_error_iff] at h
    obtain ⟨front, m, back, rfl, hfront, hnone, rfl⟩ := h
    exact ⟨m.id, henumerates.isLeastUnlocated hascending hfront hnone, rfl⟩
  constructor
  · exact hleast
  · rintro ⟨id, hid, rfl⟩
    cases hsorted : r.sorted with
    | ok ms =>
      obtain ⟨hlocated, _⟩ := sorted_eq_ok_iff.mp hsorted
      obtain ⟨⟨m, hm, hnone⟩, _⟩ := hid
      have hsome := hlocated id m hm
      simp [hnone] at hsome
    | error fault =>
      obtain ⟨found, hfound, rfl⟩ := hleast hsorted
      rw [hid.unique hfound]

/-- In whatever order the markers of a registry are enumerated, and by whatever
sort, they come to the same. All of them must have been located, and the result
is then the only list of them that ascends by offset and id. Otherwise the least
id without a location is reported. -/
theorem sorts_in_one_order (r : Registry) :
    (∀ listed ordered, r.Enumerates listed → ordered.Perm listed →
      (ordered.Pairwise fun a b => Marker.order a b ≠ .gt) →
      Marker.delivered ordered = r.sorted) ∧
    ((∃ ms, r.sorted = .ok ms) ↔ r.Located) ∧
    (∀ ms, r.sorted = .ok ms ↔
      r.Located ∧ r.Enumerates ms ∧ ms.Pairwise Marker.Precedes) ∧
    ∀ fault, r.sorted = .error fault ↔
      ∃ id, r.IsLeastUnlocated id ∧ fault = .neverLocated id := by
  refine ⟨?_, ?_, fun _ => sorted_eq_ok_iff, fun _ => sorted_eq_error_iff⟩
  · intro listed ordered hlisted hperm hascending
    have henumerates : r.Enumerates ordered :=
      enumerates_iff.mpr (hperm.trans (enumerates_iff.mp hlisted))
    refine (sorted_eq_delivered henumerates (hascending.imp ?_)).symm
    intro a b hab
    exact Ordering.isLE_iff_ne_gt.mpr hab
  · constructor
    · rintro ⟨ms, hms⟩
      exact (sorted_eq_ok_iff.mp hms).1
    · intro hlocated
      obtain ⟨ordered, henumerates, hascending⟩ := r.exists_ordered
      refine ⟨ordered, ?_⟩
      rw [sorted_eq_delivered henumerates hascending, Marker.delivered_eq_ok_iff]
      exact ⟨henumerates.located_iff.mpr hlocated, rfl⟩

/-- Two markers of which the later id was registered first stand at one offset,
behind a third, and then two markers of which neither was located. -/
theorem sorts_in_one_order_shared :
    (let listed : List Marker := [⟨2, some 7, .atomic .block "hr" []⟩,
        ⟨0, some 7, .opening .block "p" []⟩, ⟨1, some 3, .closing .block "p"⟩]
      let ordered : List Marker := [⟨1, some 3, .closing .block "p"⟩,
        ⟨0, some 7, .opening .block "p" []⟩, ⟨2, some 7, .atomic .block "hr" []⟩]
      ∃ r : Registry, r = (Session.of [.insert 2 (.atomic .block "hr" []),
          .register (.opening .block "p" []), .register (.closing .block "p"),
          .locate 2 7, .locate 0 7, .locate 1 3]).registry ∧
        r.Enumerates listed ∧ ordered.Perm listed ∧
        (ordered.Pairwise fun a b => Marker.order a b ≠ .gt) ∧ r.sorted = .ok ordered) ∧
    ∃ r : Registry, r = (Session.of [.insert 9 (.atomic .block "hr" []),
        .register (.opening .block "p" []), .register (.closing .block "p"),
        .locate 0 7]).registry ∧
      r.IsLeastUnlocated 1 ∧ r.sorted = .error (.neverLocated 1) := by
  constructor
  · intro listed ordered
    obtain ⟨r, hr, hmarkers⟩ : ∃ r : Registry, r =
        (Session.of [.insert 2 (.atomic .block "hr" []), .register (.opening .block "p" []),
          .register (.closing .block "p"), .locate 2 7, .locate 0 7, .locate 1 3]).registry ∧
        listed.Perm r.markers := ⟨_, rfl, by decide⟩
    have hlisted : r.Enumerates listed := enumerates_iff.mpr hmarkers
    have hperm : ordered.Perm listed := by decide
    have hascending : ordered.Pairwise fun a b => Marker.order a b ≠ .gt := by decide
    have hsame := (sorts_in_one_order r).1 listed ordered hlisted hperm hascending
    exact ⟨r, hr, hlisted, hperm, hascending, hsame.symm⟩
  · obtain ⟨r, hr, hmarkers⟩ : ∃ r : Registry, r =
        (Session.of [.insert 9 (.atomic .block "hr" []), .register (.opening .block "p" []),
          .register (.closing .block "p"), .locate 0 7]).registry ∧
        [⟨9, none, .atomic .block "hr" []⟩, ⟨0, some 7, .opening .block "p" []⟩,
          ⟨1, none, .closing .block "p"⟩].Perm r.markers := ⟨_, rfl, by decide⟩
    have hsame := (sorts_in_one_order r).1 _ [⟨0, some 7, .opening .block "p" []⟩,
      ⟨1, none, .closing .block "p"⟩, ⟨9, none, .atomic .block "hr" []⟩]
      (enumerates_iff.mpr hmarkers) (by decide) (by decide)
    have hsorted : r.sorted = .error (.neverLocated 1) := hsame.symm
    obtain ⟨id, hid, hfault⟩ := ((sorts_in_one_order r).2.2.2 _).mp hsorted
    cases hfault
    exact ⟨r, hr, hid, hsorted⟩

end Registry

end DeferredMarkup
