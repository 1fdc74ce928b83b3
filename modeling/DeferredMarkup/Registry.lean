import DeferredMarkup.Fault
import Std.Data.TreeMap

/-!
The registry holds the markers of one text by their ids. Ids are chosen by
the caller or given out in ascending order; the cursor stands past the last
one given out, and every id before it is taken, so that the id given out next
is the least free one. A marker is located at most once.
-/
namespace DeferredMarkup

/-- Markers under their own ids. -/
structure Registry where
  entries : Std.TreeMap MarkerId Marker := ∅
  cursor : Nat := 0
  taken_below_cursor : ∀ id : MarkerId, id.toNat < cursor → id ∈ entries := by simp
  id_of_entry : ∀ {id : MarkerId} {m : Marker}, entries[id]? = some m → m.id = id := by simp

/-- Why an offset cannot be recorded: the id is not registered, or its marker
was located before. -/
inductive Unplaceable
  | unknown
  | already (first : Nat)
deriving DecidableEq, Repr

namespace Registry

instance : EmptyCollection Registry := ⟨{}⟩

def size (r : Registry) : Nat := r.entries.size

def isEmpty (r : Registry) : Bool := r.entries.isEmpty

def get? (r : Registry) (id : MarkerId) : Option Marker := r.entries[id]?

def markers (r : Registry) : List Marker := r.entries.toList.map (·.2)

/-- The least free one among the last `left` ids. -/
def leastFree? (entries : Std.TreeMap MarkerId Marker) : Nat → Option MarkerId
  | 0 => none
  | left + 1 =>
    let id : MarkerId := .ofNat (MarkerId.count - (left + 1))
    if id ∈ entries then leastFree? entries left else some id

def nextFree? (r : Registry) : Option MarkerId :=
  leastFree? r.entries (MarkerId.count - r.cursor)

/-- Of the last `left` ids those before the one that is found are taken, and all
of them are when none is found. -/
theorem mem_of_forall_leastFree? {entries : Std.TreeMap MarkerId Marker} {left : Nat}
    {id : MarkerId} (hleft : left ≤ MarkerId.count) (hstart : MarkerId.count - left ≤ id.toNat)
    (hid : ∀ found, leastFree? entries left = some found → id.toNat < found.toNat) :
    id ∈ entries := by
  induction left with
  | zero =>
    have hlast : id.toNat < MarkerId.count := id.toNat_lt
    omega
  | succ left ih =>
    have hnat : (UInt16.ofNat (MarkerId.count - (left + 1))).toNat =
        MarkerId.count - (left + 1) := by
      simp only [MarkerId.count] at hleft ⊢
      simp only [UInt16.toNat_ofNat']
      omega
    simp only [leastFree?] at hid
    split at hid
    · rename_i hmem
      by_cases heq : id.toNat = MarkerId.count - (left + 1)
      · have : id = UInt16.ofNat (MarkerId.count - (left + 1)) := by
          rw [← heq, UInt16.ofNat_toNat]
        rwa [this]
      · exact ih (by omega) (by omega) hid
    · have := hid _ rfl
      omega

theorem mem_of_nextFree? {r : Registry} {id : MarkerId}
    (h : ∀ found, r.nextFree? = some found → id.toNat < found.toNat) : id ∈ r.entries := by
  by_cases hcursor : id.toNat < r.cursor
  · exact r.taken_below_cursor id hcursor
  · exact mem_of_forall_leastFree? (Nat.sub_le _ _) (by omega) h

theorem mem_of_nextFree?_eq_none {r : Registry} (h : r.nextFree? = none) (id : MarkerId) :
    id ∈ r.entries :=
  mem_of_nextFree? fun found hfound => by cases h.symm.trans hfound

theorem eq_or_mem_of_nextFree?_eq_some {r : Registry} {id other : MarkerId}
    (h : r.nextFree? = some id) (hother : other.toNat < id.toNat + 1) :
    other = id ∨ other ∈ r.entries := by
  rcases Nat.lt_succ_iff_lt_or_eq.mp hother with hlt | heq
  · refine Or.inr (mem_of_nextFree? ?_)
    intro found hfound
    cases h.symm.trans hfound
    exact hlt
  · exact Or.inl (UInt16.toNat.inj heq)

/-- Keeps a mark under an id, and then stands at a cursor before which all ids
are taken. -/
def enter (r : Registry) (id : MarkerId) (mark : Mark) (cursor : Nat)
    (h : ∀ other : MarkerId, other.toNat < cursor → other = id ∨ other ∈ r.entries) :
    Registry where
  entries := r.entries.insert id ⟨id, none, mark⟩
  cursor := cursor
  taken_below_cursor := by
    intro other hother
    rw [Std.TreeMap.mem_insert]
    exact (h other hother).imp_left fun heq => by simp [heq]
  id_of_entry := by
    intro other m hm
    rw [Std.TreeMap.getElem?_insert] at hm
    split at hm
    next heq =>
      cases hm
      exact Std.compare_eq_iff_eq.mp heq
    next => exact r.id_of_entry hm

def insert (r : Registry) (id : MarkerId) (mark : Mark) : Except Fault Registry :=
  if id ∈ r.entries then .error (.idTaken id)
  else .ok (r.enter id mark r.cursor fun other h => Or.inr (r.taken_below_cursor other h))

def exhaust (r : Registry) (h : ∀ id, id ∈ r.entries) : Registry :=
  { r with
    cursor := max r.cursor MarkerId.count
    taken_below_cursor := fun id _ => h id }

structure Result where
  registry : Registry
  outcome : Except Fault MarkerId

/-- Registers a mark under the least free id. The search moves the cursor, also
when it finds none. -/
def register (r : Registry) (mark : Mark) : Result :=
  match h : r.nextFree? with
  | none => ⟨r.exhaust (mem_of_nextFree?_eq_none h), .error (.idsExhausted MarkerId.count)⟩
  | some id =>
    ⟨r.enter id mark (id.toNat + 1) fun _ => eq_or_mem_of_nextFree?_eq_some h, .ok id⟩

def modify (r : Registry) (id : MarkerId) (f : Marker → Marker) (hf : ∀ m, (f m).id = m.id) :
    Registry where
  entries := r.entries.modify id f
  cursor := r.cursor
  taken_below_cursor := fun other h =>
    Std.TreeMap.mem_modify.mpr (r.taken_below_cursor other h)
  id_of_entry := by
    intro other m hm
    rw [Std.TreeMap.getElem?_modify] at hm
    split at hm
    next heq =>
      obtain ⟨before, hbefore, rfl⟩ := Option.map_eq_some_iff.mp hm
      rw [hf, r.id_of_entry hbefore]
      exact Std.compare_eq_iff_eq.mp heq
    next => exact r.id_of_entry hm

/-- Records where the placeholder of a marker stands. An offset recorded
before is never replaced. -/
def locate (r : Registry) (id : MarkerId) (offset : Nat) : Except Unplaceable Registry :=
  match r.get? id with
  | none => .error .unknown
  | some m =>
    match m.offset with
    | some first => .error (.already first)
    | none => .ok (r.modify id (·.placedAt offset) fun _ => rfl)

def addClass (r : Registry) (id : MarkerId) (className : String) : Registry :=
  r.modify id (·.addClasses [className]) fun _ => rfl

/-- All markers in document order, once each of them has been located. The
fault names the least id among those that have not. -/
def sorted (r : Registry) : Except Fault (List Marker) :=
  let markers := Marker.inDocumentOrder r.markers
  match markers.find? (·.offset.isNone) with
  | some m => .error (.neverLocated m.id)
  | none => .ok markers

end Registry

end DeferredMarkup
