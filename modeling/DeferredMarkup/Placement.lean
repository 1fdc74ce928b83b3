import DeferredMarkup.Journal
import DeferredMarkup.Registry

/-!
Placement matches the markings of a text with a registry, from left to right.
Each marking must name a registered marker that has not been located yet, and
that marker is then located there. The first marking that does not fit ends
the placement, and what was located before it stays. In the end the markings
must be as many as the markers, so that none is left without its place.
-/
namespace DeferredMarkup

/-- The longest text in which offsets can be recorded, in bytes. -/
def longestText : Nat := 4294967295

structure Location where
  offset : Nat
  id : MarkerId
deriving DecidableEq, Repr

namespace Placement

/-- How far a placement has come: the registry as it stands, and the locations
recorded so far, latest first. -/
structure State where
  registry : Registry
  located : List Location

def accept (length : Nat) (s : State) (m : Marking) : Except Fault State :=
  match m.reading with
  | .truncated => .error (.truncatedMarking m.offset length)
  | .malformed digits => .error (.malformedMarking m.offset digits)
  | .id id =>
    match s.registry.locate id m.offset with
    | .error .unknown => .error (.unknownMarker id m.offset)
    | .error (.already first) => .error (.locatedTwice id first m.offset)
    | .ok registry => .ok ⟨registry, ⟨m.offset, id⟩ :: s.located⟩

def acceptAll (length : Nat) (s : State) : List Marking → State × Option Fault
  | [] => (s, none)
  | m :: rest =>
    match accept length s m with
    | .error fault => (s, some fault)
    | .ok s' => acceptAll length s' rest

/-- The locations from left to right, or a fault, and in either case the
registry that is left. -/
structure Result where
  registry : Registry
  outcome : Except Fault (List Location)

/-- Places all markings of a text. Their offsets are recorded in the journal
once all of them have been accepted, even if their number turns out wrong. -/
def place (text : String) (registry : Registry) : Logged Result :=
  let length := text.utf8ByteSize
  if longestText < length then
    let fault := .textTooLong length longestText
    ⟨⟨registry, .error fault⟩, [.misplaced fault]⟩
  else
    match acceptAll length ⟨registry, []⟩ (Marking.ofText text.toList) with
    | (s, some fault) => ⟨⟨s.registry, .error fault⟩, [.misplaced fault]⟩
    | (s, none) =>
      let locations := s.located.reverse
      let found := Record.markings (locations.map (·.offset))
      if locations.length = s.registry.size then
        ⟨⟨s.registry, .ok locations⟩, [found]⟩
      else
        let fault := .miscount locations.length s.registry.size
        ⟨⟨s.registry, .error fault⟩, [found, .misplaced fault]⟩

end Placement

end DeferredMarkup
