import DeferredMarkup.Html
import DeferredMarkup.Nesting
import DeferredMarkup.Placement
import DeferredMarkup.Substitution

/-!
Resolution turns a text with placeholders into finished markup. The
placeholders are matched with the registry, the markers are walked in document
order, and each placeholder gives way to the text of its marker. The first
fault ends it. There is then no finished text, and the given one stands.
-/
namespace DeferredMarkup

def Placeholder.span (offset : Nat) : Span := ⟨offset, offset + width⟩

namespace Resolution

/-- What takes the place of a marker, and the writer that has written its text. The
marker must have been located, and none of its strings may bring a new sentinel
into the text. What the writer held before is cleared away. -/
def writeReplacement (w : Html.Writer) (m : Marker) : Except Fault (Replacement × Html.Writer) :=
  match m.offset with
  | none => .error (.neverLocated m.id)
  | some offset =>
    if m.mark.strings.any (·.toList.contains sentinel) then .error (.sentinelWithin m.id)
    else
      let written := w.clear.mark m.mark
      .ok (⟨Placeholder.span offset, written.text⟩, written)

def writeReplacements (w : Html.Writer) : List Marker → Except Fault (List Replacement)
  | [] => .ok []
  | m :: rest => do
    let (r, written) ← writeReplacement w m
    let later ← writeReplacements written rest
    return r :: later

def replacements (markers : List Marker) : Logged (Except Fault (List Replacement)) :=
  match writeReplacements {} markers with
  | .ok all => ⟨.ok all, []⟩
  | .error (.sentinelWithin id) =>
    ⟨.error (.sentinelWithin id), [.unwritable (.sentinelWithin id)]⟩
  | .error fault => ⟨.error fault, []⟩

def substitute? (all : List Replacement) (text : String) : Logged (Option String) :=
  match Substitution.replace? all text with
  | some result => ⟨some result, [.applied ((Substitution.descending all).map (·.span.start))]⟩
  | none => ⟨none, []⟩

/-- Puts the result in the place of the text. The replacements of markers always
fit the text in which these were placed, so that there is one. -/
def substitute (all : List Replacement) : Attempt Unit := do
  match ← Attempt.ofLogged (substitute? all (← get)) with
  | some result => set result
  | none => return

/-- The stages of a resolution, of which only the last one changes the text. -/
def run (registry : Registry) : Attempt Unit := do
  let placed ← Attempt.ofLogged (Placement.place (← get) registry)
  let _ ← Attempt.ofExcept placed.outcome
  if placed.registry.isEmpty then return
  let markers ← Attempt.ofExcept placed.registry.sorted
  let walked ← Attempt.ofLogged (Nesting.walk markers)
  Attempt.ofExcept walked.outcome
  let all ← Attempt.ofExcept (← Attempt.ofLogged (replacements walked.markers))
  substitute all

end Resolution

structure Revision where
  text : String
  outcome : Except Fault Unit

/-- Resolves a text where it stands. A failure is recorded last. -/
def revise (text : String) (registry : Registry) : Logged Revision :=
  let ⟨(outcome, left), records⟩ := (Resolution.run registry).run.run text
  match outcome with
  | .ok () => ⟨⟨left, .ok ()⟩, records⟩
  | .error fault => ⟨⟨left, .error fault⟩, records ++ [.ofFailure fault]⟩

def resolve (text : String) (registry : Registry) : Logged (Except Fault String) := do
  let revision ← revise text registry
  return revision.outcome.map fun _ => revision.text

/-- A text that is being written together with the registry of its markers. Every
marker is registered and its placeholder written in one step, so that text and
registry always belong together. -/
structure Draft where
  text : String := ""
  registry : Registry := ∅

namespace Draft

/-- Writes literal text, in which there must be no sentinel. -/
def write (d : Draft) (literal : String) : Draft := { d with text := d.text ++ literal }

structure Result where
  draft : Draft
  outcome : Except Fault MarkerId

def push (d : Draft) (mark : Mark) : Result :=
  match d.registry.register mark with
  | ⟨registry, .ok id⟩ => ⟨⟨d.text ++ Placeholder.text id, registry⟩, .ok id⟩
  | ⟨registry, .error fault⟩ => ⟨{ d with registry }, .error fault⟩

def finish (d : Draft) : Logged (Except Fault String) := resolve d.text d.registry

end Draft

end DeferredMarkup
