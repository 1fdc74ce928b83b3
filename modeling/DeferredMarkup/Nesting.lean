import DeferredMarkup.Journal

/-!
The nesting walk visits markers in the order in which they are given. All open
tags form one stack, whatever their category, and a close must match the top
of it in name and category. Beside it every category has a lane of its own:
its open tags, the tag that a styler looking back would reach, and the class
names that wait for its next tag. Stylers look at the lane of their category
alone. The walk never changes a marker while it runs. It notes which tag is
granted which class, and the grants are handed out when it ends, also when it
ends in a fault.
-/
namespace DeferredMarkup.Nesting

structure Site where
  index : Nat
  marker : Marker
deriving DecidableEq, Repr

namespace Site

def describe (s : Site) : String := s.marker.describe

end Site

structure Grant where
  tag : Nat
  className : String
deriving DecidableEq, Repr

/-- What the walk knows of one category: its open tags, innermost first, the
tag for stylers that look back, and the classes that wait for its next tag,
latest first. Stylers look back to the tag that was closed last or stood alone
last or, when a tag has just been opened, to the one around it. -/
structure Lane where
  openTags : List Site := []
  previous : Option Site := none
  queued : List String := []

structure Lanes where
  jcx : Lane := {}
  block : Lane := {}
  inline : Lane := {}

namespace Lanes

def get (l : Lanes) : Category → Lane
  | .jcx => l.jcx
  | .block => l.block
  | .inline => l.inline

def set (l : Lanes) (category : Category) (lane : Lane) : Lanes :=
  match category with
  | .jcx => { l with jcx := lane }
  | .block => { l with block := lane }
  | .inline => { l with inline := lane }

@[simp] theorem get_set (l : Lanes) (category category' : Category) (lane : Lane) :
    (l.set category lane).get category' =
      if category' = category then lane else l.get category' := by
  cases category <;> cases category' <;> rfl

end Lanes

/-- The walk between two markers: what it has visited, latest first, all open
tags, innermost first, the lanes, and the grants so far, latest first. -/
structure State where
  visited : List Site := []
  openTags : List Site := []
  lanes : Lanes := {}
  grants : List Grant := []

namespace State

def lane (s : State) (category : Category) : Lane := s.lanes.get category

def flush (s : State) (tag : Site) (queued : List String) : List Grant :=
  -- Both lists are kept latest first, so that the class queued first is granted first.
  queued.map (⟨tag.index, ·⟩) ++ s.grants

def atomicTag (s : State) (category : Category) (tag : Site) : State :=
  let lane := s.lane category
  { s with
    lanes := s.lanes.set category { lane with previous := some tag, queued := [] }
    grants := s.flush tag lane.queued }

/-- An opening tag goes on both stacks. Stylers of its category that look back
right after it reach the tag around it, if there is one. -/
def openTag (s : State) (category : Category) (tag : Site) : State :=
  let lane := s.lane category
  { s with
    openTags := tag :: s.openTags
    lanes := s.lanes.set category
      { openTags := tag :: lane.openTags, previous := lane.openTags.head?, queued := [] }
    grants := s.flush tag lane.queued }

/-- The latest atomic tag of a name that was visited after the given tag, or
at all when no tag is given. -/
def atomicSince (s : State) (name : String) (tag : Option Site) : Option Site :=
  (s.visited.takeWhile fun v => tag.all (·.index < v.index)).find?
    (·.marker.mark.isAtomicNamed name)

/-- Why a close does not match the innermost open tag by name. A close that
aims at an atomic tag gets a fault of its own. -/
def misfit (s : State) (name : String) (close : Site) : Fault :=
  match s.atomicSince name s.openTags.head? with
  | some atomic => .closesAtomic close.describe atomic.describe
  | none => .unmatchedClose close.describe (s.openTags.head?.map Site.describe)

/-- Takes the innermost open tag, before which `outer` were opened, off both
stacks, and lets stylers of its category look back to it. -/
def pop (s : State) (category : Category) (last : Site) (outer : List Site) :
    Except Fault State :=
  let lane := s.lane category
  match lane.openTags with
  | [] => .error (.stacksDisagree last.describe)
  | top :: outer' =>
    if top.index ≠ last.index then .error (.stacksDisagree last.describe)
    else .ok { s with
      openTags := outer
      lanes := s.lanes.set category { lane with openTags := outer', previous := some last } }

/-- A close must have the name and the category of the innermost open tag. The
name is compared first. -/
def closeTag (s : State) (category : Category) (name : String) (close : Site) :
    Except Fault State :=
  match s.openTags with
  | [] => .error (s.misfit name close)
  | last :: outer =>
    match last.marker.mark.tag? with
    | none => .error (.stacksDisagree last.describe)
    | some (category', name') =>
      if name' ≠ name then .error (s.misfit name close)
      else if category' ≠ category then .error (.wrongCategory close.describe last.describe)
      else s.pop category last outer

def grant (s : State) (tag : Site) (className : String) : Except Fault State :=
  if tag.marker.mark.tag?.isSome then .ok { s with grants := ⟨tag.index, className⟩ :: s.grants }
  else .error (.stacksDisagree tag.describe)

def style (s : State) (target : Category) (direction : Direction) (className : String)
    (styler : Site) : Except Fault State :=
  let lane := s.lane target
  match direction with
  | .previous =>
    match lane.previous with
    | some tag => s.grant tag className
    | none => .error (.nothingBefore target styler.describe)
  | .container =>
    match lane.openTags.head? with
    | some tag => s.grant tag className
    | none => .error (.nothingAround target styler.describe)
  | .next =>
    .ok { s with lanes := s.lanes.set target { lane with queued := className :: lane.queued } }

def step (s : State) (site : Site) : Except Fault State :=
  match site.marker.mark with
  | .opening category _ _ => .ok (s.openTag category site)
  | .atomic category _ _ => .ok (s.atomicTag category site)
  | .closing category name => s.closeTag category name site
  | .styler target direction className => s.style target direction className site

def visit (s : State) (site : Site) : State :=
  { s with visited := site :: s.visited }

def leftover? (s : State) : Option Fault :=
  if s.openTags ≠ [] then some (.unclosedTags (s.openTags.reverse.map Site.describe))
  else
    match Category.all.find? fun c => !(s.lane c).openTags.isEmpty with
    | some c => some (.unclosedCategoryTags c ((s.lane c).openTags.reverse.map Site.describe))
    | none =>
      (Category.all.find? fun c => !(s.lane c).queued.isEmpty).map fun c =>
        .classesLeftOver c (s.lane c).queued.reverse

def advance (s : State) : List Site → State × Option Fault
  | [] => (s, none)
  | site :: rest =>
    match (s.visit site).step site with
    | .ok s' => advance s' rest
    | .error fault => (s.visit site, some fault)

def run (s : State) (sites : List Site) : State × Option Fault :=
  match s.advance sites with
  | (s', none) => (s', s'.leftover?)
  | (s', some fault) => (s', some fault)

end State

/-- The classes granted to each of `n` markers, in the order of the grants,
which are given latest first. -/
def received (n : Nat) (grants : List Grant) : Array (List String) :=
  grants.foldl (fun classes g => classes.modify g.tag (g.className :: ·)) (Array.replicate n [])

def handOut (markers : List Marker) (grants : List Grant) : List Marker :=
  let classes := received markers.length grants
  markers.mapIdx fun i m => m.addClasses (classes[i]?.getD [])

def sites (markers : List Marker) : List Site := markers.mapIdx Site.mk

@[simp] theorem sites_concat (markers : List Marker) (m : Marker) :
    sites (markers ++ [m]) = sites markers ++ [⟨markers.length, m⟩] := List.mapIdx_concat

/-- The markers with the classes granted to them, whatever the outcome. -/
structure Result where
  markers : List Marker
  outcome : Except Fault Unit

def verdict : Option Fault → Except Fault Unit
  | none => .ok ()
  | some fault => .error fault

/-- The record of a walk whose stacks drifted apart. Other faults leave none. -/
def driftRecord : Option Fault → List Record
  | some (.stacksDisagree tag) => [.drifted (.stacksDisagree tag)]
  | _ => []

def walk (markers : List Marker) : Logged Result :=
  let (s, fault) := State.run {} (sites markers)
  { value :=
      { markers := handOut markers s.grants
        outcome := verdict fault }
    records := s.visited.reverse.map (Record.visit ·.marker) ++ driftRecord fault }

end DeferredMarkup.Nesting
