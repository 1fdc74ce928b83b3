import DeferredMarkup.Placeholder

/-!
Markers stand for the decisions a renderer puts off while it writes text: a
tag that opens, a tag that stands alone, a tag that closes, or a styler, which
gives a class name to some other tag. Each belongs to one of three categories.
Tags of all categories nest in one another, but a styler sees only tags of its
own. Markers are ordered by where their placeholders stand, and those whose
place is not known yet come last.
-/
namespace DeferredMarkup

inductive Category
  | jcx
  | block
  | inline
deriving DecidableEq, Repr

namespace Category

/-- All categories, in the order in which leftovers are looked for. -/
def all : List Category := [jcx, block, inline]

def index : Category → Nat
  | jcx => 0
  | block => 1
  | inline => 2

theorem eq_of_index_eq {c c' : Category} (h : c.index = c'.index) : c = c' := by
  cases c <;> cases c' <;> simp_all [index]

def label : Category → String
  | jcx => "JCX"
  | block => "Block"
  | inline => "Inline"

end Category

/-- Where a styler looks for its tag: back to the latest one, around itself to
the innermost one that is open, or ahead to the next one to appear. -/
inductive Direction
  | previous
  | container
  | next
deriving DecidableEq, Repr

def Direction.label : Direction → String
  | previous => "previous"
  | container => "container"
  | next => "next"

/-- What a marker stands for. Only tags have classes. -/
inductive Mark
  | opening (category : Category) (name : String) (classes : List String)
  | atomic (category : Category) (name : String) (classes : List String)
  | closing (category : Category) (name : String)
  | styler (target : Category) (direction : Direction) (className : String)
deriving DecidableEq, Repr

namespace Mark

/-- The category of a tag or close, and the category a styler aims at. -/
def category : Mark → Category
  | opening category _ _ => category
  | atomic category _ _ => category
  | closing category _ => category
  | styler target _ _ => target

def classes? : Mark → Option (List String)
  | opening _ _ classes => some classes
  | atomic _ _ classes => some classes
  | closing _ _ => none
  | styler _ _ _ => none

def tag? : Mark → Option (Category × String)
  | opening category name _ => some (category, name)
  | atomic category name _ => some (category, name)
  | closing _ _ => none
  | styler _ _ _ => none

def addClasses (added : List String) : Mark → Mark
  | opening category name classes => opening category name (classes ++ added)
  | atomic category name classes => atomic category name (classes ++ added)
  | closing category name => closing category name
  | styler target direction className => styler target direction className

/-- All strings a mark carries: the name first, then classes, or for a styler
the class it gives away. -/
def strings : Mark → List String
  | opening _ name classes => name :: classes
  | atomic _ name classes => name :: classes
  | closing _ name => [name]
  | styler _ _ className => [className]

def isAtomicNamed (name : String) : Mark → Bool
  | atomic _ name' _ => name' == name
  | _ => false

def describe : Mark → String
  | opening category name _ => category.label ++ " <" ++ name ++ ">"
  | atomic category name _ => category.label ++ " <" ++ name ++ " />"
  | closing category name => category.label ++ " </" ++ name ++ ">"
  | styler target direction className =>
    target.label ++ " " ++ direction.label ++ " '" ++ className ++ "'"

end Mark

structure Marker where
  id : MarkerId
  offset : Option Nat
  mark : Mark
deriving DecidableEq, Repr

namespace Marker

/-- What messages say of a marker. Classes are left out, so that a marker is
described in the same way before and after stylers have reached it. -/
def describe (m : Marker) : String :=
  m.mark.describe ++ " #" ++ m.id.text ++
    match m.offset with
    | none => ""
    | some offset => "@" ++ toString offset

def placedAt (m : Marker) (offset : Nat) : Marker := { m with offset := some offset }

def addClasses (added : List String) (m : Marker) : Marker :=
  { m with mark := m.mark.addClasses added }

/-- Ascending offsets, markers without one last, equal offsets by id. -/
def order (a b : Marker) : Ordering :=
  match a.offset, b.offset with
  | some x, some y => (compare x y).then (compare a.id b.id)
  | some _, none => .lt
  | none, some _ => .gt
  | none, none => compare a.id b.id

def inDocumentOrder (markers : List Marker) : List Marker :=
  markers.mergeSort fun a b => (order a b).isLE

end Marker

end DeferredMarkup
