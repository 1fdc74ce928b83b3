import DeferredMarkup.Marker

/-!
The ways in which a resolution can fail, and their messages. A fault is
internal when the text and its registry do not belong together or a limit is
passed, which no document can cause by itself. The other faults describe a
document whose tags or stylers do not fit together, for its author to read.
-/
namespace DeferredMarkup

/-- Tags, closes and stylers are given as they are described. -/
inductive Fault
  | textTooLong (length limit : Nat)
  | truncatedMarking (offset length : Nat)
  | malformedMarking (offset : Nat) (digits : String)
  | unknownMarker (id : MarkerId) (offset : Nat)
  | locatedTwice (id : MarkerId) (first second : Nat)
  | miscount (markings markers : Nat)
  | neverLocated (id : MarkerId)
  | sentinelWithin (id : MarkerId)
  | idTaken (id : MarkerId)
  | idsExhausted (capacity : Nat)
  | stacksDisagree (tag : String)
  | closesAtomic (close tag : String)
  | unmatchedClose (close : String) (lastOpen : Option String)
  | wrongCategory (close lastOpen : String)
  | nothingBefore (category : Category) (styler : String)
  | nothingAround (category : Category) (styler : String)
  | unclosedTags (tags : List String)
  | unclosedCategoryTags (category : Category) (tags : List String)
  | classesLeftOver (category : Category) (classes : List String)
deriving DecidableEq, Repr

namespace Fault

def isInternal : Fault → Bool
  | textTooLong .. | truncatedMarking .. | malformedMarking .. | unknownMarker ..
  | locatedTwice .. | miscount .. | neverLocated .. | sentinelWithin .. | idTaken ..
  | idsExhausted .. | stacksDisagree .. => true
  | closesAtomic .. | unmatchedClose .. | wrongCategory .. | nothingBefore ..
  | nothingAround .. | unclosedTags .. | unclosedCategoryTags .. | classesLeftOver .. => false

def listed (items : List String) : String := "[" ++ ", ".intercalate items ++ "]"

def message : Fault → String
  | textTooLong length limit => s!"Buffer of {length} bytes exceeds the {limit} byte limit"
  | truncatedMarking offset length =>
    s!"Marking too close to end of output: placeholder at {offset} overruns length {length}"
  | malformedMarking offset digits =>
    s!"Malformed marking at {offset}: '{digits}' is not a 4-digit hex id"
  | unknownMarker id offset => s!"Lost marker with id {id.text} (marking at {offset})"
  | locatedTwice id first second =>
    s!"Marker {id.text} marked twice, at {first} and at {second}"
  | miscount markings markers =>
    s!"Markings/markers mismatch.  {markings} markings found, but there are {markers} markers"
  | neverLocated id => s!"Marker {id.text} was never located in the buffer"
  | sentinelWithin id => s!"Marker {id.text} has a sentinel character in its tag or class name"
  | idTaken id => s!"Marker id {id.text} is already registered"
  | idsExhausted capacity =>
    s!"Marker registry is full: all {capacity} placeholder ids are taken"
  | stacksDisagree tag =>
    s!"Closing tag {tag}, but it is not on the tail of the type-specific tag stack"
  | closesAtomic close tag => s!"Close tag {close} attempted to close atomic tag {tag}."
  | unmatchedClose close lastOpen =>
    s!"Tangled tag nesting.  No open tag name matches close of {close}.  Last open tag is " ++
      lastOpen.getD "none" ++ "."
  | wrongCategory close lastOpen =>
    s!"Tangled tag nesting.  Wrong tag type for close of {close}.  Last open tag is {lastOpen}."
  | nothingBefore category styler => s!"No previous {category.label} tag for Styler {styler}"
  | nothingAround category styler => s!"No parent {category.label} container for Styler {styler}"
  | unclosedTags tags => "Unmatched tag(s) generated: " ++ listed tags
  | unclosedCategoryTags category tags => s!"Unmatched {category.label} tag(s): " ++ listed tags
  | classesLeftOver category classes =>
    s!"Unapplied Styler {category.label} class names: " ++ listed classes

end Fault

end DeferredMarkup
