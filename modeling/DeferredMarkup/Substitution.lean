/-!
Replacing spans of a text. Spans count bytes of UTF-8 and all refer to the
text as it is before anything is replaced. They are replaced one after another,
the last one in the text first, since what stands before a span keeps its place
when the span gives way to a longer or shorter text. This fails when a span is
reversed, or begins or ends inside a character or beyond the text.
-/
namespace DeferredMarkup

/-- The bytes from `start` up to but not including `stop`. -/
structure Span where
  start : Nat
  stop : Nat
deriving DecidableEq, Repr

namespace Span

def isEmpty (s : Span) : Bool := s.stop ≤ s.start

def length (s : Span) : Nat := s.stop - s.start

/-- Whether two spans that are not empty share a byte. -/
def overlaps (a b : Span) : Bool := a.start < b.stop && b.start < a.stop

end Span

structure Replacement where
  span : Span
  text : String
deriving DecidableEq, Repr

namespace Substitution

/-- Cuts a text after its first `n` bytes, if a character ends there. -/
def cut? (n : Nat) (text : String) : Option (String × String) :=
  let cut : String.Pos.Raw := ⟨n⟩
  if String.Pos.Raw.isValid text cut then
    some (String.Pos.Raw.extract text 0 cut, String.Pos.Raw.extract text cut text.rawEndPos)
  else none

def splice? (text : String) (r : Replacement) : Option String := do
  let (front, back) ← cut? r.span.stop text
  let (kept, _) ← cut? r.span.start front
  return kept ++ r.text ++ back

def descending (replacements : List Replacement) : List Replacement :=
  replacements.mergeSort fun a b => b.span.start ≤ a.span.start

/-- Whether no span of a list overlaps the one after it, as is asserted of sorted
replacements before they are carried out. -/
def neighboursApart : List Replacement → Bool
  | a :: b :: rest => !a.span.overlaps b.span && neighboursApart (b :: rest)
  | _ => true

def replace? (replacements : List Replacement) (text : String) : Option String :=
  (descending replacements).foldlM splice? text

end Substitution

end DeferredMarkup
