/-!
Marker ids, and placeholders as they stand in a text: a sentinel character,
which the text must not use for anything else, and the four hexadecimal digits
of an id. Ids are written with capital letters and read in either case, and
nothing but four such digits is read as an id. A marking is one sentinel of a
text, with its byte offset and what the four bytes after it hold. Markings are
looked for from left to right, and behind an id the search goes on after its
digits.
-/
namespace DeferredMarkup

abbrev MarkerId := UInt16

namespace MarkerId

def count : Nat := 65536

def hexDigit (d : Nat) : Char := (Nat.digitChar d).toUpper

def hex (id : MarkerId) : List Char :=
  [hexDigit (id.toNat / 4096), hexDigit (id.toNat / 256 % 16),
    hexDigit (id.toNat / 16 % 16), hexDigit (id.toNat % 16)]

def text (id : MarkerId) : String := String.ofList id.hex

def hexValue? (c : Char) : Option Nat :=
  if '0'.toNat ≤ c.toNat ∧ c.toNat ≤ '9'.toNat then some (c.toNat - '0'.toNat)
  else if 'a'.toNat ≤ c.toNat ∧ c.toNat ≤ 'f'.toNat then some (c.toNat - 'a'.toNat + 10)
  else if 'A'.toNat ≤ c.toNat ∧ c.toNat ≤ 'F'.toNat then some (c.toNat - 'A'.toNat + 10)
  else none

def ofHex? : List Char → Option MarkerId
  | [a, b, c, d] => do
    let a ← hexValue? a
    let b ← hexValue? b
    let c ← hexValue? c
    let d ← hexValue? d
    return .ofNat (a * 4096 + b * 256 + c * 16 + d)
  | _ => none

end MarkerId

/-- The character that starts every placeholder and stands nowhere else. -/
def sentinel : Char := '\x1a'

namespace Placeholder

/-- The bytes of a placeholder: a sentinel and four digits, one byte each. -/
def width : Nat := 5

def text (id : MarkerId) : String := String.ofList (sentinel :: id.hex)

end Placeholder

/-- What follows a sentinel: an id, four bytes that are not one, or less than
four bytes. -/
inductive Reading
  | id (id : MarkerId)
  | malformed (digits : String)
  | truncated
deriving DecidableEq, Repr

/-- How many characters the search passes over: the digits of an id. -/
def Reading.length : Reading → Nat
  | id _ => 4
  | malformed _ => 0
  | truncated => 0

structure Marking where
  offset : Nat
  reading : Reading
deriving DecidableEq, Repr

namespace Marking

/-- The first `n` bytes of a text as characters, if it has so many. When the
last of these bytes cuts a character, the replacement character stands for
the part that is left of it. -/
def window? : Nat → List Char → Option (List Char)
  | 0, _ => some []
  | _ + 1, [] => none
  | n + 1, c :: rest =>
    if c.utf8Size ≤ n + 1 then (window? (n + 1 - c.utf8Size) rest).map (c :: ·)
    else some ['\ufffd']

def read (rest : List Char) : Reading :=
  match window? 4 rest with
  | none => .truncated
  | some digits =>
    match MarkerId.ofHex? digits with
    | some id => .id id
    | none => .malformed (String.ofList digits)

/-- Collects the markings of a text that starts at `offset` and of which the
first `skip` characters belong to the marking found last. Those found to the
left of it come along, latest first. -/
def collect (offset : Nat) (found : List Marking) : Nat → List Char → List Marking
  | _, [] => found.reverse
  | skip + 1, c :: rest => collect (offset + c.utf8Size) found skip rest
  | 0, c :: rest =>
    if c = sentinel then
      let reading := read rest
      collect (offset + c.utf8Size) (⟨offset, reading⟩ :: found) reading.length rest
    else collect (offset + c.utf8Size) found 0 rest

def ofText (text : List Char) : List Marking := collect 0 [] 0 text

end Marking

end DeferredMarkup
