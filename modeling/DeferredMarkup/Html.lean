import DeferredMarkup.Marker

/-!
Markup text. Names and classes are escaped for a quoted attribute: the
ampersand, both angle brackets and the double quote become entities, and an
entity that is there already is escaped again. A tag with classes has one
class attribute, a close has none, and a styler leaves no text. The same
markup is written piece by piece behind what a writer already holds.
-/
namespace DeferredMarkup

namespace Html

def escapeChar : Char → List Char
  | '&' => ['&', 'a', 'm', 'p', ';']
  | '<' => ['&', 'l', 't', ';']
  | '>' => ['&', 'g', 't', ';']
  | '"' => ['&', 'q', 'u', 'o', 't', ';']
  | c => [c]

def escape (s : String) : String := String.ofList (s.toList.flatMap escapeChar)

/-- The class attribute with the blank before it, or nothing. -/
def classAttribute (classes : List String) : String :=
  if classes = [] then "" else " class=\"" ++ " ".intercalate (classes.map escape) ++ "\""

def openTag (name : String) (classes : List String) : String :=
  "<" ++ escape name ++ classAttribute classes ++ ">"

def atomicTag (name : String) (classes : List String) : String :=
  "<" ++ escape name ++ classAttribute classes ++ " />"

def closeTag (name : String) : String := "</" ++ escape name ++ ">"

structure Writer where
  text : String := ""

namespace Writer

def write (w : Writer) (s : String) : Writer := ⟨w.text ++ s⟩

def isEmpty (w : Writer) : Bool := w.text.isEmpty

def clear (_ : Writer) : Writer := {}

def writeEscaped (w : Writer) (s : String) : Writer := w.write (escape s)

def tagHead (w : Writer) (name : String) : List String → Writer
  | [] => (w.write "<").writeEscaped name
  | first :: rest =>
    let head := ((w.write "<").writeEscaped name).write " class=\""
    (rest.foldl (fun w c => (w.write " ").writeEscaped c) (head.writeEscaped first)).write "\""

def openTag (w : Writer) (name : String) (classes : List String) : Writer :=
  (w.tagHead name classes).write ">"

def atomicTag (w : Writer) (name : String) (classes : List String) : Writer :=
  (w.tagHead name classes).write " />"

def closeTag (w : Writer) (name : String) : Writer :=
  ((w.write "</").writeEscaped name).write ">"

def mark (w : Writer) : Mark → Writer
  | .opening _ name classes => w.openTag name classes
  | .atomic _ name classes => w.atomicTag name classes
  | .closing _ name => w.closeTag name
  | .styler .. => w

@[simp] theorem text_write (w : Writer) (s : String) : (w.write s).text = w.text ++ s := rfl

@[simp] theorem text_clear (w : Writer) : w.clear.text = "" := rfl

end Writer

end Html

/-- The text that takes the place of a mark. -/
def Mark.html : Mark → String
  | opening _ name classes => Html.openTag name classes
  | atomic _ name classes => Html.atomicTag name classes
  | closing _ name => Html.closeTag name
  | styler .. => ""

end DeferredMarkup
