import DeferredMarkup.Html
import DeferredMarkup.Journal

/-!
Pages. A template has a point for the content and may have one for headers,
each with two spellings. The headers, one line for every stylesheet and one
for the target window, go in first and the content after them, one spelling
after another, so that a spelling whose turn is still to come is replaced in
inserted text as well. In the end newlines become the line ending of the page.
Replacing a spelling goes from left to right and passes over what has been put
in.
-/
namespace DeferredMarkup

namespace Occurrence

def occurs (word : List Char) : List Char → Bool
  | [] => word.isEmpty
  | c :: rest => word.isPrefixOf (c :: rest) || occurs word rest

/-- Replaces a word in a text of which `skip` more characters belong to the
occurrence replaced last. The result so far comes along, latest first. -/
def replaceFrom (word inserted done : List Char) : Nat → List Char → List Char
  | _, [] => done.reverse
  | skip + 1, _ :: rest => replaceFrom word inserted done skip rest
  | 0, c :: rest =>
    if word.isPrefixOf (c :: rest) then
      replaceFrom word inserted (inserted.reverse ++ done) (word.length - 1) rest
    else replaceFrom word inserted (c :: done) 0 rest

def replaceAll (word inserted text : List Char) : List Char :=
  replaceFrom word inserted [] 0 text

end Occurrence

namespace Page

def contentPoints : List String := ["$(pageContent)", "$(!pageContent)"]

def headersPoints : List String := ["$(pageHeaders)", "$(!pageHeaders)"]

inductive Fault
  | missingContentPoint
  | missingHeadersPoint
deriving DecidableEq, Repr

def Fault.message : Fault → String
  | missingContentPoint => "Boilerplate contains neither $(pageContent) nor $(!pageContent)"
  | missingHeadersPoint =>
    "Style-sheets or target window set, but boilerplate has no 'pageHeaders' insertion-point"

structure Settings where
  stylesheets : List String := []
  targetWindow : Option String := none
  lineEnding : String := "\n"

namespace Settings

def haveHeaders (s : Settings) : Bool := !s.stylesheets.isEmpty || s.targetWindow.isSome

end Settings

def ordinal (n : Nat) : String := if n < 10 then "0" ++ toString n else toString n

/-- The line of the stylesheet that stands at `index`, counted from zero. -/
def stylesheetLine (index : Nat) (href : String) : String :=
  "<link id=\"auto" ++ ordinal (index + 1) ++
    "\" class=\"auto\" rel=\"stylesheet\" type=\"text/css\" href=\"" ++ Html.escape href ++
      "\" />\n"

def targetLine (target : String) : String := "<base target=\"" ++ Html.escape target ++ "\">\n"

def headers (s : Settings) : String :=
  String.join (s.stylesheets.mapIdx stylesheetLine) ++ (s.targetWindow.map targetLine).getD ""

def hasPoint (points : List String) (text : String) : Bool :=
  points.any fun point => Occurrence.occurs point.toList text.toList

/-- Replaces the spellings of a point, one after another. -/
def fill (points : List String) (inserted text : String) : String :=
  points.foldl
    (fun text point =>
      String.ofList (Occurrence.replaceAll point.toList inserted.toList text.toList))
    text

/-- Replaces newlines. The empty line ending stands for the newline itself. -/
def withLineEnding (ending text : String) : String :=
  if ending = "" ∨ ending = "\n" then text
  else String.ofList (text.toList.flatMap fun c => if c = '\n' then ending.toList else [c])

/-- The line endings of a fragment that is used without a template. Settings
that ask for header lines cannot be met. -/
def ofFragment (fragment : String) (s : Settings) : Logged String :=
  ⟨withLineEnding s.lineEnding fragment, if s.haveHeaders then [.settingsIgnored] else []⟩

end Page

structure Template where
  text : String
deriving DecidableEq, Repr

namespace Template

/-- Takes a text with a content point as a template. The point must be there
before the carriage returns are taken out. -/
def ofText (raw : String) : Except Page.Fault Template :=
  if Page.hasPoint Page.contentPoints raw then
    .ok ⟨String.ofList (raw.toList.filter (· != '\r'))⟩
  else .error .missingContentPoint

def withHeaders (t : Template) (s : Page.Settings) : Except Page.Fault String :=
  if Page.hasPoint Page.headersPoints t.text then
    .ok (Page.fill Page.headersPoints (Page.headers s) t.text)
  else if s.haveHeaders then .error .missingHeadersPoint
  else .ok t.text

def render (t : Template) (fragment : String) (s : Page.Settings) : Except Page.Fault String :=
  (t.withHeaders s).map fun text =>
    Page.withLineEnding s.lineEnding (Page.fill Page.contentPoints fragment text)

end Template

end DeferredMarkup
