import DeferredMarkup.Fault

/-!
Journals. Every stage of a resolution writes records of what it saw, each
with a severity, so that a caller can show those that matter enough. Records
are kept as data, oldest first, beside the value whose computation wrote them.
-/
namespace DeferredMarkup

inductive Severity
  | error
  | warn
  | info
  | debug
  | trace
deriving DecidableEq, Repr

/-- Zero for the most severe. -/
def Severity.rank : Severity → Nat
  | error => 0
  | warn => 1
  | info => 2
  | debug => 3
  | trace => 4

inductive Record
  /-- A placeholder, or their number, does not fit the registry. -/
  | misplaced (fault : Fault)
  /-- All placeholders were read; their offsets, from left to right. -/
  | markings (offsets : List Nat)
  | visit (marker : Marker)
  | drifted (fault : Fault)
  | unwritable (fault : Fault)
  /-- Placeholders were replaced; where they started, from right to left. -/
  | applied (starts : List Nat)
  | aborted (fault : Fault)
  | rejected (fault : Fault)
  | settingsIgnored
deriving DecidableEq, Repr

namespace Record

def severity : Record → Severity
  | misplaced _ => .error
  | markings _ => .debug
  | visit _ => .trace
  | drifted _ => .error
  | unwritable _ => .error
  | applied _ => .debug
  | aborted _ => .error
  | rejected _ => .debug
  | settingsIgnored => .warn

def listed (offsets : List Nat) : String := ", ".intercalate (offsets.map toString)

def message : Record → String
  | misplaced fault => "marker scan: " ++ fault.message
  | markings offsets => s!"{offsets.length} markings: [" ++ listed offsets ++ "]"
  | visit marker => "resolve " ++ marker.describe
  | drifted fault => "marker resolve: " ++ fault.message
  | unwritable fault => "marker rewrite: " ++ fault.message
  | applied starts => s!"applied {starts.length} markers at: " ++ listed starts
  | aborted fault => "marker resolution aborted: " ++ fault.message
  | rejected fault => "marker resolution rejected: " ++ fault.message
  | settingsIgnored => "no boilerplate: stylesheets and target window ignored"

def ofFailure (fault : Fault) : Record :=
  if fault.isInternal then aborted fault else rejected fault

def atLeast (limit : Severity) (records : List Record) : List Record :=
  records.filter fun r => r.severity.rank ≤ limit.rank

end Record

/-- A value with the records written while it was computed, oldest first. -/
structure Logged (α : Type) where
  value : α
  records : List Record

namespace Logged

instance : Monad Logged where
  pure a := ⟨a, []⟩
  bind x f :=
    let y := f x.value
    ⟨y.value, x.records ++ y.records⟩

end Logged

/-- A computation on a text that keeps a journal and may end in a fault, also
after it has changed the text. -/
abbrev Attempt := ExceptT Fault (StateT String Logged)

namespace Attempt

def ofExcept {α : Type} (outcome : Except Fault α) : Attempt α := ExceptT.mk (pure outcome)

def ofLogged {α : Type} (value : Logged α) : Attempt α := ExceptT.lift (StateT.lift value)

end Attempt

end DeferredMarkup
