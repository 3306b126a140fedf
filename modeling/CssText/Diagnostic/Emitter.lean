import CssText.Diagnostic
import CssText.Parse.Issue

/-!
# The emitter of diagnostics

An emitter keeps the events that are severe enough and passes each of them to its
observers, in the order in which they were added. Observers are known by number; what they
were told stays in the record of deliveries also when the events are cleared.
-/

namespace CssText

structure Emitter where
  /-- The events that were kept, the latest first. -/
  kept : List Event := []
  observers : Nat := 0
  /-- Which observer was told what, the latest first. -/
  told : List (Nat × Event) := []
  source : Bytes := []
  minSeverity : Severity := .info

namespace Emitter

def events (e : Emitter) : List Event :=
  e.kept.reverse

def deliveries (e : Emitter) : List (Nat × Event) :=
  e.told.reverse

/-- Keep an event and tell every observer, the first one first. -/
def record (e : Emitter) (event : Event) : Emitter :=
  { e with
    kept := event :: e.kept
    told := ((List.range e.observers).map fun k => (k, event)).reverse ++ e.told }

/-- Events below the least severity are dropped. The current source is added to the others. -/
def emit (e : Emitter) (event : Event) : Emitter :=
  if event.severity.rank < e.minSeverity.rank then e
  else e.record { event with source := e.source }

def setSource (e : Emitter) (source : Bytes) : Emitter :=
  { e with source }

def setMinSeverity (e : Emitter) (minSeverity : Severity) : Emitter :=
  { e with minSeverity }

def addObserver (e : Emitter) : Emitter :=
  { e with observers := e.observers + 1 }

def clear (e : Emitter) : Emitter :=
  { e with kept := [] }

def size (e : Emitter) : Nat :=
  e.kept.length

def eventsBySeverity (e : Emitter) (severity : Severity) : List Event :=
  e.events.filter fun event => event.severity = severity

def eventsByComponent (e : Emitter) (component : Bytes) : List Event :=
  e.events.filter fun event => event.component = component

def deliveriesTo (e : Emitter) (observer : Nat) : List Event :=
  e.deliveries.filterMap fun d => if d.1 = observer then some d.2 else none

/-!
## Reporting parse errors
-/

def grammarComponent : Bytes :=
  ascii "css"

/-- A parse error is only a warning: something was read in spite of it. -/
def warningOf (stage : Bytes) (error : ParseError) : Event :=
  { severity := .warning
    component := grammarComponent
    stage
    message := error.message
    line := error.line
    position := error.position }

def reportErrors (e : Emitter) (stage : Bytes) (errors : List ParseError) : Emitter :=
  errors.foldl (fun e error => e.emit (warningOf stage error)) e

end Emitter
end CssText
