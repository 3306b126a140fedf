import CssText.Bytes

/-!
# Diagnostics

What a run tells its user: events of three severities, each with the part of the program it
comes from and, if it is about a text, the place in it.
-/

namespace CssText

inductive Severity where
  | info
  | warning
  | error
  deriving DecidableEq

namespace Severity

def all : List Severity :=
  [info, warning, error]

def name : Severity → Bytes
  | info => ascii "info"
  | warning => ascii "warning"
  | error => ascii "error"

def rank : Severity → Nat
  | info => 0
  | warning => 1
  | error => 2

end Severity

structure Event where
  severity : Severity
  component : Bytes := []
  stage : Bytes := []
  message : Bytes := []
  /-- The document the event is about, if any. -/
  source : Bytes := []
  /-- Zero when the event has no place. -/
  line : Nat := 0
  position : Nat := 0
  deriving DecidableEq

namespace Event

def placeText (e : Event) : Bytes :=
  if e.source.isEmpty then
    if e.line = 0 then [] else ascii "line " ++ decimal e.line ++ ascii ": "
  else
    e.source ++ (if e.line = 0 then [] else Byte.colon :: decimal e.line) ++ ascii ": "

def text (e : Event) : Bytes :=
  e.placeText ++ [Byte.leftBracket] ++ e.severity.name ++ [Byte.rightBracket] ++
    (if e.component.isEmpty then [] else Byte.space :: e.component) ++
    (if e.stage.isEmpty then [] else Byte.slash :: e.stage) ++ ascii ": " ++ e.message

end Event
end CssText
