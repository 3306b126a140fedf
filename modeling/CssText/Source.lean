import CssText.Location.FileUrl
import CssText.Location.Files
import CssText.Parse.Sheet
import CssText.Text.Utf8

/-!
# Sources

Where the text of a style sheet comes from. A location is a path or a file URL; any other
scheme is refused. Files are given as a map from paths to contents, so that opening one is a
question to the map and everything else is a function.
-/

namespace CssText

inductive SourceError where
  | emptyLocation
  | unsupported (location : Bytes)
  | cannotOpen (path : Bytes)
  | unreadable
  deriving DecidableEq

namespace SourceError

/-- The message ends before a zero byte, which a path in it may hold. -/
def message : SourceError → Bytes
  | emptyLocation => ascii "Empty stylesheet location"
  | unsupported location => untilZero (ascii "Unsupported stylesheet location: " ++ location)
  | cannotOpen path => untilZero (ascii "Unable to open file: " ++ path)
  | unreadable => ascii "Failed to read stylesheet source"

end SourceError

namespace Source

/-- A colon before any slash, after more than a drive letter, ends the name of a scheme. -/
def hasScheme (location : Bytes) : Bool :=
  let name := location.takeWhile fun b => b ≠ Byte.colon
  name.length < location.length && 1 < name.length && !name.contains Byte.slash &&
    !name.contains Byte.backslash

def path (location : Bytes) : Except SourceError Bytes :=
  if location.isEmpty then
    .error .emptyLocation
  else
    match FileUrl.path? location with
    | some path => .ok path
    | none => if hasScheme location then .error (.unsupported location) else .ok location

def read : Contents → Except SourceError Bytes
  | none => .error .unreadable
  | some bytes => .ok (Utf8.decode bytes)

def load (files : Files) (location : Bytes) : Except SourceError Bytes :=
  match path location with
  | .error e => .error e
  | .ok path =>
      match files path with
      | none => .error (.cannotOpen path)
      | some contents => read contents

end Source

namespace Sheet

def readContents (limit : Nat) (contents : Contents) : Except SourceError (Parsed Sheet) :=
  (Source.read contents).map (Sheet.parse limit)

def load (limit : Nat) (files : Files) (location : Bytes) :
    Except SourceError (Parsed Sheet) :=
  (Source.load files location).map (Sheet.parse limit)

end Sheet
end CssText
