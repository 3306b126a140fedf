import CssText.Bytes

/-!
# Files

Opening a file is a question to a map from paths to contents. Such a map can be given by
the files below a working directory. A path is then followed name by name: empty names and
a single dot stay where they are, two dots lead up, and any other name has to exist. A
directory can be opened like a file and delivers no bytes.
-/

namespace CssText

/-- The bytes that an open file or stream delivers, or nothing when reading it fails. -/
abbrev Contents := Option Bytes

abbrev Files := Bytes → Option Contents

namespace Files

/-!
## Paths
-/

/-- The names between the slashes of a path, empty ones included. -/
def names (path : Bytes) : List Bytes :=
  path.foldr (fun b names =>
    match names with
    | [] => [[b]]
    | name :: rest => if b = Byte.slash then [] :: name :: rest else (b :: name) :: rest) [[]]

structure Entry where
  path : List Bytes
  bytes : Bytes

def entry (path bytes : Bytes) : Entry :=
  { path := (names path).filter fun name => !name.isEmpty, bytes }

inductive Place where
  | root
  /-- A directory that contains the working directory. -/
  | above
  /-- A directory below the working directory, by its names from the innermost on. -/
  | below (names : List Bytes)
  | file (bytes : Bytes)

/-!
## Following a path
-/

def child? (entries : List Entry) (path : List Bytes) : Option Place :=
  match entries.find? fun e => e.path == path with
  | some e => some (.file e.bytes)
  | none =>
      if entries.any fun e => path.isPrefixOf e.path then some (.below path.reverse) else none

def step? (entries : List Entry) (place : Place) (name : Bytes) : Option Place :=
  match place with
  | .file _ => none
  | .root => if name.isEmpty || name = ascii "." || name = ascii ".." then some .root else none
  | .above => if name.isEmpty || name = ascii "." || name = ascii ".." then some .above else none
  | .below inner =>
      if name.isEmpty || name = ascii "." then some place
      else if name = ascii ".." then
        match inner with
        | [] => some .above
        | _ :: outer => some (.below outer)
      else
        child? entries (inner.reverse ++ [name])

def follow? (entries : List Entry) : Place → List Bytes → Option Place
  | place, [] => some place
  | place, name :: rest =>
      match step? entries place name with
      | some next => follow? entries next rest
      | none => none

/-- A slash in front begins at the root, which is not known any further. -/
def beginning (path : Bytes) : Place :=
  if path.head? = some Byte.slash then .root else .below []

def placeContents : Place → Contents
  | .file bytes => some bytes
  | _ => some []

/-- The files that can be opened when exactly these are below the working directory. -/
def ofEntries (entries : List Entry) : Files := fun path =>
  let path := untilZero path
  if path.isEmpty then none
  else (follow? entries (beginning path) (names path)).map placeContents

end Files
end CssText
