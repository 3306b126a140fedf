import CssText.Command

/-!
# The program

The outermost layer: fetch the arguments, the standard input and the file that they ask
for, run the command, and write out what it returned.
-/

namespace CssText
namespace Main

/-- All bytes that are still delivered. Where reading breaks off, the text ends. -/
partial def drain (next : IO ByteArray) (read : ByteArray) : IO ByteArray := do
  let chunk ← try next catch _ => pure ByteArray.empty
  if chunk.isEmpty then pure read else drain next (read ++ chunk)

def contentsOf (next : IO ByteArray) : IO Contents := do
  let read ← drain next ByteArray.empty
  pure (some read.toList)

def openFile (path : Bytes) : IO (Option Contents) := do
  match String.fromUTF8? (ByteArray.mk path.toArray) with
  | none => pure none
  | some name =>
      try
        let handle ← IO.FS.Handle.mk name .read
        some <$> contentsOf (handle.read 65536)
      catch _ =>
        pure none

def files (arguments : List Bytes) : IO Files := do
  match Command.fileToOpen? arguments with
  | none => pure fun _ => none
  | some path =>
      let contents ← openFile path
      pure fun asked => if asked = path then contents else none

def readsStdin (arguments : List Bytes) : Bool :=
  match Command.request arguments with
  | .process _ _ location => Command.isStdin location
  | _ => false

def run (arguments : List Bytes) : IO UInt32 := do
  let stdin ←
    if readsStdin arguments then contentsOf ((← IO.getStdin).read 65536)
    else pure none
  let outcome := Command.run arguments stdin (← files arguments)
  (← IO.getStdout).write (ByteArray.mk outcome.stdout.toArray)
  (← IO.getStderr).write (ByteArray.mk outcome.stderr.toArray)
  pure (UInt32.ofNat outcome.exitCode)

end Main
end CssText

def main (arguments : List String) : IO UInt32 :=
  CssText.Main.run (arguments.map fun argument => argument.toUTF8.toList)
