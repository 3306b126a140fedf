import CssText.Diagnostic.Emitter
import CssText.Source

/-!
# The command

The program reads one style sheet and prints what it understood of it; what it complains
about goes to the error stream. `Command.run` is the whole program as a function of its
arguments, its input and the files there are.
-/

namespace CssText
namespace Command

def programName : Bytes :=
  ascii "quill_css"

def versionText : Bytes :=
  programName ++ ascii " 0.1.0\n"

def usageText : Bytes :=
  ascii "usage: " ++ programName ++ ascii " [--declarations] [--quiet] <file|file-URL|->\n"

/-!
## Arguments
-/

structure Options where
  declarationsOnly : Bool := false
  quiet : Bool := false
  location : Option Bytes := none

inductive Request where
  | help
  | version
  | badOption (argument : Bytes)
  | badUsage
  | process (declarationsOnly quiet : Bool) (location : Bytes)

def isHelp (argument : Bytes) : Bool :=
  argument = ascii "-h" || argument = ascii "--help"

def isVersion (argument : Bytes) : Bool :=
  argument = ascii "-V" || argument = ascii "--version"

/-- A lone hyphen is no option: it stands for the standard input. -/
def isOption (argument : Bytes) : Bool :=
  1 < argument.length && argument.head? = some Byte.hyphen

/-- Take the arguments one by one; the first that is wrong decides. -/
def collect (options : Options) : List Bytes → Request
  | [] =>
      match options.location with
      | some location => .process options.declarationsOnly options.quiet location
      | none => .badUsage
  | argument :: rest =>
      if argument = ascii "--declarations" then
        collect { options with declarationsOnly := true } rest
      else if argument = ascii "--quiet" then
        collect { options with quiet := true } rest
      else if isOption argument then
        .badOption argument
      else if options.location.isSome then
        .badUsage
      else
        collect { options with location := some argument } rest

/-- Help and version are asked for alone. -/
def request : List Bytes → Request
  | [argument] =>
      if isHelp argument then .help
      else if isVersion argument then .version
      else collect {} [argument]
  | arguments => collect {} arguments

/-!
## Running
-/

structure Outcome where
  exitCode : Nat
  stdout : Bytes := []
  stderr : Bytes := []

def isStdin (location : Bytes) : Bool :=
  location = [Byte.hyphen]

def input (stdin : Contents) (files : Files) (location : Bytes) : Except SourceError Bytes :=
  if isStdin location then Source.read stdin else Source.load files location

def emitter (quiet : Bool) (location : Bytes) : Emitter :=
  { source := if isStdin location then ascii "<stdin>" else location
    minSeverity := if quiet then .error else .info
    observers := 1 }

def errorText (e : Emitter) : Bytes :=
  (e.deliveriesTo 0).flatMap fun event => event.text ++ [Byte.newline]

def normalize (declarationsOnly : Bool) (css : Bytes) : Bytes × Bytes × List ParseError :=
  if declarationsOnly then
    let parsed := Declaration.parseList defaultLimit css
    (Declaration.listText parsed.value, ascii "declarations", parsed.errors)
  else
    let parsed := Sheet.parse defaultLimit css
    (Sheet.text parsed.value, ascii "stylesheet", parsed.errors)

def loadFailure (e : SourceError) : Event :=
  { severity := .error, component := ascii "source", stage := ascii "load", message := e.message }

def summary (warnings : Nat) : Event :=
  { severity := .info
    component := Emitter.grammarComponent
    stage := ascii "summary"
    message := decimal warnings ++ ascii " parse error(s)" }

def process (stdin : Contents) (files : Files) (declarationsOnly quiet : Bool)
    (location : Bytes) : Outcome :=
  let start := emitter quiet location
  match input stdin files location with
  | .error e => { exitCode := 1, stderr := errorText (start.emit (loadFailure e)) }
  | .ok css =>
      let (text, stage, errors) := normalize declarationsOnly css
      let reported := start.reportErrors stage errors
      let done := reported.emit (summary (reported.eventsBySeverity .warning).length)
      { exitCode := 0, stdout := text, stderr := errorText done }

def run (arguments : List Bytes) (stdin : Contents) (files : Files) : Outcome :=
  match request arguments with
  | .help => { exitCode := 0, stdout := usageText }
  | .version => { exitCode := 0, stdout := versionText }
  | .badOption argument =>
      { exitCode := 2, stderr := ascii "Unknown option: '" ++ argument ++ ascii "'\n" ++ usageText }
  | .badUsage => { exitCode := 2, stderr := usageText }
  | .process declarationsOnly quiet location =>
      process stdin files declarationsOnly quiet location

/-- The file that a run with these arguments opens, if it opens one. -/
def fileToOpen? (arguments : List Bytes) : Option Bytes :=
  match request arguments with
  | .process _ _ location =>
      if isStdin location then none else (Source.path location).toOption
  | _ => none

end Command
end CssText
