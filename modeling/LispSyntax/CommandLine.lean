import LispSyntax.CommandLine.Arguments
import LispSyntax.CommandLine.Folder
import LispSyntax.Diagnostic.Snippet
import LispSyntax.Registry.Core
import LispSyntax.Registry.File
import LispSyntax.Token.Stream
import LispSyntax.Workspace

/-! # Command line

What the program prints, as a function of its arguments and of the files it can read. The registry is
loaded before any other file; a file that cannot be read ends the run, and what was printed before stays.
-/

namespace LispSyntax

namespace CommandLine

abbrev Files := String → Except PathProblem ByteArray

structure Output where
  status : Nat
  stdout : String
  stderr : String
deriving DecidableEq, Repr

/-- How a run ends: a usage error prints nothing that is fixed here. -/
inductive Outcome where
  | usage
  | done (output : Output)
deriving DecidableEq, Repr

inductive Failure where
  | unreadable (path : String) (problem : PathProblem)
  | notText (path : String)
  | malformedRegistry (path : String)
  | invalidRegistry (path : String) (problem : Registry.Problem)
deriving DecidableEq, Repr

def indented (text : String) : String :=
  let margin := "    "
  margin ++ String.join (text.toList.map fun c => c.toString ++ if c = '\n' then margin else "")

def explain (summary cause : String) : String :=
  "Error: " ++ summary ++ "\n\nCaused by:\n" ++ indented cause ++ "\n"

def Failure.message : Failure → String
  | unreadable path problem => explain ("failed to read `" ++ path ++ "`") problem.message
  | notText path => explain ("failed to read `" ++ path ++ "`") "stream did not contain valid UTF-8"
  | malformedRegistry path => "Error: `" ++ path ++ "` is not a builtin registry"
  | invalidRegistry path problem =>
    explain ("invalid builtin registry `" ++ path ++ "`") problem.message

def readText (files : Files) (path : String) : Except Failure Text :=
  match files path with
  | .error problem => .error (.unreadable path problem)
  | .ok bytes =>
    match String.fromUTF8? bytes with
    | some text => .ok text.toList
    | none => .error (.notText path)

def loadRegistry (files : Files) : Option String → Except Failure Registry
  | none => .ok Registry.core
  | some path => do
    let text ← readText files path
    match Registry.File.read? text with
    | none => .error (.malformedRegistry path)
    | some (symbols, functions) =>
      (Registry.ofNames symbols functions).mapError (Failure.invalidRegistry path)

namespace Output

def none : Output :=
  ⟨0, "", ""⟩

def print (o : Output) (text : String) : Output :=
  { o with stdout := o.stdout ++ text }

def complain (o : Output) (text : String) : Output :=
  { o with stderr := o.stderr ++ text }

def exit (o : Output) (ok : Bool) : Output :=
  { o with status := if ok then 0 else 1 }

def fail (o : Output) (f : Failure) : Output :=
  (o.complain f.message).exit false

end Output

def shortLine (path : String) (place : LineCol) (d : Diagnostic) : String :=
  path ++ ":" ++ toString (place.line + 1) ++ ":" ++ toString (place.col + 1) ++ ": " ++ d.title
    ++ "\n"

def printDiagnostic (short : Bool) (f : SourceFile) (o : Output) (d : LineCol × Diagnostic) :
    Output :=
  if short then o.print (shortLine f.path d.1 d.2)
  else o.complain (d.2.snippet .styled f.path f.text ++ "\n")

/-- Checks files one after the other; `failed` of `total` have diagnostics so far. -/
def checkFiles (files : Files) (registry : Registry) (short : Bool) (total : Nat) :
    List String → Nat → Output → Except Fault Output
  | [], failed, o =>
    .ok <| if failed = 0 then o.exit true
      else (o.complain (toString failed ++ " of " ++ toString total
        ++ " files have errors\n")).exit false
  | path :: paths, failed, o =>
    match readText files path with
    | .error failure => .ok (o.fail failure)
    | .ok text => do
      let file : SourceFile := ⟨path, text, registry⟩
      let diagnostics ← file.check
      checkFiles files registry short total paths
        (if diagnostics.isEmpty then failed else failed + 1)
        (diagnostics.foldl (printDiagnostic short file) o)

def listTree (text : Text) (registry : Registry) : Except Fault Output := do
  let p ← parse text registry
  return (Output.none.print (← p.dump)).exit p.isOk

def tokenLine (t : Token) : String :=
  t.kind.label ++ "@" ++ t.span.render ++ " " ++ Text.quoted t.text ++ "\n"

def listTokens (text : Text) (registry : Registry) : Output :=
  let (tokens, diagnostics) := Token.tokenize text registry
  let printed := Output.none.print (String.join (tokens.map tokenLine))
  (printed.complain (String.join (diagnostics.map fun d => d.render ++ "\n"))).exit
    diagnostics.isEmpty

def runCommand (files : Files) (registry : Registry) : Command → Except Fault Output
  | .check paths short => checkFiles files registry short paths.length paths 0 Output.none
  | .tree path =>
    match readText files path with
    | .error failure => .ok (Output.none.fail failure)
    | .ok text => listTree text registry
  | .tokens path =>
    match readText files path with
    | .error failure => .ok (Output.none.fail failure)
    | .ok text => .ok (listTokens text registry)

def version : String :=
  "convex 0.1.0\n"

def run (args : List String) (files : Files) : Except Fault Outcome :=
  match request args with
  | .usage => .ok .usage
  | .version => .ok (.done (Output.none.print version))
  | .run options => do
    let output ← match loadRegistry files options.builtins with
      | .error failure => .ok (Output.none.fail failure)
      | .ok registry => runCommand files registry options.command
    return .done output

end CommandLine

end LispSyntax
