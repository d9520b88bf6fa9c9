import LispSyntax.CommandLine

/-! # The program

Reads the files that the arguments name, runs the command line on them and prints what it says.
-/

namespace LispSyntax

def readPath (path : String) : IO (Except CommandLine.PathProblem ByteArray) := do
  try
    return .ok (← IO.FS.readBinFile path)
  catch
    | .inappropriateType none .. => return .error .isFolder
    | .inappropriateType .. => return .error .notFolder
    | .invalidArgument .. => return .error .nameTooLong
    | _ => return .error .missing

def CommandLine.Options.paths (o : CommandLine.Options) : List String :=
  let inputs := match o.command with
    | .check paths _ => paths
    | .tree path | .tokens path => [path]
  o.builtins.toList ++ inputs

/-- What a request reads, by path. -/
def loadFiles : CommandLine.Request → IO (List (String × Except CommandLine.PathProblem ByteArray))
  | .run options => options.paths.mapM fun path => do return (path, ← readPath path)
  | _ => return []

end LispSyntax

open LispSyntax in
def main (args : List String) : IO UInt32 := do
  let files ← loadFiles (CommandLine.request args)
  match CommandLine.run args fun path => (files.lookup path).getD (.error .missing) with
  | .error _ => return 101
  | .ok .usage =>
    IO.eprintln "usage: convex [--builtins FILE] (check [--short] FILE... | tree FILE | tokens FILE)"
    return 2
  | .ok (.done output) =>
    IO.print output.stdout
    IO.eprint output.stderr
    return output.status.toUInt32
