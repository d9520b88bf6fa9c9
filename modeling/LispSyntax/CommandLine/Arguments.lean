/-! # Command line arguments

There are three commands, each with its paths, and two levels of arguments: those before the command and
those after it. The option `--builtins` may stand once at each level, and the inner one counts. After `--`
every argument is a path. What does not fit is a usage error, found from left to right.
-/

namespace LispSyntax

namespace CommandLine

inductive Command where
  /-- Report the diagnostics of files, on a line each if `short`. -/
  | check (paths : List String) (short : Bool)
  | tree (path : String)
  | tokens (path : String)
deriving DecidableEq, Repr

structure Options where
  builtins : Option String
  command : Command
deriving DecidableEq, Repr

inductive Request where
  | run (options : Options)
  | version
  | usage
deriving DecidableEq, Repr

structure Inner where
  builtins : Option String
  short : Bool
  reversedPaths : List String
deriving DecidableEq, Repr

/-- Whether an argument is an option; a single dash is a path. -/
def isOption (arg : String) : Bool :=
  arg.toList.head? == some '-' && arg != "-"

/-- The value of `--builtins=value`. -/
def attached? (arg : String) : Option String :=
  let start := "--builtins=".toList
  if start.isPrefixOf arg.toList then some (String.ofList (arg.toList.drop start.length)) else none

def isValue (arg : String) : Bool :=
  !isOption arg

/-- Reads the arguments after a command; `short` is allowed for one of them only. -/
def readInner (allowShort : Bool) (seen : Inner) : List String → Option Inner
  | [] => some seen
  | "--" :: rest => some { seen with reversedPaths := rest.reverse ++ seen.reversedPaths }
  | "--builtins" :: value :: rest =>
    if isValue value && seen.builtins.isNone then
      readInner allowShort { seen with builtins := some value } rest
    else none
  | arg :: rest =>
    if isOption arg then
      if arg = "--short" then
        if allowShort && !seen.short then readInner allowShort { seen with short := true } rest
        else none
      else
        match attached? arg with
        | some value =>
          if seen.builtins.isNone then
            readInner allowShort { seen with builtins := some value } rest
          else none
        | none => none
    else readInner allowShort { seen with reversedPaths := arg :: seen.reversedPaths } rest

def command? (name : String) (inner : Inner) : Option Command :=
  match name, inner.reversedPaths.reverse with
  | "check", path :: paths => some (.check (path :: paths) inner.short)
  | "tree", [path] => some (.tree path)
  | "tokens", [path] => some (.tokens path)
  | _, _ => none

def readCommand (builtins : Option String) (name : String) (rest : List String) : Request :=
  match readInner (name == "check") ⟨none, false, []⟩ rest with
  | none => .usage
  | some inner =>
    match command? name inner with
    | some command => .run ⟨inner.builtins.or builtins, command⟩
    | none => .usage

/-- Whether an argument asks for the version: the long option, or a group of short ones that starts with
it. -/
def asksVersion (arg : String) : Bool :=
  arg == "--version" || "-V".toList.isPrefixOf arg.toList

def readOuter (builtins : Option String) : List String → Request
  | [] => .usage
  | "--builtins" :: value :: rest =>
    if isValue value && builtins.isNone then readOuter (some value) rest else .usage
  | arg :: rest =>
    if asksVersion arg then .version
    else if isOption arg then
      match attached? arg with
      | some value => if builtins.isNone then readOuter (some value) rest else .usage
      | none => .usage
    else readCommand builtins arg rest

def request (args : List String) : Request :=
  readOuter none args

end CommandLine

end LispSyntax
