import LispSyntax.Grammar.Form
import LispSyntax.Token.Read
import LispSyntax.Tree.Dump

/-! # Parsing

`parse` reads a text to a lossless tree and a list of diagnostics. Malformed text never makes it fail:
what the grammar cannot place stands in error nodes. A text that is too large does, be it for positions or
for the slots of its log.
-/

namespace LispSyntax

structure Parse where
  tree : Tree
  diagnostics : List Diagnostic
deriving DecidableEq

namespace Parse

def isOk (p : Parse) : Bool :=
  p.diagnostics.isEmpty

def root (p : Parse) : View :=
  View.root p.tree

def dumpDiagnostic (d : Diagnostic) : String :=
  let context := match d.context with
    | some context => " in `" ++ context ++ "`"
    | none => ""
  "  " ++ d.render ++ context ++ "\n"

def dump (p : Parse) : Except Fault String := do
  let tree ← p.root.dump
  return tree ++ "Errors:\n" ++ String.join (p.diagnostics.map dumpDiagnostic)

end Parse

/-- Parses a text, all positions of which have to be expressible. The diagnostics of the scanner come before those of
the grammar where both start at the same place. -/
def parse (text : Text) (r : Registry) : Except Fault Parse :=
  if sizeLimit ≤ Text.size text then .error .sizeOverflow
  else do
    let (tokens, lexical) := Token.tokenize text r
    let start ← Parser.ofTokens tokens (Scan.symbolKind r ['/'])
    let parser := Grammar.source start
    let tree ← parser.finish text tokens
    return ⟨tree, Diagnostic.sortByStart (lexical ++ parser.reports.map Report.diagnostic)⟩

end LispSyntax
