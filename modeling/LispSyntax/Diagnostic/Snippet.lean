import LispSyntax.Diagnostic
import LispSyntax.Text.Lines

/-! # Snippets

A snippet shows a diagnostic with the line of source it is about: title, place, the numbered line and
a row of carets under the span, all beside a gutter as wide as the line number. On an empty line there
is nothing to show and the gutter stands alone. Spans are taken to lie in one line of plain text.
-/

namespace LispSyntax

namespace Diagnostic

inductive Style where
  | plain
  | styled
deriving DecidableEq, Repr

namespace Style

def paint (style : Style) (codes text : String) : String :=
  match style with
  | plain => text
  | styled => codes ++ text ++ "\x1b[0m"

def strong (style : Style) : String → String :=
  style.paint "\x1b[1m"

def alert (style : Style) : String → String :=
  style.paint "\x1b[1m\x1b[91m"

def frame (style : Style) : String → String :=
  style.paint "\x1b[1m\x1b[94m"

end Style

def spaces (n : Nat) : String :=
  String.ofList (List.replicate n ' ')

def marginNote (d : Diagnostic) : String :=
  match d.context with
  | some context => "in `" ++ context ++ "`"
  | none => "here"

/-- The arrow to a place in a file. A path with no characters is not set apart from the arrow. -/
def arrow (style : Style) (path : String) (line col : Nat) : String :=
  let gap := if path.isEmpty then "" else " "
  style.frame "-->" ++ gap ++ path ++ ":" ++ toString line ++ ":" ++ toString col

def snippetLines (d : Diagnostic) (style : Style) (path : String) (place : LineCol) (line : Text) :
    List String :=
  let heading := style.alert "error" ++ ": " ++ style.strong d.title
  if line.isEmpty then
    [heading, arrow style path 1 1, " " ++ style.frame "|", " " ++ style.frame "|"]
  else
    let number := toString (place.line + 1)
    let gutter := spaces (number.length + 1) ++ style.frame "|"
    let carets := String.ofList (List.replicate (max d.span.size 1) '^')
    [heading,
      spaces number.length ++ arrow style path (place.line + 1) (place.col + 1),
      gutter,
      style.frame (number ++ " |") ++ " " ++ String.ofList line,
      gutter ++ " " ++ spaces place.col ++ style.alert carets ++ " " ++ style.alert d.marginNote,
      gutter]

def snippet (d : Diagnostic) (style : Style) (path : String) (text : Text) : String :=
  let place := (text.lineCol? d.span.start).getD ⟨0, 0⟩
  let line := (text.lineAt? d.span.start).getD []
  "\n".intercalate (d.snippetLines style path place line)

end Diagnostic

end LispSyntax
