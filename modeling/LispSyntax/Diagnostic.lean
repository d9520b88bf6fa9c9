import LispSyntax.Text.Span

/-! # Diagnostics

A diagnostic is a message about a span of the source, raised by the scanner or by the parser, together
with the form that was being read. Diagnostics never stop either of them. `Diagnostic.sortByStart`
orders a list by where the spans start and keeps the order of those that start together.
-/

namespace LispSyntax

inductive DiagnosticKind where
  | lexical
  | structural
deriving DecidableEq, Repr

namespace DiagnosticKind

def label : DiagnosticKind → String
  | lexical => "Lexical"
  | structural => "Syntax"

def ofLabel? (label : String) : Option DiagnosticKind :=
  [lexical, structural].find? (·.label == label)

def title : DiagnosticKind → String
  | lexical => "lexical error"
  | structural => "syntax error"

end DiagnosticKind

/-- A message about a span, raised while reading the form `context`. -/
structure Diagnostic where
  kind : DiagnosticKind
  message : String
  span : Span
  context : Option String
deriving DecidableEq, Repr

namespace Diagnostic

def lexical (message : String) (span : Span) : Diagnostic :=
  ⟨.lexical, message, span, none⟩

def title (d : Diagnostic) : String :=
  d.kind.title ++ ": " ++ d.message

def render (d : Diagnostic) : String :=
  d.title ++ " at " ++ d.span.render

/-- Inserts a diagnostic before the first one that does not start earlier. -/
def insertByStart (d : Diagnostic) : List Diagnostic → List Diagnostic
  | [] => [d]
  | e :: es => if d.span.start ≤ e.span.start then d :: e :: es else e :: insertByStart d es

/-- The diagnostics by start of their spans; those that start together keep their order. -/
def sortByStart (ds : List Diagnostic) : List Diagnostic :=
  ds.foldr insertByStart []

end Diagnostic

end LispSyntax
