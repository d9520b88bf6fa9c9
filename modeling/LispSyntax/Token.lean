import LispSyntax.Text.Span
import LispSyntax.Trivia

/-! # Tokens

A token is a lexeme with its place and the trivia around it. Its span covers the lexeme alone, its
full span the trivia too.
-/

namespace LispSyntax

/-- A lexeme with its place and the trivia around it. -/
structure Token where
  leading : Trivia
  kind : Kind
  text : Text
  span : Span
  trailing : Trivia
deriving DecidableEq, Repr

namespace Token

def fullSpan (t : Token) : Span where
  start := t.span.start - Trivia.size t.leading
  stop := t.span.stop + Trivia.size t.trailing
  start_le_stop := by have := t.span.start_le_stop; omega

def joined (t next : Token) : Bool :=
  t.trailing.isEmpty && next.leading.isEmpty

end Token

end LispSyntax
