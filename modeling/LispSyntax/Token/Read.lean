import LispSyntax.Diagnostic
import LispSyntax.Token
import LispSyntax.Token.Scan
import LispSyntax.Trivia.Read

/-! # Reading tokens

`Token.read` takes one token with its trivia off the front of a text, and `Token.tokenize` takes tokens
until the end of the text, which is a token too and carries the last trivia. Each token but the end
takes at least one character, which is why the list of tokens is finite.
-/

namespace LispSyntax

namespace Token

/-- A token read from a text, what was found wrong with it, and where reading goes on. -/
structure Reading where
  token : Token
  diagnostics : List Diagnostic
  offset : Nat
  rest : Text

def diagnosticsAt (offset : Nat) (lexeme : Lexeme) : List Diagnostic :=
  lexeme.problems.map fun problem => .lexical problem.1.message (problem.2.shift offset)

/-- The lexeme at the front of a text without leading trivia; at the end of the text it is empty. -/
def lexemeOf (r : Registry) : Text → Scan
  | [] => ⟨.clean .eof [], []⟩
  | c :: cs => Scan.scan r c cs

def read (r : Registry) (offset : Nat) (text : Text) : Reading :=
  let leading := Trivia.read .leading text
  let start := offset + Trivia.size leading
  let scanned := lexemeOf r (Trivia.skip .leading text)
  let span := Span.ofSize start (Text.size scanned.lexeme.text)
  let trailing := Trivia.read .trailing scanned.rest
  { token := ⟨leading, scanned.lexeme.kind, scanned.lexeme.text, span, trailing⟩
    diagnostics := diagnosticsAt start scanned.lexeme
    offset := span.stop + Trivia.size trailing
    rest := Trivia.skip .trailing scanned.rest }

theorem lexemeOf_append (r : Registry) (text : Text) :
    (lexemeOf r text).lexeme.text ++ (lexemeOf r text).rest = text := by
  cases text with
  | nil => rfl
  | cons c cs => exact Scan.scan_append r c cs

/-- Only the end of the text is read without taking a character. -/
theorem text_lexemeOf_ne_nil {r : Registry} {text : Text}
    (h : (lexemeOf r text).lexeme.kind ≠ .eof) : (lexemeOf r text).lexeme.text ≠ [] := by
  cases text with
  | nil => exact absurd rfl h
  | cons c cs => exact Scan.text_scan_ne_nil r c cs

/-- A token that is not the end takes characters off the text. -/
theorem length_rest_read {r : Registry} {offset : Nat} {text : Text}
    (h : (read r offset text).token.kind ≠ .eof) :
    (read r offset text).rest.length < text.length := by
  have before := Trivia.length_skip_le .leading text
  have whole := congrArg List.length (lexemeOf_append r (Trivia.skip .leading text))
  have taken := List.length_pos_iff.mpr (text_lexemeOf_ne_nil h)
  have after := Trivia.length_skip_le .trailing (lexemeOf r (Trivia.skip .leading text)).rest
  simp only [List.length_append] at whole
  simp only [read]
  omega

def tokensFrom (r : Registry) (offset : Nat) (text : Text) : List Token × List Diagnostic :=
  let reading := read r offset text
  if reading.token.kind = .eof then ([reading.token], reading.diagnostics)
  else
    let next := tokensFrom r reading.offset reading.rest
    (reading.token :: next.1, reading.diagnostics ++ next.2)
termination_by text.length
decreasing_by exact length_rest_read ‹_›

/-- The tokens of a text, the last of which is its end, and the lexical diagnostics in the order found. -/
def tokenize (text : Text) (r : Registry) : List Token × List Diagnostic :=
  tokensFrom r 0 text

end Token

end LispSyntax
