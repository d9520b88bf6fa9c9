import LispSyntax.Kind
import LispSyntax.Text.Quoted
import LispSyntax.Text.Span

/-! # Lexemes

A lexeme is the text of one token with its kind and the problems found in it. Problems are placed
relative to the start of the lexeme, so that a lexeme does not depend on where it stands.
-/

namespace LispSyntax

/-- Longest name of a symbol or keyword, in characters. -/
def nameLimit : Nat :=
  64

inductive LexicalProblem where
  | unexpectedCharacter (c : Char)
  | noHexDigits
  | oddHexDigits
  | unknownHashHash
  | loneHash
  | nameTooLong
  | noCharacter
  | unterminatedString
  | badUnicodeEscape
deriving DecidableEq, Repr

namespace LexicalProblem

def message : LexicalProblem → String
  | unexpectedCharacter c => "unexpected character `" ++ String.ofList (Text.escape c) ++ "`"
  | noHexDigits => "expected hex digits after `0x`"
  | oddHexDigits => "odd number of hex digits in byte string, expected whole bytes"
  | unknownHashHash => "expected `##NaN`, `##Inf` or `##-Inf`"
  | loneHash => "expected an address like `#42` or a set `#\x7b`"
  | nameTooLong => "symbol is longer than " ++ toString nameLimit ++ " characters"
  | noCharacter => "expected a character after `\\`"
  | unterminatedString => "unterminated string, expected a closing `\"`"
  | badUnicodeEscape => "invalid unicode escape, expected four hex digits after `\\u`"

end LexicalProblem

/-- The text of a token, its kind and its problems, each with the part of the text it is about. -/
structure Lexeme where
  kind : Kind
  text : Text
  problems : List (LexicalProblem × Span)
deriving DecidableEq, Repr

namespace Lexeme

def clean (kind : Kind) (text : Text) : Lexeme :=
  ⟨kind, text, []⟩

def flawed (kind : Kind) (text : Text) (problem : LexicalProblem) : Lexeme :=
  ⟨kind, text, [(problem, Span.ofSize 0 (Text.size text))]⟩

def named (kind : Kind) (text name : Text) : Lexeme :=
  if name.length > nameLimit then flawed kind text .nameTooLong else clean kind text

end Lexeme

end LispSyntax
