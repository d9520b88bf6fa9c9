import LispSyntax.Grammar.Special

/-! # Forms and sources

The rule for a form, and the rule for a whole source. The rule recurses on the nesting that is still
allowed; with none left, a form is skipped without looking into it.
-/

namespace LispSyntax

namespace Grammar

def counted (result : Completed × Parser) : Option Completed × Parser :=
  (some result.1, result.2)

/-- A form chosen by the next token, given the rule for the forms inside it. A closing delimiter that
closes nothing is an error and does not count as a form. -/
def formAt (form : FormRule) : FormRule := fun p =>
  match p.kind with
  | .address => counted (infixLookup (literal p))
  | .nilWord | .trueWord | .falseWord | .char | .string | .bytes | .int | .float | .keyword =>
    counted (literal p)
  | .name | .builtinSymbol | .builtinFunction => counted (infixLookup (symbol p))
  | .slash => counted (p.node .symbol fun p => p.advanceAs p.slashKind)
  | .leftParen => counted (parenthesized form p)
  | .leftBracket => counted (vector form p)
  | .leftBrace => counted (map form p)
  | .hashLeftBrace => counted (set form p)
  | .quoteMark | .backtick | .tilde => counted (markedForm form p)
  | .caret => counted (misplacedMetadata form p)
  | .unknown => counted (p.node .error Parser.advance)
  | .rightParen | .rightBracket | .rightBrace =>
    (none, (badToken (.unexpectedCloser p.kind) p).2)
  | .colon => counted (badToken .noKeywordName p)
  | _ => counted (badToken .notAForm p)

/-- A form that may nest `budget` levels deep. At the end of a sequence there is none. -/
def form : Nat → FormRule
  | 0 => fun p => if p.atSequenceEnd then (none, p) else counted (tooDeep p)
  | budget + 1 => fun p => if p.atSequenceEnd then (none, p) else formAt (form budget) p

/-- Forms up to the end of the text, at most `turns` of them. -/
def topLevel : Nat → Parser → Parser
  | 0, p => p
  | turns + 1, p => if p.isAt .eof then p else topLevel turns (form maxDepth p).2

def source (p : Parser) : Parser :=
  (p.node .source fun p => (topLevel p.rest.length p).takeEnd).2

end Grammar

end LispSyntax
