import LispSyntax.KindSet
import LispSyntax.Parser

/-! # Sequences of forms

Productions of the grammar are functions on the parser state. Those that read forms take the rule for a
form as an argument, so that only one function, the rule itself, is recursive. A loop over forms takes at
least one token per turn, so the number of tokens to come bounds its turns.
-/

namespace LispSyntax

/-- The rule for one form: the node it leaves, if there is one that counts as a form. -/
abbrev FormRule := Parser → Option Completed × Parser

namespace Grammar

/-- Repeats the rule up to the end of the sequence, at most `turns` times. -/
def sequenceLoop (form : FormRule) : Nat → Parser → Parser
  | 0, p => p
  | turns + 1, p => if p.atSequenceEnd then p else sequenceLoop form turns (form p).2

def sequence (form : FormRule) (p : Parser) : Parser :=
  sequenceLoop form p.rest.length p

def expectForm (form : FormRule) (missing : StructuralProblem) : FormRule := fun p =>
  if p.atSequenceEnd then (none, p.report missing) else form p

def restAsError (form : FormRule) (p : Parser) : Parser :=
  if p.atSequenceEnd then p else (p.node .error (sequence form)).2

def recover (form : FormRule) (problem : StructuralProblem) (p : Parser) : Parser :=
  restAsError form (p.report problem)

def literal (p : Parser) : Completed × Parser :=
  (p.require p.kind.isLiteralToken (.notALiteral p.kind)).node .literal Parser.advance

def symbol (p : Parser) : Completed × Parser :=
  (p.require p.kind.isSymbolToken (.notASymbol p.kind)).node .symbol Parser.advance

def badToken (problem : StructuralProblem) (p : Parser) : Completed × Parser :=
  p.node .error fun p => (p.report problem).advance

/-- A symbol or address, and the lookup it is the account of if a slash and a name touch it. -/
def infixLookup (account : Completed × Parser) : Completed × Parser :=
  let (c, p) := account
  if p.isAt .slash && p.joinedToPrevious && p.joined 0 && (p.nth 1).isSymbolToken then
    p.wrap c .lookupForm fun p => (symbol p.advance).2
  else account

def maxDepth : Nat :=
  128

def marks : KindSet :=
  KindSet.ofList [.quoteMark, .backtick, .tilde, .caret]

def skipMarks : Nat → Parser → Parser
  | 0, p => p
  | turns + 1, p => if marks.contains p.kind then skipMarks turns p.advance else p

/-- The number of sequences open after a token, when `depth` are open before it. -/
def depthAfter (depth : Nat) (kind : Kind) : Nat :=
  if kind.isOpener then depth + 1 else if kind.isCloser then depth - 1 else depth

/-- Takes tokens until as many delimiters have closed as have opened, without matching them up. -/
def skipBalanced : Nat → Nat → Parser → Parser
  | 0, _, p => p
  | turns + 1, depth, p =>
    if p.isAt .eof then p
    else
      let after := depthAfter depth p.kind
      let p := p.require (!(p.kind.isCloser && depth == 0)) .depthBelowZero
      if after = 0 then p.advance else skipBalanced turns after p.advance

/-- A form that is nested too deeply: skipped without looking into it. -/
def tooDeep (p : Parser) : Completed × Parser :=
  p.node .error fun p =>
    let p := p.report .tooDeep
    let p := skipMarks p.rest.length p
    if p.kind.isOpener then skipBalanced p.rest.length 0 p
    else if p.atSequenceEnd then p
    else p.advance

end Grammar

end LispSyntax
