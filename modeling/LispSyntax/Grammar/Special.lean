import LispSyntax.Grammar.Binding
import LispSyntax.Grammar.Collection

/-! # Special forms

A parenthesized list whose first token is one of the heads in `Kind.heads` is a special form. Each head
has its own rule for what follows; all share the check that nothing is left before the closing
parenthesis.
-/

namespace LispSyntax

namespace Grammar

def expectSymbol (form : FormRule) (missing : StructuralProblem) (p : Parser) : Parser :=
  if p.atSymbol then (symbol p).2 else recover form missing p

/-- An account, if there is one, and the name to look up. Of two symbols the first is the account. -/
def lookupBody (form : FormRule) (p : Parser) : Parser :=
  if p.isAt .address then expectSymbol form .noLookupName (literal p).2
  else if p.atSymbol then
    if (p.nth 1).isSymbolToken then expectSymbol form .noLookupName (symbol p).2
    else expectSymbol form .noLookupName p
  else recover form .nothingToLookUp p

/-- The name of a library, and perhaps an alias after `:as`. -/
def importBody (form : FormRule) (p : Parser) : Parser :=
  if p.atSymbol then
    let p := (symbol p).2
    if p.isAt .keyword && p.current.text = ":as".toList then
      expectSymbol form .noAlias (p.advanceAs .asMark)
    else p
  else recover form .noLibrary p

/-- A name, perhaps metadata, and the rest of a definition. -/
def definition (form : FormRule) (missing : StructuralProblem) (body : Parser → Parser)
    (p : Parser) : Parser :=
  if p.atSymbol then body (metadata? form (symbol p).2) else recover form missing p

def definitionValue (form : FormRule) (p : Parser) : Parser :=
  (expectForm form .noDefinitionValue p).2

/-- Pairs of test and result, at most `turns` of them. A last form without a partner is the fallback,
unless it is the only one. -/
def clauses (form : FormRule) : Nat → Nat → Parser → Parser
  | 0, _, p => p
  | turns + 1, count, p =>
    if p.atSequenceEnd then p
    else
      let (m, p) := p.start
      let p := (form p).2
      if p.atSequenceEnd then
        (p.complete m (if count = 0 then .condClause else .condFallback)).2
      else
        let p := (form p).2
        clauses form turns (count + 1) (p.complete m .condClause).2

def specialNode : Kind → Kind
  | .lookupHead => .lookupForm
  | .importHead => .importForm
  | .defHead => .defForm
  | .defnHead => .defnForm
  | .defmacroHead => .defmacroForm
  | .fnHead => .fnForm
  | .macroHead => .macroForm
  | .condHead => .condForm
  | .letHead => .letForm
  | .loopHead => .loopForm
  | .ifLetHead => .ifLetForm
  | .whenLetHead => .whenLetForm
  | .dotimesHead => .dotimesForm
  | .quoteHead => .quoteForm
  | .quasiquoteHead => .quasiquoteForm
  | _ => .unquoteForm

def specialBody (form : FormRule) (head : Kind) (p : Parser) : Parser :=
  match head with
  | .lookupHead => lookupBody form p
  | .importHead => importBody form p
  | .defHead => definition form .noDefinitionName (definitionValue form) p
  | .defnHead => definition form .noFunctionName (arities form) p
  | .defmacroHead => definition form .noExpanderName (singleArity form) p
  | .fnHead | .macroHead => singleArity form p
  | .condHead => clauses form p.rest.length 0 p
  | .letHead | .loopHead => boundBody form false p
  | .ifLetHead => boundBranches form p
  | .whenLetHead | .dotimesHead => boundBody form true p
  | _ => (expectForm form .nothingToQuote p).2

def noMoreForms (form : FormRule) (name : String) (p : Parser) : Parser :=
  if p.atSequenceEnd then p else recover form (.extraForms name) p

def specialForm (form : FormRule) (head : Kind) (p : Parser) : Completed × Parser :=
  let name := spellingOf head
  p.node (specialNode head) fun p =>
    let p := (p.openSequence name).advanceAs head
    (noMoreForms form name (specialBody form head p)).closeSequence

/-- The head of the list that starts at the next token. A name that touches a slash is an account. -/
def headAhead? (p : Parser) : Option Kind :=
  if (p.nth 1).isSymbolToken && !(p.nth 2 == .slash && p.joined 1) then
    Kind.ofHead? (p.token 1).text
  else none

def parenthesized (form : FormRule) (p : Parser) : Completed × Parser :=
  let p := p.require (p.isAt .leftParen) (.wrongToken .leftParen p.kind)
  match headAhead? p with
  | some head => specialForm form head p
  | none => list form p

end Grammar

end LispSyntax
