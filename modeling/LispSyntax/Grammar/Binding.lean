import LispSyntax.Grammar.Sequence

/-! # Parameters, arities and binding vectors

The vectors in which special forms introduce names. Each is read by a loop that carries what has been seen
so far; a token that has no place in the vector ends the loop, and the rest of the vector is an error.
-/

namespace LispSyntax

namespace Grammar

/-- What has been seen of a parameter list: the place of its `&`, whether a name follows that, and whether
the rest was given up. -/
structure Parameters where
  amp : Option Span
  optional : Bool
  recovered : Bool
deriving DecidableEq, Repr

/-- Reads parameters up to the end of the vector, at most `turns` tokens of them. -/
def parametersLoop (form : FormRule) : Nat → Parameters → Parser → Parameters × Parser
  | 0, seen, p => (seen, p)
  | turns + 1, seen, p =>
    if p.atSequenceEnd then (seen, p)
    else if !p.atSymbol then
      ({ seen with recovered := true }, recover form .noParameterName p)
    else if p.current.text = ['&'] then
      if seen.amp.isSome then ({ seen with recovered := true }, recover form .secondAmp p)
      else
        parametersLoop form turns { seen with amp := some p.current.span } (p.advanceAs .amp)
    else if seen.amp.isSome then
      parametersLoop form turns { seen with optional := true }
        (p.node .optionalParam Parser.advance).2
    else parametersLoop form turns seen (p.node .fixedParam Parser.advance).2

def checkAmp (seen : Parameters) (p : Parser) : Parser :=
  match seen.amp with
  | some span => if seen.optional || seen.recovered then p else p.reportAt .nothingAfterAmp span
  | none => p

def parameters (form : FormRule) (p : Parser) : Parser :=
  Prod.snd <| p.node .paramList fun p =>
    let p := p.openSequence "parameters"
    let (seen, p) := parametersLoop form p.rest.length ⟨none, false, false⟩ p
    (checkAmp seen p).closeSequence

def arityParts (form : FormRule) (p : Parser) : Parser :=
  match expectForm form .noBody (parameters form p) with
  | (none, p) => p
  | (some _, p) => if p.atSequenceEnd then p else recover form .extraBody p

def bareArity (form : FormRule) (p : Parser) : Parser :=
  (p.node .arity (arityParts form)).2

def groupedArity (form : FormRule) (p : Parser) : Parser :=
  Prod.snd <| p.node .arity fun p =>
    let p := p.openSequence "arity"
    let p := if p.isAt .leftBracket then arityParts form p else recover form .noParameters p
    p.closeSequence

def groupedArities (form : FormRule) : Nat → Parser → Parser
  | 0, p => p
  | turns + 1, p =>
    if p.isAt .leftParen then groupedArities form turns (groupedArity form p) else p

def singleArity (form : FormRule) (p : Parser) : Parser :=
  if p.isAt .leftBracket then bareArity form p else recover form .noParameters p

/-- The arities of a named function: one bare, or any number in parentheses. -/
def arities (form : FormRule) (p : Parser) : Parser :=
  if p.isAt .leftBracket then bareArity form p
  else if p.isAt .leftParen then groupedArities form p.rest.length p
  else recover form .noArities p

structure Bindings where
  count : Nat
  recovered : Bool
deriving DecidableEq, Repr

def binding (form : FormRule) (p : Parser) : Parser :=
  Prod.snd <| p.node .binding fun p => (expectForm form .noBindingValue (symbol p).2).2

def bindingsLoop (form : FormRule) (single : Bool) : Nat → Bindings → Parser → Bindings × Parser
  | 0, seen, p => (seen, p)
  | turns + 1, seen, p =>
    if p.atSequenceEnd then (seen, p)
    else if single && seen.count == 1 then
      ({ seen with recovered := true }, recover form .extraBinding p)
    else if !p.atSymbol then ({ seen with recovered := true }, recover form .noBindingName p)
    else bindingsLoop form single turns { seen with count := seen.count + 1 } (binding form p)

/-- A binding vector, with exactly one binding if `single`. The answer is whether there was a vector; if
not, the rest of the form has been given up. -/
def bindings (form : FormRule) (single : Bool) (p : Parser) : Bool × Parser :=
  if p.isAt .leftBracket then
    (true, Prod.snd <| p.node .bindings fun p =>
      let p := p.openSequence "bindings"
      let (seen, p) := bindingsLoop form single p.rest.length ⟨0, false⟩ p
      let p := if single && seen.count == 0 && !seen.recovered then p.report .noBinding else p
      p.closeSequence)
  else (false, recover form .noBindings p)

def boundBody (form : FormRule) (single : Bool) (p : Parser) : Parser :=
  match bindings form single p with
  | (true, p) => sequence form p
  | (false, p) => p

/-- One binding, a form for when it holds and perhaps one for when it does not. -/
def boundBranches (form : FormRule) (p : Parser) : Parser :=
  match bindings form true p with
  | (false, p) => p
  | (true, p) =>
    match expectForm form .noTrueBranch p with
    | (none, p) => p
    | (some _, p) => (form p).2

end Grammar

end LispSyntax
