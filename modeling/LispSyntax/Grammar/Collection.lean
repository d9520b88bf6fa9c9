import LispSyntax.Grammar.Sequence

/-! # Collections, metadata and quotes

Lists, vectors and sets hold any forms; maps hold them in pairs. Metadata is a map behind a caret and has
its place after the name of a definition. A mark in front of a form quotes it.
-/

namespace LispSyntax

namespace Grammar

def delimited (name : String) (kind : Kind) (form : FormRule) (p : Parser) : Completed × Parser :=
  p.node kind fun p => (sequence form (p.openSequence name)).closeSequence

def list (form : FormRule) : Parser → Completed × Parser :=
  delimited "list" .listForm form

def vector (form : FormRule) : Parser → Completed × Parser :=
  delimited "vector" .vectorForm form

def set (form : FormRule) : Parser → Completed × Parser :=
  delimited "set" .setForm form

/-- The forms of a map read so far: how many there are, and the span of the last. -/
structure Entries where
  count : Nat
  last : Option Span
deriving DecidableEq, Repr

def entriesLoop (form : FormRule) : Nat → Entries → Parser → Entries × Parser
  | 0, entries, p => (entries, p)
  | turns + 1, entries, p =>
    if p.atSequenceEnd then (entries, p)
    else
      match form p with
      | (some entry, p) => entriesLoop form turns ⟨entries.count + 1, some (p.spanOf entry)⟩ p
      | (none, p) => entriesLoop form turns entries p

def checkPaired (entries : Entries) (p : Parser) : Parser :=
  match entries.last with
  | some span => if entries.count % 2 ≠ 0 then p.reportAt .noMapValue span else p
  | none => p

/-- A map. A key without a value is reported and kept. -/
def map (form : FormRule) (p : Parser) : Completed × Parser :=
  p.node .mapForm fun p =>
    let p := p.openSequence "map"
    let (entries, p) := entriesLoop form p.rest.length ⟨0, none⟩ p
    (checkPaired entries p).closeSequence

/-- What follows a caret: a map, or any other form, which is reported. -/
def metadataBody (form : FormRule) (p : Parser) : Parser :=
  if p.isAt .leftBrace then (map form p).2
  else
    let p := p.report .noMetadataMap
    if p.atSequenceEnd || p.kind.isCloser then p else (form p).2

def metadata (form : FormRule) (p : Parser) : Completed × Parser :=
  (p.require (p.isAt .caret) (.wrongToken .caret p.kind)).node .metadata fun p =>
    metadataBody form p.advance

def metadata? (form : FormRule) (p : Parser) : Parser :=
  if p.isAt .caret then (metadata form p).2 else p

/-- Metadata anywhere but after the name of a definition, as an error. A caret without a map is reported
only once, for the missing map. -/
def misplacedMetadata (form : FormRule) (p : Parser) : Completed × Parser :=
  let hasMap := p.nth 1 == .leftBrace
  let (c, p) := metadata form p
  let p := if hasMap then p.reportAt .misplacedMetadata (p.spanOf c) else p
  p.wrap c .error id

def quoteNode : Kind → Kind
  | .quoteMark => .quoteForm
  | .backtick => .quasiquoteForm
  | _ => .unquoteForm

def markedForm (form : FormRule) (p : Parser) : Completed × Parser :=
  let mark := p.kind
  p.node (quoteNode mark) fun p =>
    let p := p.advance
    if p.atSequenceEnd then p.report (.nothingAfterMark mark) else (form p).2

end Grammar

end LispSyntax
