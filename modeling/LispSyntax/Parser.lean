import LispSyntax.Event
import LispSyntax.Parser.Problem

/-! # Parser state

The parser holds the tokens still to come, the log of events, the reports and the frames of the sequences
that are open. Its operations are the vocabulary of the grammar: take a token, open and close a sequence,
report a problem, and mark the extent of a node. A node is marked by `Parser.start` and
`Parser.complete`, or around a whole body by `Parser.node`; `Parser.wrap` puts a node that is already
complete under a new parent. An operation used against its conditions leaves a fault behind, and
`Parser.finish` gives up on it.
-/

namespace LispSyntax

structure Frame where
  closer : Kind
  name : String
deriving DecidableEq, Repr

structure Parser where
  /-- The tokens still to come, without the end. -/
  rest : List Token
  last : Token
  previous : Option Token
  position : Nat
  events : Array Event
  reports : List Report
  /-- The open sequences, innermost first. -/
  frames : List Frame
  /-- The kind of a slash that stands alone. -/
  slashKind : Kind
  fault : Option Fault

/-- The start of a node that is not complete: its place in the log, and the token it starts at. -/
structure Marker where
  slot : UInt32
  position : Nat
  first : Span
deriving DecidableEq, Repr

structure Completed where
  slot : UInt32
  position : Nat
  first : Span
  covered : Option Span
deriving DecidableEq, Repr

namespace Parser

/-- The state before the first of the tokens, the last of which has to be the end. -/
def ofTokens (tokens : List Token) (slashKind : Kind) : Except Fault Parser :=
  match tokens.getLast? with
  | none => .error .noTokenLeft
  | some last =>
    if last.kind = .eof then
      .ok ⟨tokens.dropLast, last, none, 0, #[], [], [], slashKind, none⟩
    else .error (.wrongToken .eof last.kind)

/-! ## Looking ahead -/

/-- The `n`th token to come; past the last one it is the end. -/
def token (p : Parser) (n : Nat) : Token :=
  p.rest[n]?.getD p.last

def current (p : Parser) : Token :=
  p.token 0

def kind (p : Parser) : Kind :=
  p.current.kind

def nth (p : Parser) (n : Nat) : Kind :=
  (p.token n).kind

def isAt (p : Parser) (kind : Kind) : Bool :=
  p.kind == kind

def atSymbol (p : Parser) : Bool :=
  p.kind.isSymbolToken

def joined (p : Parser) (n : Nat) : Bool :=
  (p.token n).joined (p.token (n + 1))

def joinedToPrevious (p : Parser) : Bool :=
  match p.previous with
  | some t => t.joined p.current
  | none => false

/-- Whether the next token ends an open sequence, or the text. -/
def atSequenceEnd (p : Parser) : Bool :=
  p.isAt .eof || (p.kind.isCloser && p.frames.any (·.closer == p.kind))

def context (p : Parser) : Option String :=
  p.frames.head?.map (·.name)

/-! ## Steps -/

def fail (p : Parser) (f : Fault) : Parser :=
  { p with fault := p.fault.or (some f) }

def require (p : Parser) (condition : Bool) (f : Fault) : Parser :=
  if condition then p else p.fail f

def reportAt (p : Parser) (problem : StructuralProblem) (span : Span) : Parser :=
  { p with reports := p.reports ++ [⟨problem, span, p.context⟩] }

def report (p : Parser) (problem : StructuralProblem) : Parser :=
  p.reportAt problem p.current.span

/-- Takes the next token under the given kind; the end is not taken. -/
def advanceAs (p : Parser) (kind : Kind) : Parser :=
  match p.rest with
  | [] => p
  | t :: ts =>
    { p with
      rest := ts
      previous := some t
      position := p.position + 1
      events := p.events.push (.token kind) }

def advance (p : Parser) : Parser :=
  p.advanceAs p.kind

def takeEnd (p : Parser) : Parser :=
  let p := p.require (p.isAt .eof) (.wrongToken .eof p.kind)
  { p with events := p.events.push (.token .eof) }

def openSequence (name : String) (p : Parser) : Parser :=
  let closer := p.kind.closer?
  let p := (p.require closer.isSome (.notAnOpener p.kind)).advance
  { p with frames := ⟨closer.getD .rightParen, name⟩ :: p.frames }

def closeSequence (p : Parser) : Parser :=
  match p.frames with
  | [] => p
  | frame :: outer =>
    let p := if p.isAt frame.closer then p.advance else p.report (.expectedCloser frame.closer)
    { p with frames := outer }

/-! ## Nodes -/

/-- Logs the start of a node. A slot has 32 bits, so a start behind `sizeLimit` others gets a marker that stands
for an earlier entry. -/
def start (p : Parser) : Marker × Parser :=
  (⟨p.events.size.toUInt32, p.position, p.current.span⟩,
    { p with events := p.events.push Event.tombstone })

def complete (p : Parser) (m : Marker) (kind : Kind) : Completed × Parser :=
  let covered :=
    if m.position < p.position then p.previous.map fun t => m.first.cover t.span else none
  let completed : Completed := ⟨m.slot, m.position, m.first, covered⟩
  match p.events[m.slot.toNat]? with
  | some (.start _ forward) =>
    let events := (p.events.setIfInBounds m.slot.toNat (.start kind forward)).push .finish
    (completed, { p with events := events })
  | _ => (completed, p.fail (.notAnOpenSlot m.slot.toNat))

def precede (p : Parser) (c : Completed) : Marker × Parser :=
  let (m, p) := p.start
  let m : Marker := { m with position := c.position, first := c.first }
  match p.events[c.slot.toNat]? with
  | some (.start kind _) =>
    if m.slot < c.slot then (m, p.fail .beforeStart)
    else
      let link := m.slot.toNat - c.slot.toNat
      (m, { p with events := p.events.setIfInBounds c.slot.toNat (.start kind (some link)) })
  | _ => (m, p.fail (.notAnOpenSlot c.slot.toNat))

/-- The span of a complete node; without tokens it is empty, where the next token starts. -/
def spanOf (p : Parser) (c : Completed) : Span :=
  c.covered.getD (Span.empty p.current.span.start)

def node (kind : Kind) (body : Parser → Parser) (p : Parser) : Completed × Parser :=
  let (m, p) := p.start
  (body p).complete m kind

/-- A node of the given kind around one that is complete and the body after it. -/
def wrap (c : Completed) (kind : Kind) (body : Parser → Parser) (p : Parser) :
    Completed × Parser :=
  let (m, p) := p.precede c
  (body p).complete m kind

/-- The tree that the log describes. Every operation has to have met its conditions. -/
def finish (p : Parser) (text : Text) (tokens : List Token) : Except Fault Tree :=
  match p.fault with
  | some f => .error f
  | none => Event.replay text tokens p.events

end Parser

end LispSyntax
