import LispSyntax.Token
import LispSyntax.Tree.Builder

/-! # Event logs

The parser does not build a tree; it writes a log of events. A node's start is logged before its kind is
known, as a tombstone that is filled in later, and a node that has been finished can still be put under
a parent that starts after it: its start then points forward to the start of that parent. `Event.replay`
reads the log once, follows the forward links so that parents open before their children, and hands the
tokens to a `Builder` in their order.
-/

namespace LispSyntax

inductive Event where
  /-- A node starts; the link is the distance to the start of a parent logged later. -/
  | start (kind : Kind) (forward : Option Nat)
  | token (kind : Kind)
  | finish
deriving DecidableEq, Repr

namespace Event

/-- A start whose kind is not known yet, or that has been dealt with. -/
def tombstone : Event :=
  .start .tombstone none

structure Replay where
  events : Array Event
  tokens : List Token
  builder : Builder

/-- Follows forward links from a start, erasing the starts on the way. The kinds found go in front of
`kinds`, so that the outermost comes first. A link leads forward, so there are at most as many as there
are events: this is the fuel. -/
def follow : Nat → Array Event → Nat → Option Nat → List Kind →
    Except Fault (Array Event × List Kind)
  | _, events, _, none, kinds => .ok (events, kinds)
  | 0, _, index, some _, _ => .error (.notAnOpenSlot index)
  | fuel + 1, events, index, some distance, kinds =>
    let target := index + distance
    match events[target]? with
    | some (.start kind forward) =>
      let kinds := if kind = .tombstone then kinds else kind :: kinds
      follow fuel (events.setIfInBounds target tombstone) target forward kinds
    | _ => .error (.notAnOpenSlot target)

def startAll (b : Builder) (kinds : List Kind) : Except Fault Builder :=
  kinds.foldlM Builder.start b

def step (s : Replay) (index : Nat) : Except Fault Replay :=
  match s.events[index]? with
  | none => .ok s
  | some (.start kind forward) =>
    let events := s.events.setIfInBounds index tombstone
    if kind = .tombstone then .ok { s with events := events }
    else do
      let (events, kinds) ← follow events.size events index forward [kind]
      let builder ← startAll s.builder kinds
      return { s with events := events, builder := builder }
  | some .finish => do
    let builder ← s.builder.finishNode
    return { s with builder := builder }
  | some (.token kind) =>
    match s.tokens with
    | [] => .error .noTokenLeft
    | t :: ts => do
      let builder ← s.builder.token t.leading kind t.span t.trailing
      return { s with tokens := ts, builder := builder }

def replay (text : Text) (tokens : List Token) (events : Array Event) : Except Fault Tree := do
  let done ← (List.range events.size).foldlM step ⟨events, tokens, Builder.ofText text⟩
  done.builder.finish

end Event

end LispSyntax
