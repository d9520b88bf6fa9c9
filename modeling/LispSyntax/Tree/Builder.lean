import LispSyntax.Text.Span
import LispSyntax.Tree

/-! # Building trees

A builder makes a tree of a text from the outside in: nodes are started, filled and finished, and leaves
are cut out of the text by their spans and trivia. Nodes being built form a stack, innermost first, each
with the children finished so far in reverse.
-/

namespace LispSyntax

structure OpenNode where
  kind : Kind
  reversed : List Tree
deriving DecidableEq

structure Builder where
  text : Text
  stack : List OpenNode
  reversedRoots : List Tree
deriving DecidableEq

namespace Builder

def ofText (text : Text) : Builder :=
  ⟨text, [], []⟩

def add (b : Builder) (t : Tree) : Builder :=
  match b.stack with
  | [] => { b with reversedRoots := t :: b.reversedRoots }
  | top :: outer => { b with stack := { top with reversed := t :: top.reversed } :: outer }

def start (b : Builder) (kind : Kind) : Except Fault Builder :=
  if kind.isNode then .ok { b with stack := ⟨kind, []⟩ :: b.stack }
  else .error (.notANode kind)

def finishNode (b : Builder) : Except Fault Builder :=
  match b.stack with
  | [] => .error .noOpenNode
  | top :: outer =>
    .ok (Builder.add { b with stack := outer } (.node top.kind top.reversed.reverse))

/-- Adds the leaf whose lexeme has the given span and whose trivia stands right before and after it. -/
def token (b : Builder) (leading : Trivia) (kind : Kind) (span : Span) (trailing : Trivia) :
    Except Fault Builder :=
  if b.stack.isEmpty then .error .tokenOutsideNode
  else if span.start < Trivia.size leading then .error .beforeStart
  else
    match Text.slice? b.text (span.start - Trivia.size leading)
        (span.stop + Trivia.size trailing) with
    | none => .error .offText
    | some text => do
      let leaf ← Leaf.ofParts leading kind text trailing
      return b.add (.leaf leaf)

/-- The open nodes, outermost first, each with the number of finished trees that wait before it. -/
def openNodes (finished : Nat) : List OpenNode → List (Kind × Nat)
  | [] => []
  | top :: inner => (top.kind, finished) :: openNodes (finished + top.reversed.length) inner

/-- The finished tree: a single node that covers the text. -/
def finish (b : Builder) : Except Fault Tree :=
  match b.stack, b.reversedRoots with
  | _ :: _, roots => .error (.openNodes (openNodes roots.length b.stack.reverse))
  | [], [.node kind children] =>
    let root := Tree.node kind children
    if root.size = Text.size b.text then .ok root
    else .error (.rootSize root.size (Text.size b.text))
  | [], [.leaf _] => .error .rootNotANode
  | [], roots => .error (.rootCount roots.length)

def discard (b : Builder) : Except Fault Unit :=
  if b.stack.isEmpty then .ok () else .error .abandoned

end Builder

end LispSyntax
