import LispSyntax.Kind

/-! # Faults

A fault is a broken agreement between the parts of the library, or between it and its caller: a span
that does not lie on the text, a token outside every node, a parser step taken on the wrong token.
Functions that can meet one return `Except Fault`. Faults are not diagnostics: what a source text says never
causes one, only its size can.
-/

namespace LispSyntax

/-- The largest length that positions can express, plus one. -/
def sizeLimit : Nat :=
  UInt32.size

inductive Fault where
  -- Positions.
  | sizeOverflow
  | beforeStart
  | reversedSpan
  | offText
  | invalidOffset
  -- Trees and their construction.
  | triviaTooLong
  | notANode (kind : Kind)
  | tokenOutsideNode
  | noOpenNode
  | openNodes (nodes : List (Kind × Nat))
  | rootCount (found : Nat)
  | rootNotANode
  | rootSize (tree text : Nat)
  | abandoned
  -- Steps of the parser.
  | wrongToken (expected found : Kind)
  | notAnOpener (found : Kind)
  | notALiteral (found : Kind)
  | notASymbol (found : Kind)
  | notAnOpenSlot (slot : Nat)
  | noTokenLeft
  | depthBelowZero
deriving DecidableEq, Repr

namespace Fault

/-- The open nodes as `[(KIND, first child), ...]`, outermost first. -/
def renderOpenNodes (nodes : List (Kind × Nat)) : String :=
  "[" ++ ", ".intercalate (nodes.map fun (k, i) => "(" ++ k.label ++ ", " ++ toString i ++ ")") ++ "]"

/-- What is said about a fault; positions off the text and parser steps are silent. -/
def message : Fault → Option String
  | invalidOffset => some "invalid offset"
  | triviaTooLong => some "assertion failed: leading.len() + trailing.len() <= text.text_len()"
  | notANode kind => some (kind.label ++ " is not a node kind")
  | tokenOutsideNode => some "tokens must live inside a node"
  | noOpenNode => some "no opened nodes?"
  | openNodes nodes => some ("unfinished nodes: " ++ renderOpenNodes nodes)
  | rootCount found =>
    some ("assertion `left == right` failed: the tree must have exactly one root\n  left: "
      ++ toString found ++ "\n right: 1")
  | rootSize tree text =>
    some ("assertion `left == right` failed\n  left: " ++ toString tree
      ++ "\n right: " ++ toString text)
  | abandoned => some "you should call `Builder::finish()`"
  | _ => none

end Fault

end LispSyntax
