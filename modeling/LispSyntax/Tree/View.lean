import LispSyntax.Text.Span
import LispSyntax.Tree

/-! # Views

A view is a tree at an offset. Offsets are never stored in the tree: the view of a child starts where
its elder sibling ends. Looking up the token at an offset goes down the first child that touches it
and does not come back from a node.
-/

namespace LispSyntax

structure LeafView where
  leaf : Leaf
  offset : Nat
deriving DecidableEq

/-- A tree at an offset. -/
structure View where
  tree : Tree
  offset : Nat
deriving DecidableEq

namespace LeafView

def kind (v : LeafView) : Kind :=
  v.leaf.kind

def span (v : LeafView) : Span :=
  Span.ofSize v.offset v.leaf.size

def trimmedSpan (v : LeafView) : Span where
  start := v.offset + Trivia.size v.leaf.leading
  stop := v.offset + v.leaf.size - Trivia.size v.leaf.trailing
  start_le_stop := by have := v.leaf.fits; simp only [Leaf.size]; omega

structure PieceView where
  kind : PieceKind
  text : Text
  span : Span
deriving DecidableEq, Repr

def placePieces (v : LeafView) (start : Nat) : Trivia → Except Fault (List PieceView)
  | [] => .ok []
  | p :: ps =>
    match Text.slice? v.leaf.text start (start + p.size) with
    | none => .error .offText
    | some text => do
      let rest ← v.placePieces (start + p.size) ps
      return ⟨p.kind, text, Span.ofSize (v.offset + start) p.size⟩ :: rest

def leadingPieces (v : LeafView) : Except Fault (List PieceView) :=
  v.placePieces 0 v.leaf.leading

def trailingPieces (v : LeafView) : Except Fault (List PieceView) :=
  v.placePieces (v.leaf.size - Trivia.size v.leaf.trailing) v.leaf.trailing

end LeafView

mutual

def Tree.leavesAt (offset : Nat) : Tree → List LeafView
  | .node _ cs => Forest.leavesAt offset cs
  | .leaf l => [⟨l, offset⟩]

def Forest.leavesAt (offset : Nat) : List Tree → List LeafView
  | [] => []
  | t :: ts => t.leavesAt offset ++ Forest.leavesAt (offset + t.size) ts

end

mutual

def Tree.firstLeaf? (offset : Nat) : Tree → Option LeafView
  | .node _ cs => Forest.firstLeaf? offset cs
  | .leaf l => some ⟨l, offset⟩

def Forest.firstLeaf? (offset : Nat) : List Tree → Option LeafView
  | [] => none
  | t :: _ => t.firstLeaf? offset

end

mutual

def Tree.leafTouching? (target offset : Nat) : Tree → Option LeafView
  | .node _ cs => Forest.leafTouching? target offset cs
  | .leaf l => if (LeafView.mk l offset).trimmedSpan.touches target then some ⟨l, offset⟩ else none

/-- The leaf of a forest whose lexeme touches the target. The first node that touches the target decides;
a leaf that only touches it with trivia is passed over. -/
def Forest.leafTouching? (target offset : Nat) : List Tree → Option LeafView
  | [] => none
  | t :: ts =>
    if (Span.ofSize offset t.size).touches target then
      match t.leafTouching? target offset with
      | some found => some found
      | none => if t.isNode then none else Forest.leafTouching? target (offset + t.size) ts
    else Forest.leafTouching? target (offset + t.size) ts

end

/-! ## Views of trees -/

namespace View

def root (t : Tree) : View :=
  ⟨t, 0⟩

def kind (v : View) : Kind :=
  v.tree.kind

def isNode (v : View) : Bool :=
  v.tree.isNode

def leaf? (v : View) : Option LeafView :=
  match v.tree with
  | .node .. => none
  | .leaf l => some ⟨l, v.offset⟩

def span (v : View) : Span :=
  Span.ofSize v.offset v.tree.size

def text (v : View) : Text :=
  v.tree.text

def placeAll (offset : Nat) : Forest → List View
  | [] => []
  | t :: ts => ⟨t, offset⟩ :: placeAll (offset + t.size) ts

def children (v : View) : List View :=
  placeAll v.offset v.tree.children

def nodes (v : View) : List View :=
  v.children.filter isNode

def tokens (v : View) : List LeafView :=
  v.children.filterMap leaf?

def get? (v : View) : List Nat → Option View
  | [] => some v
  | i :: path =>
    match v.children[i]? with
    | some child => child.get? path
    | none => none

def leaves (v : View) : List LeafView :=
  v.tree.leavesAt v.offset

/-- The leaf reached by always taking the first child; none if that ends in an empty node. -/
def firstLeaf? (v : View) : Option LeafView :=
  v.tree.firstLeaf? v.offset

def lastLeaf? (v : View) : Option LeafView :=
  v.leaves.getLast?

def trimmedSpan (v : View) : Span :=
  match v.firstLeaf?, v.lastLeaf? with
  | some first, some last => first.trimmedSpan.cover last.trimmedSpan
  | _, _ => Span.empty v.offset

def leafTouching? (v : View) (target : Nat) : Option LeafView :=
  Forest.leafTouching? target v.offset v.tree.children

end View

end LispSyntax
