import LispSyntax.Tree.View

/-! # Walks

A walk goes through a tree in source order and meets every element twice: when it enters it and when it
leaves it, with all that lies below in between.
-/

namespace LispSyntax

/-- One step of a walk. -/
inductive Visit where
  | enter (element : View)
  | leave (element : View)
deriving DecidableEq

mutual

def Tree.walkAt (offset : Nat) : Tree → List Visit
  | .node k cs =>
    .enter ⟨.node k cs, offset⟩ :: (Forest.walkAt offset cs ++ [.leave ⟨.node k cs, offset⟩])
  | .leaf l => [.enter ⟨.leaf l, offset⟩, .leave ⟨.leaf l, offset⟩]

def Forest.walkAt (offset : Nat) : List Tree → List Visit
  | [] => []
  | t :: ts => t.walkAt offset ++ Forest.walkAt (offset + t.size) ts

end

namespace View

def walk (v : View) : List Visit :=
  v.tree.walkAt v.offset

def descendants (v : View) : List View :=
  v.walk.filterMap fun
    | .enter e => if e.isNode then some e else none
    | .leave _ => none

def descendantLeaves (v : View) : List LeafView :=
  v.walk.filterMap fun
    | .enter e => e.leaf?
    | .leave _ => none

end View

end LispSyntax
