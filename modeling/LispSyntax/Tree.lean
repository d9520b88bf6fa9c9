import LispSyntax.Trivia

/-! # Syntax trees

A tree is lossless: its leaves hold every character of the source, trivia included, and nothing in it
depends on where it stands. Nodes may be empty and may carry any kind; what the parser builds is
narrower. Each function on trees has a companion on forests, and the two recurse over the data.
-/

namespace LispSyntax

/-- A token as a leaf of a tree. The text covers the trivia before and after the lexeme. -/
structure Leaf where
  leading : Trivia
  kind : Kind
  text : Text
  trailing : Trivia
  fits : Trivia.size leading + Trivia.size trailing ≤ Text.size text
deriving DecidableEq

namespace Leaf

/-- The leaf of the given parts, whose trivia has to fit in the text. -/
def ofParts (leading : Trivia) (kind : Kind) (text : Text) (trailing : Trivia) :
    Except Fault Leaf :=
  if Trivia.size leading + Trivia.size trailing < sizeLimit then
    if h : Trivia.size leading + Trivia.size trailing ≤ Text.size text then
      .ok ⟨leading, kind, text, trailing, h⟩
    else .error .triviaTooLong
  else .error .sizeOverflow

def size (l : Leaf) : Nat :=
  Text.size l.text

/-- The text without the trivia around it, if these end at characters. -/
def trimmed (l : Leaf) : Except Fault Text :=
  match Text.slice? l.text (Trivia.size l.leading) (l.size - Trivia.size l.trailing) with
  | some text => .ok text
  | none => .error .offText

end Leaf

inductive Tree where
  | node (kind : Kind) (children : List Tree)
  | leaf (leaf : Leaf)

abbrev Forest := List Tree

mutual

def Tree.decEq : (a b : Tree) → Decidable (a = b)
  | .node k as, .node l bs =>
    if sameKind : k = l then
      match Forest.decEq as bs with
      | isTrue h => isTrue (by rw [sameKind, h])
      | isFalse h => isFalse (by simp [h])
    else isFalse (by simp [sameKind])
  | .leaf a, .leaf b => if h : a = b then isTrue (by rw [h]) else isFalse (by simp [h])
  | .node .., .leaf _ => isFalse (by simp)
  | .leaf _, .node .. => isFalse (by simp)

def Forest.decEq : (as bs : List Tree) → Decidable (as = bs)
  | [], [] => isTrue rfl
  | [], _ :: _ => isFalse (by simp)
  | _ :: _, [] => isFalse (by simp)
  | a :: as, b :: bs =>
    match Tree.decEq a b with
    | isTrue h =>
      match Forest.decEq as bs with
      | isTrue hs => isTrue (by rw [h, hs])
      | isFalse hs => isFalse (by simp [hs])
    | isFalse h => isFalse (by simp [h])

end

instance : DecidableEq Tree := Tree.decEq

/-! ## Kind, size and text -/

namespace Tree

def kind : Tree → Kind
  | node k _ => k
  | leaf l => l.kind

def children : Tree → Forest
  | node _ cs => cs
  | leaf _ => []

def isNode : Tree → Bool
  | node .. => true
  | leaf _ => false

end Tree

mutual

def Tree.size : Tree → Nat
  | .node _ cs => Forest.size cs
  | .leaf l => l.size

def Forest.size : List Tree → Nat
  | [] => 0
  | t :: ts => t.size + Forest.size ts

end

mutual

def Tree.text : Tree → Text
  | .node _ cs => Forest.text cs
  | .leaf l => l.text

def Forest.text : List Tree → Text
  | [] => []
  | t :: ts => t.text ++ Forest.text ts

end

mutual

def Tree.leaves : Tree → List Leaf
  | .node _ cs => Forest.leaves cs
  | .leaf l => [l]

def Forest.leaves : List Tree → List Leaf
  | [] => []
  | t :: ts => t.leaves ++ Forest.leaves ts

end

mutual

def Tree.nodeKinds : Tree → List Kind
  | .node k cs => k :: Forest.nodeKinds cs
  | .leaf _ => []

def Forest.nodeKinds : List Tree → List Kind
  | [] => []
  | t :: ts => t.nodeKinds ++ Forest.nodeKinds ts

end

@[simp] theorem Forest.size_append (as bs : List Tree) :
    Forest.size (as ++ bs) = Forest.size as + Forest.size bs := by
  induction as with
  | nil => simp [Forest.size]
  | cons a as ih => simp [Forest.size, ih, Nat.add_assoc]

@[simp] theorem Forest.text_append (as bs : List Tree) :
    Forest.text (as ++ bs) = Forest.text as ++ Forest.text bs := by
  induction as with
  | nil => simp [Forest.text]
  | cons a as ih => simp [Forest.text, ih]

@[simp] theorem Forest.leaves_append (as bs : List Tree) :
    Forest.leaves (as ++ bs) = Forest.leaves as ++ Forest.leaves bs := by
  induction as with
  | nil => simp [Forest.leaves]
  | cons a as ih => simp [Forest.leaves, ih]

mutual

/-- The size of a tree is the size of its text. -/
theorem Tree.size_text : (t : Tree) → Text.size t.text = t.size
  | .node _ cs => by simpa [Tree.text, Tree.size] using Forest.size_text cs
  | .leaf l => rfl

theorem Forest.size_text : (ts : List Tree) → Text.size (Forest.text ts) = Forest.size ts
  | [] => rfl
  | t :: ts => by simp [Forest.text, Forest.size, Tree.size_text t, Forest.size_text ts]

end

end LispSyntax
