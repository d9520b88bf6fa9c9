import Mathlib.Data.List.Nodup
import LispSyntax.Proofs.Placement

/-! # The order of a walk

A walk through a tree can be taken one visit at a time, with a stack of the nodes that it is in
(`Walker`). The first part shows that this gives the walk, visit by visit.

The second part says what a walk is without the tree. Two elements of a tree can be equal and stand at the
same offset, as two empty nodes side by side, so a view does not tell which element is visited; its path
from the root does. A walk is therefore followed on paths (`Tree.route`). The route enters and leaves every
path of the tree exactly once (`nodup_route` and `mem_route`), and it is nested: what is entered is a child
of the innermost open element, and what is left is the innermost one (`nested_route`).
-/

namespace LispSyntax

/-! ## Elements and paths -/

namespace View

theorem placeAll_flatMap_walk (offset : Nat) (ts : List Tree) :
    (placeAll offset ts).flatMap walk = Forest.walkAt offset ts := by
  induction ts generalizing offset with
  | nil => rfl
  | cons t ts inductionHypothesis =>
    rw [placeAll, List.flatMap_cons, inductionHypothesis, Forest.walkAt]
    rfl

/-- A walk enters an element, walks through its children and leaves it. -/
theorem walk_eq (v : View) : v.walk = .enter v :: (v.children.flatMap walk ++ [.leave v]) := by
  obtain ⟨tree, offset⟩ := v
  cases tree with
  | node kind ts =>
    rw [children, placeAll_flatMap_walk, walk, Tree.walkAt]
    rfl
  | leaf l => rfl

theorem children_of_isNode_eq_false {v : View} (isLeaf : v.isNode = false) : v.children = [] := by
  obtain ⟨tree, offset⟩ := v
  cases tree with
  | node kind ts => contradiction
  | leaf l => rfl

theorem get?_cons (v : View) (i : Nat) (path : List Nat) :
    v.get? (i :: path) = v.children[i]?.bind (·.get? path) := by
  rw [get?]
  cases v.children[i]? <;> rfl

theorem get?_append (v : View) (path rest : List Nat) :
    v.get? (path ++ rest) = (v.get? path).bind (·.get? rest) := by
  induction path generalizing v with
  | nil => rfl
  | cons i path inductionHypothesis =>
    rw [List.cons_append, get?_cons, get?_cons]
    cases v.children[i]? with
    | none => rfl
    | some child => exact inductionHypothesis child

end View

/-! ## Walking step by step -/

/-- A walk under way: the element that it starts with, until this is entered, the leaf that was just
entered, and the nodes it is in, innermost first, each with the children still to come. -/
structure Walker where
  start? : Option View
  leaf? : Option View
  stack : List (View × List View)

namespace Walker

def ofView (v : View) : Walker :=
  ⟨some v, none, []⟩

def next (w : Walker) : Option (Visit × Walker) :=
  match w.start?, w.leaf?, w.stack with
  | some v, leaf?, stack => some (.enter v, ⟨none, leaf?, (v, v.children) :: stack⟩)
  | none, some l, stack => some (.leave l, ⟨none, none, stack⟩)
  | none, none, [] => none
  | none, none, (v, []) :: outer => some (.leave v, ⟨none, none, outer⟩)
  | none, none, (v, c :: cs) :: outer =>
    if c.isNode then some (.enter c, ⟨none, none, (c, c.children) :: (v, cs) :: outer⟩)
    else some (.enter c, ⟨none, some c, (v, cs) :: outer⟩)

/-- The first visits of the walk, at most as many as asked for. -/
def visits : Nat → Walker → List Visit
  | 0, _ => []
  | n + 1, w =>
    match w.next with
    | some (visit, w) => visit :: w.visits n
    | none => []

def rest (w : Walker) : List Visit :=
  (w.leaf?.toList.map .leave) ++
    w.stack.flatMap fun (v, cs) => cs.flatMap View.walk ++ [.leave v]

/-- A step of a walk that has begun is the first of what it has still to visit, and leads to what comes
after. -/
theorem next_rest {w : Walker} (begun : w.start? = none) :
    match w.next with
    | some (visit, w') => w'.start? = none ∧ w.rest = visit :: w'.rest
    | none => w.rest = [] := by
  obtain ⟨start?, leaf?, stack⟩ := w
  obtain rfl : start? = none := begun
  cases leaf? with
  | some l => exact ⟨rfl, rfl⟩
  | none =>
    cases stack with
    | nil => rfl
    | cons top outer =>
      obtain ⟨v, cs⟩ := top
      cases cs with
      | nil => exact ⟨rfl, rfl⟩
      | cons c cs =>
        have walkEq := c.walk_eq
        by_cases isNode : c.isNode = true
        · simp [next, rest, isNode, walkEq]
        · -- A leaf has nothing below it, so it is left in the very next step.
          have none := View.children_of_isNode_eq_false (Bool.eq_false_iff.mpr isNode)
          simp [next, rest, isNode, walkEq, none]

theorem visits_eq {w : Walker} (begun : w.start? = none) (n : Nat) : w.visits n = w.rest.take n := by
  induction n generalizing w with
  | zero => rfl
  | succ n inductionHypothesis =>
    have first := next_rest begun
    rw [visits]
    cases step : w.next with
    | none =>
      simp only [step] at first
      rw [first, List.take_nil]
    | some result =>
      obtain ⟨visit, w'⟩ := result
      simp only [step] at first
      rw [first.2, List.take_succ_cons, ← inductionHypothesis first.1]

/-- However far it is taken, a walk step by step is the walk. -/
theorem visits_ofView (v : View) (n : Nat) : (ofView v).visits n = v.walk.take n := by
  cases n with
  | zero => rfl
  | succ n =>
    rw [v.walk_eq, List.take_succ_cons]
    show Visit.enter v :: visits n ⟨none, none, [(v, v.children)]⟩ = _
    rw [visits_eq rfl]
    simp [rest]

end Walker

/-! ## Walking on paths -/

/-- One step of a walk, with the path of the element. -/
inductive Passage where
  | enter (path : List Nat)
  | leave (path : List Nat)
deriving DecidableEq

namespace Passage

def path : Passage → List Nat
  | enter path => path
  | leave path => path

def visit? (root : View) : Passage → Option Visit
  | enter path => (root.get? path).map .enter
  | leave path => (root.get? path).map .leave

end Passage

mutual

/-- The walk through a tree whose path is given. -/
def Tree.route (path : List Nat) : Tree → List Passage
  | .node _ ts => .enter path :: (Forest.route path 0 ts ++ [.leave path])
  | .leaf _ => [.enter path, .leave path]

/-- The walk through children from the given number on, of the node whose path is given. -/
def Forest.route (path : List Nat) (i : Nat) : List Tree → List Passage
  | [] => []
  | t :: ts => t.route (path ++ [i]) ++ Forest.route path (i + 1) ts

end

mutual

/-- The elements on the route are those of the walk. -/
theorem Tree.route_visits {root : View} : (t : Tree) → (path : List Nat) → (offset : Nat) →
    root.get? path = some ⟨t, offset⟩ →
    (t.route path).map (Passage.visit? root) = (t.walkAt offset).map some
  | .leaf l, path, offset, found => by
    simp [Tree.route, Tree.walkAt, Passage.visit?, found]
  | .node kind ts, path, offset, found => by
    have below : (Forest.route path 0 ts).map (Passage.visit? root) = (Forest.walkAt offset ts).map some := by
      refine Forest.route_visits ts path 0 offset fun j => ?_
      rw [Nat.zero_add, View.get?_append, found, Option.bind_some, View.get?_cons]
      exact Option.bind_fun_some _
    simp [Tree.route, Tree.walkAt, Passage.visit?, found, below]

theorem Forest.route_visits {root : View} : (ts : List Tree) → (path : List Nat) → (i offset : Nat) →
    (∀ j, root.get? (path ++ [i + j]) = (View.placeAll offset ts)[j]?) →
    (Forest.route path i ts).map (Passage.visit? root) = (Forest.walkAt offset ts).map some
  | [], _, _, _, _ => rfl
  | t :: ts, path, i, offset, found => by
    have first := Tree.route_visits t (path ++ [i]) offset (found 0)
    have others := Forest.route_visits ts path (i + 1) (offset + t.size) fun j => by
      have later := found (j + 1)
      rw [show i + (j + 1) = i + 1 + j by omega] at later
      exact later
    rw [Forest.route, Forest.walkAt, List.map_append, List.map_append, first, others]

end

/-! ## Every path once -/

namespace Passage

theorem mem_around {m : Passage} {path : List Nat} {between : List Passage} :
    m ∈ .enter path :: (between ++ [.leave path]) ↔ m.path = path ∨ m ∈ between := by
  cases m <;> simp [Passage.path, or_comm]

end Passage

/-- What is at or below a path is at it, or at or below that of a child. -/
theorem View.exists_below_iff {v : View} {path q : List Nat} :
    (∃ below, q = path ++ below ∧ (v.get? below).isSome) ↔
      q = path ∨ ∃ j below, q = path ++ j :: below ∧ (v.children[j]?.bind (·.get? below)).isSome := by
  constructor
  · rintro ⟨below, rfl, found⟩
    cases below with
    | nil => exact .inl (List.append_nil path)
    | cons j below =>
      rw [get?_cons] at found
      exact .inr ⟨j, below, rfl, found⟩
  · intro cases'
    cases cases' with
    | inl here => exact ⟨[], by simp [here], rfl⟩
    | inr there =>
      obtain ⟨j, below, rfl, found⟩ := there
      exact ⟨j :: below, rfl, by rw [get?_cons]; exact found⟩

mutual

/-- The route is through the paths at which there is an element. -/
theorem Tree.mem_route {m : Passage} : (t : Tree) → (path : List Nat) → (offset : Nat) →
    (m ∈ t.route path ↔ ∃ below, m.path = path ++ below ∧ ((View.mk t offset).get? below).isSome)
  | .leaf l, path, offset => by
    rw [View.exists_below_iff, Tree.route]
    have around : m ∈ .enter path :: ([] ++ [.leave path]) ↔ m.path = path ∨ m ∈ [] := Passage.mem_around
    exact around.trans (by simp [View.children, Tree.children, View.placeAll])
  | .node kind ts, path, offset => by
    have below := Forest.mem_route (m := m) ts path 0 offset
    simp only [Nat.zero_add] at below
    rw [View.exists_below_iff, Tree.route, Passage.mem_around, below]
    rfl

theorem Forest.mem_route {m : Passage} : (ts : List Tree) → (path : List Nat) → (i offset : Nat) →
    (m ∈ Forest.route path i ts ↔ ∃ j below, m.path = path ++ (i + j) :: below ∧
      ((View.placeAll offset ts)[j]?.bind (·.get? below)).isSome)
  | [], _, _, _ => by simp [Forest.route, View.placeAll]
  | t :: ts, path, i, offset => by
    have first := Tree.mem_route (m := m) t (path ++ [i]) offset
    have others := Forest.mem_route (m := m) ts path (i + 1) (offset + t.size)
    rw [Forest.route, List.mem_append, first, others]
    constructor
    · intro member
      cases member with
      | inl inFirst =>
        obtain ⟨below, pathEq, found⟩ := inFirst
        exact ⟨0, below, by simpa using pathEq, found⟩
      | inr inOthers =>
        obtain ⟨j, below, pathEq, found⟩ := inOthers
        exact ⟨j + 1, below, by rw [pathEq, Nat.add_right_comm]; rfl, found⟩
    · rintro ⟨j, below, pathEq, found⟩
      cases j with
      | zero => exact .inl ⟨below, by simpa using pathEq, found⟩
      | succ j => exact .inr ⟨j, below, by rw [pathEq, Nat.add_right_comm]; rfl, found⟩

end

mutual

/-- No passage is taken twice. -/
theorem Tree.nodup_route : (t : Tree) → (path : List Nat) → (t.route path).Nodup
  | .leaf l, path => by simp [Tree.route]
  | .node kind ts, path => by
    have below := Forest.nodup_route ts path 0
    have deeper : ∀ m ∈ Forest.route path 0 ts, m.path ≠ path := by
      intro m member isPath
      obtain ⟨j, rest, pathEq, -⟩ := (Forest.mem_route ts path 0 0).mp member
      simp [isPath] at pathEq
    rw [Tree.route, List.nodup_cons, List.mem_append, List.nodup_append']
    refine ⟨?_, below, List.nodup_singleton _, ?_⟩
    · intro member
      cases member with
      | inl inside => exact deeper _ inside rfl
      | inr isLeave => simp at isLeave
    · intro m inside isLeave
      rw [List.mem_singleton.mp isLeave] at inside
      exact deeper _ inside rfl

theorem Forest.nodup_route : (ts : List Tree) → (path : List Nat) → (i : Nat) →
    (Forest.route path i ts).Nodup
  | [], _, _ => List.nodup_nil
  | t :: ts, path, i => by
    rw [Forest.route, List.nodup_append']
    refine ⟨Tree.nodup_route t (path ++ [i]), Forest.nodup_route ts path (i + 1), ?_⟩
    -- The two parts are below children with different numbers.
    intro m inFirst inOthers
    obtain ⟨below, pathEq, -⟩ := (Tree.mem_route t (path ++ [i]) 0).mp inFirst
    obtain ⟨j, below', pathEq', -⟩ := (Forest.mem_route ts path (i + 1) 0).mp inOthers
    rw [pathEq, List.append_assoc, List.append_cancel_left_eq] at pathEq'
    simp at pathEq'
    omega

end

/-! ## Nesting -/

/-- The element at the path is one to enter when those at the given paths, innermost first, are open: the
root if there are none, and else a child of the innermost. -/
def IsNext (opened : List (List Nat)) (path : List Nat) : Prop :=
  match opened with
  | [] => path = []
  | innermost :: _ => ∃ i, path = innermost ++ [i]

/-- The passages follow the tree from where the given elements, innermost first, have been entered and not
left, until none is open. -/
inductive Nested : List (List Nat) → List Passage → Prop where
  | done : Nested [] []
  | enter {opened : List (List Nat)} {path : List Nat} {ms : List Passage} :
      IsNext opened path → Nested (path :: opened) ms → Nested opened (.enter path :: ms)
  | leave {opened : List (List Nat)} {path : List Nat} {ms : List Passage} :
      Nested opened ms → Nested (path :: opened) (.leave path :: ms)

mutual

/-- A route through a tree can be put in front of what goes on with the same elements open. -/
theorem Tree.nested_route {opened : List (List Nat)} {ms : List Passage} (after : Nested opened ms) :
    (t : Tree) → (path : List Nat) → IsNext opened path → Nested opened (t.route path ++ ms)
  | .leaf l, path, isNext => .enter isNext (.leave after)
  | .node kind ts, path, isNext => by
    rw [Tree.route, List.cons_append, List.append_assoc]
    exact .enter isNext (Forest.nested_route (.leave after) ts 0)

theorem Forest.nested_route {opened : List (List Nat)} {path : List Nat} {ms : List Passage}
    (after : Nested (path :: opened) ms) : (ts : List Tree) → (i : Nat) →
    Nested (path :: opened) (Forest.route path i ts ++ ms)
  | [], _ => after
  | t :: ts, i => by
    rw [Forest.route, List.append_assoc]
    exact Tree.nested_route (Forest.nested_route after ts (i + 1)) t (path ++ [i]) ⟨i, rfl⟩

end

end LispSyntax
