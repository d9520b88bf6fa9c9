import LispSyntax.Proofs.Layout
import LispSyntax.Tree.Walk

/-! # The tree of a draft in its place

Nothing in a tree says where it stands; a view adds the offset. Where the tokens of a draft follow one another
without a gap, the views into its tree find each leaf at the place of its token, and each node on the walk is a
node of the draft, with the children of the draft.
-/

namespace LispSyntax

/-! ## Walks -/

def Visit.leaf? : Visit → Option LeafView
  | .enter e => e.leaf?
  | .leave _ => none

def Visit.node? : Visit → Option View
  | .enter e => if e.isNode then some e else none
  | .leave _ => none

mutual

theorem Tree.leaves_walkAt (offset : Nat) : (t : Tree) →
    (t.walkAt offset).filterMap Visit.leaf? = t.leavesAt offset
  | .node kind children => by
    rw [Tree.walkAt, List.filterMap_cons_none rfl, List.filterMap_append,
      Forest.leaves_walkAt offset children, List.filterMap_cons_none rfl, List.filterMap_nil,
      List.append_nil, Tree.leavesAt]
  | .leaf l => rfl

theorem Forest.leaves_walkAt (offset : Nat) : (ts : List Tree) →
    (Forest.walkAt offset ts).filterMap Visit.leaf? = Forest.leavesAt offset ts
  | [] => rfl
  | t :: ts => by
    rw [Forest.walkAt, List.filterMap_append, Forest.leavesAt, Tree.leaves_walkAt offset t,
      Forest.leaves_walkAt (offset + t.size) ts]

end

/-- The leaves met on a walk are the leaves from left to right. -/
theorem View.descendantLeaves_eq (v : View) : v.descendantLeaves = v.leaves :=
  Tree.leaves_walkAt v.offset v.tree

theorem View.mem_descendants {v w : View} : w ∈ v.descendants ↔
    w ∈ (v.tree.walkAt v.offset).filterMap Visit.node? :=
  Iff.rfl

/-! ## Sizes -/

namespace Token

theorem contiguous_append {start stop : Nat} {ts us : List Token} :
    Contiguous start (ts ++ us) stop ↔ ∃ middle, Contiguous start ts middle ∧ Contiguous middle us stop := by
  induction ts generalizing start with
  | nil => simp [Contiguous]
  | cons t ts inductionHypothesis => simp only [List.cons_append, Contiguous, inductionHypothesis]; grind

theorem LiesIn.size_leaf {text : Text} {t : Token} (lies : t.LiesIn text) (kind : Kind) :
    t.fullSpan.start + (t.leaf text kind).size = t.fullSpan.stop := by
  rw [lies.leaf_eq]
  obtain ⟨left, before, after, stretch, right, rfl, covers⟩ := lies
  have whole := congrArg Text.size covers.parts
  have beforeSize := covers.before_size
  have afterSize := covers.after_size
  have startEq := covers.start_eq
  have stopEq := covers.stop_eq
  simp only [Text.size_append] at whole
  simp only [Leaf.size, cover_of_covers covers, fullSpan]
  omega

/-- The lexeme stands in the leaf where the token says. -/
theorem LiesIn.trimmedSpan_leaf {text : Text} {t : Token} (lies : t.LiesIn text) (kind : Kind) :
    (LeafView.mk (t.leaf text kind) t.fullSpan.start).trimmedSpan = t.span := by
  have size := lies.size_leaf kind
  have leafEq := lies.leaf_eq kind
  obtain ⟨left, before, after, stretch, right, rfl, covers⟩ := lies
  have beforeSize := covers.before_size
  have startEq := covers.start_eq
  have stopEq := covers.stop_eq
  have inOrder := t.span.start_le_stop
  cases spanEq : t.span with
  | mk start stop start_le_stop =>
    simp only [LeafView.trimmedSpan, Span.mk.injEq, leafEq]
    rw [leafEq] at size
    simp only [fullSpan, spanEq] at size startEq stopEq ⊢
    omega

theorem LiesIn.trimmed_leaf {text : Text} {t : Token} (lies : t.LiesIn text) (kind : Kind) :
    (t.leaf text kind).trimmed = .ok t.text := by
  rw [lies.leaf_eq]
  obtain ⟨left, before, after, stretch, right, rfl, covers⟩ := lies
  have stop : stretch.size - Trivia.size t.trailing = before.size + Text.size t.text := by
    rw [covers.parts, ← covers.after_size]
    simp only [Text.size_append]
    omega
  simp only [Leaf.trimmed, Leaf.size, cover_of_covers covers]
  rw [stop, ← covers.before_size, covers.parts, Text.slice?_append]

end Token

namespace Draft

variable {text : Text} {start stop : Nat}

/-- The drafts' tokens lie in the text, one after the other between the two offsets. -/
def Placed (text : Text) (start : Nat) (ds : List Draft) (stop : Nat) : Prop :=
  (∀ t ∈ tokensAll ds, t.LiesIn text) ∧ Token.Contiguous start (tokensAll ds) stop

theorem placed_cons {d : Draft} {ds : List Draft} : Placed text start (d :: ds) stop ↔
    ∃ middle, Placed text start [d] middle ∧ Placed text middle ds stop := by
  simp only [Placed, tokensAll_cons, tokensAll_nil, List.append_nil, List.mem_append,
    Token.contiguous_append]
  grind

theorem placed_node {kind : Kind} {ds : List Draft} :
    Placed text start [.node kind ds] stop ↔ Placed text start ds stop := by
  simp [Placed]

theorem Placed.token {t : Token} (kind : Kind) (placed : Placed text start [Draft.token kind t] stop) :
    t.LiesIn text ∧ t.fullSpan.start = start ∧ t.fullSpan.stop = stop := by
  obtain ⟨lies, startEq, stopEq⟩ := placed
  exact ⟨lies t (by simp), startEq, stopEq⟩

mutual

theorem size_tree : (d : Draft) → {start stop : Nat} → Placed text start [d] stop →
    start + (d.tree text).size = stop
  | .node kind children, _, _, placed => by
    rw [tree, Tree.size]
    exact size_trees children (placed_node.mp placed)
  | .leaf (kind, t), _, _, placed => by
    obtain ⟨lies, rfl, rfl⟩ := Placed.token kind placed
    exact lies.size_leaf kind

theorem size_trees : (ds : List Draft) → {start stop : Nat} → Placed text start ds stop →
    start + Forest.size (trees text ds) = stop
  | [], _, _, placed => placed.2
  | d :: ds, _, _, placed => by
    obtain ⟨middle, first, rest⟩ := placed_cons.mp placed
    have sizes := size_tree d first
    rw [trees_cons, Forest.size, ← Nat.add_assoc, sizes]
    exact size_trees ds rest

end

/-! ## Leaves -/

def leafView (text : Text) (leaf : Kind × Token) : LeafView :=
  ⟨leaf.2.leaf text leaf.1, leaf.2.fullSpan.start⟩

mutual

theorem leavesAt_tree : (d : Draft) → {start stop : Nat} → Placed text start [d] stop →
    (d.tree text).leavesAt start = d.leaves.map (leafView text)
  | .node kind children, _, _, placed => by
    rw [tree, Tree.leavesAt, Outline.leaves_node]
    exact leavesAt_trees children (placed_node.mp placed)
  | .leaf (kind, t), _, _, placed => by
    obtain ⟨-, rfl, -⟩ := Placed.token kind placed
    rfl

theorem leavesAt_trees : (ds : List Draft) → {start stop : Nat} → Placed text start ds stop →
    Forest.leavesAt start (trees text ds) = (Outline.leavesAll ds).map (leafView text)
  | [], _, _, _ => rfl
  | d :: ds, _, _, placed => by
    obtain ⟨middle, first, rest⟩ := placed_cons.mp placed
    rw [trees_cons, Forest.leavesAt, Outline.leavesAll_cons, List.map_append, leavesAt_tree d first,
      size_tree d first, leavesAt_trees ds rest]

end

/-- The leaf reached by always taking the first child. -/
theorem firstLeaf?_trees {kind : Kind} {t : Token} {ds : List Draft}
    (placed : Placed text start (Draft.token kind t :: ds) stop) :
    Forest.firstLeaf? start (trees text (Draft.token kind t :: ds)) = some (leafView text (kind, t)) := by
  obtain ⟨middle, first, -⟩ := placed_cons.mp placed
  obtain ⟨-, rfl, -⟩ := first.token kind
  rfl

/-! ## Nodes and their children -/

/-- The view is of a node of the draft. -/
def Views (text : Text) (v : View) (n : Kind × List Draft) : Prop :=
  v.tree = .node n.1 (trees text n.2) ∧ ∃ stop, Placed text v.offset n.2 stop

mutual

theorem exists_node_of_walk : (d : Draft) → {start stop : Nat} → Placed text start [d] stop →
    ∀ v ∈ ((d.tree text).walkAt start).filterMap Visit.node?, ∃ n ∈ d.nodes, Views text v n
  | .node kind children, start, stop, placed, v, member => by
    have inside := placed_node.mp placed
    simp only [tree, Tree.walkAt, List.filterMap_cons, Visit.node?, View.isNode, Tree.isNode, if_true,
      List.filterMap_append, List.filterMap_nil, List.append_nil, List.mem_cons] at member
    cases member with
    | inl isRoot =>
      subst isRoot
      exact ⟨(kind, children), by simp, rfl, stop, inside⟩
    | inr below =>
      obtain ⟨n, found, views⟩ := exists_node_of_walks children inside v below
      exact ⟨n, by simp only [Outline.nodes_node, List.mem_cons]; exact .inr found, views⟩
  | .leaf (kind, t), _, _, _, v, member => by
    simp [tree, Tree.walkAt, Visit.node?, View.isNode, Tree.isNode] at member

theorem exists_node_of_walks : (ds : List Draft) → {start stop : Nat} → Placed text start ds stop →
    ∀ v ∈ (Forest.walkAt start (trees text ds)).filterMap Visit.node?,
      ∃ n ∈ Outline.nodesAll ds, Views text v n
  | [], _, _, _, v, member => by simp [Forest.walkAt] at member
  | d :: ds, _, _, placed, v, member => by
    obtain ⟨middle, first, rest⟩ := placed_cons.mp placed
    rw [trees_cons, Forest.walkAt, List.filterMap_append, List.mem_append, size_tree d first] at member
    cases member with
    | inl member =>
      obtain ⟨n, found, views⟩ := exists_node_of_walk d first v member
      exact ⟨n, Outline.mem_nodesAll.mpr ⟨d, by simp, found⟩, views⟩
    | inr member =>
      obtain ⟨n, found, views⟩ := exists_node_of_walks ds rest v member
      obtain ⟨e, inside, below⟩ := Outline.mem_nodesAll.mp found
      exact ⟨n, Outline.mem_nodesAll.mpr ⟨e, by simp [inside], below⟩, views⟩

end

mutual

theorem exists_walk_of_node : (d : Draft) → {start stop : Nat} → Placed text start [d] stop →
    ∀ n ∈ d.nodes, ∃ v ∈ ((d.tree text).walkAt start).filterMap Visit.node?, Views text v n
  | .node kind children, start, stop, placed, n, member => by
    have inside := placed_node.mp placed
    simp only [tree, Tree.walkAt, List.filterMap_cons, Visit.node?, View.isNode, Tree.isNode, if_true,
      List.filterMap_append, List.filterMap_nil, List.append_nil]
    cases List.mem_cons.mp member with
    | inl isRoot => exact ⟨_, List.mem_cons_self, by rw [isRoot]; exact ⟨rfl, stop, inside⟩⟩
    | inr below =>
      obtain ⟨v, met, views⟩ := exists_walk_of_nodes children inside n below
      exact ⟨v, List.mem_cons_of_mem _ met, views⟩
  | .leaf _, _, _, _, n, member => by simp at member

theorem exists_walk_of_nodes : (ds : List Draft) → {start stop : Nat} → Placed text start ds stop →
    ∀ n ∈ Outline.nodesAll ds,
      ∃ v ∈ (Forest.walkAt start (trees text ds)).filterMap Visit.node?, Views text v n
  | [], _, _, _, n, member => by simp at member
  | d :: ds, _, _, placed, n, member => by
    obtain ⟨middle, first, rest⟩ := placed_cons.mp placed
    rw [trees_cons, Forest.walkAt, List.filterMap_append, size_tree d first]
    rw [Outline.nodesAll, List.mem_append] at member
    cases member with
    | inl inFirst =>
      obtain ⟨v, met, views⟩ := exists_walk_of_node d first n inFirst
      exact ⟨v, List.mem_append_left _ met, views⟩
    | inr inRest =>
      obtain ⟨v, met, views⟩ := exists_walk_of_nodes ds rest n inRest
      exact ⟨v, List.mem_append_right _ met, views⟩

end

/-- A child that is a leaf is the leaf of a token of the draft, in its place. -/
theorem exists_token_of_child {ds : List Draft} (placed : Placed text start ds stop) {i : Nat}
    {l : LeafView} (child : (View.placeAll start (trees text ds))[i]?.bind View.leaf? = some l) :
    ∃ kind t, ds[i]? = some (Draft.token kind t) ∧ l = leafView text (kind, t) ∧ t.LiesIn text := by
  induction ds generalizing start i with
  | nil => simp [View.placeAll] at child
  | cons d ds inductionHypothesis =>
    obtain ⟨middle, first, rest⟩ := placed_cons.mp placed
    rw [trees_cons, View.placeAll, size_tree d first] at child
    cases i with
    | succ i => exact inductionHypothesis rest child
    | zero =>
      cases d with
      | node kind children => simp [tree, View.leaf?] at child
      | leaf leaf =>
        obtain ⟨lies, startEq, -⟩ := Placed.token leaf.1 first
        refine ⟨leaf.1, leaf.2, rfl, ?_, lies⟩
        rw [leafView, startEq]
        simpa [tree, View.leaf?] using child.symm

theorem child_of_token {ds : List Draft} (placed : Placed text start ds stop) {i : Nat} {kind : Kind} {t : Token}
    (found : ds[i]? = some (Draft.token kind t)) :
    (View.placeAll start (trees text ds))[i]?.bind View.leaf? = some (leafView text (kind, t)) := by
  induction ds generalizing start i with
  | nil => contradiction
  | cons d ds inductionHypothesis =>
    obtain ⟨middle, first, rest⟩ := placed_cons.mp placed
    rw [trees_cons, View.placeAll, size_tree d first]
    cases i with
    | succ i => exact inductionHypothesis rest found
    | zero =>
      obtain rfl := Option.some.inj found
      obtain ⟨-, startEq, -⟩ := Placed.token kind first
      rw [leafView, startEq]
      rfl

end Draft

end LispSyntax
