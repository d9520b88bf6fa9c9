import LispSyntax.Proofs.Touching

/-! # No node is empty

The first leaf of a view is looked for by going down first children, and a node without children ends the search. The
last leaf is the last one of a walk, to which such a node does not matter. In any tree, what the search finds is where
the walk begins (`head?_of_firstLeaf?`); and it finds something from every node just where no node is without leaves
(`isSome_firstLeaf?_iff`).

In the trees of the parser no node is, since every production takes a token, also the one for what was given up. So each
of their nodes goes from the lexeme of its first leaf to that of its last (`nodes_filled`).
-/

namespace LispSyntax

/-! ## What the search for the first leaf finds -/

mutual

/-- Going down first children leads to the first of the leaves, if it leads to a leaf. -/
theorem Tree.head?_of_firstLeaf? {l : LeafView} : (t : Tree) → (offset : Nat) → t.firstLeaf? offset = some l →
    (t.leavesAt offset).head? = some l
  | .node kind ts, offset, found => by
    rw [Tree.firstLeaf?] at found
    rw [Tree.leavesAt]
    exact Forest.head?_of_firstLeaf? ts offset found
  | .leaf leaf, offset, found => by
    rw [Tree.firstLeaf?] at found
    rw [Tree.leavesAt, List.head?_cons]
    exact found

theorem Forest.head?_of_firstLeaf? {l : LeafView} : (ts : List Tree) → (offset : Nat) →
    Forest.firstLeaf? offset ts = some l → (Forest.leavesAt offset ts).head? = some l
  | [], offset, found => by
    rw [Forest.firstLeaf?] at found
    contradiction
  | t :: ts, offset, found => by
    rw [Forest.firstLeaf?] at found
    rw [Forest.leavesAt, List.head?_append, Tree.head?_of_firstLeaf? t offset found, Option.some_or]

end

/-! ## When it finds something -/

mutual

theorem Tree.isSome_firstLeaf? : (t : Tree) → (offset : Nat) → (∀ w ∈ t.nodesAt offset, w.leaves ≠ []) →
    ∀ w ∈ t.nodesAt offset, w.firstLeaf?.isSome = true
  | .node kind ts, offset, filled, w, member => by
    rw [Tree.nodesAt_node] at filled member
    have below := Forest.isSome_firstLeaf? ts offset fun u deeper => filled u (List.mem_cons_of_mem _ deeper)
    cases List.mem_cons.mp member with
    | inr deeper => exact below w deeper
    | inl isRoot =>
      have someLeaf := filled _ List.mem_cons_self
      rw [isRoot, View.firstLeaf?, Tree.firstLeaf?]
      -- The search goes on in the first child: there is one, and if it is a node, it is one of those below.
      cases ts with
      | nil => exact absurd rfl someLeaf
      | cons t ts =>
        rw [Forest.firstLeaf?]
        cases t with
        | leaf leaf => rfl
        | node kind children => exact below ⟨.node kind children, offset⟩ (by simp)
  | .leaf leaf, offset, _, w, member => by
    rw [Tree.nodesAt_leaf] at member
    contradiction

theorem Forest.isSome_firstLeaf? : (ts : List Tree) → (offset : Nat) →
    (∀ w ∈ Forest.nodesAt offset ts, w.leaves ≠ []) →
    ∀ w ∈ Forest.nodesAt offset ts, w.firstLeaf?.isSome = true
  | [], offset, _, w, member => by
    rw [Forest.nodesAt_nil] at member
    contradiction
  | t :: ts, offset, filled, w, member => by
    rw [Forest.nodesAt_cons] at filled member
    cases List.mem_append.mp member with
    | inl inFirst =>
      exact Tree.isSome_firstLeaf? t offset (fun u inside => filled u (List.mem_append_left _ inside)) w inFirst
    | inr inRest =>
      exact Forest.isSome_firstLeaf? ts (offset + t.size) (fun u inside => filled u (List.mem_append_right _ inside))
        w inRest

end

/-- A first leaf is found from every node just where no node is without leaves. -/
theorem View.isSome_firstLeaf?_iff {v : View} :
    (∀ w ∈ v.descendants, w.firstLeaf?.isSome = true) ↔ ∀ w ∈ v.descendants, w.leaves ≠ [] := by
  constructor
  · intro found w member bare
    obtain ⟨l, first⟩ := Option.isSome_iff_exists.mp (found w member)
    have head : w.leaves.head? = some l := Tree.head?_of_firstLeaf? w.tree w.offset first
    rw [bare] at head
    contradiction
  · exact Tree.isSome_firstLeaf? v.tree v.offset

/-- An empty node hides the leaf behind it. -/
example (l : Leaf) :
    (View.root (.node .source [.node .error [], .leaf l])).leaves = [⟨l, 0⟩] ∧
      (View.root (.node .source [.node .error [], .leaf l])).firstLeaf? = none :=
  ⟨rfl, rfl⟩

/-! ## From the first leaf to the last -/

/-- The view goes from the one leaf to the other. They are found as its first and its last leaf, and a walk below it
begins and ends with them; its span without trivia goes from the lexeme of the one to the lexeme of the other, and does
not leave its span with trivia. -/
structure View.RunsFrom (v : View) (first last : LeafView) : Prop where
  firstLeaf : v.firstLeaf? = some first
  lastLeaf : v.lastLeaf? = some last
  head : v.descendantLeaves.head? = some first
  getLast : v.descendantLeaves.getLast? = some last
  start : v.trimmedSpan.start = first.trimmedSpan.start
  stop : v.trimmedSpan.stop = last.trimmedSpan.stop
  inOrder : first.trimmedSpan.start ≤ last.trimmedSpan.stop
  within : v.span.start ≤ v.trimmedSpan.start ∧ v.trimmedSpan.stop ≤ v.span.stop

/-- Of leaves in order, the lexeme of the first neither starts nor stops behind that of another. -/
theorem LeafView.trimmedSpan_le {first l : LeafView} {leaves : List LeafView}
    (inOrder : leaves.Pairwise fun a b => a.span.stop ≤ b.span.start) (head : leaves.head? = some first)
    (member : l ∈ leaves) :
    first.trimmedSpan.start ≤ l.trimmedSpan.start ∧ first.trimmedSpan.stop ≤ l.trimmedSpan.stop := by
  obtain ⟨rest, rfl⟩ := List.head?_eq_some_iff.mp head
  cases List.mem_cons.mp member with
  | inl isFirst =>
    subst isFirst
    exact ⟨Nat.le_refl _, Nat.le_refl _⟩
  | inr later =>
    have apart := List.rel_of_pairwise_cons inOrder later
    have within := first.trimmedSpan_within
    have within' := l.trimmedSpan_within
    have ordered := first.trimmedSpan.start_le_stop
    have ordered' := l.trimmedSpan.start_le_stop
    omega

/-- The lexeme of each leaf below a view lies in the span of the view. -/
theorem View.trimmedSpan_within {v : View} {l : LeafView} (member : l ∈ v.leaves) :
    v.span.start ≤ l.trimmedSpan.start ∧ l.trimmedSpan.stop ≤ v.span.stop := by
  have inside := Tree.leavesAt_within v.tree v.offset l member
  have within := l.trimmedSpan_within
  exact ⟨Nat.le_trans inside.1 within.1, Nat.le_trans within.2 inside.2⟩

/-- Any view from which a first leaf is found goes from this leaf to its last. -/
theorem View.exists_runsFrom {v : View} {first : LeafView} (found : v.firstLeaf? = some first) :
    ∃ last, v.RunsFrom first last := by
  have head : v.leaves.head? = some first := Tree.head?_of_firstLeaf? v.tree v.offset found
  obtain ⟨last, isLast⟩ : ∃ last, v.leaves.getLast? = some last := by
    obtain ⟨rest, leaves⟩ := List.head?_eq_some_iff.mp head
    exact ⟨_, by rw [leaves, List.getLast?_cons]⟩
  have firstIn := trimmedSpan_within (List.mem_of_mem_head? head)
  have lastIn := trimmedSpan_within (List.mem_of_getLast? isLast)
  obtain ⟨starts, stops⟩ := LeafView.trimmedSpan_le (Tree.pairwise_leavesAt v.tree v.offset) head
    (List.mem_of_getLast? isLast)
  -- The span is the least one around both lexemes; which of them it starts and stops with is up to their order.
  have trimmed : v.trimmedSpan = first.trimmedSpan.cover last.trimmedSpan := by
    rw [trimmedSpan, found, lastLeaf?, isLast]
  have startEq : v.trimmedSpan.start = first.trimmedSpan.start := by
    rw [trimmed]
    exact Nat.min_eq_left starts
  have stopEq : v.trimmedSpan.stop = last.trimmedSpan.stop := by
    rw [trimmed]
    exact Nat.max_eq_right stops
  have leavesEq := v.descendantLeaves_eq
  exact ⟨last, {
    firstLeaf := found
    lastLeaf := isLast
    head := by rw [leavesEq]; exact head
    getLast := by rw [leavesEq]; exact isLast
    start := startEq
    stop := stopEq
    inOrder := Nat.le_trans starts last.trimmedSpan.start_le_stop
    within := by rw [startEq, stopEq]; exact ⟨firstIn.1, lastIn.2⟩ }⟩

/-! ## Trees of the parser -/

/-- No node of a parsed tree is without leaves. -/
theorem View.leaves_ne_nil_of_parse {text : Text} {r : Registry} {result : Parse}
    (parsed : parse text r = .ok result) : ∀ v ∈ result.root.descendants, v.leaves ≠ [] := by
  intro v member
  obtain ⟨start, d, drafted, table⟩ := exists_drafted text r
  obtain rfl := drafted.eq_of_parse_eq_ok parsed
  have filled : ∀ n ∈ Outline.nodesAll [d], n.2 ≠ [] := by
    intro n found
    rw [Outline.nodesAll, Outline.nodesAll, List.append_nil] at found
    -- Nodes have children whatever was reported, so the table is asked for a run that need not be quiet.
    exact Grammar.children_ne_nil (table False False.elim n found)
  apply Draft.leaves_ne_nil_of_mem drafted.placed filled
  rw [Draft.trees_cons, Draft.trees_nil, Forest.nodesAt_cons, Forest.nodesAt_nil, List.append_nil]
  exact member

/-- No node of a parsed tree is empty: each has a first leaf and a last one, found in either way, and goes from the
lexeme of the first to that of the last. -/
theorem nodes_filled (text : Text) (r : Registry) :
    (Text.size text < sizeLimit → LogFits text r → ∃ result, parse text r = .ok result) ∧
    ∀ result, parse text r = .ok result →
      ∀ v ∈ result.root.descendants, ∃ first last, v.RunsFrom first last := by
  refine ⟨exists_parse, fun result parsed v member => ?_⟩
  have found := View.isSome_firstLeaf?_iff.mpr (View.leaves_ne_nil_of_parse parsed) v member
  obtain ⟨first, isFirst⟩ := Option.isSome_iff_exists.mp found
  exact ⟨first, View.exists_runsFrom isFirst⟩

/-- A condition that is not closed; its last form is a mark with nothing to mark, so that three nodes share one leaf. -/
def unmarkedSample : Text :=
  "(cond a 1 ^ ; é".toList

/-- The fallback of the sample holds nothing but the mark. -/
theorem nodes_filled_unmarkedSample :
    ∃ result, parse unmarkedSample .empty = .ok result ∧
      ∃ v ∈ result.root.descendants, v.kind = .condFallback ∧ ∃ first last, v.RunsFrom first last := by
  have found : (parse unmarkedSample .empty).toOption.any (fun result =>
      result.root.descendants.any fun v => v.kind == .condFallback) = true := by
    decide +kernel
  obtain ⟨result, parsed, found⟩ := exists_parse_of_any found
  simp only [List.any_eq_true, beq_iff_eq] at found
  obtain ⟨v, member, isFallback⟩ := found
  exact ⟨result, parsed, v, member, isFallback, (nodes_filled unmarkedSample .empty).2 result parsed v member⟩

end LispSyntax
