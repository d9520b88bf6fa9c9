import LispSyntax.Proofs.Positions

/-! # The leaf at an offset

Looking for the leaf at an offset goes down the first child that touches it, and does not come back from a node.
What is found is right: a leaf below, whose lexeme touches the offset. Something is found wherever a lexeme
touches the offset, but for one case (`leafTouching?_isSome_iff`): a node below ends there with trivia, so the
search goes down that node, and the lexeme that begins at the offset, in the next child, is never looked at.

The only thing that the argument needs of a tree of the parser is that no node is without leaves.
-/

namespace LispSyntax

/-- The view ends at the offset, and its last lexeme before it, so that only trivia reaches the offset. -/
def View.EndsInTrivia (target : Nat) (v : View) : Prop :=
  v.span.stop = target ∧ ∃ last, v.lastLeaf? = some last ∧ last.trimmedSpan.stop < target

/-- Some lexeme of the leaves touches the offset. -/
def LeafView.Touched (target : Nat) (leaves : List LeafView) : Prop :=
  ∃ l ∈ leaves, l.trimmedSpan.touches target = true

open LeafView (Touched)

/-! ## Nodes of a placed tree -/

/-- The nodes of a tree that starts at the offset, each before those below it. -/
def Tree.nodesAt (offset : Nat) (t : Tree) : List View :=
  (t.walkAt offset).filterMap Visit.node?

/-- The nodes of a forest that starts at the offset, each before those below it. -/
def Forest.nodesAt (offset : Nat) (ts : List Tree) : List View :=
  (Forest.walkAt offset ts).filterMap Visit.node?

@[simp] theorem Forest.nodesAt_nil (offset : Nat) : Forest.nodesAt offset [] = [] := rfl

@[simp] theorem Forest.nodesAt_cons (offset : Nat) (t : Tree) (ts : List Tree) :
    Forest.nodesAt offset (t :: ts) = t.nodesAt offset ++ Forest.nodesAt (offset + t.size) ts := by
  simp only [Forest.nodesAt, Tree.nodesAt, Forest.walkAt, List.filterMap_append]

@[simp] theorem Tree.nodesAt_leaf (offset : Nat) (l : Leaf) : (Tree.leaf l).nodesAt offset = [] := rfl

@[simp] theorem Tree.nodesAt_node (offset : Nat) (kind : Kind) (ts : List Tree) :
    (Tree.node kind ts).nodesAt offset = ⟨.node kind ts, offset⟩ :: Forest.nodesAt offset ts := by
  simp only [Tree.nodesAt, Tree.walkAt, Forest.nodesAt, List.filterMap_cons, Visit.node?, View.isNode, Tree.isNode,
    if_true, List.filterMap_append, List.filterMap_nil, List.append_nil]

theorem View.descendants_eq (v : View) : v.descendants = v.tree.nodesAt v.offset := rfl

/-! ## What lies below a tree lies in its span -/

theorem Span.touches_iff {s : Span} {target : Nat} :
    s.touches target = true ↔ s.start ≤ target ∧ target ≤ s.stop := by
  simp [Span.touches]

/-- The lexeme lies in the span with trivia. -/
theorem LeafView.trimmedSpan_within (l : LeafView) :
    l.span.start ≤ l.trimmedSpan.start ∧ l.trimmedSpan.stop ≤ l.span.stop := by
  simp only [LeafView.span, LeafView.trimmedSpan, Span.ofSize]
  omega

theorem Tree.leavesAt_within (t : Tree) (offset : Nat) :
    ∀ l ∈ t.leavesAt offset, offset ≤ l.span.start ∧ l.span.stop ≤ offset + t.size :=
  fun l member => (t.adjoin_leavesAt offset).within l.span (List.mem_map_of_mem member)

theorem Forest.leavesAt_within (ts : List Tree) (offset : Nat) :
    ∀ l ∈ Forest.leavesAt offset ts, offset ≤ l.span.start ∧ l.span.stop ≤ offset + Forest.size ts :=
  fun l member => (Forest.adjoin_leavesAt ts offset).within l.span (List.mem_map_of_mem member)

mutual

theorem Tree.nodesAt_within : (t : Tree) → (offset : Nat) →
    ∀ w ∈ t.nodesAt offset, offset ≤ w.offset ∧ w.span.stop ≤ offset + t.size
  | .node kind ts, offset, w, member => by
    rw [Tree.nodesAt_node, List.mem_cons] at member
    cases member with
    | inl isRoot =>
      subst isRoot
      exact ⟨Nat.le_refl offset, Nat.le_refl _⟩
    | inr below =>
      rw [Tree.size]
      exact Forest.nodesAt_within ts offset w below
  | .leaf leaf, offset, w, member => by
    rw [Tree.nodesAt_leaf] at member
    contradiction

theorem Forest.nodesAt_within : (ts : List Tree) → (offset : Nat) →
    ∀ w ∈ Forest.nodesAt offset ts, offset ≤ w.offset ∧ w.span.stop ≤ offset + Forest.size ts
  | [], offset, w, member => by
    rw [Forest.nodesAt_nil] at member
    contradiction
  | t :: ts, offset, w, member => by
    rw [Forest.nodesAt_cons, List.mem_append] at member
    rw [Forest.size]
    cases member with
    | inl first =>
      have within := Tree.nodesAt_within t offset w first
      omega
    | inr rest =>
      have within := Forest.nodesAt_within ts (offset + t.size) w rest
      omega

end

/-! ## Leaves follow one another -/

/-- Each leaf ends where a later one begins, or before. -/
theorem Tree.pairwise_leavesAt (t : Tree) (offset : Nat) :
    (t.leavesAt offset).Pairwise fun a b => a.span.stop ≤ b.span.start :=
  List.pairwise_map.mp (t.adjoin_leavesAt offset).pairwise

/-- The last leaf ends where the tree does. -/
theorem Tree.stop_of_getLast? (t : Tree) (offset : Nat) {l : LeafView}
    (last : (t.leavesAt offset).getLast? = some l) : l.span.stop = offset + t.size := by
  apply (t.adjoin_leavesAt offset).stop_of_getLast?
  rw [List.getLast?_map, last]
  rfl

/-! ## Where a view ends -/

/-- A lexeme at the end of a view leaves no room for trivia there. -/
theorem View.not_endsInTrivia_of_touched {v : View} {target : Nat} (touched : Touched target v.leaves) :
    ¬ v.EndsInTrivia target := by
  rintro ⟨stopEq, last, isLast, short⟩
  obtain ⟨l, member, touches⟩ := touched
  have touches := Span.touches_iff.mp touches
  obtain ⟨init, leaves⟩ := List.getLast?_eq_some_iff.mp isLast
  have order : (init ++ [last]).Pairwise fun a b : LeafView => a.span.stop ≤ b.span.start := by
    rw [← leaves]
    exact Tree.pairwise_leavesAt v.tree v.offset
  rw [leaves, List.mem_append, List.mem_singleton] at member
  cases member with
  | inl before =>
    -- An earlier leaf ends before the last one, which has at least its trivia, begins.
    have inOrder := (List.pairwise_append.mp order).2.2 l before last (List.mem_singleton_self last)
    have within := l.trimmedSpan_within
    have within' := last.trimmedSpan_within
    have ordered := last.trimmedSpan.start_le_stop
    omega
  | inr isLast =>
    subst isLast
    omega

/-- A view with leaves ends in trivia, or a lexeme touches its end. -/
theorem View.endsInTrivia_or_touched {v : View} {target : Nat} (filled : v.leaves ≠ [])
    (stopEq : v.span.stop = target) : v.EndsInTrivia target ∨ Touched target v.leaves := by
  obtain ⟨last, isLast⟩ : ∃ last, v.leaves.getLast? = some last := ⟨_, List.getLast?_eq_some_getLast filled⟩
  have lastStop : last.span.stop = target := by
    rw [← stopEq]
    exact Tree.stop_of_getLast? v.tree v.offset isLast
  by_cases short : last.trimmedSpan.stop < target
  · exact .inl ⟨stopEq, last, isLast, short⟩
  · right
    refine ⟨last, List.mem_of_getLast? isLast, Span.touches_iff.mpr ?_⟩
    have within := last.trimmedSpan_within
    have ordered := last.trimmedSpan.start_le_stop
    omega

/-- What begins at the offset or after it does not end there in trivia. -/
theorem View.not_endsInTrivia_of_le {v : View} {target : Nat} (after : target ≤ v.offset) :
    ¬ v.EndsInTrivia target := by
  rintro ⟨-, last, isLast, short⟩
  have within := Tree.leavesAt_within v.tree v.offset last (List.mem_of_getLast? isLast)
  have within' := last.trimmedSpan_within
  have ordered := last.trimmedSpan.start_le_stop
  omega

/-! ## What the search finds -/

mutual

/-- What is found is a leaf below, and its lexeme touches the offset. -/
theorem Tree.mem_of_leafTouching? {target : Nat} {l : LeafView} : (t : Tree) → (offset : Nat) →
    t.leafTouching? target offset = some l → l ∈ t.leavesAt offset ∧ l.trimmedSpan.touches target = true
  | .node kind ts, offset, found => by
    rw [Tree.leafTouching?] at found
    rw [Tree.leavesAt]
    exact Forest.mem_of_leafTouching? ts offset found
  | .leaf leaf, offset, found => by
    rw [Tree.leafTouching?] at found
    split at found
    · rename_i touches
      cases found
      exact ⟨List.mem_singleton_self _, touches⟩
    · contradiction

theorem Forest.mem_of_leafTouching? {target : Nat} {l : LeafView} : (ts : List Tree) → (offset : Nat) →
    Forest.leafTouching? target offset ts = some l →
      l ∈ Forest.leavesAt offset ts ∧ l.trimmedSpan.touches target = true
  | [], offset, found => by
    rw [Forest.leafTouching?] at found
    contradiction
  | t :: ts, offset, found => by
    have later : Forest.leafTouching? target (offset + t.size) ts = some l →
        l ∈ Forest.leavesAt offset (t :: ts) ∧ l.trimmedSpan.touches target = true := by
      intro foundLater
      obtain ⟨member, touches⟩ := Forest.mem_of_leafTouching? ts (offset + t.size) foundLater
      rw [Forest.leavesAt]
      exact ⟨List.mem_append_right _ member, touches⟩
    rw [Forest.leafTouching?] at found
    split at found
    · split at found
      · rename_i first
        cases found
        obtain ⟨member, touches⟩ := Tree.mem_of_leafTouching? t offset first
        rw [Forest.leavesAt]
        exact ⟨List.mem_append_left _ member, touches⟩
      · split at found
        · contradiction
        · exact later found
    · exact later found

end

/-! ## When the search finds something -/

theorem LeafView.touched_append {target : Nat} {as bs : List LeafView} :
    Touched target (as ++ bs) ↔ Touched target as ∨ Touched target bs := by
  simp only [Touched, List.mem_append, or_and_right, exists_or]

/-- Nothing below a tree touches an offset outside its span, and nothing ends there. -/
theorem Tree.apart {t : Tree} {offset target : Nat} (outside : ¬ (Span.ofSize offset t.size).touches target = true) :
    ¬ Touched target (t.leavesAt offset) ∧ ∀ w ∈ t.nodesAt offset, ¬ w.EndsInTrivia target := by
  have outside : ¬ (offset ≤ target ∧ target ≤ offset + t.size) := fun inside =>
    outside (Span.touches_iff.mpr inside)
  constructor
  · rintro ⟨l, member, touches⟩
    have within := Tree.leavesAt_within t offset l member
    have within' := l.trimmedSpan_within
    have touches := Span.touches_iff.mp touches
    omega
  · intro w member ends
    have within := Tree.nodesAt_within t offset w member
    have ordered := w.span.start_le_stop
    have startEq : w.span.start = w.offset := rfl
    have stopEq := ends.1
    omega

/-- The first node that touches the offset decides: a later lexeme that touches it too begins where this node
ends, and then this node ends in trivia, or has a lexeme of its own there. -/
theorem Forest.touched_cons_iff {kind : Kind} {children ts : List Tree} {offset target : Nat}
    (filled : (View.mk (.node kind children) offset).leaves ≠ [])
    (reaches : target ≤ offset + Forest.size children) :
    (Touched target (Forest.leavesAt offset (.node kind children :: ts)) ∧
        ∀ w ∈ Forest.nodesAt offset (.node kind children :: ts), ¬ w.EndsInTrivia target) ↔
      Touched target (Forest.leavesAt offset children) ∧
        ∀ w ∈ Forest.nodesAt offset children, ¬ w.EndsInTrivia target := by
  have nodes : Forest.nodesAt offset (.node kind children :: ts) =
      ⟨.node kind children, offset⟩ ::
        (Forest.nodesAt offset children ++ Forest.nodesAt (offset + Forest.size children) ts) := by
    simp [Tree.size]
  have leaves : Forest.leavesAt offset (.node kind children :: ts) =
      Forest.leavesAt offset children ++ Forest.leavesAt (offset + Forest.size children) ts := by
    simp [Forest.leavesAt, Tree.leavesAt, Tree.size]
  rw [leaves, nodes, LeafView.touched_append]
  constructor
  · rintro ⟨touched, free⟩
    refine ⟨?_, fun w below => free w (by simp [below])⟩
    -- A lexeme behind the node that touches the offset begins there, so the node ends there.
    cases touched with
    | inl here => exact here
    | inr later =>
      obtain ⟨l, member, touches⟩ := later
      have within := Forest.leavesAt_within ts _ l member
      have within' := l.trimmedSpan_within
      have touches := Span.touches_iff.mp touches
      have atEnd : (View.mk (.node kind children) offset).span.stop = target := by
        simp only [View.span, Span.ofSize, Tree.size]
        omega
      have notHere := free ⟨.node kind children, offset⟩ (by simp)
      exact (View.endsInTrivia_or_touched filled atEnd).resolve_left notHere
  · rintro ⟨touched, free⟩
    refine ⟨.inl touched, ?_⟩
    intro w member
    rw [List.mem_cons, List.mem_append] at member
    rcases member with rfl | below | later
    · exact View.not_endsInTrivia_of_touched touched
    · exact free w below
    · have within := Forest.nodesAt_within ts _ w later
      exact View.not_endsInTrivia_of_le (by omega)

mutual

theorem Tree.isSome_leafTouching? (target : Nat) : (t : Tree) → (offset : Nat) →
    (∀ w ∈ Forest.nodesAt offset t.children, w.leaves ≠ []) →
    ((t.leafTouching? target offset).isSome = true ↔
      Touched target (t.leavesAt offset) ∧ ∀ w ∈ Forest.nodesAt offset t.children, ¬ w.EndsInTrivia target)
  | .node kind ts, offset, filled => by
    rw [Tree.leafTouching?, Tree.leavesAt]
    exact Forest.isSome_leafTouching? target ts offset filled
  | .leaf leaf, offset, _ => by
    simp [Tree.leafTouching?, Tree.leavesAt, Tree.children, Touched]

/-- In a forest whose nodes have leaves, something is found just where a lexeme touches the offset and no node ends
there in trivia. -/
theorem Forest.isSome_leafTouching? (target : Nat) : (ts : List Tree) → (offset : Nat) →
    (∀ w ∈ Forest.nodesAt offset ts, w.leaves ≠ []) →
    ((Forest.leafTouching? target offset ts).isSome = true ↔
      Touched target (Forest.leavesAt offset ts) ∧ ∀ w ∈ Forest.nodesAt offset ts, ¬ w.EndsInTrivia target)
  | [], offset, _ => by
    simp [Forest.leafTouching?, Forest.leavesAt, Touched]
  | t :: ts, offset, filled => by
    have rest := Forest.isSome_leafTouching? target ts (offset + t.size) fun w member =>
      filled w (by simp [member])
    rw [Forest.leafTouching?]
    by_cases reaches : (Span.ofSize offset t.size).touches target = true
    · rw [if_pos reaches]
      have reaches := (Span.touches_iff.mp reaches).2
      cases t with
      | node kind children =>
        have below : ∀ w ∈ Forest.nodesAt offset (Tree.node kind children).children, w.leaves ≠ [] :=
          fun w member => filled w (by simp [Tree.children] at member; simp [member])
        have first := Tree.isSome_leafTouching? target (.node kind children) offset below
        have whole := filled ⟨.node kind children, offset⟩ (by simp)
        rw [Forest.touched_cons_iff whole reaches]
        cases found : (Tree.node kind children).leafTouching? target offset with
        | none =>
          rw [found] at first
          exact first
        | some l =>
          rw [found] at first
          exact first
      | leaf leaf =>
        rw [Forest.nodesAt_cons, Tree.nodesAt_leaf, List.nil_append, Forest.leavesAt, LeafView.touched_append]
        by_cases touches : (LeafView.mk leaf offset).trimmedSpan.touches target = true
        · -- The leaf is found, and whatever ends after it does not end in trivia here.
          have found : (Tree.leaf leaf).leafTouching? target offset = some ⟨leaf, offset⟩ := by
            rw [Tree.leafTouching?, if_pos touches]
          simp only [found, Option.isSome_some, true_iff]
          refine ⟨.inl ⟨⟨leaf, offset⟩, List.mem_singleton_self _, touches⟩, fun w member => ?_⟩
          have within := Forest.nodesAt_within ts _ w member
          exact View.not_endsInTrivia_of_le (by simp only [Span.ofSize] at reaches; omega)
        · have missed : (Tree.leaf leaf).leafTouching? target offset = none := by
            rw [Tree.leafTouching?, if_neg touches]
          have untouched : ¬ Touched target ((Tree.leaf leaf).leavesAt offset) := by
            simpa [Tree.leavesAt, Touched] using touches
          simp only [missed, Tree.isNode, Bool.false_eq_true, if_false, untouched, false_or]
          exact rest
    · rw [if_neg reaches]
      obtain ⟨untouched, free⟩ := Tree.apart reaches
      rw [Forest.leavesAt, LeafView.touched_append, Forest.nodesAt_cons, rest]
      simp only [untouched, false_or, List.mem_append]
      exact and_congr_right fun _ =>
        ⟨fun later w member => member.elim (free w) (later w), fun all w member => all w (.inr member)⟩

end

/-! ## Trees of the parser -/

/-- Where every node of the drafts has children, no node in the place of the drafts is without leaves. -/
theorem Draft.leaves_ne_nil_of_mem {text : Text} {start stop : Nat} {ds : List Draft}
    (placed : Draft.Placed text start ds stop) (filled : ∀ n ∈ Outline.nodesAll ds, n.2 ≠ []) {w : View}
    (member : w ∈ Forest.nodesAt start (Draft.trees text ds)) : w.leaves ≠ [] := by
  obtain ⟨n, found, treeEq, stop, inside⟩ := Draft.exists_node_of_walks ds placed w member
  have someLeaf : Outline.leaves (.node n.1 n.2 : Draft) ≠ [] := by
    apply Outline.leaves_ne_nil
    intro m below
    apply filled
    rw [Outline.nodes_node, List.mem_cons] at below
    cases below with
    | inl isRoot =>
      rw [isRoot]
      exact found
    | inr deeper =>
      obtain ⟨e, child, inChild⟩ := Outline.mem_nodesAll.mp deeper
      exact Outline.mem_nodesAll_of_mem child inChild ds found
  rw [View.leaves, treeEq, Tree.leavesAt, Draft.leavesAt_trees n.2 inside]
  simpa using someLeaf

/-- Looking for the leaf at an offset below a node of a parsed tree: what is found is a leaf below whose lexeme
touches the offset, and something is found just where there is such a leaf and no node below ends there in trivia. -/
theorem leafTouching?_isSome_iff {text : Text} {r : Registry} {result : Parse} (parsed : parse text r = .ok result)
    {v : View} (member : v ∈ result.root.descendants) (target : Nat) :
    (∀ l, v.leafTouching? target = some l →
      l ∈ v.descendantLeaves ∧ l.trimmedSpan.touches target = true) ∧
    ((v.leafTouching? target).isSome = true ↔
      (∃ l ∈ v.descendantLeaves, l.trimmedSpan.touches target = true) ∧
        ∀ w ∈ v.descendants.tail, ¬ w.EndsInTrivia target) := by
  obtain ⟨start, d, drafted, table⟩ := exists_drafted text r
  obtain rfl := drafted.eq_of_parse_eq_ok parsed
  obtain ⟨n, found, treeEq, stop, placed⟩ :=
    Draft.exists_node_of_walk d drafted.placed v (View.mem_descendants.mp member)
  have filled : ∀ m ∈ Outline.nodesAll n.2, m.2 ≠ [] := by
    intro m below empty
    obtain ⟨e, child, inChild⟩ := Outline.mem_nodesAll.mp below
    have follows := table False False.elim m (Outline.mem_nodes_of_mem child inChild d found)
    rw [empty] at follows
    exact Grammar.production_nil _ _ _ follows
  -- The search looks at the children of the node, and so do its leaves and the nodes below it.
  have children : v.tree.children = Draft.trees text n.2 := by rw [treeEq, Tree.children]
  have leaves : v.descendantLeaves = Forest.leavesAt v.offset (Draft.trees text n.2) := by
    rw [View.descendantLeaves_eq, View.leaves, treeEq, Tree.leavesAt]
  have nodes : v.descendants.tail = Forest.nodesAt v.offset (Draft.trees text n.2) := by
    rw [View.descendants_eq, treeEq, Tree.nodesAt_node, List.tail_cons]
  rw [View.leafTouching?, children, leaves, nodes]
  constructor
  · intro l touched
    exact Forest.mem_of_leafTouching? _ v.offset touched
  · exact Forest.isSome_leafTouching? target _ v.offset fun w below => Draft.leaves_ne_nil_of_mem placed filled below

/-- Two symbols with a blank between them. -/
def pairSample : Text :=
  "a b".toList

/-- At the end of the first symbol of the sample that symbol is found. -/
theorem leafTouching?_isSome_iff_pair :
    ∃ result, parse pairSample .empty = .ok result ∧ result.root ∈ result.root.descendants ∧
      (result.root.leafTouching? 1).isSome = true ∧
      (∃ l ∈ result.root.descendantLeaves, l.trimmedSpan.touches 1 = true) ∧
      ∀ w ∈ result.root.descendants.tail, ¬ w.EndsInTrivia 1 := by
  have found : (parse pairSample .empty).toOption.any (fun result =>
      decide (result.root ∈ result.root.descendants) && (result.root.leafTouching? 1).isSome) = true := by
    decide +kernel
  obtain ⟨result, parsed, found⟩ := exists_parse_of_any found
  simp only [Bool.and_eq_true, decide_eq_true_eq] at found
  obtain ⟨member, isSome⟩ := found
  exact ⟨result, parsed, member, isSome, (leafTouching?_isSome_iff parsed member 1).2.mp isSome⟩

/-- Where the second symbol of the sample begins, its lexeme touches the offset, but nothing is found. -/
theorem leafTouching?_misses_leaf :
    ∃ result, parse pairSample .empty = .ok result ∧
      (∃ l ∈ result.root.descendantLeaves, l.trimmedSpan.touches 2 = true) ∧
      result.root.leafTouching? 2 = none := by
  have missed : (parse pairSample .empty).toOption.any (fun result =>
      (result.root.descendantLeaves.any fun l => l.trimmedSpan.touches 2) &&
        (result.root.leafTouching? 2).isNone) = true := by
    decide +kernel
  obtain ⟨result, parsed, missed⟩ := exists_parse_of_any missed
  simp only [Bool.and_eq_true, List.any_eq_true, Option.isNone_iff_eq_none] at missed
  exact ⟨result, parsed, missed⟩

end LispSyntax
