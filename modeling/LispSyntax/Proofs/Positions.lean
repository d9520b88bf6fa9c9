import LispSyntax.Proofs.Correspondence
import LispSyntax.Proofs.Faults
import LispSyntax.Proofs.Walking

/-! # Positions

A tree does not say where its parts stand; views add up the sizes of what comes before. What makes the
offsets right is that a child stands in the text where its parent does, behind its elder siblings
(`View.Stands.child`). By induction on the path every element stands in the text of the root at its span
(`View.Stands.get?`), and the elements of a walk are those at the paths of its route.

That spans leave no gap is `Span.Adjoin`, said of the children of a node, of the leaves of a tree and of the
parts of a leaf. The parts of a leaf are known for trees of the parser only: the trivia of any other leaf
may end inside a character.
-/

namespace LispSyntax

/-! ## Spans side by side -/

/-- The spans follow one another without a gap from the one offset to the other. -/
def Span.Adjoin : Nat → List Span → Nat → Prop
  | start, [], stop => start = stop
  | start, s :: ss, stop => s.start = start ∧ Adjoin s.stop ss stop

namespace Span.Adjoin

variable {start middle stop : Nat} {ss us : List Span}

theorem append (first : Adjoin start ss middle) (second : Adjoin middle us stop) :
    Adjoin start (ss ++ us) stop := by
  induction ss generalizing start with
  | nil =>
    obtain rfl : start = middle := first
    exact second
  | cons s ss inductionHypothesis => exact ⟨first.1, inductionHypothesis first.2⟩

theorem start_le_stop (adjoin : Adjoin start ss stop) : start ≤ stop := by
  induction ss generalizing start with
  | nil => exact Nat.le_of_eq adjoin
  | cons s ss inductionHypothesis =>
    have later := inductionHypothesis adjoin.2
    have inOrder := s.start_le_stop
    have startEq := adjoin.1
    omega

theorem within (adjoin : Adjoin start ss stop) : ∀ s ∈ ss, start ≤ s.start ∧ s.stop ≤ stop := by
  induction ss generalizing start with
  | nil => simp
  | cons s ss inductionHypothesis =>
    have startEq := adjoin.1
    have inOrder := s.start_le_stop
    have later := start_le_stop adjoin.2
    intro u member
    cases List.mem_cons.mp member with
    | inl isFirst =>
      subst isFirst
      omega
    | inr inRest =>
      have inside := inductionHypothesis adjoin.2 u inRest
      omega

/-- Each span stops where a later one starts, or before. -/
theorem pairwise (adjoin : Adjoin start ss stop) : ss.Pairwise fun a b => a.stop ≤ b.start := by
  induction ss generalizing start with
  | nil => exact List.Pairwise.nil
  | cons s ss inductionHypothesis =>
    rw [List.pairwise_cons]
    exact ⟨fun u later => (within adjoin.2 u later).1, inductionHypothesis adjoin.2⟩

theorem stop_of_getLast? {s : Span} (adjoin : Adjoin start ss stop) (last : ss.getLast? = some s) :
    s.stop = stop := by
  induction ss generalizing start with
  | nil => contradiction
  | cons u ss inductionHypothesis =>
    by_cases alone : ss = []
    · subst alone
      obtain rfl : u = s := by simpa using last
      exact adjoin.2
    · rw [← List.singleton_append, List.getLast?_append_of_ne_nil _ alone] at last
      exact inductionHypothesis adjoin.2 last

end Span.Adjoin

/-! ## Elements in the text -/

namespace View

theorem adjoin_placeAll (offset : Nat) (ts : List Tree) :
    Span.Adjoin offset ((placeAll offset ts).map span) (offset + Forest.size ts) := by
  induction ts generalizing offset with
  | nil => rfl
  | cons t ts inductionHypothesis =>
    have others := inductionHypothesis (offset + t.size)
    rw [Nat.add_assoc] at others
    exact ⟨rfl, others⟩

/-- The spans of the children of a node make up its span. -/
theorem adjoin_children {v : View} (isNode : v.isNode = true) :
    Span.Adjoin v.span.start (v.children.map span) v.span.stop := by
  obtain ⟨tree, offset⟩ := v
  cases tree with
  | leaf l => contradiction
  | node kind ts => exact adjoin_placeAll offset ts

/-- The text of the element is in the text of the whole, at the offset of the element. -/
def Stands (whole : Text) (v : View) : Prop :=
  ∃ before after, whole = before ++ v.text ++ after ∧ Text.size before = v.offset

theorem stands_root (t : Tree) : (root t).Stands t.text :=
  ⟨[], [], by simp [root, text], rfl⟩

theorem stands_placeAll {whole before after : Text} (ts : List Tree)
    (wholeEq : whole = before ++ Forest.text ts ++ after) :
    ∀ c ∈ placeAll (Text.size before) ts, c.Stands whole := by
  induction ts generalizing before with
  | nil => simp [placeAll]
  | cons t ts inductionHypothesis =>
    rw [Forest.text] at wholeEq
    have others := @inductionHypothesis (before ++ t.text) (by simpa using wholeEq)
    rw [Text.size_append, Tree.size_text] at others
    intro c member
    cases List.mem_cons.mp member with
    | inl isFirst =>
      subst isFirst
      exact ⟨before, Forest.text ts ++ after, by simpa [text] using wholeEq, rfl⟩
    | inr inRest => exact others c inRest

/-- One step down: the children of an element that stands in the text stand in it too. -/
theorem Stands.child {whole : Text} {v c : View} (stands : v.Stands whole) (member : c ∈ v.children) :
    c.Stands whole := by
  obtain ⟨before, after, wholeEq, offsetEq⟩ := stands
  obtain ⟨tree, offset⟩ := v
  cases tree with
  | leaf l => contradiction
  | node kind ts =>
    rw [children, ← offsetEq] at member
    exact stands_placeAll ts wholeEq c member

/-- What a path leads to stands in the text. -/
theorem Stands.get? {whole : Text} {v e : View} (stands : v.Stands whole) {path : List Nat}
    (found : v.get? path = some e) : e.Stands whole := by
  induction path generalizing v with
  | nil =>
    cases found
    exact stands
  | cons i path inductionHypothesis =>
    rw [get?_cons, Option.bind_eq_some_iff] at found
    obtain ⟨c, child, found⟩ := found
    exact inductionHypothesis (stands.child (List.mem_of_getElem? child)) found

theorem Stands.slice? {whole : Text} {v : View} (stands : v.Stands whole) :
    Text.slice? whole v.span.start v.span.stop = some v.text := by
  obtain ⟨before, after, rfl, offsetEq⟩ := stands
  have stopEq : v.span.stop = Text.size before + Text.size v.text := by
    rw [offsetEq, text, Tree.size_text]
    rfl
  rw [stopEq, show v.span.start = Text.size before from offsetEq.symm]
  exact Text.slice?_append before v.text after

/-- An element that is entered on a walk is at the end of some path. -/
theorem exists_path_of_enter {v e : View} (entered : Visit.enter e ∈ v.walk) :
    ∃ path, v.get? path = some e := by
  have visits : (v.tree.route []).map (Passage.visit? v) = v.walk.map some :=
    Tree.route_visits v.tree [] v.offset rfl
  have member : some (Visit.enter e) ∈ (v.tree.route []).map (Passage.visit? v) := by
    rw [visits]
    exact List.mem_map_of_mem entered
  obtain ⟨m, -, visitEq⟩ := List.mem_map.mp member
  cases m with
  | enter path =>
    obtain ⟨other, found, same⟩ := Option.map_eq_some_iff.mp visitEq
    cases same
    exact ⟨path, found⟩
  | leave path =>
    obtain ⟨other, -, same⟩ := Option.map_eq_some_iff.mp visitEq
    contradiction

end View

/-! ## Leaves in the text -/

mutual

theorem Tree.map_leaf_leavesAt : (t : Tree) → (offset : Nat) →
    (t.leavesAt offset).map LeafView.leaf = t.leaves
  | .leaf _, _ => rfl
  | .node _ ts, offset => Forest.map_leaf_leavesAt ts offset

theorem Forest.map_leaf_leavesAt : (ts : List Tree) → (offset : Nat) →
    (Forest.leavesAt offset ts).map LeafView.leaf = Forest.leaves ts
  | [], _ => rfl
  | t :: ts, offset => by
    rw [Forest.leavesAt, List.map_append, Tree.map_leaf_leavesAt t offset,
      Forest.map_leaf_leavesAt ts (offset + t.size), Forest.leaves]

end

mutual

/-- The spans of the leaves make up the span of the tree. -/
theorem Tree.adjoin_leavesAt : (t : Tree) → (offset : Nat) →
    Span.Adjoin offset ((t.leavesAt offset).map LeafView.span) (offset + t.size)
  | .leaf _, _ => ⟨rfl, rfl⟩
  | .node _ ts, offset => Forest.adjoin_leavesAt ts offset

theorem Forest.adjoin_leavesAt : (ts : List Tree) → (offset : Nat) →
    Span.Adjoin offset ((Forest.leavesAt offset ts).map LeafView.span) (offset + Forest.size ts)
  | [], _ => rfl
  | t :: ts, offset => by
    have first := Tree.adjoin_leavesAt t offset
    have others := Forest.adjoin_leavesAt ts (offset + t.size)
    rw [Nat.add_assoc] at others
    rw [Forest.leavesAt, List.map_append, Forest.size]
    exact first.append others

end

mutual

theorem Tree.flatMap_text_leaves : (t : Tree) → t.leaves.flatMap Leaf.text = t.text
  | .leaf _ => List.flatMap_singleton _ _
  | .node _ ts => Forest.flatMap_text_leaves ts

theorem Forest.flatMap_text_leaves : (ts : List Tree) →
    (Forest.leaves ts).flatMap Leaf.text = Forest.text ts
  | [] => rfl
  | t :: ts => by
    rw [Forest.leaves, List.flatMap_append, Tree.flatMap_text_leaves t, Forest.flatMap_text_leaves ts,
      Forest.text]

end

/-! ## The parts of a leaf -/

/-- The trivia before the lexeme, the lexeme and the trivia behind it are found, they make up the text of
the leaf, and their spans its span. -/
def LeafView.Divides (v : LeafView) : Prop :=
  ∃ leading lexeme trailing, v.leadingPieces = .ok leading ∧ v.leaf.trimmed = .ok lexeme ∧
    v.trailingPieces = .ok trailing ∧
    leading.flatMap PieceView.text ++ lexeme ++ trailing.flatMap PieceView.text = v.leaf.text ∧
    Span.Adjoin v.span.start
      (leading.map PieceView.span ++ v.trimmedSpan :: trailing.map PieceView.span) v.span.stop

/-- Pieces that describe a gap in the text of the leaf are cut out of it. -/
theorem LeafView.placePieces_eq_ok {v : LeafView} {pieces : Trivia} {outside first gap last after : Text}
    (described : pieces.Describes outside gap after) (whole : v.leaf.text = first ++ gap ++ last) :
    ∃ views, v.placePieces (Text.size first) pieces = .ok views ∧
      views.flatMap PieceView.text = gap ∧
      Span.Adjoin (v.offset + Text.size first) (views.map PieceView.span)
        (v.offset + Text.size first + Text.size gap) := by
  induction pieces generalizing outside first gap with
  | nil =>
    obtain rfl : gap = [] := described
    exact ⟨[], rfl, rfl, rfl⟩
  | cons p pieces inductionHypothesis =>
    obtain ⟨body, rest, rfl, sizeEq, -, described⟩ := described
    obtain ⟨views, placed, texts, adjoin⟩ := @inductionHypothesis _ (first ++ body) _ described
      (by simpa using whole)
    have sliced : Text.slice? v.leaf.text (Text.size first) (Text.size first + p.size) = some body := by
      rw [whole, sizeEq, List.append_assoc first, List.append_assoc body, ← List.append_assoc first]
      exact Text.slice?_append first body (rest ++ last)
    rw [Text.size_append] at placed adjoin
    refine ⟨⟨p.kind, body, Span.ofSize (v.offset + Text.size first) p.size⟩ :: views, ?_, ?_, rfl, ?_⟩
    · rw [placePieces, sliced, sizeEq]
      simp only [placed]
      rfl
    · rw [List.flatMap_cons, texts]
    · simp only [Span.ofSize, Text.size_append, sizeEq]
      simpa only [Nat.add_assoc] using adjoin

/-- The leaf of a token that is laid out in the text divides into its parts. -/
theorem Token.LaidOut.divides {text : Text} {t : Token} (laidOut : t.LaidOut text) (lies : t.LiesIn text)
    (kind : Kind) : (Draft.leafView text (kind, t)).Divides := by
  have trimmed := lies.trimmed_leaf kind
  have trimmedSpan := lies.trimmedSpan_leaf kind
  have size := lies.size_leaf kind
  have leafEq := lies.leaf_eq kind
  obtain ⟨left, before, after, right, whole, startEq, spanStart, spanStop, stopEq, leading, trailing⟩ :=
    laidOut
  -- The trivia are placed with offsets in the leaf, the parts of the token with offsets in the text.
  have textEq : (t.leaf text kind).text = before ++ t.text ++ after := by
    rw [leafEq]
    show t.cover text = _
    have parts : text = left ++ (before ++ t.text ++ after) ++ right := by simp [whole]
    have sizes : t.fullSpan.stop = Text.size left + Text.size (before ++ t.text ++ after) := by
      rw [stopEq]
      simp only [Text.size_append]
      omega
    rw [Token.cover, startEq, sizes, parts, Text.slice?_append]
    rfl
  have leadingEq : (t.leaf text kind).leading = t.leading := by rw [leafEq]
  have trailingEq : (t.leaf text kind).trailing = t.trailing := by rw [leafEq]
  have aroundLeading : (Draft.leafView text (kind, t)).leaf.text = [] ++ before ++ (t.text ++ after) := by
    simp [Draft.leafView, textEq]
  have aroundTrailing : (Draft.leafView text (kind, t)).leaf.text = before ++ t.text ++ after ++ [] := by
    simp [Draft.leafView, textEq]
  obtain ⟨firsts, placed, texts, adjoin⟩ := LeafView.placePieces_eq_ok leading aroundLeading
  obtain ⟨lasts, placed', texts', adjoin'⟩ := LeafView.placePieces_eq_ok trailing aroundTrailing
  have trailingStart : (t.leaf text kind).size - Trivia.size t.trailing = Text.size (before ++ t.text) := by
    rw [Leaf.size, textEq, trailing.size_eq]
    simp only [Text.size_append]
    omega
  refine ⟨firsts, t.text, lasts, ?_, trimmed, ?_, ?_, ?_⟩
  · rw [LeafView.leadingPieces]
    simp only [Draft.leafView, leadingEq] at placed ⊢
    exact placed
  · rw [LeafView.trailingPieces]
    simp only [Draft.leafView, trailingEq, trailingStart] at placed' ⊢
    exact placed'
  · rw [texts, texts']
    exact textEq.symm
  · have lastStop : t.span.stop + Text.size after = t.fullSpan.stop := by
      rw [spanStop, stopEq]
      simp only [Text.size_append]
    have firstStop : t.fullSpan.start + 0 + Text.size before = t.span.start := by
      rw [startEq, spanStart, Text.size_append, Nat.add_zero]
    have lastStart : t.fullSpan.start + Text.size (before ++ t.text) = t.span.stop := by
      rw [startEq, spanStop]
      simp only [Text.size_append, Nat.add_assoc]
    simp only [Draft.leafView, Text.size_nil, firstStop, lastStart, lastStop] at adjoin adjoin'
    simp only [Draft.leafView, LeafView.span, Span.ofSize, size, trimmedSpan]
    exact adjoin.append ⟨rfl, adjoin'⟩

/-! ## Everything in its place -/

/-- The walk can be taken step by step; it enters and leaves every element once, and is nested. -/
structure Tree.WalkedOnce (t : Tree) : Prop where
  stepwise : ∀ n, (Walker.ofView (View.root t)).visits n = (View.root t).walk.take n
  visits : (t.route []).map (Passage.visit? (View.root t)) = (View.root t).walk.map some
  nested : Nested [] (t.route [])
  entered : ∀ path, (t.route []).count (.enter path) = if ((View.root t).get? path).isSome then 1 else 0
  left : ∀ path, (t.route []).count (.leave path) = if ((View.root t).get? path).isSome then 1 else 0

/-- The text of the whole has at the span of the element its text, and the children of a node follow one
another from one end of it to the other. -/
structure View.InPlace (whole : Text) (e : View) : Prop where
  text : Text.slice? whole e.span.start e.span.stop = some e.text
  children : e.isNode = true → Span.Adjoin e.span.start (e.children.map View.span) e.span.stop
  inside : ∀ c ∈ e.children, e.span.start ≤ c.span.start ∧ c.span.stop ≤ e.span.stop

/-- The leaves of the walk are those of the tree from left to right, without a gap, and have its text. -/
structure Tree.LeavesInPlace (t : Tree) : Prop where
  leaves : (View.root t).descendantLeaves.map LeafView.leaf = t.leaves
  spans : Span.Adjoin 0 ((View.root t).descendantLeaves.map LeafView.span) t.size
  text : (View.root t).descendantLeaves.flatMap (fun l => l.leaf.text) = t.text

theorem Tree.walkedOnce (t : Tree) : t.WalkedOnce := by
  have member : ∀ m : Passage, m ∈ t.route [] ↔ ((View.root t).get? m.path).isSome = true := by
    intro m
    rw [Tree.mem_route t [] 0]
    simp [View.root]
  have once := Tree.nodup_route t []
  refine ⟨Walker.visits_ofView (View.root t), Tree.route_visits t [] 0 rfl, ?_, ?_, ?_⟩
  · have nested := Tree.nested_route Nested.done t [] rfl
    rwa [List.append_nil] at nested
  · intro path
    rw [once.count]
    simp only [member, Passage.path]
  · intro path
    rw [once.count]
    simp only [member, Passage.path]

theorem View.Stands.inPlace {whole : Text} {e : View} (stands : e.Stands whole) : e.InPlace whole where
  text := stands.slice?
  children := adjoin_children
  inside := by
    intro c member
    by_cases isNode : e.isNode = true
    · exact (adjoin_children isNode).within c.span (List.mem_map_of_mem member)
    · rw [children_of_isNode_eq_false (Bool.eq_false_iff.mpr isNode)] at member
      contradiction

theorem Tree.leavesInPlace (t : Tree) : t.LeavesInPlace := by
  have leaves : (View.root t).descendantLeaves.map LeafView.leaf = t.leaves := by
    rw [View.descendantLeaves_eq]
    exact t.map_leaf_leavesAt 0
  refine ⟨leaves, ?_, ?_⟩
  · have adjoin := t.adjoin_leavesAt 0
    rw [Nat.zero_add] at adjoin
    rw [View.descendantLeaves_eq]
    exact adjoin
  · rw [← t.flatMap_text_leaves, ← leaves, List.flatMap_map]

/-- Positions are right in every tree. A walk enters and leaves each element once; each element has the text
that stands at its span, inside the span of its parent and next to its siblings; and the leaves follow one
another through the whole text. In a tree of the parser, moreover, each leaf is made up of its trivia and its
lexeme. -/
theorem positions_right (t : Tree) (text : Text) (r : Registry) :
    t.WalkedOnce ∧
    (∀ e, Visit.enter e ∈ (View.root t).walk → e.InPlace t.text) ∧
    t.LeavesInPlace ∧
    (Text.size text < sizeLimit → LogFits text r → ∃ result, parse text r = .ok result) ∧
    ∀ result, parse text r = .ok result → ∀ l ∈ result.root.descendantLeaves, l.Divides := by
  refine ⟨t.walkedOnce, ?_, t.leavesInPlace, exists_parse, ?_⟩
  · intro e entered
    obtain ⟨path, found⟩ := View.exists_path_of_enter entered
    exact ((View.stands_root t).get? found).inPlace
  · intro result parsed l member
    obtain ⟨start, d, drafted, -⟩ := exists_drafted text r
    obtain rfl := drafted.eq_of_parse_eq_ok parsed
    have leaves : (View.root (d.tree text)).descendantLeaves = d.leaves.map (Draft.leafView text) :=
      (View.descendantLeaves_eq _).trans (Draft.leavesAt_tree d drafted.placed)
    rw [Parse.root, leaves] at member
    obtain ⟨⟨kind, u⟩, inDraft, rfl⟩ := List.mem_map.mp member
    have token : u ∈ d.tokens := List.mem_map_of_mem (f := Prod.snd) inDraft
    have lies := drafted.lies u token
    rw [drafted.tokens] at token
    have laidOut := (Token.laidOut_tokensFrom r 0 text [] rfl).2 u token
    exact laidOut.divides lies kind

end LispSyntax
