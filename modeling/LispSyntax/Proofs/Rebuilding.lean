import LispSyntax.Tree.Walk
import LispSyntax.Proofs.Replay

/-! # Rebuilding a tree from its walk

A walk can drive a builder: entering a node starts it, entering a leaf cuts the leaf out of the text of
the tree, and leaving a node finishes it. The main result is `rebuild_root`: this gives back the tree that
was walked, provided that its nodes have kinds of nodes. Nothing else is asked of the tree; its nodes may
be empty, and its leaves may be empty or consist of trivia only.

What carries the induction is the text to the left of the walk. A leaf does not know where it stands, the
walk counts sizes and the builder cuts at offsets; the three agree because the text of the builder is
`before ++ t.text ++ after` where `before` has the size of the offset.
-/

namespace LispSyntax

def Builder.visit (b : Builder) : Visit → Except Fault Builder
  | .enter e =>
    match e.leaf? with
    | some l => b.token l.leaf.leading l.kind l.trimmedSpan l.leaf.trailing
    | none => b.start e.kind
  | .leave e => if e.isNode then b.finishNode else .ok b

def View.rebuild (v : View) : Except Fault Tree := do
  let b ← v.walk.foldlM Builder.visit (Builder.ofText v.text)
  b.finish

/-- The span without trivia reaches from one end of the leaf to the other when the trivia is put back. -/
theorem LeafView.widened_trimmedSpan (l : LeafView) :
    l.trimmedSpan.start - Trivia.size l.leaf.leading = l.offset ∧
      l.trimmedSpan.stop + Trivia.size l.leaf.trailing = l.offset + l.leaf.size := by
  have fits := l.leaf.fits
  simp only [LeafView.trimmedSpan, Leaf.size]
  omega

namespace Builder

/-- A leaf that stands in the text of the builder is cut out of it. -/
theorem visit_enter_leaf {b : Builder} {l : Leaf} {before after : Text} (inside : b.stack ≠ [])
    (whole : b.text = before ++ l.text ++ after) (small : Text.size b.text < sizeLimit) :
    b.visit (.enter ⟨.leaf l, Text.size before⟩) = .ok (b.add (.leaf l)) := by
  have fits := l.fits
  obtain ⟨startEq, stopEq⟩ := (LeafView.mk l (Text.size before)).widened_trimmedSpan
  have notBefore : ¬ (LeafView.mk l (Text.size before)).trimmedSpan.start < Trivia.size l.leading := by
    simp [LeafView.trimmedSpan]
  have sliced : Text.slice? b.text (Text.size before) (Text.size before + l.size) = some l.text := by
    rw [whole]
    exact Text.slice?_append before l.text after
  have expressible : Trivia.size l.leading + Trivia.size l.trailing < sizeLimit := by
    simp only [whole, Text.size_append] at small
    omega
  show b.token l.leading l.kind (LeafView.mk l (Text.size before)).trimmedSpan l.trailing = _
  rw [token, if_neg (by simpa using inside), if_neg notBefore, startEq, stopEq, sliced]
  simp only [Leaf.ofParts, if_pos expressible, dif_pos fits]
  rfl

theorem visit_enter_node (b : Builder) {kind : Kind} (isNode : kind.isNode = true) (ts : List Tree)
    (offset : Nat) : b.visit (.enter ⟨.node kind ts, offset⟩) = .ok (b.enter kind) := by
  show b.start kind = _
  rw [start, if_pos isNode]
  rfl

/-- Leaving a node whose children were added finishes it. -/
theorem visit_leave_node (b : Builder) (kind : Kind) (ts : List Tree) (offset : Nat) :
    ((b.enter kind).addAll ts).visit (.leave ⟨.node kind ts, offset⟩) =
      .ok (b.add (.node kind ts)) :=
  finishNode_addAll_enter b kind ts

mutual

/-- The walk through a tree that stands in the text of the builder adds the tree. -/
theorem foldlM_visit_tree : (t : Tree) → ∀ (b : Builder) (before after : Text),
    (∀ kind ∈ t.nodeKinds, kind.isNode = true) → b.stack ≠ [] ∨ t.isNode = true →
    b.text = before ++ t.text ++ after → Text.size b.text < sizeLimit →
    (t.walkAt (Text.size before)).foldlM visit b = .ok (b.add t)
  | .leaf l => by
    intro b before after _ place whole small
    have inside : b.stack ≠ [] := place.resolve_right Bool.false_ne_true
    have entered := visit_enter_leaf inside whole small
    rw [Tree.walkAt, List.foldlM_cons, entered]
    rfl
  | .node kind ts => by
    intro b before after nodes _ whole small
    have entered := visit_enter_node b (nodes kind (by simp [Tree.nodeKinds])) ts (Text.size before)
    have filled := foldlM_visit_forest ts (b.enter kind) before after
      (fun k member => nodes k (by simp [Tree.nodeKinds, member])) (stack_enter_ne_nil b kind) whole small
    rw [Tree.walkAt, List.foldlM_cons, entered]
    show List.foldlM visit (b.enter kind) _ = _
    rw [List.foldlM_append, filled]
    show List.foldlM visit ((b.enter kind).addAll ts) [_] = _
    rw [List.foldlM_cons, visit_leave_node]
    rfl

/-- The walk through a forest that stands in the text of the builder adds the trees. -/
theorem foldlM_visit_forest : (ts : List Tree) → ∀ (b : Builder) (before after : Text),
    (∀ kind ∈ Forest.nodeKinds ts, kind.isNode = true) → b.stack ≠ [] →
    b.text = before ++ Forest.text ts ++ after → Text.size b.text < sizeLimit →
    (Forest.walkAt (Text.size before) ts).foldlM visit b = .ok (b.addAll ts)
  | [] => fun _ _ _ _ _ _ _ => rfl
  | t :: ts => by
    intro b before after nodes inside whole small
    simp only [Forest.nodeKinds, List.mem_append] at nodes
    simp only [Forest.text, List.append_assoc] at whole
    have first := foldlM_visit_tree t b before (Forest.text ts ++ after)
      (fun k member => nodes k (.inl member)) (.inl inside) (by simpa using whole) small
    -- The rest stands behind the first tree, so the text to its left is longer by that tree.
    have offset : Text.size (before ++ t.text) = Text.size before + t.size := by
      rw [Text.size_append, Tree.size_text]
    have rest := foldlM_visit_forest ts (b.add t) (before ++ t.text) after
      (fun k member => nodes k (.inr member)) (stack_add_ne_nil inside t)
      (by simpa using whole) (by simpa using small)
    rw [offset] at rest
    rw [Forest.walkAt, List.foldlM_append, first]
    exact rest

end

/-- A builder that was given one node of the whole text returns it. -/
theorem finish_add_ofText {t : Tree} (isNode : t.isNode = true) :
    ((ofText t.text).add t).finish = .ok t := by
  cases t with
  | leaf l => contradiction
  | node kind ts =>
    have covers := Tree.size_text (.node kind ts)
    simp [finish, add, ofText, covers]

end Builder

/-- A builder that follows the walk through a tree makes that tree again, if the tree is a node, its nodes
have kinds of nodes and its length can be expressed. -/
theorem View.rebuild_root {t : Tree} (isNode : t.isNode = true)
    (nodes : ∀ kind ∈ t.nodeKinds, kind.isNode = true) (small : t.size < sizeLimit) :
    (View.root t).rebuild = .ok t := by
  have sizeEq : Text.size t.text = t.size := Tree.size_text t
  have followed := Builder.foldlM_visit_tree t (Builder.ofText t.text) [] [] nodes (.inr isNode)
    (by simp [Builder.ofText]) (by rw [← sizeEq] at small; exact small)
  show (do
    let b ← (t.walkAt 0).foldlM Builder.visit (Builder.ofText t.text)
    b.finish) = _
  rw [show (0 : Nat) = Text.size [] from rfl, followed]
  exact Builder.finish_add_ofText isNode

/-- An empty node, an empty leaf, and a leaf with trivia whose characters take more than one byte. -/
def bareSample : Tree :=
  .node .listForm [.node .vectorForm [],
    .leaf ⟨[⟨.comment, 3⟩, ⟨.newline, 1⟩], .name, ";é\nxλ, ".toList, [⟨.comma, 1⟩, ⟨.whitespace, 1⟩], by decide⟩,
    .node .error [.leaf ⟨[], .eof, [], [], by decide⟩]]

theorem View.rebuild_root_bare :
    (bareSample.isNode = true ∧ (∀ kind ∈ bareSample.nodeKinds, kind.isNode = true) ∧
      bareSample.size < sizeLimit) ∧ (View.root bareSample).rebuild = .ok bareSample :=
  ⟨⟨by decide, by decide, by decide⟩, View.rebuild_root (by decide) (by decide) (by decide)⟩

end LispSyntax
