import LispSyntax.Proofs.Drafted

/-! # Tokens with too much trivia

A builder never accepts a leaf with more trivia than positions can express, so a tree that is built has none, and a log
with such a token is never replayed without fault.
-/

namespace LispSyntax

/-- What each step of a fold preserves, a fold without fault preserves. -/
theorem invariant_foldlM {ε α β : Type} {f : β → α → Except ε β} {invariant : β → Prop}
    (step : ∀ b a b', invariant b → f b a = .ok b' → invariant b') {as : List α} {b b' : β}
    (holds : invariant b) (done : as.foldlM f b = .ok b') : invariant b' := by
  induction as generalizing b with
  | nil =>
    cases done
    exact holds
  | cons a as inductionHypothesis =>
    rw [List.foldlM_cons] at done
    obtain ⟨next, first, rest⟩ := exists_of_bind_eq_ok done
    exact inductionHypothesis (step b a next holds first) rest

def Leaf.Short (l : Leaf) : Prop :=
  Trivia.size l.leading + Trivia.size l.trailing < sizeLimit

theorem Leaf.short_of_ofParts {leading trailing : Trivia} {kind : Kind} {text : Text} {l : Leaf}
    (made : ofParts leading kind text trailing = .ok l) : l.Short := by
  unfold ofParts at made
  split at made
  · rename_i short
    split at made
    · cases made
      exact short
    · contradiction
  · contradiction

theorem Forest.mem_leaves {l : Leaf} {ts : List Tree} :
    l ∈ Forest.leaves ts ↔ ∃ t ∈ ts, l ∈ t.leaves := by
  induction ts with
  | nil => simp [Forest.leaves]
  | cons t ts inductionHypothesis => simp [Forest.leaves, inductionHypothesis]

namespace Builder

structure Short (b : Builder) : Prop where
  stack : ∀ o ∈ b.stack, ∀ t ∈ o.reversed, ∀ l ∈ t.leaves, l.Short
  roots : ∀ t ∈ b.reversedRoots, ∀ l ∈ t.leaves, l.Short

variable {b b' : Builder}

theorem Short.add (short : b.Short) {t : Tree} (shortTree : ∀ l ∈ t.leaves, l.Short) :
    (b.add t).Short := by
  obtain ⟨stack, roots⟩ := short
  unfold Builder.add
  split
  · exact ⟨stack, List.forall_mem_cons.mpr ⟨shortTree, roots⟩⟩
  · rename_i top outer stackEq
    rw [stackEq] at stack
    obtain ⟨first, others⟩ := List.forall_mem_cons.mp stack
    exact ⟨List.forall_mem_cons.mpr ⟨List.forall_mem_cons.mpr ⟨shortTree, first⟩, others⟩, roots⟩

theorem Short.start (short : b.Short) {kind : Kind} (started : b.start kind = .ok b') : b'.Short := by
  unfold Builder.start at started
  split at started
  · cases started
    exact ⟨List.forall_mem_cons.mpr ⟨by simp, short.stack⟩, short.roots⟩
  · contradiction

theorem Short.finishNode (short : b.Short) (finished : b.finishNode = .ok b') : b'.Short := by
  unfold Builder.finishNode at finished
  split at finished
  · contradiction
  · rename_i top outer stackEq
    cases finished
    have stack := short.stack
    rw [stackEq] at stack
    obtain ⟨first, others⟩ := List.forall_mem_cons.mp stack
    have outside : Short { b with stack := outer } := ⟨others, short.roots⟩
    refine outside.add fun l member => ?_
    obtain ⟨t, found, inside⟩ := Forest.mem_leaves.mp member
    exact first t (List.mem_reverse.mp found) l inside

theorem Short.token (short : b.Short) {leading trailing : Trivia} {kind : Kind} {span : Span}
    (taken : b.token leading kind span trailing = .ok b') : b'.Short := by
  unfold Builder.token at taken
  split at taken
  · contradiction
  split at taken
  · contradiction
  split at taken
  · contradiction
  · obtain ⟨l, made, taken⟩ := exists_of_bind_eq_ok taken
    cases taken
    refine short.add fun other member => ?_
    obtain rfl : other = l := by simpa [Tree.leaves] using member
    exact Leaf.short_of_ofParts made

theorem Short.finish (short : b.Short) {tree : Tree} (finished : b.finish = .ok tree) :
    ∀ l ∈ tree.leaves, l.Short := by
  unfold Builder.finish at finished
  split at finished
  · contradiction
  · rename_i kind children rootsEq
    simp only at finished
    split at finished
    · cases finished
      exact short.roots _ (by simp [rootsEq])
    · contradiction
  · contradiction
  · contradiction

end Builder

namespace Event

theorem short_step {s s' : Replay} {index : Nat} (short : s.builder.Short)
    (stepped : step s index = .ok s') : s'.builder.Short := by
  unfold step at stepped
  split at stepped
  · cases stepped
    exact short
  · simp only at stepped
    split at stepped
    · cases stepped
      exact short
    · obtain ⟨⟨events, kinds⟩, -, stepped⟩ := exists_of_bind_eq_ok stepped
      obtain ⟨b, started, stepped⟩ := exists_of_bind_eq_ok stepped
      cases stepped
      exact invariant_foldlM (fun _ _ _ short started => short.start started) short started
  · obtain ⟨b, finished, stepped⟩ := exists_of_bind_eq_ok stepped
    cases stepped
    exact short.finishNode finished
  · split at stepped
    · contradiction
    · obtain ⟨b, taken, stepped⟩ := exists_of_bind_eq_ok stepped
      cases stepped
      exact short.token taken

/-- A tree that is replayed from a log has no leaf with too much trivia. -/
theorem short_replay {text : Text} {tokens : List Token} {events : Array Event} {tree : Tree}
    (replayed : replay text tokens events = .ok tree) : ∀ l ∈ tree.leaves, l.Short := by
  obtain ⟨done, stepped, finished⟩ := exists_of_bind_eq_ok replayed
  have short : (Builder.ofText text).Short := ⟨by simp [Builder.ofText], by simp [Builder.ofText]⟩
  have shortDone : done.builder.Short :=
    invariant_foldlM (fun _ _ _ short stepped => short_step short stepped) short stepped
  exact shortDone.finish finished

end Event

mutual

theorem Draft.leaves_tree (text : Text) : (d : Draft) →
    (d.tree text).leaves = d.leaves.map fun leaf => leaf.2.leaf text leaf.1
  | .node kind children => by
    rw [Draft.tree, Tree.leaves, Outline.leaves_node, Draft.leaves_trees text children]
  | .leaf (kind, t) => rfl

theorem Draft.leaves_trees (text : Text) : (ds : List Draft) →
    Forest.leaves (Draft.trees text ds) =
      (Outline.leavesAll ds).map fun leaf => leaf.2.leaf text leaf.1
  | [] => rfl
  | d :: ds => by
    rw [Draft.trees_cons, Forest.leaves, Outline.leavesAll_cons, List.map_append,
      Draft.leaves_tree text d, Draft.leaves_trees text ds]

end

/-- If the tree of a draft is replayed from a log, then none of the tokens has too much trivia: the leaf of each is in
the tree. -/
theorem Event.not_tooLong_of_replay {text : Text} {tokens : List Token} {events : Array Event} {d : Draft}
    (lies : ∀ t ∈ d.tokens, t.LiesIn text) (replayed : replay text tokens events = .ok (d.tree text)) :
    ∀ t ∈ d.tokens, ¬ t.TooLong := by
  intro t member long
  obtain ⟨⟨kind, u⟩, found, rfl⟩ := List.mem_map.mp member
  have uLies : u.LiesIn text := lies u (List.mem_map_of_mem found)
  have short : (u.leaf text kind).Short := by
    apply Event.short_replay replayed
    rw [Draft.leaves_tree]
    exact List.mem_map_of_mem (f := fun leaf => leaf.2.leaf text leaf.1) found
  rw [uLies.leaf_eq] at short
  exact Nat.lt_irrefl _ (Nat.lt_of_lt_of_le short long)

end LispSyntax
