import LispSyntax.Token
import LispSyntax.Tree

/-! # Outlines

An outline is a tree with anything at its leaves. Two uses carry the theory of the parser. A *draft* has
a token and the kind it is taken under at each leaf: it is what the parser decides, before any text is
cut. A *sketch* has a kind and a lexeme: it is what is left of a tree when trivia and places are
forgotten, and two trees that say the same have the same sketch.

`Outline.nodes` lists every node with its children, so that a property of all nodes is a property of
the members of a list.
-/

namespace LispSyntax

inductive Outline (α : Type) where
  | node (kind : Kind) (children : List (Outline α))
  | leaf (value : α)

/-- What the parser decides: the tokens in their nodes, each under the kind it was taken as. -/
abbrev Draft := Outline (Kind × Token)

/-- A tree without trivia and places: kinds, nesting and lexemes. -/
abbrev Sketch := Outline (Kind × Text)

namespace Outline

variable {α β : Type}

mutual

def leaves : Outline α → List α
  | node _ children => leavesAll children
  | leaf value => [value]

def leavesAll : List (Outline α) → List α
  | [] => []
  | o :: os => o.leaves ++ leavesAll os

end

mutual

/-- Every node with its children, each before those below it. -/
def nodes : Outline α → List (Kind × List (Outline α))
  | node kind children => (kind, children) :: nodesAll children
  | leaf _ => []

def nodesAll : List (Outline α) → List (Kind × List (Outline α))
  | [] => []
  | o :: os => o.nodes ++ nodesAll os

end

mutual

def map (f : α → β) : Outline α → Outline β
  | node kind children => node kind (mapAll f children)
  | leaf value => leaf (f value)

def mapAll (f : α → β) : List (Outline α) → List (Outline β)
  | [] => []
  | o :: os => o.map f :: mapAll f os

end

def isNode : Outline α → Bool
  | node .. => true
  | leaf _ => false

@[simp] theorem isNode_node (kind : Kind) (children : List (Outline α)) : (node kind children).isNode = true := rfl

@[simp] theorem isNode_leaf (value : α) : (leaf value).isNode = false := rfl

/-! ## Several outlines side by side -/

@[simp] theorem leaves_leaf (value : α) : (leaf value).leaves = [value] := rfl

@[simp] theorem leaves_node (kind : Kind) (children : List (Outline α)) :
    (node kind children).leaves = leavesAll children := rfl

@[simp] theorem leavesAll_nil : leavesAll ([] : List (Outline α)) = [] := rfl

@[simp] theorem leavesAll_cons (o : Outline α) (os : List (Outline α)) :
    leavesAll (o :: os) = o.leaves ++ leavesAll os := rfl

@[simp] theorem leavesAll_append (os us : List (Outline α)) :
    leavesAll (os ++ us) = leavesAll os ++ leavesAll us := by
  induction os with
  | nil => rfl
  | cons o os ih => simp [ih]

@[simp] theorem nodes_leaf (value : α) : (leaf value).nodes = [] := rfl

@[simp] theorem nodes_node (kind : Kind) (children : List (Outline α)) :
    (node kind children).nodes = (kind, children) :: nodesAll children := rfl

@[simp] theorem mem_nodesAll {n : Kind × List (Outline α)} {os : List (Outline α)} :
    n ∈ nodesAll os ↔ ∃ o ∈ os, n ∈ o.nodes := by
  induction os with
  | nil => simp [nodesAll]
  | cons o os ih => simp [nodesAll, ih]

@[simp] theorem map_leaf (f : α → β) (value : α) : (leaf value).map f = leaf (f value) := rfl

@[simp] theorem mapAll_eq_map (f : α → β) (os : List (Outline α)) : mapAll f os = os.map (map f) := by
  induction os with
  | nil => rfl
  | cons o os ih => simp [mapAll, ih]

@[simp] theorem map_node (f : α → β) (kind : Kind) (children : List (Outline α)) :
    (node kind children).map f = node kind (children.map (map f)) := by
  rw [map, mapAll_eq_map]

mutual

theorem leaves_map (f : α → β) : (o : Outline α) → (o.map f).leaves = o.leaves.map f
  | node _ children => by
    rw [map, leaves_node, leaves_node]
    exact leavesAll_mapAll f children
  | leaf _ => rfl

theorem leavesAll_mapAll (f : α → β) : (os : List (Outline α)) →
    leavesAll (mapAll f os) = (leavesAll os).map f
  | [] => rfl
  | o :: os => by simp only [mapAll, leavesAll_cons, List.map_append, leaves_map f o, leavesAll_mapAll f os]

end

mutual

theorem nodes_map (f : α → β) : (o : Outline α) →
    (o.map f).nodes = o.nodes.map fun n => (n.1, n.2.map (map f))
  | node kind children => by
    rw [map, nodes_node, nodes_node, List.map_cons, ← nodesAll_mapAll f children, mapAll_eq_map]
  | leaf _ => rfl

theorem nodesAll_mapAll (f : α → β) : (os : List (Outline α)) →
    nodesAll (mapAll f os) = (nodesAll os).map fun n => (n.1, n.2.map (map f))
  | [] => rfl
  | o :: os => by simp only [mapAll, nodesAll, List.map_append, nodes_map f o, nodesAll_mapAll f os]

end

mutual

theorem map_map {γ : Type} (g : β → γ) (f : α → β) : (o : Outline α) → (o.map f).map g = o.map (g ∘ f)
  | node kind children => by
    simp only [map_node, ← mapAll_eq_map, mapAll_mapAll g f children]
  | leaf _ => rfl

theorem mapAll_mapAll {γ : Type} (g : β → γ) (f : α → β) :
    (os : List (Outline α)) → mapAll g (mapAll f os) = mapAll (g ∘ f) os
  | [] => rfl
  | o :: os => by simp only [mapAll, map_map g f o, mapAll_mapAll g f os]

end

mutual

theorem mem_nodes_of_mem {n m : Kind × List (Outline α)} {child : Outline α}
    (member : child ∈ n.2) (inside : m ∈ child.nodes) : (o : Outline α) → n ∈ o.nodes → m ∈ o.nodes
  | node kind children, found => by
    rw [nodes_node, List.mem_cons] at found ⊢
    rcases found with rfl | found
    · exact .inr (mem_nodesAll.mpr ⟨child, member, inside⟩)
    · exact .inr (mem_nodesAll_of_mem member inside children found)
  | leaf value, found => absurd found (by simp)

theorem mem_nodesAll_of_mem {n m : Kind × List (Outline α)} {child : Outline α}
    (member : child ∈ n.2) (inside : m ∈ child.nodes) :
    (os : List (Outline α)) → n ∈ nodesAll os → m ∈ nodesAll os
  | [], found => absurd found (by simp [nodesAll])
  | o :: os, found => by
    rw [nodesAll, List.mem_append] at found ⊢
    rcases found with found | found
    · exact .inl (mem_nodes_of_mem member inside o found)
    · exact .inr (mem_nodesAll_of_mem member inside os found)

end

mutual

/-- A leaf is the whole outline or a child of one of its nodes. -/
theorem mem_leaves_iff {value : α} : (o : Outline α) →
    (value ∈ o.leaves ↔ o = .leaf value ∨ ∃ n ∈ o.nodes, .leaf value ∈ n.2)
  | node kind children => by
    rw [leaves_node, nodes_node, mem_leavesAll_iff children]
    simp
  | leaf other => by
    simp [eq_comm]

theorem mem_leavesAll_iff {value : α} : (os : List (Outline α)) →
    (value ∈ leavesAll os ↔ .leaf value ∈ os ∨ ∃ n ∈ nodesAll os, .leaf value ∈ n.2)
  | [] => by simp [nodesAll]
  | o :: os => by
    simp only [leavesAll_cons, nodesAll, List.mem_append, List.mem_cons, mem_leaves_iff o,
      mem_leavesAll_iff os, or_and_right, exists_or]
    grind

end

theorem nodesAll_append (os us : List (Outline α)) : nodesAll (os ++ us) = nodesAll os ++ nodesAll us := by
  induction os with
  | nil => rfl
  | cons o os ih => simp [nodesAll, ih]

/-- How many entries it takes to log the outlines: two for every node and one for every leaf. -/
def entries (os : List (Outline α)) : Nat :=
  2 * (nodesAll os).length + (leavesAll os).length

@[simp] theorem entries_nil : entries ([] : List (Outline α)) = 0 := rfl

@[simp] theorem entries_leaf (value : α) (os : List (Outline α)) : entries (leaf value :: os) = entries os + 1 := by
  simp only [entries, nodesAll, nodes_leaf, List.nil_append, leavesAll_cons, leaves_leaf, List.length_append,
    List.length_singleton]
  omega

@[simp] theorem entries_node (kind : Kind) (children os : List (Outline α)) :
    entries (node kind children :: os) = entries children + entries os + 2 := by
  simp only [entries, nodesAll, nodes_node, leavesAll_cons, leaves_node, List.length_append, List.length_cons]
  omega

@[simp] theorem entries_append (os us : List (Outline α)) : entries (os ++ us) = entries os + entries us := by
  simp only [entries, nodesAll_append, leavesAll_append, List.length_append]
  omega

theorem entries_cons (o : Outline α) (os : List (Outline α)) : entries (o :: os) = entries [o] + entries os :=
  entries_append [o] os

@[simp] theorem entries_map (f : α → β) (os : List (Outline α)) : entries (os.map (map f)) = entries os := by
  rw [← mapAll_eq_map, entries, entries, nodesAll_mapAll, leavesAll_mapAll, List.length_map, List.length_map]

/-- An outline has a leaf if all its nodes have children. -/
theorem leaves_ne_nil : (o : Outline α) → (∀ n ∈ o.nodes, n.2 ≠ []) → o.leaves ≠ []
  | leaf value, _ => by simp
  | node kind [], filled => absurd rfl (filled (kind, []) (by simp))
  | node kind (o :: os), filled => by
    have first : o.leaves ≠ [] := leaves_ne_nil o fun n member =>
      filled n (by rw [nodes_node, List.mem_cons, mem_nodesAll]; exact .inr ⟨o, by simp, member⟩)
    rw [leaves_node, leavesAll_cons]
    exact List.append_ne_nil_of_left_ne_nil first _

end Outline

/-! ## Drafts and sketches -/

def Draft.token (kind : Kind) (t : Token) : Draft :=
  .leaf (kind, t)

def Draft.tokens (d : Draft) : List Token :=
  d.leaves.map Prod.snd

def Draft.tokensAll (ds : List Draft) : List Token :=
  (Outline.leavesAll ds).map Prod.snd

def Draft.sketch (d : Draft) : Sketch :=
  d.map fun leaf => (leaf.1, leaf.2.text)

namespace Draft

@[simp] theorem tokens_token (kind : Kind) (t : Token) : (token kind t).tokens = [t] := rfl

@[simp] theorem tokens_node (kind : Kind) (ds : List Draft) :
    tokens (.node kind ds) = tokensAll ds := rfl

@[simp] theorem tokensAll_nil : tokensAll [] = [] := rfl

@[simp] theorem tokensAll_cons (d : Draft) (ds : List Draft) :
    tokensAll (d :: ds) = d.tokens ++ tokensAll ds := by
  simp [tokensAll, tokens]

@[simp] theorem tokensAll_append (ds es : List Draft) :
    tokensAll (ds ++ es) = tokensAll ds ++ tokensAll es := by
  simp [tokensAll]

@[simp] theorem nodes_token (kind : Kind) (t : Token) : (token kind t).nodes = [] := rfl

@[simp] theorem isNode_token (kind : Kind) (t : Token) : (token kind t).isNode = false := rfl

@[simp] theorem sketch_token (kind : Kind) (t : Token) :
    (token kind t).sketch = .leaf (kind, t.text) := rfl

@[simp] theorem sketch_node (kind : Kind) (ds : List Draft) :
    sketch (.node kind ds) = .node kind (ds.map sketch) := by
  rw [sketch, Outline.map_node]
  rfl

theorem length_tokensAll {β : Type} {f : Kind × Token → β} {ds es : List Draft}
    (same : ds.map (Outline.map f) = es.map (Outline.map f)) : (tokensAll ds).length = (tokensAll es).length := by
  have leaves := congrArg (fun os => (Outline.leavesAll os).length) same
  simp only [← Outline.mapAll_eq_map, Outline.leavesAll_mapAll, List.length_map] at leaves
  simpa only [tokensAll, List.length_map] using leaves

mutual

/-- A draft is known by its nodes, by what tells the kinds at its leaves, and by its tokens. -/
theorem eq_of_map_eq {β : Type} {f : Kind × Token → β} (kinds : ∀ a b, f a = f b → a.1 = b.1) :
    (d e : Draft) → d.map f = e.map f → d.tokens = e.tokens → d = e
  | .node kind ds, .node kind' es, same, tokens => by
    rw [Outline.map_node, Outline.map_node, Outline.node.injEq] at same
    rw [same.1, eq_of_mapAll_eq kinds ds es same.2 tokens]
  | .leaf (kind, t), .leaf (kind', u), same, tokens => by
    have sameKind : kind = kind' := kinds _ _ (Outline.leaf.inj same)
    have sameToken : t = u := List.singleton_inj.mp tokens
    rw [sameKind, sameToken]
  | .node .., .leaf _, same, _ => by simp at same
  | .leaf _, .node .., same, _ => by simp at same

theorem eq_of_mapAll_eq {β : Type} {f : Kind × Token → β} (kinds : ∀ a b, f a = f b → a.1 = b.1) :
    (ds es : List Draft) → ds.map (Outline.map f) = es.map (Outline.map f) → tokensAll ds = tokensAll es → ds = es
  | [], [], _, _ => rfl
  | d :: ds, e :: es, same, tokens => by
    have lengths : (tokensAll [d]).length = (tokensAll [e]).length := by
      apply length_tokensAll (f := f)
      rw [List.map_singleton, List.map_singleton, (List.cons.inj same).1]
    simp only [tokensAll_cons, tokensAll_nil, List.append_nil] at lengths tokens
    obtain ⟨first, rest⟩ := List.append_inj tokens lengths
    rw [eq_of_map_eq kinds d e (List.cons.inj same).1 first, eq_of_mapAll_eq kinds ds es (List.cons.inj same).2 rest]
  | [], _ :: _, same, _ => by simp at same
  | _ :: _, [], same, _ => by simp at same

end

theorem entries_sketch (ds : List Draft) : Outline.entries (ds.map sketch) = Outline.entries ds :=
  Outline.entries_map _ ds

/-- Only nodes are sketched as nodes. -/
theorem exists_eq_node {d : Draft} {kind : Kind} {children : List Sketch} (same : d.sketch = .node kind children) :
    ∃ ds, d = .node kind ds := by
  cases d with
  | node kind' ds =>
    rw [sketch_node] at same
    obtain ⟨rfl, -⟩ := Outline.node.inj same
    exact ⟨ds, rfl⟩
  | leaf value => cases same

end Draft

/-- The text of a leaf without its trivia; nothing if the trivia does not end at characters. -/
def Leaf.lexeme (l : Leaf) : Text :=
  match l.trimmed with
  | .ok text => text
  | .error _ => []

mutual

def Tree.sketch : Tree → Sketch
  | .node kind children => .node kind (Forest.sketch children)
  | .leaf l => .leaf (l.kind, l.lexeme)

def Forest.sketch : List Tree → List Sketch
  | [] => []
  | t :: ts => t.sketch :: Forest.sketch ts

end

end LispSyntax
