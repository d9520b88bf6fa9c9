import LispSyntax.Proofs.Leaves
import LispSyntax.Proofs.Setting

/-! # Forms close what they open

Where nothing is reported, the table of productions puts delimiters only around what stands between them, so the
tokens of a form close exactly the sequences that the form opens. This is what a form brings along into any
setting.
-/

namespace LispSyntax

open LispSyntax.Pattern Outline

/-- A leaf whose token neither opens nor closes a sequence. -/
def IsPlainLeaf (leaf : Kind × Token) : Prop :=
  leaf.2.kind.closer? = none ∧ leaf.2.kind.isCloser = false

/-- What follows the pattern closes all it opens, if the nodes in it do. -/
def Balanced (a : Pattern (Kind × Token)) : Prop :=
  ∀ ds, a ds → (∀ kind os, .node kind os ∈ ds → Token.Closes [] (Draft.tokens (.node kind os))) →
    Token.Closes [] (Draft.tokensAll ds)

namespace Balanced

variable {a b : Pattern (Kind × Token)} {kind opener closer head : Kind}

theorem closes_of_plain {ds : List Draft} (plain : ∀ leaf, Outline.leaf leaf ∈ ds → IsPlainLeaf leaf)
    (nodes : ∀ kind os, .node kind os ∈ ds → Token.Closes [] (Draft.tokens (.node kind os))) :
    Token.Closes [] (Draft.tokensAll ds) := by
  induction ds with
  | nil => exact .done
  | cons d ds inductionHypothesis =>
    have others := inductionHypothesis (fun leaf member => plain leaf (List.mem_cons_of_mem d member))
      (fun kind os member => nodes kind os (List.mem_cons_of_mem d member))
    have first : Token.Closes [] (Draft.tokens d) := by
      cases d with
      | node kind os => exact nodes kind os List.mem_cons_self
      | leaf leaf =>
        obtain ⟨noOpener, noCloser⟩ := plain leaf List.mem_cons_self
        exact .plain noOpener noCloser .done
    rw [Draft.tokensAll_cons]
    exact first.append others

theorem of_leaves (leaves : Leaves IsPlainLeaf a) : Balanced a :=
  fun ds good nodes => closes_of_plain (leaves ds good) nodes

theorem orElse (left : Balanced a) (right : Balanced b) : Balanced (a.orElse b) := by
  rintro ds (good | good)
  · exact left ds good
  · exact right ds good

theorem delimited (opens : opener.closer? = some closer) (inside : Leaves IsPlainLeaf a) :
    Balanced (Recovery.delimited True opener closer a) := by
  rintro ds ⟨_, _, rfl, ⟨_, rfl, t, rfl, isOpener⟩, us, _, rfl, good, closing⟩ nodes
  rcases closing with ⟨_, rfl, u, rfl, isCloser⟩ | ⟨reported, -⟩
  · have middle := closes_of_plain (inside us good) fun kind os member => nodes kind os (by simp [member])
    have closed : Token.Closes (u.kind :: []) [u] := by
      apply Token.Closes.closer _ .done
      rw [isCloser]
      exact Kind.isCloser_of_closer? opens
    rw [isCloser] at closed
    simp only [Draft.tokensAll_append, Draft.tokensAll_cons, Draft.tokensAll_nil, Draft.tokens_token,
      List.append_nil, List.singleton_append]
    exact .opener (by rw [isOpener]; exact opens) (middle.append closed)
  · exact absurd trivial reported

/-! ## The table -/

theorem plain_symbol (t : Token) (isSymbol : t.kind.isSymbolToken = true) (kind : Kind) : IsPlainLeaf (kind, t) := by
  unfold IsPlainLeaf
  cases h : t.kind <;> rw [h] at isSymbol <;> first | exact ⟨rfl, rfl⟩ | contradiction

theorem plain_literal (t : Token) (isLiteral : t.kind.isLiteralToken = true) (kind : Kind) :
    IsPlainLeaf (kind, t) := by
  unfold IsPlainLeaf
  cases h : t.kind <;> rw [h] at isLiteral <;> first | exact ⟨rfl, rfl⟩ | contradiction

theorem plain_of_kind (plain : kind.closer? = none ∧ kind.isCloser = false) (t : Token) (isKind : t.kind = kind)
    (label : Kind) : IsPlainLeaf (label, t) := by
  rw [IsPlainLeaf, isKind]
  exact plain

theorem special : Balanced (Recovery.special True head) := by
  refine delimited rfl ?_
  refine (Leaves.taken fun t good => plain_symbol t good.1 head).followedBy
    (Leaves.followedBy (Leaves.specialBody ?_) (Leaves.optional Leaves.gaveUp))
  intro _ t good
  exact plain_of_kind ⟨rfl, rfl⟩ t good.1 .asMark

theorem quote {mark : Kind} (plain : mark.closer? = none ∧ mark.isCloser = false) :
    Balanced (Recovery.quote True mark head) :=
  (of_leaves ((Leaves.tokenOf fun t isKind => plain_of_kind plain t isKind mark).followedBy
    Leaves.expected)).orElse special

theorem production (alone kind : Kind) : Balanced (Recovery.production alone True kind) := by
  have symbols : Leaves IsPlainLeaf (Draft.tokenIn Kind.isSymbolToken) :=
    Leaves.tokenIn fun t isSymbol => plain_symbol t isSymbol t.kind
  cases kind with
  | source =>
    exact of_leaves (Leaves.forms.followedBy
      (Leaves.tokenOf fun t isKind => plain_of_kind ⟨rfl, rfl⟩ t isKind .eof))
  | literal => exact of_leaves (Leaves.tokenIn fun t isLiteral => plain_literal t isLiteral t.kind)
  | symbol =>
    exact of_leaves (symbols.orElse
      (Leaves.taken fun t isKind => plain_of_kind ⟨rfl, rfl⟩ t isKind alone))
  | listForm | vectorForm | setForm => exact delimited rfl Leaves.forms
  | mapForm => exact delimited rfl (Leaves.forms.imp fun _ good => good.1)
  | metadata =>
    exact of_leaves ((Leaves.tokenOf fun t isKind => plain_of_kind ⟨rfl, rfl⟩ t isKind .caret).followedBy
      ((Leaves.single (Leaves.isNode_of_hasKind .mapForm)).orElse
        (Leaves.provided (Leaves.optional Leaves.form))))
  | lookupForm =>
    exact (of_leaves (Leaves.account.followedBy
      ((Leaves.tokenOf fun t isKind => plain_of_kind ⟨rfl, rfl⟩ t isKind .slash).followedBy
        (Leaves.node .symbol)))).orElse special
  | importForm | defForm | defnForm | defmacroForm | fnForm | macroForm => exact special
  | condForm | letForm | loopForm | ifLetForm | whenLetForm | dotimesForm => exact special
  | arity =>
    exact (of_leaves Leaves.arityParts).orElse
      (delimited rfl (Leaves.arityParts.orElse Leaves.gaveUp))
  | paramList => exact delimited rfl (Leaves.parameters fun t good => plain_symbol t good.2 .amp)
  | fixedParam | optionalParam => exact of_leaves symbols
  | condClause => exact of_leaves (Leaves.form.followedBy (Leaves.optional Leaves.form))
  | condFallback => exact of_leaves Leaves.form
  | bindings => exact delimited rfl Leaves.bindingList
  | binding => exact of_leaves ((Leaves.node .symbol).followedBy Leaves.expected)
  | quoteForm | quasiquoteForm | unquoteForm => exact quote ⟨rfl, rfl⟩
  | error =>
    rintro ds (unknown | reported)
    · exact of_leaves (Leaves.tokenOf fun t isKind => plain_of_kind ⟨rfl, rfl⟩ t isKind .unknown) ds unknown
    · exact absurd trivial reported.1
  | _ => exact fun _ impossible => impossible.elim

end Balanced

namespace Draft

/-- The nodes follow the table of a source without problems. -/
def Flawless (alone : Kind) (d : Draft) : Prop :=
  ∀ n ∈ d.nodes, Recovery.production alone True n.1 n.2

mutual

/-- A form without problems closes all it opens. -/
theorem closes_of_flawless (alone kind : Kind) : (ds : List Draft) → Flawless alone (.node kind ds) →
    Token.Closes [] (tokens (.node kind ds))
  | ds, flawless => by
    rw [tokens_node]
    apply Balanced.production alone kind ds (flawless (kind, ds) (by simp))
    exact closes_of_mem alone ds fun n member => flawless n (by rw [nodes_node]; exact List.mem_cons_of_mem _ member)

theorem closes_of_mem (alone : Kind) : (ds : List Draft) →
    (∀ n ∈ nodesAll ds, Recovery.production alone True n.1 n.2) →
    ∀ kind os, .node kind os ∈ ds → Token.Closes [] (tokens (.node kind os))
  | [], _, _, _, member => by contradiction
  | .leaf _ :: ds, flawless, kind, os, member => by
    apply closes_of_mem alone ds (fun n inside => flawless n (by simpa using inside))
    simpa using member
  | .node kind' os' :: ds, flawless, kind, os, member => by
    cases List.mem_cons.mp member with
    | inl isFirst =>
      obtain ⟨rfl, rfl⟩ := Outline.node.inj isFirst
      exact closes_of_flawless alone kind os fun n inside =>
        flawless n (mem_nodesAll.mpr ⟨_, List.mem_cons_self, inside⟩)
    | inr isOther =>
      apply closes_of_mem alone ds _ kind os isOther
      intro n inside
      obtain ⟨d, below, inD⟩ := mem_nodesAll.mp inside
      exact flawless n (mem_nodesAll.mpr ⟨d, List.mem_cons_of_mem _ below, inD⟩)

end

/-- So do forms in a row. -/
theorem closes_of_forms {alone : Kind} {ds : List Draft} (forms : many IsForm ds)
    (flawless : ∀ n ∈ nodesAll ds, Recovery.production alone True n.1 n.2) :
    Token.Closes [] (tokensAll ds) :=
  Balanced.of_leaves Leaves.forms ds forms (closes_of_mem alone ds flawless)

end Draft

end LispSyntax
