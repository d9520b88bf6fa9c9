import LispSyntax.Proofs.Alternatives
import LispSyntax.Proofs.Height
import Mathlib.Data.List.Chain

/-! # How high a tree is

The longest way through one form is four nodes and then a form again: a special form, an arity, its parameter list, and
what is left of that after a token that is no parameter. The rule for a form is called with one level less each time,
and without levels it makes a single node, so a tree is no higher than its root, four nodes for each level and one more
(`Flat` of every rule, then `chain_le_of_parse`).

As no node is empty, a tree that is no higher than that has no more nodes than a multiple of the text's size. So the log
of a text fits if the text is small, whatever it says (`logFits_of_small`).
-/

namespace LispSyntax

namespace Grammar

open LispSyntax.Parser Draft Outline

variable {form : FormRule} {p q : Parser} {t : Token} {ts : List Token} {kind : Kind} {limit : Nat}

/-! ## Special forms -/

/-- Each node of a rule is one more around the forms inside it. -/
theorem FlatForms.composes (forms : FlatForms limit form) : Composes form fun more => Flat (limit + more) where
  reads := forms.reads
  le flat := flat.rest_le
  ready flat := flat.ready
  mono flat le := flat.mono (Nat.add_le_add_left le limit)
  stay more := .stay (limit + more)
  trans := .trans
  advanceAs := flat_advanceAs
  reportAt := flat_reportAt
  complete label _ inside fewer := (FlatNode.complete label inside fewer).flat
  between := flat_between
  literal ready isLiteral := ((flatNode_literal ready isLiteral).mono forms.pos).flat
  symbol ready isSymbol := ((flatNode_symbol ready isSymbol).mono forms.pos).flat
  form ready := forms.flat _ ready
  sequence := flat_sequence forms
  recover := flat_recover forms
  optionalMetadata := flat_optionalMetadata forms

theorem flatNode_specialForm (forms : FlatForms limit form) (ready : p.Ready) {u : Token} {head : Kind}
    (rest : p.rest = t :: u :: ts) (isParen : t.kind = .leftParen) (isSymbol : u.kind.isSymbolToken = true)
    (isHead : Kind.ofHead? u.text = some head) : FlatNode (limit + 4) p (specialForm form head p) := by
  have member : head ∈ Kind.heads := List.mem_of_find?_eq_some isHead
  have fewer := rest_lt_of_reads (reads_specialForm forms.reads ready rest isParen isSymbol isHead)
  rw [specialForm, rest_node] at fewer
  exact FlatNode.complete (isLabel_specialNode member).1
    (composes_specialInside forms.composes ready.begun rest isParen head) fewer

/-! ## Forms and sources -/

theorem flatNode_parenthesized (forms : FlatForms limit form) (ready : p.Ready) (rest : p.rest = t :: ts)
    (isParen : t.kind = .leftParen) : FlatNode (limit + 4) p (parenthesized form p) := by
  have met : p.isAt .leftParen = true := by simp [isAt, kind_of_rest rest, isParen]
  rw [parenthesized, require_eq met]
  cases ahead : headAhead? p with
  | none =>
    have opens : t.kind.closer? = some .rightParen := by rw [isParen]; rfl
    have node : FlatNode (limit + 1) p (list form p) := flatNode_delimited forms "list" ready rest opens rfl
    exact node.mono (Nat.le_add_right _ 3)
  | some head =>
    obtain ⟨u, us, rfl, isSymbol, isHead⟩ := exists_head ready rest ahead
    exact flatNode_specialForm forms ready rest isParen isSymbol isHead

/-- A form is at most four nodes around the forms inside it. -/
theorem flat_formAt (forms : FlatForms limit form) (ready : p.Ready) (going : p.atSequenceEnd = false) :
    Flat (limit + 4) p (formAt form p).2 := by
  obtain ⟨t, ts, rest⟩ := ready.exists_rest_of_going going
  have kindEq := kind_of_rest rest
  obtain ⟨rule, alternative, formEq⟩ := formAt_cases going rest
  rw [formEq form p kindEq]
  have counts {r : Completed × Parser} (node : FlatNode (limit + 4) p r) : Flat (limit + 4) p (counted r).2 := node.flat
  have leaf {r : Completed × Parser} (node : FlatNode 1 p r) : Flat (limit + 4) p (counted r).2 :=
    counts (node.mono (Nat.le_add_left 1 (limit + 3)))
  have lookup {r : Completed × Parser} (node : FlatNode 1 p r) : Flat (limit + 4) p (counted (infixLookup r)).2 :=
    counts ((flatNode_infixLookup ready node).mono (Nat.le_add_left 2 (limit + 2)))
  have group {r : Completed × Parser} (node : FlatNode (limit + 1) p r) : Flat (limit + 4) p (counted r).2 :=
    counts (node.mono (Nat.le_add_right _ 3))
  cases alternative with
  | address isAddress => exact lookup (flatNode_literal ready (by rw [kindEq, isAddress]; rfl))
  | literal isLiteral => exact leaf (flatNode_literal ready (by rw [kindEq, isLiteral]))
  | symbol isSymbol => exact lookup (flatNode_symbol ready (by rw [atSymbol, kindEq, isSymbol]))
  | slash => exact leaf (flatNode_leaf rest rfl p.slashKind)
  | parenthesized isParen => exact counts (flatNode_parenthesized forms ready rest isParen)
  | vector isBracket =>
    have opens : t.kind.closer? = some .rightBracket := by rw [isBracket]; rfl
    exact group (flatNode_delimited forms "vector" ready rest opens rfl)
  | map isBrace =>
    have atBrace : p.isAt .leftBrace = true := by simp [isAt, kindEq, isBrace]
    exact group (flatNode_map forms ready atBrace)
  | set isHashBrace =>
    have opens : t.kind.closer? = some .rightBrace := by rw [isHashBrace]; rfl
    exact group (flatNode_delimited forms "set" ready rest opens rfl)
  | marked => exact group (flatNode_markedForm forms ready rest (by cases p.kind <;> rfl))
  | metadata isCaret =>
    have atCaret : p.isAt .caret = true := by simp [isAt, kindEq, isCaret]
    exact counts ((flatNode_misplacedMetadata forms ready atCaret).mono (Nat.le_succ _))
  | unknown => exact leaf (flatNode_advance rest rfl)
  | stray => exact ((flatNode_badToken rest _).mono (Nat.le_add_left 1 (limit + 3))).flat
  | bad => exact leaf (flatNode_badToken rest _)

/-- A form with so many levels left is at most four nodes for each of them, and one more. -/
theorem flatForms_form (budget : Nat) : FlatForms (4 * budget + 1) (Grammar.form budget) := by
  refine ⟨readsForms_form budget, Nat.succ_pos _, ?_⟩
  -- The rule for the forms inside a form has a level less, and without a level left there are only tokens inside.
  induction budget with
  | zero =>
    intro p ready
    simp only [Grammar.form]
    split
    · exact .stay _ p
    · rename_i going
      exact (flatNode_tooDeep ready (by simpa using going)).flat
  | succ budget inductionHypothesis =>
    intro p ready
    simp only [Grammar.form]
    split
    · exact .stay _ p
    · rename_i going
      exact flat_formAt ⟨readsForms_form budget, Nat.succ_pos _, inductionHypothesis⟩ ready (by simpa using going)

theorem flat_topLevel (turns : Nat) (ready : p.Ready) :
    Flat (4 * maxDepth + 1) p (topLevel turns p) := by
  induction turns generalizing p with
  | zero => exact .stay _ p
  | succ turns inductionHypothesis =>
    rw [topLevel]
    split
    · exact .stay _ p
    · have first := (flatForms_form maxDepth).flat p ready
      exact first.trans (inductionHypothesis (first.ready ready))

end Grammar

open Grammar

/-- The draft of a text is its root, at most four nodes for each level of forms, and one more, and no node is empty. -/
theorem exists_drafted_within (text : Text) (r : Registry) :
    ∃ start d, Drafted text r start d ∧ d.Within (1 + 4 * maxDepth + 1) := by
  obtain ⟨init, last, tokensEq, lastEnd, initNotEnd⟩ := Token.exists_init_tokensFrom r 0 text
  have ready : (startOf r init last).Ready := ⟨lastEnd, initNotEnd⟩
  obtain ⟨ds, runs, within⟩ := flat_topLevel (startOf r init last).begun.rest.length ready.begun
  refine ⟨_, _, drafted_of_runs tokensEq ready runs (rest_topLevel ready rfl), ?_⟩
  -- The source is one node around its forms, and the end of the text is a leaf in it.
  rw [Nat.add_comm 1]
  refine .node (fun d member => ?_) (List.append_ne_nil_of_right_ne_nil _ (List.cons_ne_nil _ _))
  rcases List.mem_append.mp member with inForms | atEnd
  · exact within d inForms
  · rw [List.mem_singleton.mp atEnd]
    exact .of_leaf rfl

/-! ## Logs of small texts -/

/-- There are no more tokens than characters and the end. -/
theorem Token.length_tokensFrom_le (r : Registry) (offset : Nat) (text : Text) :
    (tokensFrom r offset text).1.length ≤ text.length + 1 := by
  fun_induction tokensFrom r offset text with
  | case1 offset text reading atEnd => exact Nat.le_add_left 1 text.length
  | case2 offset text reading notEnd next inductionHypothesis =>
    have shorter : reading.rest.length < text.length := length_rest_read notEnd
    exact Nat.succ_le_succ (Nat.le_trans inductionHypothesis shorter)

/-- A tree has a node for each of its levels and tokens at most, and so the log of a small text fits. -/
theorem logFits_of_small {text : Text} (r : Registry)
    (small : (8 * maxDepth + 5) * (Text.size text + 1) ≤ sizeLimit) : LogFits text r := by
  obtain ⟨start, d, drafted, within⟩ := exists_drafted_within text r
  have leaves : d.leaves.length ≤ Text.size text + 1 := by
    have tokens : d.leaves.length = (Token.tokenize text r).1.length := by
      rw [← drafted.tokens, Draft.tokens, List.length_map]
    rw [tokens]
    exact Nat.le_trans (Token.length_tokensFrom_le r 0 text) (Nat.succ_le_succ text.length_le_size)
  apply drafted.logFits_of_entries_le
  calc Outline.entries [d] ≤ (2 * (1 + 4 * maxDepth + 1) + 1) * d.leaves.length := within.entries_le
    _ ≤ (2 * (1 + 4 * maxDepth + 1) + 1) * (Text.size text + 1) := Nat.mul_le_mul_left _ leaves
    _ = (8 * maxDepth + 5) * (Text.size text + 1) := by congr 1
    _ ≤ sizeLimit := small

/-! ## Chains of nodes -/

theorem Forest.sketch_eq_map (ts : List Tree) : Forest.sketch ts = ts.map Tree.sketch := by
  induction ts with
  | nil => rfl
  | cons t ts inductionHypothesis => rw [Forest.sketch, inductionHypothesis, List.map_cons]

namespace View

variable {v w : View}

theorem tree_mem_of_mem_placeAll {offset : Nat} {ts : List Tree} (member : w ∈ placeAll offset ts) : w.tree ∈ ts := by
  induction ts generalizing offset with
  | nil => contradiction
  | cons t ts inductionHypothesis =>
    rw [placeAll, List.mem_cons] at member
    rcases member with rfl | member
    · exact List.mem_cons_self
    · exact List.mem_cons_of_mem t (inductionHypothesis member)

def height (v : View) : Nat :=
  v.tree.sketch.height

/-- A node is higher than the nodes in it. -/
theorem height_lt (inside : w ∈ v.nodes) : w.height < v.height := by
  have member : w.tree ∈ v.tree.children := tree_mem_of_mem_placeAll (List.mem_filter.mp inside).1
  rw [height, height]
  cases treeEq : v.tree with
  | leaf l =>
    rw [treeEq] at member
    contradiction
  | node kind children =>
    rw [treeEq] at member
    rw [Tree.sketch, Outline.height_node, Forest.sketch_eq_map]
    exact Nat.lt_succ_of_le (Outline.height_le_heightAll (List.mem_map_of_mem member))

theorem height_pos (isNode : v.isNode = true) : 0 < v.height := by
  rw [height]
  cases treeEq : v.tree with
  | leaf l =>
    rw [View.isNode, treeEq] at isNode
    contradiction
  | node kind children => exact Nat.succ_pos _

/-- A chain of nodes is no longer than its first node is high. -/
theorem length_le_height {chain : List View} (isNode : v.isNode = true)
    (nested : (v :: chain).IsChain fun outer inner => inner ∈ outer.nodes) : (v :: chain).length ≤ v.height := by
  induction chain generalizing v with
  | nil => exact height_pos isNode
  | cons w chain inductionHypothesis =>
    obtain ⟨inside, nested⟩ := List.isChain_cons_cons.mp nested
    have rest := inductionHypothesis (List.mem_filter.mp inside).2 nested
    exact Nat.lt_of_le_of_lt rest (height_lt inside)

end View

theorem height_root_le {text : Text} {r : Registry} {result : Parse} (parsed : parse text r = .ok result) :
    result.root.isNode = true ∧ result.root.height ≤ 1 + 4 * maxDepth + 1 := by
  obtain ⟨start, d, drafted, within⟩ := exists_drafted_within text r
  rw [drafted.eq_of_parse_eq_ok parsed]
  obtain ⟨ds, rfl⟩ := drafted.reads.isSource
  refine ⟨rfl, ?_⟩
  rw [View.height, Parse.root, View.root, Draft.sketch_tree _ drafted.lies, Draft.sketch, Outline.height_map]
  exact within.height_le

/-- No chain of nodes from the root is longer than the root, four nodes for each level of forms, and one more for a form
that is nested too deeply. -/
theorem chain_le_of_parse {text : Text} {r : Registry} {result : Parse} (parsed : parse text r = .ok result)
    {chain : List View} (starts : chain.head? = some result.root)
    (nested : chain.IsChain fun outer inner => inner ∈ outer.nodes) : chain.length ≤ 1 + 4 * maxDepth + 1 := by
  obtain ⟨isNode, height⟩ := height_root_le parsed
  obtain ⟨rest, rfl⟩ := List.head?_eq_some_iff.mp starts
  exact Nat.le_trans (View.length_le_height isNode nested) height

/-- A number among the parameters of a function, with nothing closed. -/
def crampedSample : Text :=
  "(defn f([1".toList

/-- Down to the number the nodes are the source, the definition, its arity, the parameters, what is left of these, and
the number: four for the one level between the source and the form that is innermost. -/
theorem chain_le_of_parse_cramped :
    ∃ (result : Parse) (chain : List View), parse crampedSample .empty = .ok result ∧
      chain.head? = some result.root ∧ (chain.IsChain fun outer inner => inner ∈ outer.nodes) ∧
      chain.map View.kind = [.source, .defnForm, .arity, .paramList, .error, .literal] ∧
      chain.length ≤ 1 + 4 * maxDepth + 1 := by
  have checked : (parse crampedSample .empty).toOption.any (fun result =>
      let chain := ([0, 3, 1, 1, 0] : List Nat).inits.filterMap result.root.get?
      decide ((chain.IsChain fun outer inner => inner ∈ outer.nodes) ∧
        chain.map View.kind = [.source, .defnForm, .arity, .paramList, .error, .literal])) = true := by
    decide +kernel
  obtain ⟨result, parsed, checked⟩ := exists_parse_of_any checked
  obtain ⟨nested, kinds⟩ := of_decide_eq_true checked
  exact ⟨result, _, parsed, rfl, nested, kinds, chain_le_of_parse parsed rfl nested⟩

end LispSyntax
