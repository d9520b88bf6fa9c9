import LispSyntax.Proofs.Independence

/-! # Forms in parentheses

A node that starts with a parenthesis and is no error comes from one production, which looks at the two tokens behind
the parenthesis to choose between a list and a special form (`Sourced.exists_parenthesized`). What is made can be read
off the log as long as all starts have slots, so the kind of the node tells what was chosen (`parenthesized_cases`).
-/

namespace LispSyntax

/-- A node that is made can be read off the log. -/
theorem Parser.Makes.unique {p : Parser} {r : Completed × Parser} {d : Draft} {kind : Kind} {ds : List Draft}
    (makes : Makes p (.node kind ds) r) (makes' : Makes p d r) (addressed : r.2.Addressed) : d = .node kind ds :=
  (List.singleton_inj.mp (makes.runs.unique makes'.runs addressed)).symm

namespace Grammar

open LispSyntax.Parser Draft

variable {p low high : Parser} {r : Completed × Parser} {t : Token} {ts : List Token} {kind head : Kind} {budget : Nat}
  {d e : Draft} {ds es : List Draft} {text : Text}

theorem Origin.exists_parenthesized (origin : Origin p kind ds r) (first : ds = Draft.token .leftParen t :: es)
    (rest : p.rest = t :: ts) (isParen : t.kind = .leftParen) (noError : kind ≠ .error) :
    ∃ budget < maxDepth, p.atSequenceEnd = false ∧ parenthesized (Grammar.form budget) p = r := by
  have kindEq : p.kind = .leftParen := by rw [kind_of_rest rest, isParen]
  cases origin with
  | symbol isSymbol =>
    rw [atSymbol, kindEq] at isSymbol
    contradiction
  | literal isLiteral =>
    rw [kindEq] at isLiteral
    contradiction
  | map below isBrace =>
    rw [isAt, kindEq] at isBrace
    contradiction
  | form below going made noSlash =>
    rw [formAt, kindEq] at made
    obtain ⟨node, after⟩ := Prod.mk.inj made
    exact ⟨_, below, going, Prod.ext (Option.some.inj node) after⟩
  | stray | givenUp | tooDeep => contradiction

/-- What starts with a parenthesis and is no error was made by the rule for parentheses. -/
theorem Sourced.exists_parenthesized (sourced : Sourced low high kind ds) (addressed : high.Addressed)
    (first : ds = Draft.token .leftParen t :: es) (isParen : t.kind = .leftParen) (noError : kind ≠ .error) :
    ∃ p ts, ∃ budget < maxDepth, p.Ready ∧ p.slashKind = low.slashKind ∧ p.rest = t :: ts ∧
      p.atSequenceEnd = false ∧ Makes p (.node kind ds) (parenthesized (form budget) p) ∧
      (parenthesized (form budget) p).2.Addressed := by
  obtain ⟨p, r, ready, slash, makes, -, upTo, origin⟩ := sourced
  have rest : p.rest = t :: (tokensAll es ++ r.2.rest) := by simpa [first] using makes.runs.rest
  obtain ⟨budget, below, going, rfl⟩ := origin.exists_parenthesized first rest isParen noError
  exact ⟨p, _, budget, below, ready, slash, rest, going, makes, upTo.addressed addressed⟩

/-- The kind of the node tells what the rule chose. -/
theorem parenthesized_cases (below : budget < maxDepth) (ready : p.Ready) (rest : p.rest = t :: ts)
    (isParen : t.kind = .leftParen) (makes : Makes p (.node kind ds) (parenthesized (form budget) p))
    (addressed : (parenthesized (form budget) p).2.Addressed) :
    (kind = .listForm ∧ headAhead? p = none ∧ parenthesized (form budget) p = list (form budget) p) ∨
    ∃ head ∈ Kind.heads, kind = specialNode head ∧ headAhead? p = some head ∧
      parenthesized (form budget) p = specialForm (form budget) head p := by
  have forms := tracesForms_form budget below
  have opens : t.kind.closer? = some .rightParen := by rw [isParen]; rfl
  have atParen : p.isAt .leftParen = true := by rw [isAt, kind_of_rest rest, isParen]; rfl
  rw [parenthesized, require_eq atParen] at makes addressed ⊢
  cases ahead : headAhead? p with
  | none =>
    rw [ahead] at makes addressed
    obtain ⟨es, made, -⟩ : TracesNode p .listForm (list (form budget) p) :=
      tracesNode_delimited forms "list" ready rest opens rfl
    exact .inl ⟨(Outline.node.inj (makes.unique made addressed)).1.symm, rfl, rfl⟩
  | some head =>
    rw [ahead] at makes addressed
    obtain ⟨u, us, rfl, -, isHead⟩ := exists_head ready rest ahead
    have member : head ∈ Kind.heads := List.mem_of_find?_eq_some isHead
    obtain ⟨es, made, -⟩ := tracesNode_specialForm forms ready rest isParen (isLabel_specialNode member).1
    exact .inr ⟨head, member, (Outline.node.inj (makes.unique made addressed)).1.symm, rfl, rfl⟩

end Grammar

open Grammar

/-- A form in the tree of a text was made by one of the productions, out of tokens of the text. -/
theorem exists_sourced {text : Text} {r : Registry} {result : Parse} (parsed : parse text r = .ok result) {v : View}
    (below : v ∈ result.root.descendants) (isForm : Shape.form.accepts v.kind = true) :
    ∃ ds low high before behind, Draft.Views text v (v.kind, ds) ∧ Sourced low high v.kind ds ∧
      low.slashKind = Scan.symbolKind r ['/'] ∧
      (∀ n ∈ Outline.nodes (.node v.kind ds), Recovery.production low.slashKind False n.1 n.2) ∧
      high.Addressed ∧ (Token.tokenize text r).1 = before ++ Draft.tokensAll ds ++ behind := by
  obtain ⟨start, d, drafted, -, table, traced⟩ := exists_origins parsed
  have fits := logFits_of_parse parsed
  obtain rfl := drafted.eq_of_parse_eq_ok parsed
  obtain ⟨⟨kind, ds⟩, inside, views⟩ := Draft.exists_node_of_walk d drafted.placed v (View.mem_descendants.mp below)
  obtain rfl : kind = v.kind := by rw [View.kind, views.1]; rfl
  obtain ⟨before, after, tokens, -⟩ := drafted.exists_split table inside isForm
  refine ⟨ds, start.begun, source start, before, after, views, traced _ (by simpa using inside) isForm, drafted.slash,
    fun n member => ?_, drafted.logFits_iff.mp fits, tokens⟩
  rw [Outline.nodes_node, List.mem_cons] at member
  rcases member with rfl | under
  · exact table False False.elim _ inside
  · obtain ⟨child, among, under⟩ := Outline.mem_nodesAll.mp under
    exact table False False.elim n (Outline.mem_nodes_of_mem among under d inside)

end LispSyntax
