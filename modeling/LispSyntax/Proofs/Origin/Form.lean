import LispSyntax.Proofs.Alternatives
import LispSyntax.Proofs.Faults
import LispSyntax.Proofs.Origin.Special

/-! # Where the forms of a source come from

The rule for a form makes forms that come from it, or from one of the productions it leaves to others, at every
depth (`tracesForms_form`); so all forms of a source have an origin (`exists_origins`).
-/

namespace LispSyntax

namespace Grammar

open LispSyntax.Parser Draft Outline

variable {p : Parser} {r : Completed × Parser} {kind : Kind} {budget : Nat} {ds : List Draft}

/-- What the rule makes comes from the rule. -/
theorem origin_formAt (below : budget < maxDepth) (going : p.atSequenceEnd = false)
    (made : formAt (form budget) p = counted r) (noSlash : kind = .error → ∀ t, Draft.token .slash t ∉ ds) :
    Origin p kind ds r :=
  .form below going made noSlash

theorem TracesNode.tracesForm_formAt (below : budget < maxDepth) (node : TracesNode p kind r) (ready : p.Ready)
    (going : p.atSequenceEnd = false) (made : formAt (form budget) p = counted r)
    (noError : kind ≠ .error) : TracesForm p (counted r) :=
  node.tracesForm ready fun _ _ => origin_formAt below going made fun isError => absurd isError noError

/-- A token that is no slash, as an error. -/
theorem tracesForm_errorToken {t : Token} (below : budget < maxDepth) (ready : p.Ready)
    (going : p.atSequenceEnd = false) (makes : Makes p (.node .error [Draft.token t.kind t]) r)
    (made : formAt (form budget) p = counted r) (noSlash : t.kind ≠ .slash) :
    TracesForm p (counted r) := by
  refine ⟨.error, _, makes.runs, traced_leafNode ready makes (origin_formAt below going made ?_)⟩
  intro _ u member
  have same := List.mem_singleton.mp member
  simp only [Draft.token, Outline.leaf.injEq, Prod.mk.injEq] at same
  exact noSlash same.1.symm

theorem tracesForm_stray {t : Token} {ts : List Token} (ready : p.Ready) (rest : p.rest = t :: ts)
    (closes : t.kind.isCloser = true) :
    TracesForm p (none, (badToken (.unexpectedCloser p.kind) p).2) := by
  have makes := makes_badToken rest (.unexpectedCloser p.kind)
  exact ⟨.error, _, makes.runs, traced_leafNode ready makes (.stray rest closes)⟩

theorem specialNode_ne_error {head : Kind} (isHead : head ∈ Kind.heads) :
    specialNode head ≠ .error := by
  revert head
  decide

theorem tracesForm_parenthesized (forms : TracesForms budget) (ready : p.Ready)
    (going : p.atSequenceEnd = false) (isParen : p.isAt .leftParen = true)
    (made : formAt (form budget) p = counted (parenthesized (form budget) p)) :
    TracesForm p (counted (parenthesized (form budget) p)) := by
  obtain ⟨t, ts, rest, kindEq⟩ := ready.exists_isAt isParen (by decide)
  revert made
  rw [parenthesized, require_eq isParen]
  cases ahead : headAhead? p with
  | none =>
    intro made
    have opens : t.kind.closer? = some .rightParen := by rw [kindEq]; rfl
    have node : TracesNode p .listForm (list (form budget) p) :=
      tracesNode_delimited forms "list" ready rest opens rfl
    exact node.tracesForm_formAt forms.below ready going made (by decide)
  | some head =>
    intro made
    obtain ⟨u, us, rfl, -, isHead⟩ := exists_head ready rest ahead
    have member : head ∈ Kind.heads := List.mem_of_find?_eq_some isHead
    exact (tracesNode_specialForm forms ready rest kindEq
      (isLabel_specialNode member).1).tracesForm_formAt forms.below ready going made
      (specialNode_ne_error member)

theorem tracesForm_formAt (forms : TracesForms budget) (ready : p.Ready)
    (going : p.atSequenceEnd = false) : TracesForm p (formAt (form budget) p) := by
  obtain ⟨t, ts, rest⟩ := ready.exists_rest_of_going going
  have kindEq := kind_of_rest rest
  obtain ⟨rule, alternative, formEq⟩ := formAt_cases going rest
  have made := formEq (form budget) p kindEq
  rw [made]
  have node {kind : Kind} {r : Completed × Parser} (made : formAt (form budget) p = counted r)
      (node : TracesNode p kind r) (noError : kind ≠ .error) : TracesForm p (counted r) :=
    node.tracesForm_formAt forms.below ready going made noError
  have origin {r : Completed × Parser} (made : formAt (form budget) p = counted r) (kind : Kind) (ds : List Draft)
      (noError : kind ≠ .error) : Origin p kind ds r :=
    origin_formAt forms.below going made fun isError => absurd isError noError
  cases alternative with
  | address isAddress =>
    obtain ⟨u, us, -, makes, traced⟩ := traced_literal ready (by rw [kindEq, isAddress]; rfl)
    exact tracesForm_infixLookup ready makes traced (origin made)
  | literal isLiteral =>
    obtain ⟨u, us, -, makes, traced⟩ := traced_literal ready (by rw [kindEq, isLiteral])
    exact tracesForm_counted makes traced
  | symbol isSymbol =>
    obtain ⟨u, us, -, makes, traced⟩ := traced_symbol ready (by rw [atSymbol, kindEq, isSymbol])
    exact tracesForm_infixLookup ready makes traced (origin made)
  | slash =>
    have makes := makes_leafNode .symbol p.slashKind rest rfl
    exact tracesForm_counted makes (traced_leafNode ready makes (origin made _ _ (by decide)))
  | parenthesized isParen =>
    have atParen : p.isAt .leftParen = true := by simp [isAt, kindEq, isParen]
    exact tracesForm_parenthesized forms ready going atParen made
  | vector isBracket =>
    have opens : t.kind.closer? = some .rightBracket := by rw [isBracket]; rfl
    exact node made (tracesNode_delimited forms "vector" ready rest opens rfl) (by decide)
  | map isBrace =>
    have atBrace : p.isAt .leftBrace = true := by simp [isAt, kindEq, isBrace]
    exact node made (tracesNode_map forms ready atBrace) (by decide)
  | set isHashBrace =>
    have opens : t.kind.closer? = some .rightBrace := by rw [isHashBrace]; rfl
    exact node made (tracesNode_delimited forms "set" ready rest opens rfl) (by decide)
  | marked isMark =>
    have isQuote : (quoteNode p.kind).isLabel = true ∧ quoteNode p.kind ≠ .error := by
      rw [kindEq]
      rcases isMark with isMark | isMark | isMark <;> rw [isMark] <;> decide
    exact node made (tracesNode_markedForm forms ready rest isQuote.1) isQuote.2
  | metadata isCaret =>
    have atCaret : p.isAt .caret = true := by simp [isAt, kindEq, isCaret]
    obtain ⟨ds, makes, traced⟩ := makes_misplacedMetadata forms ready atCaret
    refine tracesForm_counted makes (traced.node fun _ => ⟨p, _, ready, rfl, makes, .refl _, .refl _,
      origin_formAt forms.below going made ?_⟩)
    intro _ u member
    cases List.mem_singleton.mp member
  | unknown isUnknown =>
    exact tracesForm_errorToken forms.below ready going (makes_node rfl (runs_advance (p := p.begun) rest)) made
      (by rw [isUnknown]; decide)
  | stray isCloser => exact tracesForm_stray ready rest isCloser
  | bad _ formless =>
    exact tracesForm_errorToken forms.below ready going (makes_badToken rest _) made formless.noSlash

/-- The rule for a form, at every depth, makes forms that have an origin. -/
theorem tracesForms_form (budget : Nat) (below : budget < maxDepth) : TracesForms budget := by
  induction budget with
  | zero =>
    refine ⟨below, fun p ready going => ?_⟩
    have made := tracesForm_tooDeep ready going
    simp only [form, going, Bool.false_eq_true, if_false]
    exact made
  | succ budget inductionHypothesis =>
    refine ⟨below, fun p ready going => ?_⟩
    simp only [form, going, Bool.false_eq_true, if_false]
    exact tracesForm_formAt (inductionHypothesis (Nat.lt_of_succ_lt below)) ready going

/-- The first level of a source is the one above all others. -/
theorem traces_outermost (ready : p.Ready) : Traces p (form maxDepth p).2 := by
  have unfolded : form maxDepth p = if p.atSequenceEnd then (none, p) else formAt (form 127) p := rfl
  rw [unfolded]
  cases going : p.atSequenceEnd with
  | true => exact .stay p
  | false => exact (tracesForm_formAt (tracesForms_form 127 (by decide)) ready going).traces

theorem traces_topLevel (turns : Nat) (ready : p.Ready) : Traces p (topLevel turns p) := by
  induction turns generalizing p with
  | zero => exact .stay p
  | succ turns inductionHypothesis =>
    rw [topLevel]
    split
    · exact .stay p
    · have first := traces_outermost ready
      exact first.trans (inductionHypothesis (first.ready ready))

end Grammar

/-! ## Sources -/

theorem Token.kind_leaf (text : Text) (kind : Kind) (t : Token) : (t.leaf text kind).kind = kind := by
  rw [leaf]
  split <;> rfl

open Grammar

/-- The draft of a text that is parsed follows the table, and all its forms have an origin behind the start of the
source. -/
theorem exists_origins {text : Text} {r : Registry} {result : Parse} (parsed : parse text r = .ok result) :
    ∃ start d, Drafted text r start d ∧ start.Ready ∧ FollowsTable start (source start) d ∧
      Traced start.begun (source start) [d] := by
  obtain ⟨init, last, tokensEq, lastEnd, initNotEnd⟩ := Token.exists_init_tokensFrom r 0 text
  have ready : (startOf r init last).Ready := ⟨lastEnd, initNotEnd⟩
  obtain ⟨ds, runs, ending, follows⟩ := reads_source ready rfl
  obtain ⟨es, runs', traced⟩ :=
    traces_topLevel (startOf r init last).begun.rest.length ready.begun
  have drafted := drafted_of_runs tokensEq ready runs ending
  have fits := drafted.logFits_iff.mp (logFits_of_parse parsed)
  obtain rfl := runs.unique runs' ((addressed_source_iff _).mp fits)
  refine ⟨_, _, drafted, ready, follows, ?_⟩
  refine Traced.node (Traced.append ?_ (traced_of_no_nodes (by simp)))
    fun isForm => absurd isForm (by decide)
  exact traced.mono rfl (.refl _) (earlier_of_grows (grows_source _) ((reports_source _).symm ▸ List.prefix_refl _))

end LispSyntax
