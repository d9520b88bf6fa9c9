import LispSyntax.Proofs.Alternatives
import LispSyntax.Proofs.Conditions
import LispSyntax.Proofs.Unreadable.Special

/-! # Tokens that cannot be read in sources

The rule for a form explains its reports at every depth, so those of a whole source are explained
(`exists_explained`). Seen from the tree: about a token that cannot be read nothing is reported but the scanner's
diagnostic, unless a rule that did not expect the token gave up there and took it for the first form of what it gave
up, or unless it is the key that a map has no value for, or nested too deeply.
-/

namespace LispSyntax

namespace Grammar

open LispSyntax.Parser Draft Delimiters

variable {p : Parser} {t : Token} {ts : List Token} {form : FormRule}

/-! ## Forms -/

theorem answersForm_unreadable (rest : p.rest = t :: ts) : AnswersForm p (p.node .error Parser.advance).2 := by
  have same : p.node .error Parser.advance = p.node .error fun p => p.advanceAs t.kind := by
    rw [Parser.node, Parser.node, ← kind_of_rest (p := p.begun) rest]
    rfl
  have made : Made p (.node .error [Draft.token t.kind t]) [] _ := made_leaf rest rfl t.kind
  rw [same]
  refine ⟨_, _, _, made.walks, made.reports, .skipped (by simp), fun _ => ?_⟩
  rw [current_of_rest rest, unreadable]

theorem skipMarks_of_no_mark (turns : Nat) (noMark : marks.contains p.kind = false) : skipMarks turns p = p := by
  cases turns with
  | zero => rfl
  | succ turns => rw [skipMarks, noMark, if_neg Bool.false_ne_true]

/-- A token that cannot be read is skipped alone. -/
theorem tooDeep_of_unknown (isUnknown : p.kind = .unknown) : tooDeep p = badToken .tooDeep p := by
  have kindEq : (p.begun.report .tooDeep).kind = .unknown := isUnknown
  have noMark : marks.contains (p.begun.report .tooDeep).kind = false := by
    rw [kindEq]
    decide
  have going : (p.begun.report .tooDeep).atSequenceEnd = false := by
    rw [Bool.eq_false_iff]
    exact fun ended => kind_ne_unknown_of_ended ended kindEq
  have noOpener : (p.begun.report .tooDeep).kind.isOpener = false := by
    rw [kindEq]
    rfl
  refine congrArg (fun q : Parser => q.complete p.start.1 .error) (?_ : _ = (p.begun.report .tooDeep).advance)
  dsimp only
  change (if (skipMarks _ (p.begun.report .tooDeep)).kind.isOpener = true then _ else
    if (skipMarks _ (p.begun.report .tooDeep)).atSequenceEnd = true then _ else _) = _
  rw [skipMarks_of_no_mark _ noMark, noOpener, going, if_neg Bool.false_ne_true, if_neg Bool.false_ne_true]
  exact congrArg Parser.advance (skipMarks_of_no_mark _ noMark)

theorem answersForm_tooDeep (ready : p.Ready) (going : p.atSequenceEnd = false) : AnswersForm p (tooDeep p).2 := by
  by_cases isUnknown : p.kind = .unknown
  · obtain ⟨t, ts, rest⟩ := ready.exists_rest_of_going going
    obtain ⟨made, -⟩ := made_badToken rest .tooDeep
    rw [tooDeep_of_unknown isUnknown]
    refine ⟨_, _, _, made.walks, made.reports, ?_, fun _ => by rw [current_of_rest rest, unreadable]⟩
    exact (Explained.note (.inl rfl)).append (.skipped (by simp))
  · obtain ⟨t, ts, made⟩ := made_tooDeep ready going
    refine ⟨_, _, _, made.walks, made.reports, ?_, fun unknown => absurd unknown isUnknown⟩
    refine (Explained.note (.inl rfl)).append (.skipped fun d member => ?_)
    obtain ⟨u, -, rfl⟩ := List.mem_map.mp member
    rfl

theorem answersForm_formAt (forms : AnswersForms form) (ready : p.Ready) (going : p.atSequenceEnd = false) :
    AnswersForm p (formAt form p).2 := by
  obtain ⟨t, ts, rest⟩ := ready.exists_rest_of_going going
  have kindEq := kind_of_rest rest
  obtain ⟨rule, alternative, formEq⟩ := formAt_cases going rest
  rw [formEq form p kindEq]
  have counts {r : Completed × Parser} (node : AnswersNode settled p r.2) (readable : t.kind ≠ .unknown) :
      AnswersForm p (counted r).2 := node.answersForm (kindEq ▸ readable)
  cases alternative with
  | address isAddress =>
    have node : AnswersNode settled p (infixLookup (p.node .literal fun p => p.advanceAs t.kind)).2 :=
      answersNode_account ready rest rfl
    rw [← literal_of_rest rest (by rw [isAddress]; rfl)] at node
    exact counts node (by rw [isAddress]; decide)
  | literal isLiteral =>
    refine counts (answersNode_literal ready (by rw [kindEq, isLiteral])) fun isUnknown => ?_
    rw [isUnknown] at isLiteral
    contradiction
  | symbol isSymbol =>
    have node : AnswersNode settled p (infixLookup (p.node .symbol fun p => p.advanceAs t.kind)).2 :=
      answersNode_account ready rest rfl
    rw [← symbol_of_rest rest isSymbol] at node
    refine counts node fun isUnknown => ?_
    rw [isUnknown] at isSymbol
    contradiction
  | slash isSlash =>
    exact counts (answersNode_leaf rest rfl p.slashKind) (by rw [isSlash]; decide)
  | parenthesized isParen =>
    have atParen : p.isAt .leftParen = true := by simp [isAt, kindEq, isParen]
    exact counts (answersNode_parenthesized forms ready atParen) (by rw [isParen]; decide)
  | vector isBracket =>
    exact counts (answersNode_delimited forms "vector" ready rest (by rw [isBracket]; rfl) rfl rfl)
      (by rw [isBracket]; decide)
  | map isBrace =>
    have atBrace : p.isAt .leftBrace = true := by simp [isAt, kindEq, isBrace]
    exact counts ⟨_, exists_answers_map forms ready atBrace⟩ (by rw [isBrace]; decide)
  | set isHashBrace =>
    exact counts (answersNode_delimited forms "set" ready rest (by rw [isHashBrace]; rfl) rfl rfl)
      (by rw [isHashBrace]; decide)
  | marked isMark =>
    refine counts (answersNode_markedForm forms ready rest) ?_
    rcases isMark with isMark | isMark | isMark <;> rw [isMark] <;> decide
  | metadata isCaret =>
    have atCaret : p.isAt .caret = true := by simp [isAt, kindEq, isCaret]
    exact counts (answersNode_misplacedMetadata forms ready atCaret) (by rw [isCaret]; decide)
  | unknown => exact answersForm_unreadable rest
  | stray isCloser =>
    have known : t.kind ≠ .unknown := by
      intro isUnknown
      rw [isUnknown] at isCloser
      contradiction
    exact (answersNode_badToken rest known _).answersForm (kindEq ▸ known)
  | bad _ formless =>
    exact counts (answersNode_badToken rest formless.readable _) formless.readable

/-- The rule for a form explains its reports at every depth. -/
theorem answersForms_form (budget : Nat) : AnswersForms (Grammar.form budget) := by
  induction budget with
  | zero =>
    refine { derivesForms_form 0 with answers := fun p ready going => ?_ }
    simp only [Grammar.form, going, Bool.false_eq_true, if_false]
    exact answersForm_tooDeep ready going
  | succ budget inductionHypothesis =>
    refine { derivesForms_form (budget + 1) with answers := fun p ready going => ?_ }
    simp only [Grammar.form, going, Bool.false_eq_true, if_false]
    exact answersForm_formAt inductionHypothesis ready going

theorem answers_topLevel (turns : Nat) (ready : p.Ready) : Answers settled p (topLevel turns p) := by
  induction turns generalizing p with
  | zero => exact .stay p
  | succ turns inductionHypothesis =>
    rw [topLevel]
    split
    · exact .stay p
    · have first : Answers settled p (Grammar.form maxDepth p).2 := answers_form (answersForms_form maxDepth) ready
      exact first.trans (inductionHypothesis (first.ready ready))

end Grammar

/-! ## Sources -/

section Sources

open Grammar Delimiters

variable {text : Text} {r : Registry} {result : Parse} {t : Token} {v : View} {d : Draft} {n : Kind × List Draft}

/-- Among tokens in order, one is known by where it starts. -/
theorem Delimiters.InOrder.eq_of_start_eq {ts : List Token} {t u : Token} (inOrder : InOrder ts) (first : t ∈ ts)
    (second : u ∈ ts) (same : t.span.start = u.span.start) : t = u := by
  induction ts with
  | nil => cases first
  | cons s ts inductionHypothesis =>
    have behind {u : Token} (later : u ∈ ts) : s.span.start < u.span.start := List.rel_of_pairwise_cons inOrder later
    rcases List.mem_cons.mp first with isHead | first <;> rcases List.mem_cons.mp second with isHead' | second
    · exact isHead.trans isHead'.symm
    · exact absurd same (isHead ▸ Nat.ne_of_lt (behind second))
    · exact absurd same (isHead' ▸ Nat.ne_of_gt (behind first))
    · exact inductionHypothesis inOrder.tail first second

/-- A report with the span of a token that cannot be read, if it is explained, is not pending or about another token. -/
theorem Grammar.Explained.exists_of_span_eq {tokens : List Token} {ds : List Draft} {rs : List Report}
    (explained : Explained settled tokens ds rs) (inOrder : InOrder tokens) {report : Report} (reported : report ∈ rs)
    (member : t ∈ tokens) (isUnknown : t.kind = .unknown) (spanEq : report.span = t.span) :
    report.problem = .tooDeep ∨ ∃ n ∈ Outline.nodesAll ds, Explains report t n := by
  refine (explained.reports report reported).imp_right ?_
  rintro ⟨u, ⟨us, within, extent⟩, found⟩
  have part : InOrder (u :: us) := inOrder.sublist within.sublist
  have start := part.start_extent
  rw [← extent, spanEq] at start
  obtain rfl := inOrder.eq_of_start_eq member (within.subset List.mem_cons_self) start
  exact (found isUnknown).resolve_left id

/-- All reports about a text are explained by its draft. -/
theorem exists_explained (text : Text) (r : Registry) :
    ∃ start ds last, Drafted text r start (.node .source (ds ++ [Draft.token .eof last])) ∧
      Explained settled (Token.tokenize text r).1 ds (source start).reports := by
  obtain ⟨init, last, tokensEq, lastEnd, initNotEnd⟩ := Token.exists_init_tokensFrom r 0 text
  have ready : (startOf r init last).Ready := ⟨lastEnd, initNotEnd⟩
  obtain ⟨-, -, ending, -⟩ := reads_source ready rfl
  obtain ⟨ds, rs, walks, reports, explained⟩ :=
    answers_topLevel (startOf r init last).begun.rest.length ready.begun
  refine ⟨startOf r init last, ds, last, drafted_of_runs tokensEq ready walks.toRuns ending, ?_⟩
  rw [reports_source, reports]
  have tokens : (Token.tokenize text r).1 = init ++ [last] := tokensEq
  rw [tokens]
  exact explained

/-! ## Views -/

namespace View

def IsErrorAround (v : View) (t : Token) : Prop :=
  v.kind = .error ∧ ∃ l : LeafView, v.children = [l.view] ∧ l.kind = t.kind ∧ l.Shows t

/-- The view is of an error, or of metadata, that starts with an error around nothing but the token. -/
def GivesUpAt (v : View) (t : Token) : Prop :=
  (v.kind = .error ∨ v.kind = .metadata) ∧ ∃ first, v.nodes.head? = some first ∧ first.IsErrorAround t

end View

theorem Draft.IsViewed.isErrorAround (viewed : IsViewed text v (unreadable t)) : v.IsErrorAround t := by
  obtain ⟨_, _, ⟨⟩, views⟩ := viewed
  obtain ⟨stop, placed⟩ := views.2
  obtain ⟨lies, startEq, -⟩ := placed.token t.kind
  refine ⟨by rw [View.kind, views.1]; rfl, leafView text (t.kind, t), ?_, Token.kind_leaf text t.kind t, lies.shows _⟩
  rw [views.children_eq, leafView, startEq]
  rfl

/-- An error around nothing but the token is drafted as one. -/
theorem Draft.IsViewed.eq_unreadable (viewed : IsViewed text v d) (around : v.IsErrorAround t)
    (known : ∀ kind u, (.error, [Draft.token kind u]) ∈ d.nodes → (leafView text (kind, u)).Shows t → u = t) :
    d = unreadable t := by
  obtain ⟨kind, ds, rfl, views⟩ := viewed
  obtain ⟨isError, l, children, kindEq, shows⟩ := around
  obtain rfl : kind = .error := by
    rw [← isError, View.kind, views.1]
    rfl
  obtain ⟨stop, placed⟩ := views.2
  rw [views.children_eq] at children
  obtain ⟨k, u, first, rfl, -⟩ := exists_token_of_child (i := 0) placed (l := l) (by rw [children]; rfl)
  have one : ds.length = 1 := by
    have length := congrArg List.length (map_kind_trees text v.offset ds)
    simpa [children] using length.symm
  obtain ⟨e, rfl⟩ := List.length_eq_one_iff.mp one
  obtain rfl : e = Draft.token k u := Option.some.inj first
  obtain rfl : u = t := known k u (by simp) shows
  obtain rfl : k = u.kind := (Token.kind_leaf text k u).symm.trans kindEq
  rfl

/-- What is given up at a token can be seen from the tree. -/
theorem Draft.Views.givesUpAt_iff (views : Views text v n)
    (known : ∀ kind u, ∀ e ∈ n.2, (.error, [Draft.token kind u]) ∈ e.nodes →
      (leafView text (kind, u)).Shows t → u = t) : v.GivesUpAt t ↔ GivenUpAt t n := by
  obtain ⟨kind, ds⟩ := n
  have kindEq : v.kind = kind := by
    rw [View.kind, views.1]
    rfl
  have viewed := views.nodes
  have isGivenUp : (v.kind = .error ∨ v.kind = .metadata) ↔ [Kind.error, .metadata].contains kind = true := by
    simp [kindEq]
  rw [View.GivesUpAt, GivenUpAt, isGivenUp, ← List.head?_filter]
  refine and_congr_right fun _ => ?_
  generalize v.nodes = vs at viewed
  generalize filtered : ds.filter Outline.isNode = es at viewed
  cases viewed with
  | nil => simp
  | @cons first e _ _ viewed _ =>
    have inside : e ∈ ds := (List.mem_filter.mp (filtered ▸ List.mem_cons_self)).1
    constructor
    · rintro ⟨_, ⟨⟩, around⟩
      exact congrArg some (viewed.eq_unreadable around fun kind u => known kind u e inside)
    · rintro ⟨⟩
      exact ⟨first, rfl, viewed.isErrorAround⟩

theorem exists_viewed {vs : List View} {ds : List Draft} (viewed : List.Forall₂ (Draft.IsViewed text) vs ds)
    (member : d ∈ ds) : ∃ v ∈ vs, Draft.IsViewed text v d := by
  induction viewed with
  | nil => cases member
  | cons first _ inductionHypothesis =>
    rcases List.mem_cons.mp member with rfl | member
    · exact ⟨_, List.mem_cons_self, first⟩
    · obtain ⟨v, among, viewed⟩ := inductionHypothesis member
      exact ⟨v, List.mem_cons_of_mem _ among, viewed⟩

/-! ## What is reported about a token -/

/-- The nodes of a source are itself and those of its forms. -/
theorem mem_nodes_source {ds : List Draft} {last : Token} :
    n ∈ (Outline.node .source (ds ++ [Draft.token .eof last]) : Draft).nodes ↔
      n = (.source, ds ++ [Draft.token .eof last]) ∨ n ∈ Outline.nodesAll ds := by
  have noNode : n ∉ (Draft.token .eof last).nodes := List.not_mem_nil
  rw [Outline.nodes_node, List.mem_cons, Outline.mem_nodesAll, Outline.mem_nodesAll]
  simp only [List.mem_append, List.mem_singleton]
  constructor
  · rintro (isSource | ⟨d, isForm | rfl, under⟩)
    · exact .inl isSource
    · exact .inr ⟨d, isForm, under⟩
    · exact absurd under noNode
  · rintro (isSource | ⟨d, isForm, under⟩)
    · exact .inl isSource
    · exact .inr ⟨d, .inl isForm, under⟩

/-- What is reported, beside the scanner, about a token that cannot be read: that it is a form nested too deeply, that
it is a key without a value, or that a rule did not expect it. In the last case the token is the first form of what the
rule gave up, and each such token is reported. -/
theorem structural_of_unreadable (parsed : parse text r = .ok result) (token : t ∈ (Token.tokenize text r).1)
    (isUnknown : t.kind = .unknown) :
    (∀ d ∈ result.diagnostics, d.kind = .structural → d.span = t.span →
      d.message = "form is nested too deeply" ∨
      d.message = "expected a value for this key" ∧
        (∃ v ∈ result.root.descendants, v.kind = .mapForm ∧ ∃ key ∈ v.nodes, key.IsErrorAround t) ∨
      d.message ≠ "expected a value for this key" ∧ ∃ v ∈ result.root.descendants, v.GivesUpAt t) ∧
    ∀ v ∈ result.root.descendants, v.GivesUpAt t →
      ∃ d ∈ result.diagnostics, d.kind = .structural ∧ d.span = t.span ∧ d.message ≠ "form is nested too deeply" ∧
        d.message ≠ "expected a value for this key" := by
  obtain ⟨start, ds, last, drafted, explained⟩ := exists_explained text r
  obtain rfl := drafted.eq_of_parse_eq_ok parsed
  have below {n : Kind × List Draft} (member : n ∈ Outline.nodesAll ds) :
      n ∈ (Outline.node .source (ds ++ [Draft.token .eof last]) : Draft).nodes :=
    mem_nodes_source.mpr (.inr member)
  have known {n : Kind × List Draft} (member : n ∈ Outline.nodesAll ds) (kind : Kind) (u : Token) (e : Draft)
      (child : e ∈ n.2) (node : (.error, [Draft.token kind u]) ∈ e.nodes)
      (shows : (Draft.leafView text (kind, u)).Shows t) : u = t :=
    drafted.eq_of_shows (Outline.mem_nodes_of_mem child node _ (below member)) (by simp) token shows
  constructor
  · intro d member structural spanEq
    obtain ⟨report, reported, rfl⟩ := Drafted.exists_report member structural
    rcases explained.exists_of_span_eq (inOrder_tokenize text r) reported token isUnknown spanEq with
      isTooDeep | ⟨n, inside, ⟨noKey, givenUp⟩ | ⟨isKey, isMap, key⟩⟩
    · exact .inl (congrArg StructuralProblem.message isTooDeep)
    · obtain ⟨v, met, views⟩ := Draft.exists_walk_of_node _ drafted.placed n (below inside)
      refine .inr (.inr ⟨fun message => noKey ?_, v, View.mem_descendants.mpr met, ?_⟩)
      · exact StructuralProblem.eq_of_message_eq (.inl rfl) message
      · exact (views.givesUpAt_iff (known inside)).mpr givenUp
    · obtain ⟨v, met, views⟩ := Draft.exists_walk_of_node _ drafted.placed n (below inside)
      refine .inr (.inl ⟨congrArg StructuralProblem.message isKey, v, View.mem_descendants.mpr met, ?_, ?_⟩)
      · rw [View.kind, views.1]
        exact isMap
      · obtain ⟨w, among, viewed⟩ := exists_viewed views.nodes (List.mem_filter.mpr ⟨key, rfl⟩)
        exact ⟨w, among, viewed.isErrorAround⟩
  · intro v met givesUp
    obtain ⟨n, member, views⟩ := Draft.exists_node_of_walk _ drafted.placed v (View.mem_descendants.mp met)
    have isGivenUp : [Kind.error, .metadata].contains n.1 = true := by
      have kindEq : v.kind = n.1 := by
        rw [View.kind, views.1]
        rfl
      simpa [kindEq] using givesUp.1
    have notSource : n ≠ (.source, ds ++ [Draft.token .eof last]) := by
      rintro rfl
      contradiction
    have inside : n ∈ Outline.nodesAll ds := (mem_nodes_source.mp member).resolve_left notSource
    obtain ⟨report, reported, spanEq, isRemark⟩ :=
      explained.nodes t n inside ((views.givesUpAt_iff (known inside)).mp givesUp)
    refine ⟨_, Drafted.mem_diagnostics reported, rfl, spanEq, fun message => ?_, fun message => ?_⟩
    · rw [StructuralProblem.eq_of_message_eq (.inr rfl) message] at isRemark
      contradiction
    · rw [StructuralProblem.eq_of_message_eq (.inl rfl) message] at isRemark
      contradiction

end Sources

/-- A number sign where a name is expected. -/
def namelessSample : Text :=
  "(def # 1)".toList

theorem exists_reported_namelessSample :
    ∃ result t d, parse namelessSample .empty = .ok result ∧ t ∈ (Token.tokenize namelessSample .empty).1 ∧
      t.kind = .unknown ∧ d ∈ result.diagnostics ∧ d.kind = .structural ∧ d.span = t.span ∧
      d.message = "expected a symbol to name the definition" := by
  have checked : (parse namelessSample .empty).toOption.any (fun result =>
      (Token.tokenize namelessSample .empty).1.any fun t => t.kind == .unknown && result.diagnostics.any fun d =>
        d.kind == .structural && d.span == t.span &&
          d.message == "expected a symbol to name the definition") = true := by
    decide +kernel
  obtain ⟨result, parsed, checked⟩ := exists_parse_of_any checked
  simp only [List.any_eq_true, Bool.and_eq_true, beq_iff_eq] at checked
  obtain ⟨t, token, isUnknown, d, member, ⟨structural, spanEq⟩, message⟩ := checked
  exact ⟨result, t, d, parsed, token, isUnknown, member, structural, spanEq, message⟩

/-- The definition of the sample is given up at the number sign. -/
theorem structural_of_unreadable_namelessSample :
    ∃ result t d, parse namelessSample .empty = .ok result ∧ t ∈ (Token.tokenize namelessSample .empty).1 ∧
      t.kind = .unknown ∧ d ∈ result.diagnostics ∧ d.kind = .structural ∧ d.span = t.span ∧
      ∃ v ∈ result.root.descendants, v.GivesUpAt t := by
  obtain ⟨result, t, d, parsed, token, isUnknown, member, structural, spanEq, message⟩ :=
    exists_reported_namelessSample
  refine ⟨result, t, d, parsed, token, isUnknown, member, structural, spanEq, ?_⟩
  rcases (structural_of_unreadable parsed token isUnknown).1 d member structural spanEq with
    tooDeep | ⟨noValue, -⟩ | ⟨-, givenUp⟩
  · rw [message] at tooDeep
    exact absurd tooDeep (by decide)
  · rw [message] at noValue
    exact absurd noValue (by decide)
  · exact givenUp

/-- The number sign of the sample, about which the scanner has reported already, is reported once more. -/
theorem exists_structural_of_unknown :
    ∃ result t d, parse namelessSample .empty = .ok result ∧ t ∈ (Token.tokenize namelessSample .empty).1 ∧
      t.kind = .unknown ∧ d ∈ result.diagnostics ∧ d.kind = .structural ∧ d.span = t.span := by
  obtain ⟨result, t, d, parsed, token, isUnknown, member, structural, spanEq, -⟩ := exists_reported_namelessSample
  exact ⟨result, t, d, parsed, token, isUnknown, member, structural, spanEq⟩

end LispSyntax
