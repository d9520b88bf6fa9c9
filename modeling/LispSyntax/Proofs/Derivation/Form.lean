import LispSyntax.Proofs.Derivation.Special
import LispSyntax.Proofs.Delimiters.Form
import LispSyntax.Proofs.Origin.Form

/-! # How forms and sources are derived

The rule for a form is derived at every depth, so the loop over a whole source is. What comes out of it for a text is
`exists_derivation`: the draft that the text is read to has a derivation, in which what is reported is exactly what the
parser reports.
-/

namespace LispSyntax

namespace Grammar

open LispSyntax.Parser Draft Delimiters

variable {p : Parser} {t : Token} {ts : List Token} {form : FormRule}

theorem Formless.not_isAccount (formless : Formless t.kind) : ¬ t.IsAccount := by
  rintro (isAddress | isSymbol)
  · have noLiteral := formless.noLiteral
    rw [isAddress] at noLiteral
    contradiction
  · exact absurd (isSymbol.symm.trans formless.noSymbol) (by decide)

theorem not_isAccount_of_literal (isLiteral : t.kind.isLiteralToken = true) (noAddress : t.kind ≠ .address) :
    ¬ t.IsAccount := by
  rintro (isAddress | isSymbol)
  · exact noAddress isAddress
  · rcases symbol_cases isSymbol with h | h | h <;> rw [h] at isLiteral <;> contradiction

theorem derivesForm_formAt (forms : DerivesForms form) (ready : p.Ready) (going : p.atSequenceEnd = false) :
    DerivesForm p (formAt form p) := by
  obtain ⟨t, ts, rest⟩ := ready.exists_rest_of_going going
  obtain ⟨rule, alternative, formEq⟩ := formAt_cases going rest
  rw [formEq form p (kind_of_rest rest)]
  cases alternative with
  | address isAddress =>
    have isLiteral : t.kind.isLiteralToken = true := by rw [isAddress]; rfl
    have node := derivesNode_account ready rest rfl (.inl ⟨rfl, isLiteral⟩) (.inl isAddress)
    rw [← literal_of_rest rest isLiteral] at node
    exact derivesForm_counted node
  | literal isLiteral noAddress =>
    have noAccount := not_isAccount_of_literal isLiteral noAddress
    have node : DerivesNode (.form true) p (p.node .literal fun p => p.advanceAs t.kind) :=
      derivesNode_leaf rest rfl t.kind (.word (.inl ⟨rfl, isLiteral⟩) fun account => absurd account noAccount)
    rw [← literal_of_rest rest isLiteral] at node
    exact derivesForm_counted node
  | symbol isSymbol =>
    have node := derivesNode_account ready rest rfl (.inr ⟨rfl, isSymbol⟩) (.inr isSymbol)
    rw [← symbol_of_rest rest isSymbol] at node
    exact derivesForm_counted node
  | slash isSlash => exact derivesForm_counted (derivesNode_leaf rest rfl p.slashKind (.division isSlash))
  | parenthesized isParen => exact derivesForm_counted (derivesNode_parenthesized forms ready rest isParen)
  | vector isBracket =>
    have opens : t.kind.closer? = some .rightBracket := by rw [isBracket]; rfl
    exact derivesForm_counted (derivesNode_delimited forms "vector" ready rest opens rfl (by decide))
  | map isBrace => exact derivesForm_counted (derivesNode_map forms ready rest isBrace)
  | set isHashBrace =>
    have opens : t.kind.closer? = some .rightBrace := by rw [isHashBrace]; rfl
    exact derivesForm_counted (derivesNode_delimited forms "set" ready rest opens rfl (by decide))
  | marked isMark =>
    have isMark : [Kind.quoteMark, .backtick, .tilde].contains t.kind = true := by
      rcases isMark with isMark | isMark | isMark <;> rw [isMark] <;> rfl
    exact derivesForm_counted (derivesNode_markedForm forms ready rest isMark)
  | metadata isCaret =>
    have atCaret : p.isAt .caret = true := by simp [isAt, kind_of_rest rest, isCaret]
    exact derivesForm_counted (derivesNode_misplacedMetadata forms ready atCaret)
  | unknown isUnknown =>
    have same : p.node .error Parser.advance = p.node .error fun p => p.advanceAs t.kind := by
      rw [Parser.node, Parser.node, ← kind_of_rest (p := p.begun) rest]
      rfl
    have node : DerivesNode (.form true) p (p.node .error fun p => p.advanceAs t.kind) :=
      derivesNode_leaf rest rfl t.kind (.unreadable isUnknown)
    exact derivesForm_counted (same ▸ node)
  | stray isCloser => exact derivesForm_stray rest isCloser going
  | @bad problem isBad formless =>
    have isRemark : problem.isRemark = true := by rcases isBad with rfl | rfl <;> rfl
    exact derivesForm_counted
      (derivesNode_bad rest formless.isPlain formless.noMark formless.not_isAccount isRemark)

/-- The rule for a form is derived at every depth. -/
theorem derivesForms_form (budget : Nat) : DerivesForms (Grammar.form budget) := by
  induction budget with
  | zero =>
    refine { stepsForms_form 0 with derives := fun p ready going => ?_ }
    simp only [Grammar.form, going, Bool.false_eq_true, if_false]
    exact derivesForm_counted (derivesNode_tooDeep ready going)
  | succ budget inductionHypothesis =>
    refine { stepsForms_form (budget + 1) with derives := fun p ready going => ?_ }
    simp only [Grammar.form, going, Bool.false_eq_true, if_false]
    exact derivesForm_formAt inductionHypothesis ready going

theorem derived_topLevel (turns : Nat) (ready : p.Ready) : Derived (.parts .plain) p (topLevel turns p) := by
  induction turns generalizing p with
  | zero => exact .stay p
  | succ turns inductionHypothesis =>
    rw [topLevel]
    split
    · exact .stay p
    · have first := derived_form (derivesForms_form maxDepth) ready
      exact first.trans (inductionHypothesis (first.ready ready))

end Grammar

open Grammar

/-- The draft of a text that is parsed follows the table, and has a derivation with all that is reported. -/
theorem exists_derivation {text : Text} {r : Registry} {result : Parse} (parsed : parse text r = .ok result) :
    ∃ start ds last, Drafted text r start (.node .source (ds ++ [Draft.token .eof last])) ∧
      FollowsTable start (source start) (.node .source (ds ++ [Draft.token .eof last])) ∧
      last.kind = .eof ∧ Derives last (.parts .plain) [] ds (source start).reports [] := by
  obtain ⟨init, last, tokensEq, lastEnd, initNotEnd⟩ := Token.exists_init_tokensFrom r 0 text
  have ready : (startOf r init last).Ready := ⟨lastEnd, initNotEnd⟩
  obtain ⟨ds, runs, ending, follows⟩ := reads_source ready rfl
  obtain ⟨es, rs, walks, reports, derives⟩ :=
    derived_topLevel (startOf r init last).begun.rest.length ready.begun
  have drafted := drafted_of_runs tokensEq ready runs ending
  have fits := drafted.logFits_iff.mp (logFits_of_parse parsed)
  obtain rfl := runs.unique walks.toRuns ((addressed_source_iff _).mp fits)
  refine ⟨startOf r init last, ds, last, drafted, follows, lastEnd, ?_⟩
  rw [ending] at derives
  rw [reports_source, reports]
  exact derives

namespace Drafted

variable {text : Text} {r : Registry} {start : Parser}

theorem mem_diagnostics {report : Report} (reported : report ∈ (source start).reports) :
    report.diagnostic ∈ diagnostics text r start := by
  rw [diagnostics, Diagnostic.mem_sortByStart]
  exact List.mem_append_right _ (List.mem_map_of_mem reported)

/-- A diagnostic that is not of the scanner comes from a report. -/
theorem exists_report {d : Diagnostic} (member : d ∈ diagnostics text r start) (structural : d.kind = .structural) :
    ∃ report ∈ (source start).reports, report.diagnostic = d := by
  rw [diagnostics, Diagnostic.mem_sortByStart, List.mem_append] at member
  rcases member with lexical | reported
  · rw [Delimiters.kind_of_mem_tokenize lexical] at structural
    contradiction
  · exact List.mem_map.mp reported

end Drafted

end LispSyntax
