import LispSyntax.Proofs.Alternatives
import LispSyntax.Proofs.Delimiters.Special
import LispSyntax.Proofs.Layout
import LispSyntax.Proofs.Order

/-! # Parsing reports what a scan of the delimiters finds

The rule for a form takes steps at every depth, so a whole source does, and `Delimiters.State.Follows.steps`
applies: unless a form is nested too deeply, parsing reports of delimiters what `Delimiters.scan` finds, in
the same order, or an arity is closed early (`found_eq_scan_iff`). Diagnostics are sorted by place in the end,
which leaves these in their order because the scan finds things from left to right.
-/

namespace LispSyntax

namespace Grammar

open LispSyntax.Parser Delimiters

variable {form : FormRule} {p : Parser}

/-! ## Forms -/

/-- A run that takes steps, and whose result counts unless it skips a closing delimiter. -/
def StepsForm (p : Parser) (r : Option Completed × Parser) : Prop :=
  Steps p r.2 ∧ (r.1 = none → SkipsStray p r.2)

theorem stepsForm_counted {r : Completed × Parser} (steps : Steps p r.2) : StepsForm p (counted r) :=
  ⟨steps, fun isNone => absurd isNone (Option.some_ne_none r.1)⟩

theorem Formless.isPlain {kind : Kind} (formless : Formless kind) : isPlain kind = true := by
  simp [Delimiters.isPlain, formless.noOpener, formless.noCloser, formless.notEnd]

theorem stepsForm_formAt (forms : StepsForms form) (ready : p.Ready) (going : p.atSequenceEnd = false) :
    StepsForm p (formAt form p) := by
  obtain ⟨t, ts, rest⟩ := ready.exists_rest_of_going going
  obtain ⟨rule, alternative, formEq⟩ := formAt_cases going rest
  rw [formEq form p (kind_of_rest rest)]
  cases alternative with
  | address isAddress =>
    have isLiteral : t.kind.isLiteralToken = true := by rw [isAddress]; rfl
    have ready' := (reads_literal rest isLiteral).reads.ready ready
    exact stepsForm_counted (steps_infixLookup (steps_literal rest isLiteral) ready')
  | literal isLiteral => exact stepsForm_counted (steps_literal rest isLiteral)
  | symbol isSymbol =>
    have ready' := (reads_symbol rest isSymbol).reads.ready ready
    exact stepsForm_counted (steps_infixLookup (steps_symbol rest isSymbol) ready')
  | slash isSlash =>
    have taken := steps_advanceAs (p := p.begun) rest (by rw [isSlash]; rfl) p.slashKind
    exact stepsForm_counted (steps_node taken)
  | parenthesized isParen => exact stepsForm_counted (steps_parenthesized forms ready rest isParen)
  | vector isBracket =>
    exact stepsForm_counted (steps_delimited forms ready rest (by rw [isBracket]; rfl) "vector" .vectorForm)
  | map isBrace => exact stepsForm_counted (steps_map forms ready rest isBrace)
  | set isHashBrace =>
    exact stepsForm_counted (steps_delimited forms ready rest (by rw [isHashBrace]; rfl) "set" .setForm)
  | marked isMark =>
    have plain : isPlain t.kind = true := by
      rcases isMark with isMark | isMark | isMark <;> rw [isMark] <;> rfl
    exact stepsForm_counted (steps_markedForm forms ready rest plain)
  | metadata isCaret =>
    have atCaret : p.isAt .caret = true := by simp [isAt, kind_of_rest rest, isCaret]
    exact stepsForm_counted (steps_misplacedMetadata forms ready atCaret)
  | unknown isUnknown =>
    have taken := steps_advance (p := p.begun) rest (by rw [isUnknown]; rfl)
    exact stepsForm_counted (steps_node taken)
  | stray isCloser =>
    have stray := skipsStray_badToken rest isCloser
    exact ⟨stray.steps going, fun _ => stray⟩
  | @bad problem isBad formless =>
    have other : problem.isDelimiter = false := by rcases isBad with rfl | rfl <;> rfl
    exact stepsForm_counted (steps_badToken rest formless.isPlain other)

/-- The rule for a form takes steps at every depth. -/
theorem stepsForms_form (budget : Nat) : StepsForms (Grammar.form budget) := by
  have stepsForm (p : Parser) (ready : p.Ready) (going : p.atSequenceEnd = false) :
      StepsForm p (Grammar.form budget p) := by
    induction budget generalizing p with
    | zero =>
      simp only [Grammar.form, going, Bool.false_eq_true, if_false]
      exact stepsForm_counted (steps_tooDeep ready going)
    | succ budget inductionHypothesis =>
      have forms : StepsForms (Grammar.form budget) :=
        { readsForms_form budget with
          steps := fun p ready going => (inductionHypothesis p ready going).1
          uncounted := fun p ready going => (inductionHypothesis p ready going).2 }
      simp only [Grammar.form, going, Bool.false_eq_true, if_false]
      exact stepsForm_formAt forms ready going
  exact { readsForms_form budget with
    steps := fun p ready going => (stepsForm p ready going).1
    uncounted := fun p ready going => (stepsForm p ready going).2 }

theorem steps_topLevel (turns : Nat) (ready : p.Ready) : Steps p (topLevel turns p) := by
  have forms := stepsForms_form maxDepth
  induction turns generalizing p with
  | zero => exact .refl p
  | succ turns inductionHypothesis =>
    rw [topLevel]
    split
    · exact .refl p
    · exact (steps_form forms ready).trans (inductionHypothesis (forms.ready ready))

end Grammar

namespace Delimiters

/-! ## Reports of a source -/

theorem inOrder_tokenize (text : Text) (r : Registry) : InOrder (Token.tokenize text r).1 := by
  have placed : Token.Placed (Token.tokenize text r).1 := (Token.placed_tokensFrom r 0 text).1
  refine placed.apart.imp_of_mem fun {t u} member _ apart => ?_
  have size := placed.size t member
  have positive : Text.size t.text ≠ 0 := fun zero => apart.1 (Text.size_eq_zero.mp zero)
  omega

/-- What a source reports of delimiters, unless a form is nested too deeply or an arity is closed early. -/
theorem exists_drafted_found (text : Text) (r : Registry) :
    ∃ start d, Drafted text r start d ∧
      (found ((Grammar.source start).reports.map Report.diagnostic) = scan [] (Token.tokenize text r).1 ∨
        (∃ report ∈ (Grammar.source start).reports, report.problem = .tooDeep) ∨
        ClosedEarly (Token.tokenize text r).1 ((Grammar.source start).reports.map Report.diagnostic)) := by
  obtain ⟨init, last, tokensEq, lastEnd, initNotEnd⟩ := Token.exists_init_tokensFrom r 0 text
  have ready : (startOf r init last).Ready := ⟨lastEnd, initNotEnd⟩
  obtain ⟨ds, runs, ending, -⟩ := Grammar.reads_source ready rfl
  refine ⟨_, _, drafted_of_runs tokensEq ready runs ending, ?_⟩
  have steps := Grammar.steps_topLevel (startOf r init last).begun.rest.length ready.begun
  have inOrder := inOrder_tokenize text r
  rw [Token.tokenize, tokensEq] at inOrder ⊢
  have follows : (startOf r init last).begun.delimiters.Follows (init ++ [last]) :=
    ⟨rfl, List.suffix_refl _, fun _ member => absurd member List.not_mem_nil⟩
  rw [Grammar.reports_source]
  rcases follows.steps inOrder steps with follows | parted
  · left
    have total := follows.total
    -- Nothing is open at the end, and nothing but the end is to come.
    have framesEq := runs.frames
    have lastEq := runs.last
    simp only [State.total, Parser.delimiters, ending, framesEq, lastEq, List.nil_append] at total
    have nothing : scan [] [last] = [] := by rw [scan, lastEnd]; rfl
    rw [← total]
    simp only [Parser.begun, Parser.start, startOf, List.map_nil, nothing, List.append_nil]
  · exact .inr parted

/-! ## Diagnostics of a text -/

theorem kind_of_mem_tokenize {text : Text} {r : Registry} {d : Diagnostic} (member : d ∈ (Token.tokenize text r).2) :
    d.kind = .lexical := by
  rw [Token.tokenize, Token.diagnostics_tokensFrom] at member
  obtain ⟨t, -, member⟩ := List.mem_flatMap.mp member
  obtain ⟨problem, -, rfl⟩ := List.mem_map.mp member
  rfl

theorem found_lexical (text : Text) (r : Registry) : found (Token.tokenize text r).2 = [] := by
  rw [found, List.filter_eq_nil_iff.mpr, List.map_nil]
  intro d member
  simp [kind_of_mem_tokenize member]

/-- Diagnostics about delimiters that are in the order of their places stay in it. -/
theorem found_sortByStart {ds : List Diagnostic}
    (sorted : (found ds).Pairwise fun a b => a.2.start ≤ b.2.start) :
    found (Diagnostic.sortByStart ds) = found ds := by
  rw [found, List.pairwise_map] at sorted
  rw [found, found, Diagnostic.filter_sortByStart, Diagnostic.Sorted.sortByStart_eq sorted]

/-- Parsing reports of delimiters what a scan of the tokens finds, in the same order, unless a form is nested
too deeply; the one exception is an arity that is closed early. -/
theorem found_eq_scan_iff (text : Text) (r : Registry) :
    (Text.size text < sizeLimit → LogFits text r → ∃ x, parse text r = .ok x) ∧
    ∀ x, parse text r = .ok x → (∀ d ∈ x.diagnostics, d.message ≠ "form is nested too deeply") →
      (found x.diagnostics = scan [] (Token.tokenize text r).1 ↔
        ¬ ClosedEarly (Token.tokenize text r).1 x.diagnostics) := by
  refine ⟨exists_parse, fun x parsed shallow => ⟨fun same early => ?_, fun notEarly => ?_⟩⟩
  · obtain ⟨pair, -, -, missing, unseen⟩ := early
    rw [← same] at unseen
    exact unseen (mem_found missing rfl (expected_mem_messages rfl))
  · obtain ⟨start, d, drafted, cases⟩ := exists_drafted_found text r
    have diagnosticsEq : x.diagnostics = Drafted.diagnostics text r start := by
      rw [drafted.eq_of_parse_eq_ok parsed]
    have reported {report : Report} (member : report ∈ (Grammar.source start).reports) :
        report.diagnostic ∈ x.diagnostics := by
      rw [diagnosticsEq, Drafted.diagnostics, Diagnostic.mem_sortByStart]
      exact List.mem_append_right _ (List.mem_map_of_mem member)
    rcases cases with same | ⟨report, member, tooDeep⟩ | early
    · have whole : found ((Token.tokenize text r).2 ++ (Grammar.source start).reports.map Report.diagnostic) =
          scan [] (Token.tokenize text r).1 := by
        rw [found_append, found_lexical, List.nil_append, same]
      rw [diagnosticsEq, Drafted.diagnostics, found_sortByStart, whole]
      rw [whole]
      exact pairwise_scan [] _ (inOrder_tokenize text r)
    · exact absurd (by rw [Report.diagnostic, tooDeep]; rfl) (shallow _ (reported member))
    · refine absurd (early.mono fun d member => ?_) notEarly
      obtain ⟨report, inside, rfl⟩ := List.mem_map.mp member
      exact reported inside

/-- A function with a brace that closes nothing, and neither it nor the vector before the brace closed. -/
def unclosedSample : Text :=
  "(defn f ([x] [y \x7d) 1".toList

/-- What is reported of the sample is what the scan finds: the brace, and the two missing delimiters. -/
theorem found_eq_scan_unclosed :
    ∃ x, parse unclosedSample .empty = .ok x ∧ (∀ d ∈ x.diagnostics, d.message ≠ "form is nested too deeply") ∧
      ¬ ClosedEarly (Token.tokenize unclosedSample .empty).1 x.diagnostics ∧
      found x.diagnostics = scan [] (Token.tokenize unclosedSample .empty).1 := by
  have checked : (parse unclosedSample .empty).toOption.any (fun x =>
      (∀ d ∈ x.diagnostics, d.message ≠ "form is nested too deeply") ∧
        ¬ ClosedEarly (Token.tokenize unclosedSample .empty).1 x.diagnostics) = true := by
    decide +kernel
  obtain ⟨x, parsed, checked⟩ := exists_parse_of_any checked
  obtain ⟨shallow, notEarly⟩ := of_decide_eq_true checked
  exact ⟨x, parsed, shallow, notEarly,
    ((found_eq_scan_iff unclosedSample .empty).2 x parsed shallow).mpr notEarly⟩

/-- A function whose body is a brace that closes nothing. -/
def bracedSample : Text :=
  "(defn f ([x] \x7d 1))".toList

/-- There the arity is closed at the number, so its parenthesis is reported as missing, and the last one of the
text as unexpected. The scan finds nothing wrong but the brace. -/
theorem found_ne_scan_braced :
    ∃ x, parse bracedSample .empty = .ok x ∧ (∀ d ∈ x.diagnostics, d.message ≠ "form is nested too deeply") ∧
      found x.diagnostics ≠ scan [] (Token.tokenize bracedSample .empty).1 ∧
      found x.diagnostics = [("unexpected `\x7d`", .ofSize 13 1), ("expected `)`", .ofSize 15 1),
        ("unexpected `)`", .ofSize 17 1)] ∧
      scan [] (Token.tokenize bracedSample .empty).1 = [("unexpected `\x7d`", .ofSize 13 1)] := by
  have checked : (parse bracedSample .empty).toOption.any (fun x =>
      (∀ d ∈ x.diagnostics, d.message ≠ "form is nested too deeply") ∧
        found x.diagnostics = [("unexpected `\x7d`", .ofSize 13 1), ("expected `)`", .ofSize 15 1),
          ("unexpected `)`", .ofSize 17 1)]) = true := by
    decide +kernel
  have scanned : scan [] (Token.tokenize bracedSample .empty).1 = [("unexpected `\x7d`", .ofSize 13 1)] := by
    decide +kernel
  obtain ⟨x, parsed, checked⟩ := exists_parse_of_any checked
  obtain ⟨shallow, foundEq⟩ := of_decide_eq_true checked
  refine ⟨x, parsed, shallow, ?_, foundEq, scanned⟩
  rw [foundEq, scanned]
  decide

end Delimiters

end LispSyntax
