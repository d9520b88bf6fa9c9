import LispSyntax.Proofs.Alternatives
import LispSyntax.Proofs.Completeness
import LispSyntax.Proofs.Likeness.Special

/-! # Forms and sources that are alike

The rule for a form does the same at every depth (`twinForms_form`), so the loop over a whole source does.
What comes out of it is said once for all likenesses, `exists_twin_drafts`: sources whose tokens are alike are
read to drafts that look the same, with reports that correspond.
-/

namespace LispSyntax

namespace Grammar

open LispSyntax.Parser

variable {γ : Type} {L : Likeness γ} {form : FormRule} {p q : Parser}

theorem twinForm_counted {r s : Completed × Parser} (alike : Alike L p q) (node : TwinNode L p q r s)
    (progress : r.2.rest.length < p.rest.length) : TwinForm L p q (counted r) (counted s) :=
  ⟨node.twin, .some (node.completed alike progress)⟩

theorem twin_formAt (forms : TwinForms L form) (alike : Alike L p q)
    (going : p.atSequenceEnd = false) : TwinForm L p q (formAt form p) (formAt form q) := by
  obtain ⟨t, ts, rest⟩ := alike.ready.exists_rest_of_going going
  have kindEq := kind_of_rest rest
  have progress := rest_lt_of_reads (readsForm_formAt forms.reads alike.ready going).1
  have counts {r s : Completed × Parser} (formEq : formAt form p = counted r) (node : TwinNode L p q r s) :
      TwinForm L p q (counted r) (counted s) := by
    rw [formEq] at progress
    exact twinForm_counted alike node progress
  have symbols (isSymbol : t.kind.isSymbolToken = true) :
      TwinNode L p q (infixLookup (symbol p)) (infixLookup (symbol q)) :=
    twin_infixLookup alike (twin_symbol alike (by rw [atSymbol, kindEq, isSymbol]))
      (rest_lt_of_reads (reads_symbol rest isSymbol).reads)
  rcases L.eq_or_symbols alike.kinds with same | ⟨isSymbol, isSymbol'⟩
  · obtain ⟨rule, alternative, formEq⟩ := formAt_cases going rest
    have made := formEq form p kindEq
    rw [made, formEq form q (same ▸ kindEq)]
    cases alternative with
    | address isAddress =>
      have isLiteral : t.kind.isLiteralToken = true := by rw [isAddress]; rfl
      exact counts made (twin_infixLookup alike (twin_literal alike (by rw [kindEq, isLiteral]))
        (rest_lt_of_reads (reads_literal rest isLiteral).reads))
    | literal isLiteral => exact counts made (twin_literal alike (by rw [kindEq, isLiteral]))
    | symbol isSymbol => exact counts made (symbols isSymbol)
    | slash => exact counts made (twin_leafNode alike rest rfl alike.slash)
    | parenthesized isParen =>
      have atParen : p.isAt .leftParen = true := by simp [isAt, kindEq, isParen]
      exact counts made (twin_parenthesized forms alike atParen)
    | vector isBracket =>
      have opens : t.kind.closer? = some .rightBracket := by rw [isBracket]; rfl
      exact counts made (twin_delimited forms "vector" alike rest opens rfl)
    | map isBrace =>
      have atBrace : p.isAt .leftBrace = true := by simp [isAt, kindEq, isBrace]
      exact counts made (twin_map forms alike atBrace)
    | set isHashBrace =>
      have opens : t.kind.closer? = some .rightBrace := by rw [isHashBrace]; rfl
      exact counts made (twin_delimited forms "set" alike rest opens rfl)
    | marked isMark =>
      have noSymbol : p.kind.isSymbolToken = false := by
        rw [kindEq]
        rcases isMark with isMark | isMark | isMark <;> rw [isMark] <;> rfl
      exact counts made (twin_markedForm forms alike rest noSymbol)
    | metadata isCaret =>
      have atCaret : p.isAt .caret = true := by simp [isAt, kindEq, isCaret]
      exact counts made (twin_misplacedMetadata forms alike atCaret)
    | unknown => exact counts made (twin_node rfl (twin_advance alike.begun rest))
    | stray =>
      -- A closing token without a place counts on neither side.
      dsimp only
      rw [same]
      exact ⟨(twin_badToken alike rest _).twin, .none⟩
    | bad => exact counts made (twin_badToken alike rest _)
  · rw [formAt_symbol form isSymbol, formAt_symbol form isSymbol']
    exact counts (formAt_symbol form isSymbol) (symbols (by rw [← kindEq]; exact isSymbol))

/-- The rule for a form does the same at every depth. -/
theorem twinForms_form (L : Likeness γ) (budget : Nat) : TwinForms L (Grammar.form budget) := by
  induction budget with
  | zero =>
    refine ⟨readsForms_form 0, fun p q alike going => ?_⟩
    have reads := (readsForms_form 0).reads p alike.ready going
    have progress := rest_lt_of_reads reads
    simp only [Grammar.form, alike.atSequenceEnd, going, Bool.false_eq_true, if_false] at progress ⊢
    exact twinForm_counted alike (twin_tooDeep alike) progress
  | succ budget inductionHypothesis =>
    refine ⟨readsForms_form (budget + 1), fun p q alike going => ?_⟩
    simp only [Grammar.form, alike.atSequenceEnd, going, Bool.false_eq_true, if_false]
    exact twin_formAt inductionHypothesis alike going

/-! ## Sources -/

theorem twin_topLevel (turns : Nat) (alike : Alike L p q) :
    Twin L p q (topLevel turns p) (topLevel turns q) := by
  induction turns generalizing p q with
  | zero => exact Twin.refl p q
  | succ turns inductionHypothesis =>
    rw [topLevel, topLevel, alike.isAt rfl]
    split
    · exact Twin.refl p q
    · have first := ((twinForms_form L maxDepth).twinForm alike).1
      exact first.trans (inductionHypothesis (alike.after first))

end Grammar

open LispSyntax.Parser Grammar

theorem forall₂_of_concat {α β : Type} {R : α → β → Prop} {as : List α} {bs : List β} {a : α} {b : β}
    (related : List.Forall₂ R (as ++ [a]) (bs ++ [b])) : List.Forall₂ R as bs ∧ R a b := by
  have lengths : as.length = bs.length := by simpa using related.length_eq
  have inits := List.forall₂_take as.length related
  have lasts := List.forall₂_drop as.length related
  rw [List.take_left, lengths, List.take_left] at inits
  rw [List.drop_left, lengths, List.drop_left] at lasts
  exact ⟨inits, (List.forall₂_cons.mp lasts).1⟩

theorem alike_startOf {γ : Type} {L : Likeness γ} {r r' : Registry} {init init' : List Token}
    {last last' : Token} (ready : (startOf r init last).Ready)
    (tokens : List.Forall₂ L.tokens (init ++ [last]) (init' ++ [last']))
    (touching : Token.AgreeAtSlashes (init ++ [last]) (init' ++ [last']))
    (slash : L.kinds (Scan.symbolKind r ['/']) (Scan.symbolKind r' ['/'])) :
    Alike L (startOf r init last) (startOf r' init' last') := by
  obtain ⟨inits, lasts⟩ := forall₂_of_concat tokens
  exact ⟨ready, inits, lasts, touching.left, fun taken => absurd rfl taken, rfl, slash⟩

/-- Sources whose tokens are alike are read to drafts that look the same, what is reported
corresponds, and the logs fit alike. -/
theorem exists_twin_drafts {γ : Type} {L : Likeness γ} {text text' : Text} {r r' : Registry}
    (tokens : List.Forall₂ L.tokens (Token.tokenize text r).1 (Token.tokenize text' r').1)
    (touching : Token.AgreeAtSlashes (Token.tokenize text r).1 (Token.tokenize text' r').1)
    (slash : L.kinds (Scan.symbolKind r ['/']) (Scan.symbolKind r' ['/'])) :
    ∃ start start' d e, Drafted text r start d ∧ Drafted text' r' start' e ∧
      d.map L.view = e.map L.view ∧
      List.Forall₂ L.reports (source start).reports (source start').reports ∧
      (LogFits text' r' → LogFits text r) := by
  obtain ⟨init, last, tokensEq, lastEnd, initNotEnd⟩ := Token.exists_init_tokensFrom r 0 text
  obtain ⟨init', last', tokensEq', -⟩ := Token.exists_init_tokensFrom r' 0 text'
  have alike : Alike L (startOf r init last) (startOf r' init' last') := by
    simp only [Token.tokenize, tokensEq, tokensEq'] at tokens touching
    exact alike_startOf ⟨lastEnd, initNotEnd⟩ tokens touching slash
  have twin : Twin L (startOf r init last).begun (startOf r' init' last').begun
      (topLevel (startOf r init last).begun.rest.length (startOf r init last).begun)
      (topLevel (startOf r' init' last').begun.rest.length (startOf r' init' last').begun) := by
    rw [alike.begun.length]
    exact twin_topLevel _ alike.begun
  obtain ⟨⟨ds, es, walks, walks', same⟩, ⟨new, new', reported, reported', related⟩, addressed⟩ := twin
  have drafted := drafted_of_runs tokensEq alike.ready walks.toRuns (rest_topLevel alike.ready rfl)
  have drafted' := drafted_of_runs tokensEq' alike.ready' walks'.toRuns (rest_topLevel alike.ready' rfl)
  refine ⟨_, _, _, _, drafted, drafted', ?_, ?_, ?_⟩
  · have ends : L.view (.eof, last) = L.view (.eof, last') := L.view_eq (L.kinds_refl .eof) alike.last
    rw [Outline.map_node, Outline.map_node, List.map_append, List.map_append, same]
    simp [Draft.token, ends]
  · rw [reports_source, reports_source, reported, reported']
    exact related
  · rw [drafted.logFits_iff, drafted'.logFits_iff, addressed_source_iff, addressed_source_iff]
    refine addressed (Nat.le_refl _) (addressed_of_size_le ?_)
    exact show 1 ≤ sizeLimit by decide

end LispSyntax
