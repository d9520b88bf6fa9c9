import LispSyntax.Proofs.Unreadable

/-! # Tokens that cannot be read in special forms

The productions of `Grammar.Binding` and `Grammar.Special`. Most of them report the token they do not expect and give
up on the rest of their sequence, which explains the report. Only an arity in parentheses can be closed in front of a
token that it says nothing more about: its body was a closing delimiter that closes nothing. The report of the missing
parenthesis is then pending until the form around the arities gives up at the same token.
-/

namespace LispSyntax

namespace Grammar

open LispSyntax.Parser Draft Outline

variable {p q r : Parser} {t : Token} {ts : List Token} {kind : Kind} {pending : Report → Token → Prop}
  {form : FormRule}

theorem Answers.settle (answers : Answers (upcoming q) p q) (readable : q.kind ≠ .unknown) : Answers pending p q :=
  answers.imp fun _ _ isUnknown left => absurd ((congrArg Token.kind left.2).trans isUnknown) readable

theorem current_complete (p : Parser) (m : Marker) (kind : Kind) : (p.complete m kind).2.current = p.current := by
  simp only [complete]
  split <;> rfl

/-! ## Parameters -/

def AnswersParameters (p : Parser) (seen : Parameters) (r : Parameters × Parser) : Prop :=
  Answers settled p r.2 ∧ ∀ span, r.1.amp = some span →
    seen.amp = some span ∨ ∃ t : Token, t.Begins (ahead p) span ∧ t.kind ≠ .unknown

theorem AnswersParameters.stop {seen seen' : Parameters} (answers : Answers settled p q)
    (same : seen'.amp = seen.amp) : AnswersParameters p seen (seen', q) :=
  ⟨answers, fun _ amp => .inl (same ▸ amp)⟩

theorem AnswersParameters.after {seen seen' : Parameters} {r : Parameters × Parser}
    (first : AnswersParameters p seen (seen', q)) (more : AnswersParameters q seen' r) :
    AnswersParameters p seen r := by
  refine ⟨first.1.trans more.1, fun span amp => ?_⟩
  obtain ⟨ds, rs, walks, -⟩ := first.1
  rcases more.2 span amp with before | ⟨t, begins, readable⟩
  · exact first.2 span before
  · exact .inr ⟨t, begins.mono (ahead_suffix walks), readable⟩

theorem answers_parameter (ready : p.Ready) (isSymbol : p.atSymbol = true) (label : kind.isLabel = true)
    (plain : [Kind.error, .metadata].contains kind = false) : Answers pending p (p.node kind Parser.advance).2 := by
  obtain ⟨t, ts, rest, -⟩ := ready.exists_symbol isSymbol
  have inside : Answers pending p.begun p.begun.advance := answers_advanceAs (p := p.begun) rest _
  exact (answersNode_node label plain inside).answers

theorem answers_parametersLoop (forms : AnswersForms form) (turns : Nat) (seen : Parameters) (ready : p.Ready) :
    AnswersParameters p seen (parametersLoop form turns seen p) := by
  induction turns generalizing p seen with
  | zero => exact .stop (.stay p) rfl
  | succ turns inductionHypothesis =>
    rw [parametersLoop]
    split
    · exact .stop (.stay p) rfl
    split
    · exact .stop (answers_recover forms ready rfl) rfl
    rename_i isSymbol
    have isSymbol : p.atSymbol = true := by simpa using isSymbol
    obtain ⟨t, ts, rest, tSymbol⟩ := ready.exists_symbol isSymbol
    split
    · split
      · exact .stop (answers_recover forms ready rfl) rfl
      · have amp : Answers settled p (p.advanceAs .amp) := answers_advanceAs rest .amp
        have first : AnswersParameters p seen ({ seen with amp := some p.current.span }, p.advanceAs .amp) := by
          refine ⟨amp, ?_⟩
          rintro span ⟨⟩
          refine .inr ⟨p.current, begins_current p, fun isUnknown => ?_⟩
          rw [atSymbol, Parser.kind, isUnknown] at isSymbol
          contradiction
        exact first.after (inductionHypothesis _ (amp.ready ready))
    split
    · have optional : Answers settled p (p.node .optionalParam Parser.advance).2 :=
        answers_parameter ready isSymbol rfl rfl
      have first : AnswersParameters p seen ({ seen with optional := true }, _) := .stop optional rfl
      exact first.after (inductionHypothesis _ (optional.ready ready))
    · have fixed : Answers settled p (p.node .fixedParam Parser.advance).2 :=
        answers_parameter ready isSymbol rfl rfl
      have first : AnswersParameters p seen (seen, _) := .stop fixed rfl
      exact first.after (inductionHypothesis _ (fixed.ready ready))

theorem answers_parameterList (forms : AnswersForms form) (ready : p.Ready) :
    Answers pending p (parameterList form p) := by
  obtain ⟨loop, amp⟩ := answers_parametersLoop forms p.rest.length ⟨none, false, false⟩ ready
  rw [parameterList, checkAmp]
  split
  · rename_i span isAmp
    split
    · exact loop.weaken
    · obtain ⟨t, begins, readable⟩ := (amp span isAmp).resolve_left (by simp)
      exact loop.weaken.reportAt begins readable
  · exact loop.weaken

theorem answers_parameters (forms : AnswersForms form) (ready : p.Ready) (isBracket : p.isAt .leftBracket = true) :
    Answers pending p (parameters form p) := by
  obtain ⟨t, ts, rest, kindEq⟩ := ready.exists_isAt isBracket (by decide)
  have node : AnswersNode pending p (p.node .paramList _).2 := answersNode_enclosed "parameters" (parameterList form)
    ready rest (by rw [kindEq]; rfl) rfl rfl (fun q ready => answers_parameterList forms ready)
    fun q ready => (finishes_checkAmp _ (finishes_parametersLoop forms.toStepsForms _ _ ready (Nat.le_refl _))).ended
  exact node.answers

/-! ## Arities -/

theorem answers_arityEnd (forms : AnswersForms form) (ready : p.Ready) (body : Option Completed) :
    Answers pending p (arityEnd form body p) := by
  cases body with
  | none => exact .stay p
  | some _ =>
    rw [arityEnd]
    split
    · exact .stay p
    · exact answers_recover forms ready rfl

theorem answers_arityParts (forms : AnswersForms form) (ready : p.Ready) (isBracket : p.isAt .leftBracket = true) :
    Answers pending p (arityParts form p) := by
  have first : Answers settled p (parameters form p) := answers_parameters forms ready isBracket
  have second : Answers settled p (expectForm form .noBody (parameters form p)).2 :=
    first.trans (answers_expectForm forms (first.ready ready) .noBody)
  rw [arityParts_eq]
  exact second.trans (answers_arityEnd forms (second.ready ready) _)

theorem answers_bareArity (forms : AnswersForms form) (ready : p.Ready) (isBracket : p.isAt .leftBracket = true) :
    Answers pending p (bareArity form p) := by
  have inside : Answers pending p.begun (arityParts form p.begun) := answers_arityParts forms ready.begun isBracket
  exact (answersNode_node rfl rfl inside).answers

/-- The closing parenthesis of an arity may be missed in front of any token. -/
theorem answers_groupedArity (forms : AnswersForms form) (ready : p.Ready) (isParen : p.isAt .leftParen = true) :
    Answers (upcoming (groupedArity form p)) p (groupedArity form p) := by
  obtain ⟨t, ts, rest, kindEq⟩ := ready.exists_isAt isParen (by decide)
  have opens : t.kind.closer? = some .rightParen := by rw [kindEq]; rfl
  have ready' := ready.begun.openSequence rest opens "arity"
  have inside : Answers settled (p.begun.openSequence "arity") (arityInside form (p.begun.openSequence "arity")) := by
    rw [arityInside]
    split
    · rename_i isBracket
      exact answers_arityParts forms ready' isBracket
    · exact answers_recover forms ready' rfl
  have node : AnswersNode _ p (groupedArity form p) :=
    answersNode_node rfl rfl (answers_between ready.begun rest opens inside)
  refine node.answers.imp fun _ _ _ left => ?_
  exact ⟨left.2.1, (current_complete ..).trans left.2.2⟩

theorem answers_groupedArities (forms : AnswersForms form) (turns : Nat) (ready : p.Ready)
    (first : p.isAt .leftParen = true) :
    Answers (upcoming (groupedArities form turns p)) p (groupedArities form turns p) := by
  induction turns generalizing p with
  | zero => exact .stay p
  | succ turns inductionHypothesis =>
    rw [groupedArities, if_pos first]
    have arity := answers_groupedArity forms ready first
    cases again : (groupedArity form p).isAt .leftParen with
    | true =>
      have readable : (groupedArity form p).kind ≠ .unknown := by
        intro isUnknown
        rw [isAt, isUnknown] at again
        contradiction
      exact (arity.settle readable).trans (inductionHypothesis (arity.ready ready) again)
    | false =>
      have stop : groupedArities form turns (groupedArity form p) = groupedArity form p := by
        cases turns with
        | zero => rfl
        | succ turns => simp [groupedArities, again]
      rw [stop]
      exact arity

theorem answers_singleArity (forms : AnswersForms form) (ready : p.Ready) : Answers pending p (singleArity form p) := by
  rw [singleArity]
  split
  · rename_i isBracket
    exact answers_bareArity forms ready isBracket
  · exact answers_recover forms ready rfl

theorem answers_arities (forms : AnswersForms form) (ready : p.Ready) :
    Answers (upcoming (arities form p)) p (arities form p) := by
  rw [arities]
  split
  · rename_i isBracket
    exact answers_bareArity forms ready isBracket
  split
  · rename_i isParen
    exact answers_groupedArities forms _ ready isParen
  · exact answers_recover forms ready rfl

/-! ## Binding vectors -/

theorem answers_binding (forms : AnswersForms form) (ready : p.Ready) (isSymbol : p.atSymbol = true) :
    Answers pending p (binding form p) := by
  have name : Answers settled p.begun (symbol p.begun).2 := (answersNode_symbol ready.begun isSymbol).answers
  have value : Answers pending (symbol p.begun).2 (expectForm form .noBindingValue (symbol p.begun).2).2 :=
    answers_expectForm forms (name.ready ready.begun) .noBindingValue
  have node : AnswersNode pending p (binding form p) := answersNode_node rfl rfl (name.trans value)
  exact node.answers

theorem answers_bindingsLoop (forms : AnswersForms form) (single : Bool) (turns : Nat) (seen : Bindings)
    (ready : p.Ready) : Answers pending p (bindingsLoop form single turns seen p).2 := by
  induction turns generalizing p seen with
  | zero => exact .stay p
  | succ turns inductionHypothesis =>
    rw [bindingsLoop]
    split
    · exact .stay p
    split
    · exact answers_recover forms ready rfl
    split
    · exact answers_recover forms ready rfl
    · rename_i isSymbol
      have first : Answers settled p (binding form p) := answers_binding forms ready (by simpa using isSymbol)
      exact first.trans (inductionHypothesis _ (first.ready ready))

/-- Bindings up to where their vector is closed: that there are none is reported at its end. -/
theorem answers_bindingList (forms : AnswersForms form) (single : Bool) (ready : p.Ready) :
    Answers pending p (bindingList form single p) := by
  have loop : Answers settled p (bindingsLoop form single p.rest.length ⟨0, false⟩ p).2 :=
    answers_bindingsLoop forms single p.rest.length ⟨0, false⟩ ready
  have ended := (finishes_bindingsLoop forms.toStepsForms single p.rest.length ⟨0, false⟩ ready (Nat.le_refl _)).ended
  rw [bindingList]
  split
  · exact loop.trans (answers_report (kind_ne_unknown_of_ended ended))
  · exact loop.weaken

theorem answers_bindingVector (forms : AnswersForms form) (single : Bool) (ready : p.Ready)
    (isBracket : p.isAt .leftBracket = true) : Answers pending p (bindingVector form single p) := by
  obtain ⟨t, ts, rest, kindEq⟩ := ready.exists_isAt isBracket (by decide)
  have node : AnswersNode pending p (bindingVector form single p) := answersNode_enclosed "bindings"
    (bindingList form single) ready rest (by rw [kindEq]; rfl) rfl rfl
    (fun q ready => answers_bindingList forms single ready)
    fun q ready => (finishes_bindingList forms.toStepsForms single ready).ended
  exact node.answers

theorem answers_boundBody (forms : AnswersForms form) (single : Bool) (ready : p.Ready) :
    Answers pending p (boundBody form single p) := by
  cases isBracket : p.isAt .leftBracket with
  | true =>
    have first : Answers settled p (bindingVector form single p) := answers_bindingVector forms single ready isBracket
    rw [boundBody_of_bracket isBracket]
    exact first.trans (answers_sequence forms (first.ready ready))
  | false =>
    rw [boundBody_of_no_bracket isBracket]
    exact answers_recover forms ready rfl

theorem answers_branches (forms : AnswersForms form) (ready : p.Ready) : Answers pending p (branches form p) := by
  have first : Answers settled p (expectForm form .noTrueBranch p).2 := answers_expectForm forms ready .noTrueBranch
  rw [branches_eq]
  cases (expectForm form .noTrueBranch p).1 with
  | none => exact first.weaken
  | some _ => exact first.trans (answers_form forms (first.ready ready))

theorem answers_boundBranches (forms : AnswersForms form) (ready : p.Ready) :
    Answers pending p (boundBranches form p) := by
  cases isBracket : p.isAt .leftBracket with
  | true =>
    have first : Answers settled p (bindingVector form true p) := answers_bindingVector forms true ready isBracket
    rw [boundBranches_of_bracket isBracket]
    exact first.trans (answers_branches forms (first.ready ready))
  | false =>
    rw [boundBranches_of_no_bracket isBracket]
    exact answers_recover forms ready rfl

/-! ## Lookups, imports and definitions -/

theorem answers_expectSymbol (forms : AnswersForms form) (ready : p.Ready) {missing : StructuralProblem}
    (isRemark : missing.isRemark = true) : Answers pending p (expectSymbol form missing p) := by
  rw [expectSymbol]
  split
  · rename_i isSymbol
    exact (answersNode_symbol ready isSymbol).answers
  · exact answers_recover forms ready isRemark

theorem answers_lookupBody (forms : AnswersForms form) (ready : p.Ready) : Answers pending p (lookupBody form p) := by
  rw [lookupBody]
  split
  · rename_i isAddress
    have isLiteral := isLiteralToken_of_isAt_address isAddress
    have account : Answers settled p (literal p).2 := (answersNode_literal ready isLiteral).answers
    exact account.trans (answers_expectSymbol forms (account.ready ready) rfl)
  split
  · rename_i isSymbol
    split
    · have account : Answers settled p (symbol p).2 := (answersNode_symbol ready isSymbol).answers
      exact account.trans (answers_expectSymbol forms (account.ready ready) rfl)
    · exact answers_expectSymbol forms ready rfl
  · exact answers_recover forms ready rfl

theorem answers_importBody (forms : AnswersForms form) (ready : p.Ready) : Answers pending p (importBody form p) := by
  rw [importBody]
  split
  · rename_i isSymbol
    have library : Answers settled p (symbol p).2 := (answersNode_symbol ready isSymbol).answers
    have ready' := library.ready ready
    apply library.trans
    dsimp only
    split
    · rename_i hasAlias
      obtain ⟨t, ts, rest, -⟩ := ready'.exists_isAt (Bool.and_eq_true_iff.mp hasAlias).1 (by decide)
      have mark : Answers settled (symbol p).2 ((symbol p).2.advanceAs .asMark) := answers_advanceAs rest .asMark
      exact mark.trans (answers_expectSymbol forms (mark.ready ready') rfl)
    · exact .stay _
  · exact answers_recover forms ready rfl

theorem answers_definition {body : Parser → Parser} (forms : AnswersForms form) (ready : p.Ready)
    {missing : StructuralProblem} (isRemark : missing.isRemark = true)
    (inside : ∀ q : Parser, q.Ready → Answers (upcoming (body q)) q (body q)) :
    Answers (upcoming (definition form missing body p)) p (definition form missing body p) := by
  rw [definition]
  split
  · rename_i isSymbol
    have name : Answers settled p (symbol p).2 := (answersNode_symbol ready isSymbol).answers
    have attached : Answers settled p (metadata? form (symbol p).2) :=
      name.trans (answers_optionalMetadata forms (name.ready ready))
    exact attached.trans (inside _ (attached.ready ready))
  · exact answers_recover forms ready isRemark

/-! ## Conditions -/

theorem answers_clauses (forms : AnswersForms form) (turns count : Nat) (ready : p.Ready) :
    Answers pending p (clauses form turns count p) := by
  induction turns generalizing p count with
  | zero => exact .stay p
  | succ turns inductionHypothesis =>
    rw [clauses]
    split
    · exact .stay p
    · have test : Answers settled p.begun (form p.begun).2 := answers_form forms ready.begun
      change Answers pending p (if (form p.begun).2.atSequenceEnd = true then _ else _)
      split
      · split
        · exact (answersNode_complete rfl rfl test.weaken).answers
        · exact (answersNode_complete rfl rfl test.weaken).answers
      · have both : Answers settled p.begun (form (form p.begun).2).2 :=
          test.trans (answers_form forms (test.ready ready.begun))
        have clause : Answers settled p ((form (form p.begun).2).2.complete p.start.1 .condClause).2 :=
          (answersNode_complete rfl rfl both).answers
        exact clause.trans (inductionHypothesis _ (clause.ready ready))

/-! ## Heads -/

theorem answers_specialBody (forms : AnswersForms form) (ready : p.Ready) (head : Kind) :
    Answers (upcoming (specialBody form head p)) p (specialBody form head p) := by
  cases head
  case lookupHead => exact answers_lookupBody forms ready
  case importHead => exact answers_importBody forms ready
  case defHead => exact answers_definition forms ready rfl fun _ ready => answers_expectForm forms ready _
  case defnHead => exact answers_definition forms ready rfl fun _ ready => answers_arities forms ready
  case defmacroHead => exact answers_definition forms ready rfl fun _ ready => answers_singleArity forms ready
  case fnHead | macroHead => exact answers_singleArity forms ready
  case condHead => exact answers_clauses forms _ 0 ready
  case letHead | loopHead => exact answers_boundBody forms false ready
  case ifLetHead => exact answers_boundBranches forms ready
  case whenLetHead | dotimesHead => exact answers_boundBody forms true ready
  all_goals exact answers_expectForm forms ready _

/-- Giving up on what is left of a special form explains what is pending about its first token. -/
theorem answers_noMoreForms (forms : AnswersForms form) (ready : q.Ready) (answers : Answers (upcoming q) p q)
    (name : String) : Answers pending p (noMoreForms form name q) := by
  rw [noMoreForms]
  split
  · rename_i ended
    exact answers.settle (kind_ne_unknown_of_ended ended)
  · have isRemark : (StructuralProblem.extraForms name).isRemark = true := rfl
    obtain ⟨ds, rs, walks, reports, explained⟩ := answers
    obtain ⟨es, rs', walks', reports', explained', givenUp⟩ := exists_answers_recover forms ready isRemark
    refine ⟨ds ++ es, rs ++ rs', walks.trans walks', by rw [reports', reports, List.append_assoc], ?_⟩
    have both := explained.append (explained'.mono (ahead_suffix walks)).weaken
    refine both.resolve fun report t isUnknown settled => .inr ?_
    obtain ⟨noKey, next⟩ := settled
    obtain ⟨n, member, found⟩ := givenUp ((congrArg Token.kind next).trans isUnknown)
    obtain ⟨d, inside, below⟩ := mem_nodesAll.mp member
    exact ⟨n, mem_nodesAll.mpr ⟨d, List.mem_append_right _ inside, below⟩, .inl ⟨noKey, next ▸ found⟩⟩

theorem answersNode_specialForm (forms : AnswersForms form) (ready : p.Ready) {u : Token} {head : Kind}
    (rest : p.rest = t :: u :: ts) (isParen : t.kind = .leftParen) (member : head ∈ Kind.heads) :
    AnswersNode pending p (specialForm form head p).2 := by
  have opens : t.kind.closer? = some .rightParen := by rw [isParen]; rfl
  have plain : [Kind.error, .metadata].contains (specialNode head) = false := by
    revert head
    decide
  have behind : (p.begun.openSequence (spellingOf head)).rest = u :: ts := by
    rw [openSequence_eq (p := p.begun) rest opens]
    exact rest_advanceAs (p := p.begun) rest t.kind
  have ready' := ready.begun.openSequence rest opens (spellingOf head)
  have headTaken : Answers settled _ ((p.begun.openSequence (spellingOf head)).advanceAs head) :=
    answers_advanceAs behind head
  have body := headTaken.trans (answers_specialBody forms (headTaken.ready ready') head)
  have whole : Answers settled _ (noMoreForms form (spellingOf head) _) :=
    answers_noMoreForms forms (body.ready ready') body (spellingOf head)
  have ended := (finishes_noMoreForms forms.toStepsForms (body.ready ready') (spellingOf head)).ended
  rw [specialForm]
  exact answersNode_node (isLabel_specialNode member).1 plain
    (answers_between_ended ready.begun rest opens whole ended)

theorem answersNode_parenthesized (forms : AnswersForms form) (ready : p.Ready) (isParen : p.isAt .leftParen = true) :
    AnswersNode pending p (parenthesized form p).2 := by
  obtain ⟨t, ts, rest, kindEq⟩ := ready.exists_isAt isParen (by decide)
  rw [parenthesized, require_eq isParen]
  cases ahead : headAhead? p with
  | none => exact answersNode_delimited forms "list" ready rest (by rw [kindEq]; rfl) rfl rfl
  | some head =>
    obtain ⟨u, us, rfl, -, isHead⟩ := exists_head ready rest ahead
    exact answersNode_specialForm forms ready rest kindEq (List.mem_of_find?_eq_some isHead)

end Grammar

end LispSyntax
