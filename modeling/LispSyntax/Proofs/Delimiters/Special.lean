import LispSyntax.Proofs.Delimiters.Sequence

/-! # How special forms treat delimiters

The productions of `Grammar.Binding` and `Grammar.Special` as runs of `Delimiters.Step`. Each special form
gets to the end of its sequence, because the check that nothing is left gives up on whatever is. An arity in
parentheses has no such check: where its body is a closing delimiter that closes nothing, the arity is
closed early (`steps_groupedArity`).
-/

namespace LispSyntax

namespace Grammar

open LispSyntax.Parser Delimiters

variable {form : FormRule} {p : Parser} {t : Token} {ts : List Token}

/-! ## Parameters -/

theorem steps_parameter (rest : p.rest = t :: ts) (isSymbol : t.kind.isSymbolToken = true) (kind : Kind) :
    Steps p (p.node kind Parser.advance).2 :=
  steps_node (steps_advance (p := p.begun) rest (isPlain_of_isSymbolToken isSymbol))

theorem rest_parameter (rest : p.rest = t :: ts) (kind : Kind) :
    (p.node kind Parser.advance).2.rest = ts := by
  rw [Parser.node, rest_complete]
  exact rest_advanceAs (p := p.begun) rest _

theorem finishes_parametersLoop (forms : StepsForms form) (turns : Nat) (seen : Parameters) (ready : p.Ready)
    (enough : p.rest.length ≤ turns) : Finishes p (parametersLoop form turns seen p).2 := by
  induction turns generalizing p seen with
  | zero => exact finishes_of_no_turns ready enough
  | succ turns inductionHypothesis =>
    rw [parametersLoop]
    split
    · rename_i ended
      exact ⟨.refl p, ended⟩
    split
    · exact finishes_recover forms ready rfl
    rename_i isSymbol
    have isSymbol : p.atSymbol = true := by simpa using isSymbol
    obtain ⟨t, ts, rest, tSymbol⟩ := ready.exists_symbol isSymbol
    -- Every other turn takes the name at the front.
    rw [rest, List.length_cons, Nat.add_le_add_iff_right] at enough
    have taken {kind : Kind} (seen : Parameters) (isParameter : kind = .fixedParam ∨ kind = .optionalParam) :
        Finishes p (parametersLoop form turns seen (p.node kind Parser.advance).2).2 := by
      have ready' := (reads_parameter ready isSymbol isParameter).ready ready
      refine (steps_parameter rest tSymbol kind).finishes (inductionHypothesis seen ready' ?_)
      rw [rest_parameter rest]
      exact enough
    split
    · split
      · exact finishes_recover forms ready rfl
      · have ready' := (runs_advanceAs rest .amp).ready ready
        have amp := steps_advanceAs rest (isPlain_of_isSymbolToken tSymbol) .amp
        refine amp.finishes (inductionHypothesis _ ready' ?_)
        rw [rest_advanceAs rest]
        exact enough
    split
    · exact taken _ (.inr rfl)
    · exact taken seen (.inl rfl)

theorem finishes_checkAmp {q : Parser} (seen : Parameters) (finishes : Finishes p q) :
    Finishes p (checkAmp seen q) := by
  rw [checkAmp]
  split
  · split
    · exact finishes
    · exact ⟨finishes.steps.trans (steps_reportAt rfl q _), finishes.ended⟩
  · exact finishes

theorem steps_parameters (forms : StepsForms form) (ready : p.Ready)
    (isBracket : p.isAt .leftBracket = true) : Steps p (parameters form p) := by
  obtain ⟨t, ts, rest, kindEq⟩ := ready.exists_isAt isBracket (by decide)
  exact steps_enclosed "parameters" .paramList (parameterList form) ready rest (by rw [kindEq]; rfl)
    (fun q ready => reads_parameterList forms.toReadsForms q.rest.length ready)
    fun q ready => finishes_checkAmp _ (finishes_parametersLoop forms _ _ ready (Nat.le_refl _))

/-! ## Arities -/

/-- An arity gets to the end of its sequence, or its body is a closing delimiter that closes nothing. -/
theorem arityParts_cases (forms : StepsForms form) (ready : p.Ready)
    (isBracket : p.isAt .leftBracket = true) :
    Finishes p (arityParts form p) ∨ ∃ q, Steps p q ∧ q.frames = p.frames ∧ q.atSequenceEnd = false ∧
      SkipsStray q (arityParts form p) := by
  have first := steps_parameters forms ready isBracket
  have reads := reads_parameters forms.toReadsForms ready isBracket
  have ready' := reads.ready ready
  obtain ⟨ds, runs, -⟩ := reads
  have framesEq := runs.frames
  unfold arityParts
  generalize parameters form p = q at first ready' framesEq
  rw [expectForm]
  cases going : q.atSequenceEnd with
  | true => exact .inl ⟨first.trans (steps_report rfl q), going⟩
  | false =>
    have body := forms.steps q ready' going
    have ready'' := forms.ready ready'
    have uncounted := forms.uncounted q ready' going
    simp only [Bool.false_eq_true, if_false]
    generalize form q = result at body ready'' uncounted
    obtain ⟨counted, r⟩ := result
    cases counted with
    | none => exact .inr ⟨q, first, framesEq, going, uncounted rfl⟩
    | some form =>
      left
      dsimp only
      split
      · rename_i ended
        exact ⟨first.trans body, ended⟩
      · exact (first.trans body).finishes (finishes_recover forms ready'' rfl)

theorem steps_arityParts (forms : StepsForms form) (ready : p.Ready)
    (isBracket : p.isAt .leftBracket = true) : Steps p (arityParts form p) := by
  rcases arityParts_cases forms ready isBracket with finishes | ⟨q, steps, -, going, stray⟩
  · exact finishes.steps
  · exact steps.trans (stray.steps going)

theorem steps_bareArity (forms : StepsForms form) (ready : p.Ready)
    (isBracket : p.isAt .leftBracket = true) : Steps p (bareArity form p) :=
  steps_node (steps_arityParts forms ready.begun isBracket)

theorem steps_groupedArity (forms : StepsForms form) (ready : p.Ready)
    (isParen : p.isAt .leftParen = true) : Steps p (groupedArity form p) := by
  obtain ⟨t, ts, rest, kindEq⟩ := ready.exists_isAt isParen (by decide)
  have opens : t.kind.closer? = some .rightParen := by rw [kindEq]; rfl
  have ready' := ready.begun.openSequence rest opens "arity"
  refine steps_node ?_
  dsimp only
  split
  · rename_i isBracket
    have reads := reads_arityParts forms.toReadsForms ready' isBracket
    rcases arityParts_cases forms ready' isBracket with finishes | ⟨q, steps, framesEq, going, stray⟩
    · exact steps_between ready.begun rest opens reads finishes
    · have opened := steps_openSequence (p := p.begun) rest opens "arity"
      rw [frames_openSequence (p := p.begun) rest opens] at framesEq
      exact (opened.trans steps).trans (stray.steps_closeSequence going (reads.ready ready') framesEq)
  · exact steps_between ready.begun rest opens (reads_recover forms.toReadsForms ready' .noParameters)
      (finishes_recover forms ready' rfl)

theorem steps_groupedArities (forms : StepsForms form) (turns : Nat) (ready : p.Ready) :
    Steps p (groupedArities form turns p) := by
  induction turns generalizing p with
  | zero => exact .refl p
  | succ turns inductionHypothesis =>
    rw [groupedArities]
    split
    · rename_i isParen
      have ready' := (reads_groupedArity forms.toReadsForms ready isParen).ready ready
      exact (steps_groupedArity forms ready isParen).trans (inductionHypothesis ready')
    · exact .refl p

theorem steps_singleArity (forms : StepsForms form) (ready : p.Ready) : Steps p (singleArity form p) := by
  rw [singleArity]
  split
  · rename_i isBracket
    exact steps_bareArity forms ready isBracket
  · exact (finishes_recover forms ready rfl).steps

theorem steps_arities (forms : StepsForms form) (ready : p.Ready) : Steps p (arities form p) := by
  rw [arities]
  split
  · rename_i isBracket
    exact steps_bareArity forms ready isBracket
  split
  · exact steps_groupedArities forms _ ready
  · exact (finishes_recover forms ready rfl).steps

/-! ## Binding vectors -/

theorem steps_binding (forms : StepsForms form) (ready : p.Ready) (isSymbol : p.atSymbol = true) :
    Steps p (binding form p) := by
  have name := steps_name ready.begun isSymbol
  have ready' := (reads_name ready.begun isSymbol).ready ready.begun
  have value : Steps (symbol p.begun).2 (expectForm form .noBindingValue (symbol p.begun).2).2 :=
    steps_expectForm forms ready' rfl
  rw [binding]
  exact steps_node (name.trans value)

theorem rest_length_binding (forms : StepsForms form) (ready : p.Ready) (isSymbol : p.atSymbol = true) :
    (binding form p).rest.length < p.rest.length := by
  obtain ⟨t, ts, rest, tSymbol⟩ := ready.exists_symbol isSymbol
  have nameRest : (symbol p.begun).2.rest = ts := rest_symbol (p := p.begun) rest tSymbol
  have ready' := (reads_name ready.begun isSymbol).ready ready.begun
  have value := rest_length_le_of_reads (reads_expectForm forms.toReadsForms ready' .noBindingValue)
  rw [nameRest] at value
  rw [rest, List.length_cons, binding, Parser.node, rest_complete]
  exact Nat.lt_succ_of_le value

theorem finishes_bindingsLoop (forms : StepsForms form) (single : Bool) (turns : Nat) (seen : Bindings)
    (ready : p.Ready) (enough : p.rest.length ≤ turns) :
    Finishes p (bindingsLoop form single turns seen p).2 := by
  induction turns generalizing p seen with
  | zero => exact finishes_of_no_turns ready enough
  | succ turns inductionHypothesis =>
    rw [bindingsLoop]
    split
    · rename_i ended
      exact ⟨.refl p, ended⟩
    split
    · exact finishes_recover forms ready rfl
    split
    · exact finishes_recover forms ready rfl
    · rename_i isSymbol
      have isSymbol : p.atSymbol = true := by simpa using isSymbol
      have ready' := (reads_binding forms.toReadsForms ready isSymbol).ready ready
      have progress := rest_length_binding forms ready isSymbol
      exact (steps_binding forms ready isSymbol).finishes (inductionHypothesis _ ready' (by omega))

theorem finishes_bindingList (forms : StepsForms form) (single : Bool) (ready : p.Ready) :
    Finishes p (bindingList form single p) := by
  have loop := finishes_bindingsLoop forms single p.rest.length ⟨0, false⟩ ready (Nat.le_refl _)
  rw [bindingList]
  split
  · exact ⟨loop.steps.trans (steps_report rfl _), loop.ended⟩
  · exact loop

theorem steps_bindingVector (forms : StepsForms form) (single : Bool) (ready : p.Ready)
    (isBracket : p.isAt .leftBracket = true) : Steps p (bindingVector form single p) := by
  obtain ⟨t, ts, rest, kindEq⟩ := ready.exists_isAt isBracket (by decide)
  exact steps_enclosed "bindings" .bindings (bindingList form single) ready rest (by rw [kindEq]; rfl)
    (fun q ready => reads_bindingList forms.toReadsForms single ready)
    fun q ready => finishes_bindingList forms single ready

theorem steps_boundBody (forms : StepsForms form) (single : Bool) (ready : p.Ready) :
    Steps p (boundBody form single p) := by
  cases isBracket : p.isAt .leftBracket with
  | true =>
    have ready' := (reads_bindingVector forms.toReadsForms single ready isBracket).ready ready
    rw [boundBody_of_bracket isBracket]
    exact (steps_bindingVector forms single ready isBracket).trans (finishes_sequence forms ready').steps
  | false =>
    rw [boundBody_of_no_bracket isBracket]
    exact (finishes_recover forms ready rfl).steps

theorem steps_branches (forms : StepsForms form) (ready : p.Ready) : Steps p (branches form p) := by
  have first : Steps p (expectForm form .noTrueBranch p).2 := steps_expectForm forms ready rfl
  have ready' := (reads_expectForm forms.toReadsForms ready .noTrueBranch).ready ready
  rw [branches_eq]
  cases (expectForm form .noTrueBranch p).1 with
  | none => exact first
  | some _ => exact first.trans (steps_form forms ready')

theorem steps_boundBranches (forms : StepsForms form) (ready : p.Ready) :
    Steps p (boundBranches form p) := by
  cases isBracket : p.isAt .leftBracket with
  | true =>
    have ready' := (reads_bindingVector forms.toReadsForms true ready isBracket).ready ready
    rw [boundBranches_of_bracket isBracket]
    exact (steps_bindingVector forms true ready isBracket).trans (steps_branches forms ready')
  | false =>
    rw [boundBranches_of_no_bracket isBracket]
    exact (finishes_recover forms ready rfl).steps

/-! ## Lookups, imports and definitions -/

theorem steps_expectSymbol (forms : StepsForms form) (ready : p.Ready) {missing : StructuralProblem}
    (other : missing.isDelimiter = false) : Steps p (expectSymbol form missing p) := by
  rw [expectSymbol]
  split
  · rename_i isSymbol
    exact steps_name ready isSymbol
  · exact (finishes_recover forms ready other).steps

theorem steps_lookupBody (forms : StepsForms form) (ready : p.Ready) : Steps p (lookupBody form p) := by
  rw [lookupBody]
  split
  · rename_i isAddress
    obtain ⟨t, ts, rest, kindEq⟩ := ready.exists_isAt isAddress (by decide)
    have isLiteral : t.kind.isLiteralToken = true := by rw [kindEq]; rfl
    have ready' := (reads_literal rest isLiteral).reads.ready ready
    exact (steps_literal rest isLiteral).trans (steps_expectSymbol forms ready' rfl)
  split
  · rename_i isSymbol
    split
    · have ready' := (reads_name ready isSymbol).ready ready
      exact (steps_name ready isSymbol).trans (steps_expectSymbol forms ready' rfl)
    · exact steps_expectSymbol forms ready rfl
  · exact (finishes_recover forms ready rfl).steps

theorem steps_importBody (forms : StepsForms form) (ready : p.Ready) : Steps p (importBody form p) := by
  rw [importBody]
  split
  · rename_i isSymbol
    have library := steps_name ready isSymbol
    have ready' := (reads_name ready isSymbol).ready ready
    dsimp only
    split
    · rename_i hasAlias
      obtain ⟨isKeyword, -⟩ : (symbol p).2.isAt .keyword = true ∧
          (symbol p).2.current.text = ":as".toList := by simpa using hasAlias
      obtain ⟨t, ts, rest, kindEq⟩ := ready'.exists_isAt isKeyword (by decide)
      have mark := steps_advanceAs rest (by rw [kindEq]; rfl) .asMark
      have ready'' := (runs_advanceAs rest .asMark).ready ready'
      exact (library.trans mark).trans (steps_expectSymbol forms ready'' rfl)
    · exact library
  · exact (finishes_recover forms ready rfl).steps

theorem steps_definition {body : Parser → Parser} (forms : StepsForms form) (ready : p.Ready)
    {missing : StructuralProblem} (other : missing.isDelimiter = false)
    (inside : ∀ q : Parser, q.Ready → Steps q (body q)) : Steps p (definition form missing body p) := by
  rw [definition]
  split
  · rename_i isSymbol
    have ready' := (reads_name ready isSymbol).ready ready
    have ready'' := (reads_optionalMetadata forms.toReadsForms ready').ready ready'
    exact ((steps_name ready isSymbol).trans (steps_optionalMetadata forms ready')).trans (inside _ ready'')
  · exact (finishes_recover forms ready other).steps

/-! ## Conditions -/

theorem steps_clauses (forms : StepsForms form) (turns count : Nat) (ready : p.Ready) :
    Steps p (clauses form turns count p) := by
  induction turns generalizing p count with
  | zero => exact .refl p
  | succ turns inductionHypothesis =>
    rw [clauses]
    cases going : p.atSequenceEnd with
    | true => exact .refl p
    | false =>
      dsimp only
      rw [if_neg Bool.false_ne_true]
      change Steps p (if (form p.begun).2.atSequenceEnd = true then _ else _)
      have test := forms.steps p.begun ready.begun going
      have ready' := forms.ready ready.begun
      split
      · exact steps_complete test ..
      · have pair := test.trans (steps_form forms ready')
        have ready'' := (forms.ready ready').complete p.start.1 .condClause
        exact (steps_complete pair ..).trans (inductionHypothesis _ ready'')

/-! ## Heads -/

theorem steps_specialBody (forms : StepsForms form) (ready : p.Ready) (head : Kind) :
    Steps p (specialBody form head p) := by
  cases head
  case lookupHead => exact steps_lookupBody forms ready
  case importHead => exact steps_importBody forms ready
  case defHead => exact steps_definition forms ready rfl fun _ ready => steps_expectForm forms ready rfl
  case defnHead => exact steps_definition forms ready rfl fun _ ready => steps_arities forms ready
  case defmacroHead => exact steps_definition forms ready rfl fun _ ready => steps_singleArity forms ready
  case fnHead | macroHead => exact steps_singleArity forms ready
  case condHead => exact steps_clauses forms _ 0 ready
  case letHead | loopHead => exact steps_boundBody forms false ready
  case ifLetHead => exact steps_boundBranches forms ready
  case whenLetHead | dotimesHead => exact steps_boundBody forms true ready
  all_goals exact steps_expectForm forms ready rfl

theorem finishes_noMoreForms (forms : StepsForms form) (ready : p.Ready) (name : String) :
    Finishes p (noMoreForms form name p) := by
  rw [noMoreForms]
  split
  · rename_i ended
    exact ⟨.refl p, ended⟩
  · exact finishes_recover forms ready rfl

theorem steps_specialForm (forms : StepsForms form) (ready : p.Ready) {u : Token} {head : Kind}
    (rest : p.rest = t :: u :: ts) (isParen : t.kind = .leftParen) (isSymbol : u.kind.isSymbolToken = true)
    (isHead : Kind.ofHead? u.text = some head) : Steps p (specialForm form head p).2 := by
  have member : head ∈ Kind.heads := List.mem_of_find?_eq_some isHead
  have opens : t.kind.closer? = some .rightParen := by rw [isParen]; rfl
  have opened := ready.begun.openSequence rest opens (spellingOf head)
  have ahead : (p.begun.openSequence (spellingOf head)).rest = u :: ts := by
    rw [openSequence_eq (p := p.begun) rest opens]
    exact rest_advanceAs (p := p.begun) rest t.kind
  have taken := steps_advanceAs ahead (isPlain_of_isSymbolToken isSymbol) head
  have headReads : Reads (p.begun.openSequence (spellingOf head))
      ((p.begun.openSequence (spellingOf head)).advanceAs head) fun _ =>
        Draft.taken head fun t => t.kind.isSymbolToken = true := Reads.advanceAs ahead head isSymbol
  have ready' := headReads.ready opened
  have bodyReads := reads_specialBody forms.toReadsForms ready' member
  have ready'' := bodyReads.ready ready'
  have reads := headReads.followedBy
    (bodyReads.followedBy (reads_noMoreForms forms.toReadsForms ready'' (spellingOf head)))
  have body := steps_specialBody forms ready' head
  have ending := finishes_noMoreForms forms ready'' (spellingOf head)
  have closed : Steps p.begun (noMoreForms form (spellingOf head) (specialBody form head
      ((p.begun.openSequence (spellingOf head)).advanceAs head))).closeSequence :=
    steps_between ready.begun rest opens reads ((taken.trans body).finishes ending)
  rw [specialForm]
  exact steps_node closed

theorem steps_parenthesized (forms : StepsForms form) (ready : p.Ready) (rest : p.rest = t :: ts)
    (isParen : t.kind = .leftParen) : Steps p (parenthesized form p).2 := by
  have met : p.isAt .leftParen = true := by simp [isAt, kind_of_rest rest, isParen]
  rw [parenthesized, require_eq met]
  cases ahead : headAhead? p with
  | none => exact steps_delimited forms ready rest (by rw [isParen]; rfl) "list" .listForm
  | some head =>
    obtain ⟨u, us, rfl, isSymbol, isHead⟩ := exists_head ready rest ahead
    exact steps_specialForm forms ready rest isParen isSymbol isHead

end Grammar

end LispSyntax
