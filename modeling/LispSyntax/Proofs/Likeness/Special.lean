import LispSyntax.Proofs.Likeness.Sequence

/-! # Special forms of sources that are alike

The productions of `Grammar.Binding` and `Grammar.Special`, followed through two sources at once. The loops
over a vector carry what they have seen; only the place of an `&` can differ between the two sides.
-/

namespace LispSyntax

namespace Grammar

open LispSyntax.Parser

variable {γ : Type} {L : Likeness γ} {form : FormRule} {p q : Parser}

/-! ## Parameters -/

/-- The same has been seen of two parameter lists, up to the place of the `&`. -/
structure AlikeParameters (L : Likeness γ) (a b : Parameters) : Prop where
  amp : Option.Rel L.spans a.amp b.amp
  optional : b.optional = a.optional
  recovered : b.recovered = a.recovered

theorem AlikeParameters.isSome_amp {a b : Parameters} (seen : AlikeParameters L a b) :
    b.amp.isSome = a.amp.isSome := by
  have related := seen.amp
  generalize a.amp = left at related
  generalize b.amp = right at related
  cases related <;> rfl

theorem twin_parameter (kind : Kind) (alike : Alike L p q) (isSymbol : p.atSymbol = true)
    (label : kind.isLabel = true) :
    Twin L p q (p.node kind Parser.advance).2 (q.node kind Parser.advance).2 := by
  obtain ⟨t, ts, rest, -⟩ := alike.ready.exists_symbol isSymbol
  exact (twin_node label (twin_advance alike.begun rest)).twin

theorem twin_parametersLoop (forms : TwinForms L form) (turns : Nat) {a b : Parameters}
    (seen : AlikeParameters L a b) (alike : Alike L p q) :
    Twin L p q (parametersLoop form turns a p).2 (parametersLoop form turns b q).2 ∧
      AlikeParameters L (parametersLoop form turns a p).1 (parametersLoop form turns b q).1 := by
  induction turns generalizing p q a b with
  | zero => exact ⟨Twin.refl p q, seen⟩
  | succ turns inductionHypothesis =>
    have text : q.current.text = p.current.text := alike.text 0
    rw [parametersLoop, parametersLoop, alike.atSequenceEnd, alike.atSymbol, text, seen.isSome_amp]
    split
    · exact ⟨Twin.refl p q, seen⟩
    split
    · exact ⟨twin_recover forms alike .noParameterName, seen.amp, seen.optional, rfl⟩
    rename_i isSymbol
    have isSymbol : p.atSymbol = true := by simpa using isSymbol
    obtain ⟨t, ts, rest, -⟩ := alike.ready.exists_symbol isSymbol
    split
    · split
      · exact ⟨twin_recover forms alike .secondAmp, seen.amp, seen.optional, rfl⟩
      · have first := twin_advanceAs alike rest (L.kinds_refl .amp)
        have marked : AlikeParameters L { a with amp := some p.current.span }
            { b with amp := some q.current.span } :=
          ⟨.some alike.span, seen.optional, seen.recovered⟩
        obtain ⟨more, last⟩ := inductionHypothesis marked (alike.after first)
        exact ⟨first.trans more, last⟩
    · split
      · have first := twin_parameter .optionalParam alike isSymbol rfl
        have followed : AlikeParameters L { a with optional := true } { b with optional := true } :=
          ⟨seen.amp, rfl, seen.recovered⟩
        obtain ⟨more, last⟩ := inductionHypothesis followed (alike.after first)
        exact ⟨first.trans more, last⟩
      · have first := twin_parameter .fixedParam alike isSymbol rfl
        obtain ⟨more, last⟩ := inductionHypothesis seen (alike.after first)
        exact ⟨first.trans more, last⟩

theorem twin_checkAmp {a b : Parameters} (seen : AlikeParameters L a b) (alike : Alike L p q) :
    Twin L p q (checkAmp a p) (checkAmp b q) := by
  obtain ⟨amp, optional, recovered⟩ := seen
  rw [checkAmp, checkAmp, optional, recovered]
  generalize a.amp = left at amp
  generalize b.amp = right at amp
  cases amp with
  | none => exact Twin.refl p q
  | some related =>
    dsimp only
    split
    · exact Twin.refl p q
    · exact twin_reportAt alike .nothingAfterAmp related

theorem twin_parameterList (forms : TwinForms L form) (alike : Alike L p q) :
    Twin L p q (parameterList form p) (parameterList form q) := by
  have nothing : AlikeParameters L ⟨none, false, false⟩ ⟨none, false, false⟩ := ⟨.none, rfl, rfl⟩
  obtain ⟨loop, seen⟩ := twin_parametersLoop forms p.rest.length nothing alike
  rw [parameterList, parameterList, alike.length]
  exact loop.trans (twin_checkAmp seen (alike.after loop))

theorem twin_parameters (forms : TwinForms L form) (alike : Alike L p q)
    (isBracket : p.isAt .leftBracket = true) :
    Twin L p q (parameters form p) (parameters form q) := by
  obtain ⟨t, ts, rest, kindEq⟩ := alike.ready.exists_isAt isBracket (by decide)
  exact (twin_enclosed "parameters" .paramList (parameterList form) alike rest (by rw [kindEq]; rfl) rfl
    fun _ _ alike => twin_parameterList forms alike).twin

/-! ## Arities -/

theorem twin_arityEnd (forms : TwinForms L form) (alike : Alike L p q) {c d : Option Completed}
    (counted : Option.Rel L.completed c d) : Twin L p q (arityEnd form c p) (arityEnd form d q) := by
  cases counted with
  | none => exact Twin.refl p q
  | some _ =>
    rw [arityEnd, arityEnd, alike.atSequenceEnd]
    split
    · exact Twin.refl p q
    · exact twin_recover forms alike .extraBody

theorem twin_arityParts (forms : TwinForms L form) (alike : Alike L p q)
    (isBracket : p.isAt .leftBracket = true) : Twin L p q (arityParts form p) (arityParts form q) := by
  have first := twin_parameters forms alike isBracket
  obtain ⟨second, counted⟩ := twin_expectForm forms (alike.after first) .noBody
  have before := first.trans second
  rw [arityParts_eq, arityParts_eq]
  exact before.trans (twin_arityEnd forms (alike.after before) counted)

theorem twin_bareArity (forms : TwinForms L form) (alike : Alike L p q)
    (isBracket : p.isAt .leftBracket = true) : Twin L p q (bareArity form p) (bareArity form q) := by
  have parts := twin_arityParts forms alike.begun isBracket
  have made : TwinNode L p q (p.node .arity (arityParts form)) (q.node .arity (arityParts form)) :=
    twin_node rfl parts
  exact made.twin

theorem twin_arityInside (forms : TwinForms L form) (alike : Alike L p q) :
    Twin L p q (arityInside form p) (arityInside form q) := by
  rw [arityInside, arityInside, alike.isAt rfl]
  split
  · rename_i isBracket
    exact twin_arityParts forms alike isBracket
  · exact twin_recover forms alike .noParameters

theorem twin_groupedArity (forms : TwinForms L form) (alike : Alike L p q)
    (isParen : p.isAt .leftParen = true) :
    Twin L p q (groupedArity form p) (groupedArity form q) := by
  obtain ⟨t, ts, rest, kindEq⟩ := alike.ready.exists_isAt isParen (by decide)
  exact (twin_enclosed "arity" .arity (arityInside form) alike rest (by rw [kindEq]; rfl) rfl
    fun _ _ alike => twin_arityInside forms alike).twin

theorem twin_groupedArities (forms : TwinForms L form) (turns : Nat) (alike : Alike L p q) :
    Twin L p q (groupedArities form turns p) (groupedArities form turns q) := by
  induction turns generalizing p q with
  | zero => exact Twin.refl p q
  | succ turns inductionHypothesis =>
    rw [groupedArities, groupedArities, alike.isAt rfl]
    split
    · rename_i isParen
      have first := twin_groupedArity forms alike isParen
      exact first.trans (inductionHypothesis (alike.after first))
    · exact Twin.refl p q

theorem twin_singleArity (forms : TwinForms L form) (alike : Alike L p q) :
    Twin L p q (singleArity form p) (singleArity form q) := by
  rw [singleArity, singleArity, alike.isAt rfl]
  split
  · rename_i isBracket
    exact twin_bareArity forms alike isBracket
  · exact twin_recover forms alike .noParameters

theorem twin_arities (forms : TwinForms L form) (alike : Alike L p q) :
    Twin L p q (arities form p) (arities form q) := by
  rw [arities, arities, alike.isAt rfl, alike.isAt rfl, alike.length]
  split
  · rename_i isBracket
    exact twin_bareArity forms alike isBracket
  · split
    · exact twin_groupedArities forms _ alike
    · exact twin_recover forms alike .noArities

/-! ## Binding vectors -/

theorem twin_binding (forms : TwinForms L form) (alike : Alike L p q) (isSymbol : p.atSymbol = true) :
    Twin L p q (binding form p) (binding form q) := by
  have name := (twin_symbol alike.begun isSymbol).twin
  have value := (twin_expectForm forms (alike.begun.after name) .noBindingValue).1
  have made : TwinNode L p q
      (p.node .binding fun p => (expectForm form .noBindingValue (symbol p).2).2)
      (q.node .binding fun q => (expectForm form .noBindingValue (symbol q).2).2) :=
    twin_node rfl (name.trans value)
  exact made.twin

theorem twin_bindingsLoop (forms : TwinForms L form) (single : Bool) (turns : Nat) (seen : Bindings)
    (alike : Alike L p q) :
    Twin L p q (bindingsLoop form single turns seen p).2 (bindingsLoop form single turns seen q).2 ∧
      (bindingsLoop form single turns seen q).1 = (bindingsLoop form single turns seen p).1 := by
  induction turns generalizing p q seen with
  | zero => exact ⟨Twin.refl p q, rfl⟩
  | succ turns inductionHypothesis =>
    rw [bindingsLoop, bindingsLoop, alike.atSequenceEnd, alike.atSymbol]
    split
    · exact ⟨Twin.refl p q, rfl⟩
    split
    · exact ⟨twin_recover forms alike .extraBinding, rfl⟩
    split
    · exact ⟨twin_recover forms alike .noBindingName, rfl⟩
    rename_i isSymbol
    have first := twin_binding forms alike (by simpa using isSymbol)
    obtain ⟨more, same⟩ := inductionHypothesis { seen with count := seen.count + 1 } (alike.after first)
    exact ⟨first.trans more, same⟩

theorem twin_bindingList (forms : TwinForms L form) (single : Bool) (alike : Alike L p q) :
    Twin L p q (bindingList form single p) (bindingList form single q) := by
  obtain ⟨loop, same⟩ := twin_bindingsLoop forms single p.rest.length ⟨0, false⟩ alike
  rw [bindingList, bindingList, alike.length, same]
  split
  · exact loop.trans (twin_report (alike.after loop) .noBinding)
  · exact loop

theorem twin_bindingVector (forms : TwinForms L form) (single : Bool) (alike : Alike L p q)
    (isBracket : p.isAt .leftBracket = true) :
    Twin L p q (bindingVector form single p) (bindingVector form single q) := by
  obtain ⟨t, ts, rest, kindEq⟩ := alike.ready.exists_isAt isBracket (by decide)
  exact (twin_enclosed "bindings" .bindings (bindingList form single) alike rest (by rw [kindEq]; rfl) rfl
    fun _ _ alike => twin_bindingList forms single alike).twin

theorem twin_boundBody (forms : TwinForms L form) (single : Bool) (alike : Alike L p q) :
    Twin L p q (boundBody form single p) (boundBody form single q) := by
  have sameBracket : q.isAt .leftBracket = p.isAt .leftBracket := alike.isAt rfl
  cases isBracket : p.isAt .leftBracket with
  | true =>
    have first := twin_bindingVector forms single alike isBracket
    rw [boundBody_of_bracket isBracket, boundBody_of_bracket (sameBracket.trans isBracket)]
    exact first.trans (twin_sequence forms (alike.after first))
  | false =>
    rw [boundBody_of_no_bracket isBracket, boundBody_of_no_bracket (sameBracket.trans isBracket)]
    exact twin_recover forms alike .noBindings

theorem twin_branches (forms : TwinForms L form) (alike : Alike L p q) :
    Twin L p q (branches form p) (branches form q) := by
  obtain ⟨first, counted⟩ := twin_expectForm forms alike .noTrueBranch
  rw [branches_eq, branches_eq]
  generalize (expectForm form .noTrueBranch p).1 = c at counted
  generalize (expectForm form .noTrueBranch q).1 = d at counted
  cases counted with
  | none => exact first
  | some _ => exact first.trans (forms.twinForm (alike.after first)).1

theorem twin_boundBranches (forms : TwinForms L form) (alike : Alike L p q) :
    Twin L p q (boundBranches form p) (boundBranches form q) := by
  have sameBracket : q.isAt .leftBracket = p.isAt .leftBracket := alike.isAt rfl
  cases isBracket : p.isAt .leftBracket with
  | true =>
    have first := twin_bindingVector forms true alike isBracket
    rw [boundBranches_of_bracket isBracket, boundBranches_of_bracket (sameBracket.trans isBracket)]
    exact first.trans (twin_branches forms (alike.after first))
  | false =>
    rw [boundBranches_of_no_bracket isBracket, boundBranches_of_no_bracket (sameBracket.trans isBracket)]
    exact twin_recover forms alike .noBindings

/-! ## Lookups, imports and definitions -/

theorem twin_expectSymbol (forms : TwinForms L form) (alike : Alike L p q)
    (missing : StructuralProblem) :
    Twin L p q (expectSymbol form missing p) (expectSymbol form missing q) := by
  rw [expectSymbol, expectSymbol, alike.atSymbol]
  split
  · rename_i isSymbol
    exact (twin_symbol alike isSymbol).twin
  · exact twin_recover forms alike missing

theorem twin_lookupBody (forms : TwinForms L form) (alike : Alike L p q) :
    Twin L p q (lookupBody form p) (lookupBody form q) := by
  rw [lookupBody, lookupBody, alike.isAt rfl, alike.atSymbol,
    alike.nth_congr 1 Kind.isSymbolToken ⟨rfl, rfl⟩]
  split
  · rename_i isAddress
    have isLiteral := isLiteralToken_of_isAt_address isAddress
    have account := (twin_literal alike isLiteral).twin
    exact account.trans (twin_expectSymbol forms (alike.after account) .noLookupName)
  · split
    · rename_i isSymbol
      split
      · have account := (twin_symbol alike isSymbol).twin
        exact account.trans (twin_expectSymbol forms (alike.after account) .noLookupName)
      · exact twin_expectSymbol forms alike .noLookupName
    · exact twin_recover forms alike .nothingToLookUp

theorem twin_importBody (forms : TwinForms L form) (alike : Alike L p q) :
    Twin L p q (importBody form p) (importBody form q) := by
  rw [importBody, importBody, alike.atSymbol]
  split
  · rename_i isSymbol
    have library := (twin_symbol alike isSymbol).twin
    have alike' := alike.after library
    have text : (symbol q).2.current.text = (symbol p).2.current.text := alike'.text 0
    dsimp only
    rw [alike'.isAt rfl, text]
    split
    · rename_i hasAlias
      simp only [Bool.and_eq_true] at hasAlias
      obtain ⟨t, ts, rest, -⟩ := alike'.ready.exists_isAt hasAlias.1 (by decide)
      have mark := twin_advanceAs alike' rest (L.kinds_refl .asMark)
      exact library.trans (mark.trans (twin_expectSymbol forms (alike'.after mark) .noAlias))
    · exact library
  · exact twin_recover forms alike .noLibrary

theorem twin_definition {body : Parser → Parser} (forms : TwinForms L form) (alike : Alike L p q)
    (missing : StructuralProblem) (inside : ∀ p q, Alike L p q → Twin L p q (body p) (body q)) :
    Twin L p q (definition form missing body p) (definition form missing body q) := by
  rw [definition, definition, alike.atSymbol]
  split
  · rename_i isSymbol
    have name := (twin_symbol alike isSymbol).twin
    have before := name.trans (twin_optionalMetadata forms (alike.after name))
    exact before.trans (inside _ _ (alike.after before))
  · exact twin_recover forms alike missing

/-! ## Conditions -/

theorem twin_clauses (forms : TwinForms L form) (turns count : Nat) (alike : Alike L p q) :
    Twin L p q (clauses form turns count p) (clauses form turns count q) := by
  induction turns generalizing p q count with
  | zero => exact Twin.refl p q
  | succ turns inductionHypothesis =>
    have test := (forms.twinForm alike.begun).1
    have alike' := alike.begun.after test
    rw [clauses, clauses, alike.atSequenceEnd]
    split
    · exact Twin.refl p q
    · change Twin L p q (if (form p.begun).2.atSequenceEnd = true then _ else _)
        (if (form q.begun).2.atSequenceEnd = true then _ else _)
      rw [alike'.atSequenceEnd]
      split
      · refine (twin_complete ?_ test).twin
        split <;> rfl
      · have result := (forms.twinForm alike').1
        have made : TwinNode L p q ((form (form p.begun).2).2.complete p.start.1 .condClause)
            ((form (form q.begun).2).2.complete q.start.1 .condClause) :=
          twin_complete rfl (test.trans result)
        exact made.twin.trans (inductionHypothesis (count + 1) (alike.after made.twin))

/-! ## Heads -/

theorem twin_specialBody (forms : TwinForms L form) (alike : Alike L p q) (head : Kind) :
    Twin L p q (specialBody form head p) (specialBody form head q) := by
  cases head
  case lookupHead => exact twin_lookupBody forms alike
  case importHead => exact twin_importBody forms alike
  case defHead => exact twin_definition forms alike _ fun _ _ alike => (twin_expectForm forms alike _).1
  case defnHead => exact twin_definition forms alike _ fun _ _ alike => twin_arities forms alike
  case defmacroHead => exact twin_definition forms alike _ fun _ _ alike => twin_singleArity forms alike
  case fnHead | macroHead => exact twin_singleArity forms alike
  case condHead =>
    rw [specialBody, specialBody, alike.length]
    exact twin_clauses forms _ 0 alike
  case letHead | loopHead => exact twin_boundBody forms false alike
  case ifLetHead => exact twin_boundBranches forms alike
  case whenLetHead | dotimesHead => exact twin_boundBody forms true alike
  all_goals exact (twin_expectForm forms alike _).1

theorem twin_noMoreForms (forms : TwinForms L form) (alike : Alike L p q) (name : String) :
    Twin L p q (noMoreForms form name p) (noMoreForms form name q) := by
  rw [noMoreForms, noMoreForms, alike.atSequenceEnd]
  split
  · exact Twin.refl p q
  · exact twin_recover forms alike _

/-- The head of a list is a name or the account of a lookup, on both sides alike. -/
theorem headAhead?_eq (alike : Alike L p q) : headAhead? q = headAhead? p := by
  have slash := alike.nth_congr 2 (· == .slash) ⟨rfl, rfl⟩
  rw [headAhead?, headAhead?, alike.nth_congr 1 Kind.isSymbolToken ⟨rfl, rfl⟩, slash, alike.text 1]
  cases isSlash : p.nth 2 == .slash with
  | false => rfl
  | true =>
    have isSlash : p.nth 2 = .slash := by simpa using isSlash
    have below : 2 < p.rest.length := by
      by_contra beyond
      have atEnd : p.nth 2 = .eof := by
        rw [nth, Parser.token, List.getElem?_eq_none (Nat.le_of_not_lt beyond)]
        exact alike.ready.last_eof
      rw [isSlash] at atEnd
      contradiction
    rw [alike.joined_eq below (.inr isSlash)]

theorem twin_specialForm (forms : TwinForms L form) (alike : Alike L p q)
    (isParen : p.isAt .leftParen = true) {head : Kind} (ahead : headAhead? p = some head) :
    TwinNode L p q (specialForm form head p) (specialForm form head q) := by
  obtain ⟨t, ts, rest, kindEq⟩ := alike.ready.exists_isAt isParen (by decide)
  have opens : t.kind.closer? = some .rightParen := by rw [kindEq]; rfl
  have member : head ∈ Kind.heads := by
    rw [headAhead?] at ahead
    split at ahead
    · exact List.mem_of_find?_eq_some ahead
    · contradiction
  have opened := alike.begun.openSequence rest opens (spellingOf head)
  have isSymbol : (p.begun.openSequence (spellingOf head)).atSymbol = true := by
    rw [headAhead?] at ahead
    split at ahead
    · rename_i isSymbol
      rw [Bool.and_eq_true] at isSymbol
      have next : (p.begun.openSequence (spellingOf head)).token 0 = p.token 1 := by
        rw [openSequence_eq (p := p.begun) rest opens]
        exact token_advanceAs (p := p.begun) rest t.kind 0
      rw [atSymbol, kind, current, next]
      exact isSymbol.1
    · contradiction
  obtain ⟨u, us, after, -⟩ := opened.ready.exists_symbol isSymbol
  have headTaken := twin_advanceAs opened after (L.kinds_refl head)
  have body := twin_specialBody forms (opened.after headTaken) head
  have before := headTaken.trans body
  have inside := before.trans (twin_noMoreForms forms (opened.after before) (spellingOf head))
  exact twin_complete (isLabel_specialNode member).1 (twin_between alike.begun rest opens inside)

theorem twin_parenthesized (forms : TwinForms L form) (alike : Alike L p q)
    (isParen : p.isAt .leftParen = true) :
    TwinNode L p q (parenthesized form p) (parenthesized form q) := by
  rw [parenthesized, parenthesized, require_eq isParen, require_eq (by rw [alike.isAt rfl, isParen]),
    headAhead?_eq alike]
  cases ahead : headAhead? p with
  | none =>
    obtain ⟨t, ts, rest, kindEq⟩ := alike.ready.exists_isAt isParen (by decide)
    exact twin_delimited forms "list" alike rest (by rw [kindEq]; rfl) rfl
  | some head => exact twin_specialForm forms alike isParen ahead

end Grammar

end LispSyntax
