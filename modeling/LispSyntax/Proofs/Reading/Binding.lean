import LispSyntax.Proofs.Reading.Collection
import LispSyntax.Proofs.Rules

/-! # What parameters, arities and binding vectors read

The productions of `Grammar.Binding` as runs. The loops over a vector carry flags for the checks that
come after them, so each loop is described together with its check.
-/

namespace LispSyntax

namespace Grammar

open LispSyntax.Parser Pattern Draft Outline

variable {form : FormRule} {p : Parser}

/-! ## Parameters -/

theorem reads_parameter {kind : Kind} (ready : p.Ready) (isSymbol : p.atSymbol = true)
    (isParameter : kind = .fixedParam ∨ kind = .optionalParam) :
    Reads p (p.node kind Parser.advance).2 fun _ => single (HasKind kind) := by
  obtain ⟨t, ts, rest, isSymbol⟩ := ready.exists_symbol isSymbol
  have taken : Reads p.begun p.begun.advance fun _ => tokenIn Kind.isSymbolToken :=
    (Reads.advance (p := p.begun) rest).imp fun _ _ => tokenIn_of_tokenOf isSymbol
  rcases isParameter with rfl | rfl
  · exact (ReadsNode.node rfl taken fun _ _ _ => id).reads_hasKind
  · exact (ReadsNode.node rfl taken fun _ _ _ => id).reads_hasKind

/-- After the first optional parameter, more of them. -/
theorem reads_moreOptionals (forms : ReadsForms form) (turns : Nat) (span : Span) (ready : p.Ready) :
    Reads p (checkAmp (parametersLoop form turns ⟨some span, true, false⟩ p).1
      (parametersLoop form turns ⟨some span, true, false⟩ p).2)
      fun quiet => (many (HasKind .optionalParam)).followedBy (.optional (Recovery.gaveUp quiet)) := by
  induction turns generalizing p with
  | zero => exact Reads.stay fun _ => followedBy_mk (many_nil _) (.inl rfl)
  | succ turns ih =>
    rw [parametersLoop]
    split
    · exact Reads.stay fun _ => followedBy_mk (many_nil _) (.inl rfl)
    · split
      · refine (reads_recover forms ready .noParameterName).imp fun _ _ rest => ?_
        exact followedBy_mk (many_nil _) (.inr rest)
      · rename_i isSymbol
        have isSymbol : p.atSymbol = true := by simpa using isSymbol
        split
        · refine (reads_recover forms ready .secondAmp).imp fun _ _ rest => ?_
          exact followedBy_mk (many_nil _) (.inr rest)
        · have first := reads_parameter ready isSymbol (.inr rfl)
          refine (first.followedBy (ih (first.ready ready))).imp ?_
          rintro quiet ds ⟨us, vs, rfl, one, ws, xs, rfl, more, rest⟩
          rw [← List.append_assoc]
          exact followedBy_mk (many_append (many_of_single one) more) rest

/-- After the `&` of a parameter list, optional parameters, or a report that there are none. -/
theorem reads_optionals (forms : ReadsForms form) (turns : Nat) (span : Span) (ready : p.Ready) :
    Reads p (checkAmp (parametersLoop form turns ⟨some span, false, false⟩ p).1
      (parametersLoop form turns ⟨some span, false, false⟩ p).2) Recovery.optionals := by
  have missing : Reads p (p.reportAt .nothingAfterAmp span) Recovery.optionals :=
    (Reads.reportAt p .nothingAfterAmp span).imp fun _ _ noisy => .inr ⟨noisy.1, .inl noisy.2⟩
  cases turns with
  | zero => exact missing
  | succ turns =>
    rw [parametersLoop]
    split
    · exact missing
    · split
      · exact (reads_recover forms ready .noParameterName).imp fun _ _ rest => .inr rest
      · rename_i isSymbol
        have isSymbol : p.atSymbol = true := by simpa using isSymbol
        split
        · exact (reads_recover forms ready .secondAmp).imp fun _ _ rest => .inr rest
        · have first := reads_parameter ready isSymbol (.inr rfl)
          have more := reads_moreOptionals forms turns span (first.ready ready)
          refine (first.followedBy more).imp ?_
          rintro quiet ds ⟨us, vs, rfl, one, ws, xs, rfl, more, rest⟩
          rw [← List.append_assoc]
          refine .inl (followedBy_mk ⟨?_, many_append (many_of_single one) more⟩ rest)
          intro empty
          exact single_ne_nil one (List.append_eq_nil_iff.mp empty).1

theorem reads_parameterList (forms : ReadsForms form) (turns : Nat) (ready : p.Ready) :
    Reads p (checkAmp (parametersLoop form turns ⟨none, false, false⟩ p).1
      (parametersLoop form turns ⟨none, false, false⟩ p).2) Recovery.parameters := by
  induction turns generalizing p with
  | zero => exact Reads.stay fun _ => followedBy_mk (many_nil _) (.inl (.inl rfl))
  | succ turns ih =>
    rw [parametersLoop]
    split
    · exact Reads.stay fun _ => followedBy_mk (many_nil _) (.inl (.inl rfl))
    · split
      · refine (reads_recover forms ready .noParameterName).imp fun _ _ rest => ?_
        exact followedBy_mk (many_nil _) (.inl (.inr rest))
      · rename_i isSymbol
        have isSymbol : p.atSymbol = true := by simpa using isSymbol
        split
        · rename_i isAmp
          obtain ⟨t, ts, rest, tSymbol⟩ := ready.exists_symbol isSymbol
          rw [current_of_rest rest] at isAmp
          have amp : Reads p (p.advanceAs .amp) fun _ =>
              taken .amp fun t => t.text = ['&'] ∧ t.kind.isSymbolToken = true :=
            Reads.advanceAs rest .amp ⟨isAmp, tSymbol⟩
          have more := reads_optionals forms turns p.current.span (amp.ready ready)
          refine (amp.followedBy more).imp fun _ ds good => ?_
          exact followedBy_mk (many_nil _) (.inr good)
        · have first := reads_parameter ready isSymbol (.inl rfl)
          refine (first.followedBy (ih (first.ready ready))).imp ?_
          rintro quiet ds ⟨us, vs, rfl, one, ws, xs, rfl, more, rest⟩
          rw [← List.append_assoc]
          exact followedBy_mk (many_append (many_of_single one) more) rest

theorem reads_parameters (forms : ReadsForms form) (ready : p.Ready)
    (isBracket : p.isAt .leftBracket = true) :
    Reads p (parameters form p) fun _ => single (HasKind .paramList) := by
  obtain ⟨t, ts, rest, kindEq⟩ := ready.exists_isAt isBracket (by decide)
  have made := reads_enclosed "parameters" .paramList (parameterList form) ready rest (by rw [kindEq]; rfl) rfl
    (fun q ready => reads_parameterList forms q.rest.length ready)
    (by rw [kindEq]; exact fun _ _ _ => id)
  exact made.reads_hasKind

/-! ## Arities -/

theorem reads_arityEnd (forms : ReadsForms form) (ready : p.Ready) (body : Option Completed) :
    Reads p (arityEnd form body p) fun quiet => .optional (Recovery.gaveUp quiet) := by
  cases body with
  | none => exact Reads.stay fun _ => .inl rfl
  | some _ =>
    rw [arityEnd]
    split
    · exact Reads.stay fun _ => .inl rfl
    · exact (reads_recover forms ready .extraBody).imp fun _ _ rest => .inr rest

theorem reads_arityParts (forms : ReadsForms form) (ready : p.Ready)
    (isBracket : p.isAt .leftBracket = true) :
    Reads p (arityParts form p) Recovery.arityParts := by
  have first := reads_parameters forms ready isBracket
  have second := reads_expectForm forms (first.ready ready) .noBody
  have third := reads_arityEnd forms (second.ready (first.ready ready)) (expectForm form .noBody (parameters form p)).1
  rw [arityParts_eq]
  exact first.followedBy (second.followedBy third)

theorem reads_arityInside (forms : ReadsForms form) (ready : p.Ready) :
    Reads p (arityInside form p) fun quiet => (Recovery.arityParts quiet).orElse (Recovery.gaveUp quiet) := by
  rw [arityInside]
  split
  · rename_i isBracket
    exact (reads_arityParts forms ready isBracket).imp fun _ _ parts => .inl parts
  · exact (reads_recover forms ready .noParameters).imp fun _ _ rest => .inr rest

theorem reads_bareArity (forms : ReadsForms form) (ready : p.Ready)
    (isBracket : p.isAt .leftBracket = true) :
    Reads p (bareArity form p) Recovery.bareArity := by
  have parts := reads_arityParts forms ready.begun isBracket
  have made : ReadsNode p .arity (p.node .arity (arityParts form)) Recovery.arityParts :=
    ReadsNode.node rfl parts fun _ _ _ good => .inl good
  exact made.reads

theorem reads_groupedArity (forms : ReadsForms form) (ready : p.Ready)
    (isParen : p.isAt .leftParen = true) :
    Reads p (groupedArity form p) fun quiet => single (Recovery.IsGroupedArity quiet) := by
  obtain ⟨t, ts, rest, kindEq⟩ := ready.exists_isAt isParen (by decide)
  have made := reads_enclosed "arity" .arity (arityInside form) ready rest (by rw [kindEq]; rfl) rfl
    (fun q ready => reads_arityInside forms ready)
    (by rw [kindEq]; exact fun _ _ _ good => .inr good)
  rw [kindEq] at made
  exact made.reads

theorem reads_groupedArities (forms : ReadsForms form) (turns : Nat) (ready : p.Ready) :
    Reads p (groupedArities form turns p) fun quiet ds =>
      many (Recovery.IsGroupedArity quiet) ds ∧
        (turns ≠ 0 → p.isAt .leftParen = true → ds ≠ []) := by
  induction turns generalizing p with
  | zero => exact Reads.stay fun _ => ⟨many_nil _, fun someTurns => absurd rfl someTurns⟩
  | succ turns ih =>
    rw [groupedArities]
    split
    · rename_i isParen
      have first := reads_groupedArity forms ready isParen
      refine (first.followedBy (ih (first.ready ready))).imp ?_
      rintro quiet ds ⟨us, vs, rfl, one, more, -⟩
      refine ⟨many_append (many_of_single one) more, fun _ _ empty => ?_⟩
      exact single_ne_nil one (List.append_eq_nil_iff.mp empty).1
    · rename_i noParen
      exact Reads.stay fun _ => ⟨many_nil _, fun _ isParen => absurd isParen noParen⟩

theorem reads_singleArity (forms : ReadsForms form) (ready : p.Ready) :
    Reads p (singleArity form p) Recovery.singleArity := by
  rw [singleArity]
  split
  · rename_i isBracket
    exact (reads_bareArity forms ready isBracket).imp fun _ _ arity => .inl arity
  · exact (reads_recover forms ready .noParameters).imp fun _ _ rest => .inr rest

theorem reads_arities (forms : ReadsForms form) (ready : p.Ready) :
    Reads p (arities form p) Recovery.arities := by
  rw [arities]
  split
  · rename_i isBracket
    exact (reads_bareArity forms ready isBracket).imp fun _ _ arity => .inl arity
  · split
    · rename_i isParen
      obtain ⟨t, ts, rest, -⟩ := ready.exists_isAt isParen (by decide)
      refine (reads_groupedArities forms p.rest.length ready).imp ?_
      rintro quiet ds ⟨good, nonempty⟩
      exact .inr (.inl ⟨nonempty (by simp [rest]) isParen, good⟩)
    · exact (reads_recover forms ready .noArities).imp fun _ _ rest => .inr (.inr rest)

/-! ## Binding vectors -/

theorem reads_binding (forms : ReadsForms form) (ready : p.Ready) (isSymbol : p.atSymbol = true) :
    Reads p (binding form p) fun _ => single (HasKind .binding) := by
  have first := reads_name ready.begun isSymbol
  have second := reads_expectForm forms (first.ready ready.begun) .noBindingValue
  have made : ReadsNode p .binding
      (p.node .binding fun p => (expectForm form .noBindingValue (symbol p).2).2) _ :=
    ReadsNode.node rfl (first.followedBy second) fun _ _ _ => id
  exact made.reads_hasKind

/-- Where one binding is allowed, no more are counted. -/
theorem bindingsLoop_count_le (form : FormRule) (turns : Nat) (seen : Bindings) (p : Parser)
    (atMostOne : seen.count ≤ 1) : (bindingsLoop form true turns seen p).1.count ≤ 1 := by
  induction turns generalizing seen p with
  | zero => exact atMostOne
  | succ turns ih =>
    rw [bindingsLoop]
    split
    · exact atMostOne
    · split
      · exact atMostOne
      · rename_i notOne
        split
        · exact atMostOne
        · apply ih
          have different : seen.count ≠ 1 := by simpa using notOne
          simp only
          omega

theorem reads_bindingsLoop (forms : ReadsForms form) (single : Bool) (turns : Nat) (seen : Bindings)
    (ready : p.Ready) :
    Reads p (bindingsLoop form single turns seen p).2 fun quiet ds =>
      (many (HasKind .binding)).followedBy (.optional (Recovery.gaveUp quiet)) ds ∧
        (quiet → (bindingsLoop form single turns seen p).1 =
          { seen with count := seen.count + ds.length }) := by
  induction turns generalizing p seen with
  | zero => exact Reads.stay fun _ => ⟨followedBy_mk (many_nil _) (.inl rfl), fun _ => rfl⟩
  | succ turns ih =>
    rw [bindingsLoop]
    split
    · exact Reads.stay fun _ => ⟨followedBy_mk (many_nil _) (.inl rfl), fun _ => rfl⟩
    · split
      · refine (reads_recover forms ready .extraBinding).imp fun _ _ rest => ?_
        exact ⟨followedBy_mk (many_nil _) (.inr rest), fun h => absurd h rest.1⟩
      · split
        · refine (reads_recover forms ready .noBindingName).imp fun _ _ rest => ?_
          exact ⟨followedBy_mk (many_nil _) (.inr rest), fun h => absurd h rest.1⟩
        · rename_i isSymbol
          have isSymbol : p.atSymbol = true := by simpa using isSymbol
          have first := reads_binding forms ready isSymbol
          refine (first.followedBy (ih _ (first.ready ready))).imp ?_
          rintro quiet ds ⟨us, vs, rfl, one, ⟨ws, xs, rfl, more, rest⟩, count⟩
          rw [← List.append_assoc]
          refine ⟨followedBy_mk (many_append (many_of_single one) more) rest, fun h => ?_⟩
          obtain ⟨d, rfl, -⟩ := one
          rw [count h]
          simp
          omega

/-- The check that a single binding is there reports only if there is none. -/
theorem reads_bindingList (forms : ReadsForms form) (single : Bool) (ready : p.Ready) :
    Reads p (bindingList form single p) fun quiet => Recovery.bindingList quiet single := by
  have loop := reads_bindingsLoop forms single p.rest.length ⟨0, false⟩ ready
  rw [bindingList]
  split
  · rename_i missing
    have reported := Reads.report (bindingsLoop form single p.rest.length ⟨0, false⟩ p).2 .noBinding
    refine (loop.followedBy reported).imp ?_
    rintro quiet ds ⟨us, vs, rfl, ⟨good, -⟩, noisy, rfl⟩
    rw [List.append_nil]
    exact ⟨good, fun h => absurd h noisy⟩
  · rename_i present
    refine loop.imp ?_
    rintro quiet ds ⟨good, found⟩
    refine ⟨good, ?_⟩
    rintro h rfl
    have atMostOne := bindingsLoop_count_le form p.rest.length ⟨0, false⟩ p (by decide)
    rw [found h] at present atMostOne
    simp at present atMostOne
    have := List.length_pos_iff.mpr present
    omega

theorem reads_bindingVector (forms : ReadsForms form) (single : Bool) (ready : p.Ready)
    (isBracket : p.isAt .leftBracket = true) :
    Reads p (bindingVector form single p) fun quiet =>
      .node .bindings (Recovery.bindingParts quiet single) := by
  obtain ⟨t, ts, rest, kindEq⟩ := ready.exists_isAt isBracket (by decide)
  have made := reads_enclosed "bindings" .bindings (bindingList form single) ready rest (by rw [kindEq]; rfl) rfl
    (fun q ready => reads_bindingList forms single ready) (by
      rw [kindEq]
      -- The table does not ask for the number of bindings; the form around the vector does.
      refine fun _ _ _ => followedBy_imp (fun _ => id) fun _ => followedBy_imp ?_ fun _ => id
      exact fun _ list => ⟨list.1, fun _ several => absurd several Bool.false_ne_true⟩)
  rw [kindEq] at made
  exact made.reads

theorem reads_boundBody (forms : ReadsForms form) (single : Bool) (ready : p.Ready) :
    Reads p (boundBody form single p) fun quiet =>
      Recovery.bound quiet single (many IsForm) := by
  cases isBracket : p.isAt .leftBracket with
  | true =>
    have first := reads_bindingVector forms single ready isBracket
    have second := reads_sequence forms (first.ready ready)
    rw [boundBody_of_bracket isBracket]
    exact (first.followedBy second).imp fun _ _ good => .inl good
  | false =>
    rw [boundBody_of_no_bracket isBracket]
    exact (reads_recover forms ready .noBindings).imp fun _ _ rest => .inr rest

theorem reads_optionalForm (forms : ReadsForms form) (ready : p.Ready) :
    Reads p (form p).2 fun _ => .optional (single IsForm) := by
  cases going : p.atSequenceEnd with
  | true =>
    rw [forms.atEnd p going]
    exact Reads.stay fun _ => .inl rfl
  | false => exact (forms.reads p ready going).imp fun _ _ one => .inr one

theorem reads_formAfter (forms : ReadsForms form) (ready : p.Ready) (before : Option Completed) :
    Reads p (formAfter form before p) fun _ => .optional (single IsForm) := by
  cases before with
  | none => exact Reads.stay fun _ => .inl rfl
  | some _ => exact reads_optionalForm forms ready

theorem reads_branches (forms : ReadsForms form) (ready : p.Ready) :
    Reads p (branches form p) fun quiet => (Recovery.expected quiet).followedBy (.optional (single IsForm)) := by
  have first := reads_expectForm forms ready .noTrueBranch
  rw [branches_eq]
  exact first.followedBy (reads_formAfter forms (first.ready ready) _)

theorem reads_boundBranches (forms : ReadsForms form) (ready : p.Ready) :
    Reads p (boundBranches form p) fun quiet =>
      Recovery.bound quiet true ((Recovery.expected quiet).followedBy (.optional (single IsForm))) := by
  cases isBracket : p.isAt .leftBracket with
  | true =>
    have first := reads_bindingVector forms true ready isBracket
    have second := reads_branches forms (first.ready ready)
    rw [boundBranches_of_bracket isBracket]
    exact (first.followedBy second).imp fun _ _ good => .inl good
  | false =>
    rw [boundBranches_of_no_bracket isBracket]
    exact (reads_recover forms ready .noBindings).imp fun _ _ rest => .inr rest

end Grammar

end LispSyntax
