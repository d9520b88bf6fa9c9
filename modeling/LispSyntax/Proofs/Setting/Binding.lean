import LispSyntax.Proofs.Setting.Sequence

/-! # Parameters, arities and bindings in their settings

The vectors in which names are introduced, carried from one setting to another. They are all read inside a
special form, so there is a token to look at until its closing one is taken.
-/

namespace LispSyntax

namespace Setting

open LispSyntax.Parser Grammar

variable {a b : Setting} {form form' : FormRule} {x y : Parser} {t : Token} {ts : List Token} {kind closer : Kind}

theorem isAt_around_iff (rest : x.rest = t :: ts) (s : Setting) :
    (s.around x).isAt kind = true ↔ t.kind = kind := by
  rw [isAt_around rest, beq_iff_eq]

/-! ## Parameters -/

theorem rest_leafNode {p : Parser} (rest : p.rest = t :: ts) (kind : Kind) :
    (p.node kind Parser.advance).2.rest = ts := by
  rw [Parser.node, rest_complete]
  exact rest_advanceAs (p := p.begun) rest _

theorem grows_leafNode {p : Parser} (ready : p.Ready) (rest : p.rest = t :: ts)
    (isSymbol : t.kind.isSymbolToken = true) (isParameter : kind = .fixedParam ∨ kind = .optionalParam) :
    ∃ ds, Runs p ds (p.node kind Parser.advance).2 := by
  have atSymbol : p.atSymbol = true := by rw [Parser.atSymbol, kind_of_rest rest, isSymbol]
  exact grows_of_reads (reads_parameter ready atSymbol isParameter)

theorem grows_trans {p q r : Parser} (first : ∃ ds, Runs p ds q) (second : ∃ ds, Runs q ds r) :
    ∃ ds, Runs p ds r := by
  obtain ⟨ds, runs⟩ := first
  obtain ⟨es, runs'⟩ := second
  exact ⟨ds ++ es, runs.trans runs'⟩

theorem ready_of_grows {p q : Parser} (grows : ∃ ds, Runs p ds q) (ready : p.Ready) : q.Ready := by
  obtain ⟨ds, runs⟩ := grows
  exact runs.ready ready

theorem grows_parametersLoop {p : Parser} (forms : ReadsForms form) (turns : Nat) (seen : Parameters)
    (ready : p.Ready) : ∃ ds, Runs p ds (parametersLoop form turns seen p).2 := by
  induction turns generalizing p seen with
  | zero => exact ⟨[], .refl p⟩
  | succ turns inductionHypothesis =>
    have more : ∀ seen q, (∃ ds, Runs p ds q) → ∃ ds, Runs p ds (parametersLoop form turns seen q).2 :=
      fun seen q first => grows_trans first (inductionHypothesis seen (ready_of_grows first ready))
    rw [parametersLoop]
    split
    · exact ⟨[], .refl p⟩
    split
    · exact grows_of_reads (reads_recover forms ready _)
    rename_i isSymbol
    obtain ⟨t, ts, rest, isSymbol⟩ := ready.exists_symbol (by simpa using isSymbol)
    split
    · split
      · exact grows_of_reads (reads_recover forms ready _)
      · exact more _ _ ⟨_, runs_advanceAs rest _⟩
    split
    · exact more _ _ (grows_leafNode ready rest isSymbol (.inr rfl))
    · exact more _ _ (grows_leafNode ready rest isSymbol (.inl rfl))

theorem carriesResult_parametersLoop (forms : CarriesForms a b form form') (turns turns' : Nat)
    (seen : Parameters) (fits : a.Fits x) (inside : x.frames ≠ []) (enough : x.rest.length ≤ turns)
    (enough' : x.rest.length ≤ turns') :
    CarriesResult a b x (parametersLoop form turns seen (a.around x))
      (parametersLoop form' turns' seen (b.around x)) := by
  induction turns generalizing x turns' seen with
  | zero => exact absurd (fits.turns_pos inside enough) (Nat.lt_irrefl 0)
  | succ turns inductionHypothesis =>
    obtain ⟨t, ts, rest⟩ := fits.exists_rest inside
    cases turns' with
    | zero => exact absurd (fits.turns_pos inside enough') (Nat.lt_irrefl 0)
    | succ turns' =>
      -- Each turn that goes on takes one token, whatever it makes of it.
      have more : ∀ seen p p', Carries a b x p p' → (∃ ds, Runs (a.around x) ds p) →
          p.rest = ts ++ a.after →
          CarriesResult a b x (parametersLoop form turns seen p) (parametersLoop form' turns' seen p') := by
        intro seen p p' first grows restEq
        refine first.andThenResult (parametersLoop form turns seen) (parametersLoop form' turns' seen)
          (grows_parametersLoop forms.reads turns seen (ready_of_grows grows fits.ready)) ?_
        intro y fits' frames next
        have shorter : y.rest = ts := by
          rw [next] at restEq
          exact List.append_cancel_right restEq
        rw [rest, List.length_cons] at enough enough'
        exact inductionHypothesis turns' seen fits' (frames ▸ inside) (by rw [shorter]; omega)
          (by rw [shorter]; omega)
      simp only [parametersLoop, fits.atSequenceEnd_eq rest, atSymbol_around rest, current_around rest]
      cases noCloser : t.kind.isCloser with
      | true => exact (Carries.stay fits b).result seen
      | false =>
        cases isSymbol : t.kind.isSymbolToken with
        | false => exact (carries_recover forms fits .noParameterName _).result _
        | true =>
          have plain := plain_of_isSymbolToken isSymbol
          have parameter : ∀ kind, kind = .fixedParam ∨ kind = .optionalParam → ∀ seen,
              CarriesResult a b x (parametersLoop form turns seen ((a.around x).node kind Parser.advance).2)
                (parametersLoop form' turns' seen ((b.around x).node kind Parser.advance).2) :=
            fun kind isParameter seen => more seen _ _ (carriesResult_leafNode fits rest plain kind).carries
              (grows_leafNode fits.ready (rest_around rest) isSymbol isParameter)
              (rest_leafNode (rest_around rest) kind)
          simp only [Bool.not_true, Bool.false_eq_true, if_false]
          split
          · split
            · exact (carries_recover forms fits .secondAmp _).result _
            · exact more _ _ _ (carries_advanceAs fits rest plain.1 plain.2 .amp)
                ⟨_, runs_advanceAs (rest_around rest) .amp⟩ (rest_advanceAs (rest_around rest) .amp)
          · split
            · exact parameter .optionalParam (.inr rfl) _
            · exact parameter .fixedParam (.inl rfl) _

theorem carries_checkAmp (seen : Parameters) (fits : a.Fits x) :
    Carries a b x (checkAmp seen (a.around x)) (checkAmp seen (b.around x)) := by
  unfold checkAmp
  split
  · split
    · exact Carries.stay fits b
    · exact .of_noisy (Reads.reportAt (a.around x) _ _) fun _ noisy => noisy.1 trivial
  · exact Carries.stay fits b

theorem grows_checkAmp (seen : Parameters) (p : Parser) : ∃ ds, Runs p ds (checkAmp seen p) := by
  unfold checkAmp
  split
  · split
    · exact ⟨_, .refl p⟩
    · exact ⟨_, runs_reportAt ..⟩
  · exact ⟨_, .refl p⟩

theorem carries_parameterList (forms : CarriesForms a b form form') (fits : a.Fits x) (inside : x.frames ≠ []) :
    Carries a b x (parameterList form (a.around x)) (parameterList form' (b.around x)) :=
  (carriesResult_parametersLoop forms _ _ ⟨none, false, false⟩ fits inside (length_le_around a x)
    (length_le_around b x)).andCarries checkAmp checkAmp (grows_checkAmp _ _) fun seen _ fits' _ _ =>
      carries_checkAmp seen fits'

theorem carries_parameters (forms : CarriesForms a b form form') (fits : a.Fits x) (rest : x.rest = t :: ts)
    (isBracket : t.kind = .leftBracket) :
    Carries a b x (parameters form (a.around x)) (parameters form' (b.around x)) :=
  (carriesResult_enclosed "parameters" .paramList (parameterList form) (parameterList form') fits rest
    (by rw [isBracket]; rfl) (fun q ready _ => grows_of_reads (reads_parameterList forms.reads q.rest.length ready))
    fun _ fits' inside _ => carries_parameterList forms fits' inside).carries

/-! ## Arities -/

theorem carries_arityEnd (forms : CarriesForms a b form form') (fits : a.Fits x) (inside : x.frames ≠ [])
    (body : Option Completed) :
    Carries a b x (arityEnd form body (a.around x)) (arityEnd form' body (b.around x)) := by
  cases body with
  | none => exact Carries.stay fits b
  | some _ =>
    obtain ⟨t, ts, rest⟩ := fits.exists_rest inside
    simp only [arityEnd, fits.atSequenceEnd_eq rest]
    split
    · exact Carries.stay fits b
    · exact carries_recover forms fits .extraBody _

theorem carries_arityParts (forms : CarriesForms a b form form') (fits : a.Fits x) (inside : x.frames ≠ [])
    (rest : x.rest = t :: ts) (isBracket : t.kind = .leftBracket) :
    Carries a b x (arityParts form (a.around x)) (arityParts form' (b.around x)) := by
  have ready := (reads_parameters forms.reads fits.ready
    ((isAt_around_iff rest a).mpr isBracket)).ready fits.ready
  have bodyReads := reads_expectForm forms.reads ready .noBody
  have body := (carries_parameters forms fits rest isBracket).andThenResult (expectForm form .noBody)
    (expectForm form' .noBody) (grows_of_reads bodyReads) fun y fits' frames _ => by
      obtain ⟨u, us, rest'⟩ := fits'.exists_rest (frames ▸ inside)
      exact carriesResult_expectForm forms fits' rest' .noBody
  rw [arityParts_eq, arityParts_eq]
  exact body.andCarries (arityEnd form) (arityEnd form')
    (grows_of_reads (reads_arityEnd forms.reads (bodyReads.ready ready) _))
    fun v y fits' frames _ => carries_arityEnd forms fits' (frames ▸ inside) v

theorem carries_bareArity (forms : CarriesForms a b form form') (fits : a.Fits x) (inside : x.frames ≠ [])
    (rest : x.rest = t :: ts) (isBracket : t.kind = .leftBracket) :
    Carries a b x (bareArity form (a.around x)) (bareArity form' (b.around x)) :=
  (carriesResult_node rest .arity (carries_arityParts forms fits.begun inside rest isBracket)).carries

theorem carries_arityInside (forms : CarriesForms a b form form') (fits : a.Fits x) (inside : x.frames ≠ []) :
    Carries a b x (arityInside form (a.around x)) (arityInside form' (b.around x)) := by
  obtain ⟨t, ts, rest⟩ := fits.exists_rest inside
  simp only [arityInside, isAt_around_iff rest]
  split
  · rename_i isBracket
    exact carries_arityParts forms fits inside rest isBracket
  · exact carries_recover forms fits .noParameters _

theorem carries_groupedArity (forms : CarriesForms a b form form') (fits : a.Fits x) (rest : x.rest = t :: ts)
    (isParen : t.kind = .leftParen) :
    Carries a b x (groupedArity form (a.around x)) (groupedArity form' (b.around x)) :=
  (carriesResult_enclosed "arity" .arity (arityInside form) (arityInside form') fits rest (by rw [isParen]; rfl)
    (fun _ ready _ => grows_of_reads (reads_arityInside forms.reads ready))
    fun _ fits' inside _ => carries_arityInside forms fits' inside).carries

theorem carries_groupedArities (forms : CarriesForms a b form form') (turns turns' : Nat) (fits : a.Fits x)
    (inside : x.frames ≠ []) (enough : x.rest.length ≤ turns) (enough' : x.rest.length ≤ turns') :
    Carries a b x (groupedArities form turns (a.around x)) (groupedArities form' turns' (b.around x)) := by
  induction turns generalizing x turns' with
  | zero => exact absurd (fits.turns_pos inside enough) (Nat.lt_irrefl 0)
  | succ turns inductionHypothesis =>
    obtain ⟨t, ts, rest⟩ := fits.exists_rest inside
    cases turns' with
    | zero => exact absurd (fits.turns_pos inside enough') (Nat.lt_irrefl 0)
    | succ turns' =>
      simp only [groupedArities, isAt_around_iff rest]
      split
      · rename_i isParen
        have reads := reads_groupedArity forms.reads fits.ready ((isAt_around_iff rest a).mpr isParen)
        refine (carries_groupedArity forms fits rest isParen).andThen (groupedArities form turns)
          (groupedArities form' turns')
          (grows_of_reads (reads_groupedArities forms.reads turns (reads.ready fits.ready))) ?_
        intro y fits' frames next
        have shorter := length_lt_of_around (next ▸ rest_lt_of_reads reads)
        exact inductionHypothesis turns' fits' (frames ▸ inside) (by omega) (by omega)
      · exact Carries.stay fits b

theorem carries_singleArity (forms : CarriesForms a b form form') (fits : a.Fits x) (inside : x.frames ≠ []) :
    Carries a b x (singleArity form (a.around x)) (singleArity form' (b.around x)) := by
  obtain ⟨t, ts, rest⟩ := fits.exists_rest inside
  simp only [singleArity, isAt_around_iff rest]
  split
  · rename_i isBracket
    exact carries_bareArity forms fits inside rest isBracket
  · exact carries_recover forms fits .noParameters _

theorem carries_arities (forms : CarriesForms a b form form') (fits : a.Fits x) (inside : x.frames ≠ []) :
    Carries a b x (arities form (a.around x)) (arities form' (b.around x)) := by
  obtain ⟨t, ts, rest⟩ := fits.exists_rest inside
  simp only [arities, isAt_around_iff rest]
  split
  · rename_i isBracket
    exact carries_bareArity forms fits inside rest isBracket
  · split
    · exact carries_groupedArities forms _ _ fits inside (length_le_around a x) (length_le_around b x)
    · exact carries_recover forms fits .noArities _

/-! ## Bindings -/

theorem carries_binding (forms : CarriesForms a b form form') (fits : a.Fits x) (inside : x.frames ≠ [])
    (rest : x.rest = t :: ts) (isSymbol : t.kind.isSymbolToken = true) :
    Carries a b x (binding form (a.around x)) (binding form' (b.around x)) := by
  have name := (reads_symbol (rest_around (s := a) (x := x.begun) rest) isSymbol).reads
  refine (carriesResult_node rest .binding ?_).carries
  refine (carriesResult_symbol fits.begun rest isSymbol).carries.andThen
    (fun p => (expectForm form .noBindingValue p).2) (fun p => (expectForm form' .noBindingValue p).2)
    (grows_of_reads (reads_expectForm forms.reads (name.ready fits.begun.ready) _)) ?_
  intro y fits' frames _
  obtain ⟨u, us, rest'⟩ := fits'.exists_rest (frames ▸ inside)
  exact (carriesResult_expectForm forms fits' rest' .noBindingValue).carries

theorem carriesResult_bindingsLoop (forms : CarriesForms a b form form') (single : Bool) (turns turns' : Nat)
    (seen : Bindings) (fits : a.Fits x) (inside : x.frames ≠ []) (enough : x.rest.length ≤ turns)
    (enough' : x.rest.length ≤ turns') :
    CarriesResult a b x (bindingsLoop form single turns seen (a.around x))
      (bindingsLoop form' single turns' seen (b.around x)) := by
  induction turns generalizing x turns' seen with
  | zero => exact absurd (fits.turns_pos inside enough) (Nat.lt_irrefl 0)
  | succ turns inductionHypothesis =>
    obtain ⟨t, ts, rest⟩ := fits.exists_rest inside
    cases turns' with
    | zero => exact absurd (fits.turns_pos inside enough') (Nat.lt_irrefl 0)
    | succ turns' =>
      simp only [bindingsLoop, fits.atSequenceEnd_eq rest, atSymbol_around rest]
      split
      · exact (Carries.stay fits b).result seen
      split
      · exact (carries_recover forms fits .extraBinding _).result _
      cases isSymbol : t.kind.isSymbolToken with
      | false => exact (carries_recover forms fits .noBindingName _).result _
      | true =>
        have atSymbol : (a.around x).atSymbol = true := by rw [atSymbol_around rest, isSymbol]
        have reads := reads_binding forms.reads fits.ready atSymbol
        refine (carries_binding forms fits inside rest isSymbol).andThenResult
          (bindingsLoop form single turns _) (bindingsLoop form' single turns' _)
          (grows_of_reads (reads_bindingsLoop forms.reads single turns _ (reads.ready fits.ready))) ?_
        intro y fits' frames next
        have shorter := length_lt_of_around (next ▸ rest_lt_of_reads reads)
        exact inductionHypothesis turns' _ fits' (frames ▸ inside) (by omega) (by omega)

theorem carries_ifReport (report : Bool) (problem : StructuralProblem) (fits : a.Fits x) :
    Carries a b x (if report then (a.around x).report problem else a.around x)
      (if report then (b.around x).report problem else b.around x) := by
  cases report with
  | true => exact .of_noisy (Reads.report (a.around x) problem) fun _ noisy => noisy.1 trivial
  | false => exact Carries.stay fits b

theorem grows_ifReport (report : Bool) (problem : StructuralProblem) (p : Parser) :
    ∃ ds, Runs p ds (if report then p.report problem else p) := by
  cases report with
  | true => exact ⟨_, runs_report ..⟩
  | false => exact ⟨_, .refl p⟩

theorem carries_bindingList (forms : CarriesForms a b form form') (single : Bool) (fits : a.Fits x)
    (inside : x.frames ≠ []) :
    Carries a b x (bindingList form single (a.around x)) (bindingList form' single (b.around x)) :=
  (carriesResult_bindingsLoop forms single _ _ ⟨0, false⟩ fits inside (length_le_around a x)
    (length_le_around b x)).andCarries
      (fun seen p => if single && seen.count == 0 && !seen.recovered then p.report .noBinding else p)
      (fun seen p => if single && seen.count == 0 && !seen.recovered then p.report .noBinding else p)
      (grows_ifReport _ .noBinding _) fun _ _ fits' _ _ => carries_ifReport _ .noBinding fits'

theorem carries_bindingVector (forms : CarriesForms a b form form') (single : Bool) (fits : a.Fits x)
    (rest : x.rest = t :: ts) (isBracket : t.kind = .leftBracket) :
    Carries a b x (bindingVector form single (a.around x)) (bindingVector form' single (b.around x)) :=
  (carriesResult_enclosed "bindings" .bindings (bindingList form single) (bindingList form' single) fits rest
    (by rw [isBracket]; rfl) (fun _ ready _ => grows_of_reads (reads_bindingList forms.reads single ready))
    fun _ fits' inside _ => carries_bindingList forms single fits' inside).carries

theorem carriesResult_bindings (forms : CarriesForms a b form form') (single : Bool) (fits : a.Fits x)
    (inside : x.frames ≠ []) :
    CarriesResult a b x (bindings form single (a.around x)) (bindings form' single (b.around x)) := by
  obtain ⟨t, ts, rest⟩ := fits.exists_rest inside
  by_cases isBracket : t.kind = .leftBracket
  · have bracket : ∀ s : Setting, (s.around x).isAt .leftBracket = true :=
      fun s => (isAt_around_iff rest s).mpr isBracket
    rw [bindings_of_bracket (bracket a), bindings_of_bracket (bracket b)]
    exact (carries_bindingVector forms single fits rest isBracket).result true
  · have noBracket : ∀ s : Setting, (s.around x).isAt .leftBracket = false := fun s => by
      rw [isAt_around rest, beq_eq_false_iff_ne]
      exact isBracket
    rw [bindings_of_no_bracket (noBracket a), bindings_of_no_bracket (noBracket b)]
    exact (carries_recover forms fits .noBindings _).result false

theorem grows_bindings {p : Parser} (forms : ReadsForms form) (single : Bool) (ready : p.Ready) :
    ∃ ds, Runs p ds (bindings form single p).2 := by
  cases isBracket : p.isAt .leftBracket with
  | true =>
    rw [bindings_of_bracket isBracket]
    exact grows_of_reads (reads_bindingVector forms single ready isBracket)
  | false =>
    rw [bindings_of_no_bracket isBracket]
    exact grows_of_reads (reads_recover forms ready .noBindings)

theorem carries_bound (forms : CarriesForms a b form form') (single : Bool) (body body' : Parser → Parser)
    (fits : a.Fits x) (inside : x.frames ≠ [])
    (grows : ∀ q : Parser, q.Ready → ∃ ds, Runs q ds (body q))
    (bodies : ∀ y, a.Fits y → y.frames ≠ [] → Carries a b y (body (a.around y)) (body' (b.around y))) :
    Carries a b x
      (afterBindings body (bindings form single (a.around x)).1 (bindings form single (a.around x)).2)
      (afterBindings body' (bindings form' single (b.around x)).1 (bindings form' single (b.around x)).2) := by
  have ready := ready_of_grows (grows_bindings forms.reads single fits.ready) fits.ready
  refine (carriesResult_bindings forms single fits inside).andCarries (afterBindings body) (afterBindings body') ?_ ?_
  · cases (bindings form single (a.around x)).1 with
    | true => exact grows _ ready
    | false => exact ⟨[], .refl _⟩
  · intro found y fits' frames _
    cases found with
    | true => exact bodies y fits' (frames ▸ inside)
    | false => exact Carries.stay fits' b

theorem carries_boundBody (forms : CarriesForms a b form form') (single : Bool) (fits : a.Fits x)
    (inside : x.frames ≠ []) :
    Carries a b x (boundBody form single (a.around x)) (boundBody form' single (b.around x)) := by
  rw [boundBody_eq, boundBody_eq]
  exact carries_bound forms single (sequence form) (sequence form') fits inside
    (fun q ready => grows_of_reads (reads_sequence forms.reads ready))
    (fun y fits' inside' => carries_sequence forms fits' inside')

theorem carries_branches (forms : CarriesForms a b form form') (fits : a.Fits x) (inside : x.frames ≠ []) :
    Carries a b x (branches form (a.around x)) (branches form' (b.around x)) := by
  obtain ⟨t, ts, rest⟩ := fits.exists_rest inside
  have reads := reads_expectForm forms.reads fits.ready .noTrueBranch
  rw [branches_eq, branches_eq]
  refine (carriesResult_expectForm forms fits rest .noTrueBranch).andCarries (formAfter form) (formAfter form')
    (grows_of_reads (reads_formAfter forms.reads (reads.ready fits.ready) _)) ?_
  intro v y fits' frames _
  cases v with
  | none => exact Carries.stay fits' b
  | some _ =>
    obtain ⟨u, us, rest'⟩ := fits'.exists_rest (frames ▸ inside)
    exact (forms.carriesResult fits' rest').carries

theorem carries_boundBranches (forms : CarriesForms a b form form') (fits : a.Fits x) (inside : x.frames ≠ []) :
    Carries a b x (boundBranches form (a.around x)) (boundBranches form' (b.around x)) := by
  rw [boundBranches_eq, boundBranches_eq]
  exact carries_bound forms true (branches form) (branches form') fits inside
    (fun _ ready => grows_of_reads (reads_branches forms.reads ready))
    (fun _ fits' inside' => carries_branches forms fits' inside')

end Setting

end LispSyntax
