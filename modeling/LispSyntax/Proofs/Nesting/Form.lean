import LispSyntax.Proofs.Alternatives
import LispSyntax.Proofs.Nesting

/-! # The budget does not show

What special forms read from the rule for a form they read from any rule that is the same up to the limit, and so the
rule with a budget and the rule with one level more read the same as long as the first budget is enough
(`sameUpTo_form`).

Parameters, lookups and imports read no forms but where they give up, so there it is enough that nothing is reported.
-/

namespace LispSyntax

namespace Grammar

open LispSyntax.Parser Setting

variable {limit : Nat} {form form' : FormRule} {p : Parser} {t : Token} {ts : List Token}

/-! ## Parameters and arities -/

theorem parametersLoop_congr (forms : ReadsForms form) (turns : Nat) (seen : Parameters) (ready : p.Ready)
    (quiet : Quiet p (parametersLoop form turns seen p).2) :
    parametersLoop form' turns seen p = parametersLoop form turns seen p := by
  induction turns generalizing p seen with
  | zero => rfl
  | succ turns inductionHypothesis =>
    have more : ∀ seen q, (∃ ds, Runs p ds q) → Quiet p (parametersLoop form turns seen q).2 →
        parametersLoop form' turns seen q = parametersLoop form turns seen q := by
      intro seen q first quiet
      have ready' := ready_of_grows first ready
      obtain ⟨ds, before⟩ := first
      obtain ⟨es, after⟩ := grows_parametersLoop forms turns seen ready'
      exact inductionHypothesis seen ready' (before.quiet_right after quiet)
    simp only [parametersLoop] at quiet ⊢
    split
    · rfl
    rename_i going
    rw [if_neg going] at quiet
    split
    · rename_i noSymbol
      rw [if_pos noSymbol] at quiet
      exact absurd quiet (not_quiet_recover forms ready _)
    rename_i isSymbol
    rw [if_neg isSymbol] at quiet
    obtain ⟨t, ts, rest, isSymbol⟩ := ready.exists_symbol (by simpa using isSymbol)
    split
    · rename_i isAmp
      rw [if_pos isAmp] at quiet
      split
      · rename_i second
        rw [if_pos second] at quiet
        exact absurd quiet (not_quiet_recover forms ready _)
      · rename_i first
        rw [if_neg first] at quiet
        exact more _ _ ⟨_, runs_advanceAs rest _⟩ quiet
    rename_i noAmp
    rw [if_neg noAmp] at quiet
    split
    · rename_i behind
      rw [if_pos behind] at quiet
      exact more _ _ (grows_leafNode ready rest isSymbol (.inr rfl)) quiet
    · rename_i before
      rw [if_neg before] at quiet
      exact more _ _ (grows_leafNode ready rest isSymbol (.inl rfl)) quiet

theorem parameterList_congr (forms : ReadsForms form) (ready : p.Ready)
    (quiet : Quiet p (parameterList form p)) : parameterList form' p = parameterList form p := by
  obtain ⟨ds, loop⟩ := grows_parametersLoop forms p.rest.length ⟨none, false, false⟩ ready
  obtain ⟨es, check⟩ := grows_checkAmp (parametersLoop form p.rest.length ⟨none, false, false⟩ p).1
    (parametersLoop form p.rest.length ⟨none, false, false⟩ p).2
  simp only [parameterList, parametersLoop_congr forms _ _ ready (loop.quiet_left check quiet)]

theorem parameters_congr (forms : ReadsForms form) (ready : p.Ready) (isBracket : p.isAt .leftBracket = true)
    (shallow : Shallow limit p (parameters form p)) : parameters form' p = parameters form p := by
  obtain ⟨t, ts, rest, kindEq⟩ := ready.exists_isAt isBracket (by decide)
  exact congrArg Prod.snd (enclosed_congr "parameters" (parameterList form) (parameterList form') ready rest
    (by rw [kindEq]; rfl) rfl (fun _ => id)
    (fun q ready => grows_of_reads (reads_parameterList forms q.rest.length ready))
    (fun _ ready shallow => parameterList_congr forms ready shallow.quiet) shallow)

theorem arityEnd_congr (forms : ReadsForms form) (ready : p.Ready) (body : Option Completed)
    (quiet : Quiet p (arityEnd form body p)) : arityEnd form' body p = arityEnd form body p := by
  cases body with
  | none => rfl
  | some _ =>
    simp only [arityEnd] at quiet ⊢
    split
    · rfl
    · rename_i more
      rw [if_neg more] at quiet
      exact absurd quiet (not_quiet_recover forms ready _)

theorem arityParts_congr (rules : SameUpTo limit form form') (ready : p.Ready)
    (isBracket : p.isAt .leftBracket = true) (shallow : Shallow limit p (arityParts form p)) :
    arityParts form' p = arityParts form p := by
  have vector := reads_parameters rules.reads ready isBracket
  have readyBody := vector.ready ready
  have body := reads_expectForm rules.reads readyBody .noBody
  have readyEnd := body.ready readyBody
  have ending := grows_of_reads (reads_arityEnd rules.reads readyEnd (expectForm form .noBody (parameters form p)).1)
  rw [arityParts_eq] at shallow ⊢
  have first := grows_of_reads vector
  have second := grows_of_reads body
  have inner := shallow.left (grows_trans first second) ending
  rw [arityParts_eq, parameters_congr rules.reads ready isBracket (inner.left first second),
    expectForm_congr rules _ readyBody (inner.right first second)]
  exact arityEnd_congr rules.reads readyEnd _ (shallow.right (grows_trans first second) ending).quiet

theorem bareArity_congr (rules : SameUpTo limit form form') (ready : p.Ready)
    (isBracket : p.isAt .leftBracket = true) (shallow : Shallow limit p (bareArity form p)) :
    bareArity form' p = bareArity form p := by
  have inner : Shallow limit p.begun (arityParts form p.begun) := Shallow.node shallow rfl fun _ below => below
  exact congrArg Prod.snd (node_congr (arityParts_congr rules ready.begun isBracket inner))

theorem arityInside_congr (rules : SameUpTo limit form form') (ready : p.Ready)
    (shallow : Shallow limit p (arityInside form p)) : arityInside form' p = arityInside form p := by
  simp only [arityInside] at shallow ⊢
  split
  · rename_i isBracket
    rw [if_pos isBracket] at shallow
    exact arityParts_congr rules ready isBracket shallow
  · rename_i noBracket
    rw [if_neg noBracket] at shallow
    exact absurd shallow.quiet (not_quiet_recover rules.reads ready _)

theorem groupedArity_congr (rules : SameUpTo limit form form') (ready : p.Ready)
    (isParen : p.isAt .leftParen = true) (shallow : Shallow limit p (groupedArity form p)) :
    groupedArity form' p = groupedArity form p := by
  obtain ⟨t, ts, rest, kindEq⟩ := ready.exists_isAt isParen (by decide)
  exact congrArg Prod.snd (enclosed_congr "arity" (arityInside form) (arityInside form') ready rest
    (by rw [kindEq]; rfl) rfl (fun _ => id) (fun _ ready => grows_of_reads (reads_arityInside rules.reads ready))
    (fun _ ready shallow => arityInside_congr rules ready shallow) shallow)

theorem groupedArities_congr (rules : SameUpTo limit form form') (turns : Nat) (ready : p.Ready)
    (shallow : Shallow limit p (groupedArities form turns p)) :
    groupedArities form' turns p = groupedArities form turns p := by
  induction turns generalizing p with
  | zero => rfl
  | succ turns inductionHypothesis =>
    simp only [groupedArities] at shallow ⊢
    split
    · rename_i isParen
      rw [if_pos isParen] at shallow
      have arity := reads_groupedArity rules.reads ready isParen
      have ready' := arity.ready ready
      have others := grows_of_reads (reads_groupedArities rules.reads turns ready')
      rw [groupedArity_congr rules ready isParen (shallow.left (grows_of_reads arity) others)]
      exact inductionHypothesis ready' (shallow.right (grows_of_reads arity) others)
    · rfl

theorem singleArity_congr (rules : SameUpTo limit form form') (ready : p.Ready)
    (shallow : Shallow limit p (singleArity form p)) : singleArity form' p = singleArity form p := by
  simp only [singleArity] at shallow ⊢
  split
  · rename_i isBracket
    rw [if_pos isBracket] at shallow
    exact bareArity_congr rules ready isBracket shallow
  · rename_i noBracket
    rw [if_neg noBracket] at shallow
    exact absurd shallow.quiet (not_quiet_recover rules.reads ready _)

theorem arities_congr (rules : SameUpTo limit form form') (ready : p.Ready)
    (shallow : Shallow limit p (arities form p)) : arities form' p = arities form p := by
  simp only [arities] at shallow ⊢
  split
  · rename_i isBracket
    rw [if_pos isBracket] at shallow
    exact bareArity_congr rules ready isBracket shallow
  rename_i noBracket
  rw [if_neg noBracket] at shallow
  split
  · rename_i isParen
    rw [if_pos isParen] at shallow
    exact groupedArities_congr rules _ ready shallow
  · rename_i noParen
    rw [if_neg noParen] at shallow
    exact absurd shallow.quiet (not_quiet_recover rules.reads ready _)

/-! ## Bindings -/

theorem binding_congr (rules : SameUpTo limit form form') (ready : p.Ready) (isSymbol : p.atSymbol = true)
    (shallow : Shallow limit p (binding form p)) : binding form' p = binding form p := by
  have name := reads_name ready.begun isSymbol
  have ready' := name.ready ready.begun
  have value := grows_of_reads (reads_expectForm rules.reads ready' .noBindingValue)
  rw [binding] at shallow
  have inner : Shallow limit p.begun (expectForm form .noBindingValue (symbol p.begun).2).2 :=
    shallow.node rfl fun _ below => below
  exact congrArg Prod.snd (node_congr (congrArg Prod.snd
    (expectForm_congr rules _ ready' (inner.right (grows_of_reads name) value))))

theorem bindingsLoop_congr (rules : SameUpTo limit form form') (single : Bool) (turns : Nat) (seen : Bindings)
    (ready : p.Ready) (shallow : Shallow limit p (bindingsLoop form single turns seen p).2) :
    bindingsLoop form' single turns seen p = bindingsLoop form single turns seen p := by
  induction turns generalizing p seen with
  | zero => rfl
  | succ turns inductionHypothesis =>
    simp only [bindingsLoop] at shallow ⊢
    split
    · rfl
    rename_i going
    rw [if_neg going] at shallow
    split
    · rename_i extra
      rw [if_pos extra] at shallow
      exact absurd shallow.quiet (not_quiet_recover rules.reads ready _)
    rename_i allowed
    rw [if_neg allowed] at shallow
    split
    · rename_i noSymbol
      rw [if_pos noSymbol] at shallow
      exact absurd shallow.quiet (not_quiet_recover rules.reads ready _)
    rename_i isSymbol
    rw [if_neg isSymbol] at shallow
    have isSymbol : p.atSymbol = true := by simpa using isSymbol
    have first := reads_binding rules.reads ready isSymbol
    have ready' := first.ready ready
    have others := grows_of_reads
      (reads_bindingsLoop rules.reads single turns { seen with count := seen.count + 1 } ready')
    rw [binding_congr rules ready isSymbol (shallow.left (grows_of_reads first) others)]
    exact inductionHypothesis _ ready' (shallow.right (grows_of_reads first) others)

theorem bindingList_congr (rules : SameUpTo limit form form') (single : Bool) (ready : p.Ready)
    (shallow : Shallow limit p (bindingList form single p)) :
    bindingList form' single p = bindingList form single p := by
  have loop := grows_of_reads (reads_bindingsLoop rules.reads single p.rest.length ⟨0, false⟩ ready)
  have inner := shallow.left loop (grows_ifReport _ .noBinding _)
  simp only [bindingList, bindingsLoop_congr rules single _ _ ready inner]

theorem bindings_congr (rules : SameUpTo limit form form') (single : Bool) (ready : p.Ready)
    (shallow : Shallow limit p (bindings form single p).2) : bindings form' single p = bindings form single p := by
  cases isBracket : p.isAt .leftBracket with
  | true =>
    obtain ⟨t, ts, rest, kindEq⟩ := ready.exists_isAt isBracket (by decide)
    rw [bindings_of_bracket isBracket] at shallow ⊢
    rw [bindings_of_bracket isBracket]
    exact congrArg (fun r : Completed × Parser => (true, r.2)) (enclosed_congr "bindings" (bindingList form single)
      (bindingList form' single) ready rest (by rw [kindEq]; rfl) rfl (fun _ => id)
      (fun _ ready => grows_of_reads (reads_bindingList rules.reads single ready))
      (fun _ ready shallow => bindingList_congr rules single ready shallow) shallow)
  | false =>
    rw [bindings_of_no_bracket isBracket] at shallow
    exact absurd shallow.quiet (not_quiet_recover rules.reads ready _)

theorem afterBindings_congr (rules : SameUpTo limit form form') (single : Bool) (body body' : Parser → Parser)
    (ready : p.Ready) (grows : ∀ q : Parser, q.Ready → ∃ ds, Runs q ds (body q))
    (same : ∀ q : Parser, q.Ready → Shallow limit q (body q) → body' q = body q)
    (shallow : Shallow limit p (afterBindings body (bindings form single p).1 (bindings form single p).2)) :
    afterBindings body' (bindings form' single p).1 (bindings form' single p).2 =
      afterBindings body (bindings form single p).1 (bindings form single p).2 := by
  have vector := grows_bindings rules.reads single ready
  have ready' := ready_of_grows vector ready
  cases found : (bindings form single p).1 with
  | true =>
    rw [found] at shallow
    have others := grows _ ready'
    rw [bindings_congr rules single ready (shallow.left vector others), found]
    exact same _ ready' (shallow.right vector others)
  | false =>
    rw [found] at shallow
    rw [bindings_congr rules single ready shallow, found]
    rfl

theorem boundBody_congr (rules : SameUpTo limit form form') (single : Bool) (ready : p.Ready)
    (shallow : Shallow limit p (boundBody form single p)) : boundBody form' single p = boundBody form single p := by
  rw [boundBody_eq] at shallow ⊢
  rw [boundBody_eq]
  exact afterBindings_congr rules single (sequence form) (sequence form') ready
    (fun _ ready => grows_of_reads (reads_sequence rules.reads ready))
    (fun _ ready shallow => sequence_congr rules ready shallow) shallow

theorem branches_congr (rules : SameUpTo limit form form') (ready : p.Ready)
    (shallow : Shallow limit p (branches form p)) : branches form' p = branches form p := by
  have first := reads_expectForm rules.reads ready .noTrueBranch
  have ready' := first.ready ready
  have second := grows_of_reads (reads_formAfter rules.reads ready' (expectForm form .noTrueBranch p).1)
  rw [branches_eq] at shallow ⊢
  rw [branches_eq, expectForm_congr rules _ ready (shallow.left (grows_of_reads first) second)]
  replace shallow := shallow.right (grows_of_reads first) second
  cases found : (expectForm form .noTrueBranch p).1 with
  | none => rfl
  | some _ =>
    rw [found] at shallow
    exact congrArg Prod.snd (rules.anywhere ready' shallow)

theorem boundBranches_congr (rules : SameUpTo limit form form') (ready : p.Ready)
    (shallow : Shallow limit p (boundBranches form p)) : boundBranches form' p = boundBranches form p := by
  rw [boundBranches_eq] at shallow ⊢
  rw [boundBranches_eq]
  exact afterBindings_congr rules true (branches form) (branches form') ready
    (fun _ ready => grows_of_reads (reads_branches rules.reads ready))
    (fun _ ready shallow => branches_congr rules ready shallow) shallow

/-! ## Lookups, imports and definitions -/

theorem expectSymbol_congr (forms : ReadsForms form) (missing : StructuralProblem) (ready : p.Ready)
    (quiet : Quiet p (expectSymbol form missing p)) : expectSymbol form' missing p = expectSymbol form missing p := by
  simp only [expectSymbol] at quiet ⊢
  split
  · rfl
  · rename_i noSymbol
    rw [if_neg noSymbol] at quiet
    exact absurd quiet (not_quiet_recover forms ready _)

/-- A symbol that must be there, after something else. -/
theorem expectSymbol_congr_after {q : Parser} (forms : ReadsForms form) (missing : StructuralProblem) (ready : p.Ready)
    (first : ∃ ds, Runs p ds q) (quiet : Quiet p (expectSymbol form missing q)) :
    expectSymbol form' missing q = expectSymbol form missing q := by
  have ready' := ready_of_grows first ready
  obtain ⟨ds, before⟩ := first
  obtain ⟨es, after⟩ := grows_of_reads (reads_expectSymbol forms ready' missing)
  exact expectSymbol_congr forms missing ready' (before.quiet_right after quiet)

theorem lookupBody_congr (forms : ReadsForms form) (ready : p.Ready) (quiet : Quiet p (lookupBody form p)) :
    lookupBody form' p = lookupBody form p := by
  simp only [lookupBody] at quiet ⊢
  split
  · rename_i isAddress
    rw [if_pos isAddress] at quiet
    obtain ⟨t, ts, rest, kindEq⟩ := ready.exists_isAt isAddress (by decide)
    exact expectSymbol_congr_after forms _ ready
      (grows_of_reads (reads_literal rest (by rw [kindEq]; rfl)).reads) quiet
  rename_i noAddress
  rw [if_neg noAddress] at quiet
  split
  · rename_i isSymbol
    rw [if_pos isSymbol] at quiet
    split
    · rename_i second
      rw [if_pos second] at quiet
      exact expectSymbol_congr_after forms _ ready (grows_of_reads (reads_name ready isSymbol)) quiet
    · rename_i alone
      rw [if_neg alone] at quiet
      exact expectSymbol_congr forms _ ready quiet
  · rename_i noSymbol
    rw [if_neg noSymbol] at quiet
    exact absurd quiet (not_quiet_recover forms ready _)

theorem importBody_congr (forms : ReadsForms form) (ready : p.Ready) (quiet : Quiet p (importBody form p)) :
    importBody form' p = importBody form p := by
  simp only [importBody] at quiet ⊢
  split
  · rename_i isSymbol
    rw [if_pos isSymbol] at quiet
    have library := reads_name ready isSymbol
    split
    · rename_i isMark
      rw [if_pos isMark] at quiet
      obtain ⟨t, ts, rest, -⟩ := (library.ready ready).exists_isAt (Bool.and_eq_true_iff.mp isMark).1 (by decide)
      exact expectSymbol_congr_after forms _ ready
        (grows_trans (grows_of_reads library) ⟨_, runs_advanceAs rest .asMark⟩) quiet
    · rfl
  · rename_i noSymbol
    rw [if_neg noSymbol] at quiet
    exact absurd quiet (not_quiet_recover forms ready _)

theorem definition_congr (rules : SameUpTo limit form form') (missing : StructuralProblem)
    (body body' : Parser → Parser) (ready : p.Ready) (grows : ∀ q : Parser, q.Ready → ∃ ds, Runs q ds (body q))
    (same : ∀ q : Parser, q.Ready → Shallow limit q (body q) → body' q = body q)
    (shallow : Shallow limit p (definition form missing body p)) :
    definition form' missing body' p = definition form missing body p := by
  simp only [definition] at shallow ⊢
  split
  · rename_i isSymbol
    rw [if_pos isSymbol] at shallow
    have name := reads_name ready isSymbol
    have attached := reads_optionalMetadata rules.reads (name.ready ready)
    have ready' := attached.ready (name.ready ready)
    have named := grows_of_reads name
    have described := grows_of_reads attached
    have before := shallow.left (grows_trans named described) (grows _ ready')
    rw [metadata?_congr rules (name.ready ready) (before.right named described)]
    exact same _ ready' (shallow.right (grows_trans named described) (grows _ ready'))
  · rename_i noSymbol
    rw [if_neg noSymbol] at shallow
    exact absurd shallow.quiet (not_quiet_recover rules.reads ready _)

theorem definitionValue_congr (rules : SameUpTo limit form form') (ready : p.Ready)
    (shallow : Shallow limit p (definitionValue form p)) : definitionValue form' p = definitionValue form p :=
  congrArg Prod.snd (expectForm_congr rules _ ready shallow)

/-! ## Conditions -/

theorem clauses_congr (rules : SameUpTo limit form form') (turns count : Nat) (ready : p.Ready)
    (shallow : Shallow limit p (clauses form turns count p)) :
    clauses form' turns count p = clauses form turns count p := by
  induction turns generalizing p count with
  | zero => rfl
  | succ turns inductionHypothesis =>
    cases going : p.atSequenceEnd with
    | true => simp only [clauses, going, if_true]
    | false =>
      have test := rules.reads.reads p.begun ready.begun going
      have readyResult := test.ready ready.begun
      rw [clauses_of_going form turns count going, clauseEnd] at shallow
      rw [clauses_of_going form turns count going, clauses_of_going form' turns count going, clauseEnd, clauseEnd]
      cases ended : (form p.begun).2.atSequenceEnd with
      | true =>
        rw [ended, if_pos rfl] at shallow
        have enough : ∀ inside, (if count = 0 then Kind.condClause else .condFallback).levels inside ≤ limit →
            inside ≤ limit := by
          split <;> exact fun _ => id
        have label : (if count = 0 then Kind.condClause else .condFallback).isLabel = true := by
          split <;> rfl
        rw [rules.same p.begun ready.begun going (Shallow.inside shallow label enough), ended, if_pos rfl, if_pos rfl]
      | false =>
        rw [ended, if_neg Bool.false_ne_true] at shallow
        have result := rules.reads.reads _ readyResult ended
        have pair := grows_trans (grows_of_reads test) (grows_of_reads result)
        obtain ⟨ds, inside⟩ := pair
        have clause : ∃ ds, Runs p ds ((form (form p.begun).2).2.complete p.start.1 .condClause).2 :=
          ⟨_, (makes_complete rfl inside).runs⟩
        have ready' := ready_of_grows clause ready
        have others := grows_clauses rules.reads turns (count + 1) ready'
        have inner : Shallow limit p.begun (form (form p.begun).2).2 :=
          Shallow.inside (shallow.left clause others) rfl fun _ => id
        rw [rules.same p.begun ready.begun going (inner.left (grows_of_reads test) (grows_of_reads result)), ended,
          if_neg Bool.false_ne_true, if_neg Bool.false_ne_true,
          rules.same _ readyResult ended (inner.right (grows_of_reads test) (grows_of_reads result))]
        exact inductionHypothesis _ ready' (shallow.right clause others)

/-! ## Special forms -/

theorem specialBody_congr (rules : SameUpTo limit form form') {head : Kind} (isHead : head ∈ Kind.heads)
    (ready : p.Ready) (quiet : Quiet p (specialBody form head p))
    (shallow : (specialNode head).nests = true → Shallow limit p (specialBody form head p)) :
    specialBody form' head p = specialBody form head p := by
  cases head
  -- Only the forms of a definition, a condition and the like nest; lookups and imports hold none.
  case lookupHead => exact lookupBody_congr rules.reads ready quiet
  case importHead => exact importBody_congr rules.reads ready quiet
  case defHead =>
    exact definition_congr rules _ (definitionValue form) (definitionValue form') ready
      (fun _ ready => grows_of_reads (reads_expectForm rules.reads ready _))
      (fun _ ready shallow => definitionValue_congr rules ready shallow) (shallow rfl)
  case defnHead =>
    exact definition_congr rules _ (arities form) (arities form') ready
      (fun _ ready => grows_of_reads (reads_arities rules.reads ready))
      (fun _ ready shallow => arities_congr rules ready shallow) (shallow rfl)
  case defmacroHead =>
    exact definition_congr rules _ (singleArity form) (singleArity form') ready
      (fun _ ready => grows_of_reads (reads_singleArity rules.reads ready))
      (fun _ ready shallow => singleArity_congr rules ready shallow) (shallow rfl)
  case fnHead | macroHead => exact singleArity_congr rules ready (shallow rfl)
  case condHead => exact clauses_congr rules _ 0 ready (shallow rfl)
  case letHead | loopHead => exact boundBody_congr rules false ready (shallow rfl)
  case ifLetHead => exact boundBranches_congr rules ready (shallow rfl)
  case whenLetHead | dotimesHead => exact boundBody_congr rules true ready (shallow rfl)
  case quoteHead | quasiquoteHead | unquoteHead =>
    exact congrArg Prod.snd (expectForm_congr rules _ ready (shallow rfl))
  all_goals exact absurd isHead (by decide)

theorem noMoreForms_congr (forms : ReadsForms form) (name : String) (ready : p.Ready)
    (quiet : Quiet p (noMoreForms form name p)) : noMoreForms form' name p = noMoreForms form name p := by
  simp only [noMoreForms] at quiet ⊢
  split
  · rfl
  · rename_i more
    rw [if_neg more] at quiet
    exact absurd quiet (not_quiet_recover forms ready _)

theorem specialForm_congr {u : Token} {us : List Token} {head : Kind} (rules : SameUpTo limit form form')
    (ready : p.Ready) (rest : p.rest = t :: u :: us) (isParen : t.kind = .leftParen) (isHead : head ∈ Kind.heads)
    (shallow : Shallow (limit + 1) p (specialForm form head p).2) :
    specialForm form' head p = specialForm form head p := by
  rw [specialForm] at shallow
  let q := p.begun.openSequence (spellingOf head)
  have opens : t.kind.closer? = some .rightParen := by rw [isParen]; rfl
  have restQ : q.rest = u :: us := rest_openSequence (p := p.begun) rest opens _
  have taken := runs_advanceAs restQ head
  have readyBody := taken.ready (ready.begun.openSequence rest opens _)
  have body := reads_specialBody rules.reads readyBody isHead
  have readyEnd := body.ready readyBody
  have first : ∃ ds, Runs q ds (q.advanceAs head) := ⟨_, taken⟩
  have second := grows_of_reads body
  have third := grows_of_reads (reads_noMoreForms rules.reads readyEnd (spellingOf head))
  have rest' := grows_trans second third
  have quiet : Quiet q (noMoreForms form (spellingOf head) (specialBody form head (q.advanceAs head))) := by
    obtain ⟨ds, inside⟩ := grows_trans first rest'
    obtain ⟨-, -, -, quietInside⟩ := runs_between ready.begun rest opens inside
    have whole := shallow.quiet
    rw [Quiet, Parser.node, reports_complete] at whole
    exact quietInside whole
  have inner : (specialNode head).nests = true →
      Shallow limit q (noMoreForms form (spellingOf head) (specialBody form head (q.advanceAs head))) := by
    intro nests
    exact (shallow.node (isLabel_specialNode isHead).1 fun _ => Kind.le_of_nests nests).between ready.begun rest
      opens (grows_trans first rest')
  have quiet' : Quiet (q.advanceAs head) (specialBody form head (q.advanceAs head)) ∧
      Quiet (specialBody form head (q.advanceAs head))
        (noMoreForms form (spellingOf head) (specialBody form head (q.advanceAs head))) := by
    obtain ⟨_, runs⟩ := rest'
    obtain ⟨_, before⟩ := second
    obtain ⟨_, after⟩ := third
    have others := taken.quiet_right runs quiet
    exact ⟨before.quiet_left after others, before.quiet_right after others⟩
  rw [specialForm, specialForm]
  apply node_congr
  refine congrArg Parser.closeSequence ?_
  change noMoreForms form' _ (specialBody form' head (q.advanceAs head)) = _
  rw [specialBody_congr rules isHead readyBody quiet'.1
    fun nests => ((inner nests).right first rest').left second third]
  exact noMoreForms_congr rules.reads _ readyEnd quiet'.2

theorem parenthesized_congr (rules : SameUpTo limit form form') (ready : p.Ready) (rest : p.rest = t :: ts)
    (isParen : t.kind = .leftParen) (shallow : Shallow (limit + 1) p (parenthesized form p).2) :
    parenthesized form' p = parenthesized form p := by
  have met : p.isAt .leftParen = true := by simp [isAt, kind_of_rest rest, isParen]
  simp only [parenthesized, require_eq met] at shallow ⊢
  cases ahead : headAhead? p with
  | none =>
    rw [ahead] at shallow
    exact delimited_congr rules "list" ready rest (by rw [isParen]; rfl) rfl rfl shallow
  | some head =>
    rw [ahead] at shallow
    obtain ⟨u, us, rfl, -, isHead⟩ := exists_head ready rest ahead
    exact specialForm_congr rules ready rest isParen (List.mem_of_find?_eq_some isHead) shallow

/-! ## Forms -/

theorem formAt_congr (rules : SameUpTo limit form form') (ready : p.Ready) (going : p.atSequenceEnd = false)
    (shallow : Shallow (limit + 1) p (formAt form p).2) : formAt form' p = formAt form p := by
  obtain ⟨t, ts, rest⟩ := ready.exists_rest_of_going going
  obtain ⟨rule, alternative, formEq⟩ := formAt_cases going rest
  rw [formEq form p (kind_of_rest rest)] at shallow ⊢
  rw [formEq form' p (kind_of_rest rest)]
  cases alternative with
  | parenthesized isParen => exact congrArg counted (parenthesized_congr rules ready rest isParen shallow)
  | vector isBracket =>
    exact congrArg counted (delimited_congr rules "vector" ready rest (by rw [isBracket]; rfl) rfl rfl shallow)
  | map isBrace => exact congrArg counted (map_congr rules ready rest isBrace shallow)
  | set isHashBrace =>
    exact congrArg counted (delimited_congr rules "set" ready rest (by rw [isHashBrace]; rfl) rfl rfl shallow)
  | marked isMark => exact congrArg counted (markedForm_congr rules ready rest isMark shallow)
  | metadata isCaret =>
    -- Metadata out of place is reported in any case.
    rw [snd_counted] at shallow
    refine absurd shallow.quiet (not_quiet_of_noisy (readsNode_misplacedMetadata rules.reads ready
      (by simp [isAt, kind_of_rest rest, isCaret])).reads ?_)
    rintro _ ⟨_, _, _, _, reported⟩
    exact reported trivial
  | address | literal | symbol | slash | unknown | stray | bad => rfl

/-- The rule for a form does not see that its budget is a level smaller, as long as that is enough. -/
theorem sameUpTo_form (budget : Nat) : SameUpTo budget (Grammar.form (budget + 1)) (Grammar.form budget) := by
  induction budget with
  | zero =>
    refine ⟨readsForms_form 1, readsForms_form 0, fun p ready going shallow => ?_⟩
    obtain ⟨ds, runs, shape⟩ := (readsForms_form 1).reads p ready going
    obtain ⟨-, d, rfl, kind, os, rfl, isForm⟩ := shape True fun _ => shallow.quiet
    have none := shallow.levels _ runs
    have some := Kind.levels_pos isForm (Outline.levelsAll os)
    simp only [Outline.levelsAll_cons, Outline.levels_node, Outline.levelsAll_nil] at none
    omega
  | succ budget inductionHypothesis =>
    refine ⟨readsForms_form _, readsForms_form _, fun p ready going shallow => ?_⟩
    rw [form_of_going _ going] at shallow
    rw [form_of_going _ going, form_of_going _ going]
    exact formAt_congr inductionHypothesis ready going shallow

end Grammar

end LispSyntax
