import LispSyntax.Proofs.Reading.Form
import LispSyntax.Proofs.Rules

/-! # Relations that follow the rules

The rules of special forms take tokens, ask the rule for a form, give up on what is left of a sequence, and make nodes
around all that. A relation between states of the parser that composes, and that holds of each of these, holds of the
rules. `Composes` says what is needed, and the rest of the module goes through the rules once, for all such relations.
The relation comes with a number, how many nodes a rule may put around the forms inside it; that is at most three before
the node of the special form itself (`composes_specialInside`). A relation may ask that no node is empty.
-/

namespace LispSyntax

namespace Grammar

open LispSyntax.Parser

/-- A relation between states that composes and holds of the steps of which rules are made, for a rule for a form. A
node needs one more level than what is inside it. Forms have nodes of their own, and are the business of the
relation. -/
structure Composes (rule : FormRule) (R : Nat → Parser → Parser → Prop) : Prop where
  reads : ReadsForms rule
  le : ∀ {n p q}, R n p q → q.rest.length ≤ p.rest.length
  ready : ∀ {n p q}, R n p q → p.Ready → q.Ready
  mono : ∀ {m n p q}, R m p q → m ≤ n → R n p q
  stay : ∀ n p, R n p p
  trans : ∀ {n p q r}, R n p q → R n q r → R n p r
  advanceAs : ∀ {n p t ts}, p.rest = t :: ts → ∀ kind, R n p (p.advanceAs kind)
  reportAt : ∀ {n} p problem span, R n p (p.reportAt problem span)
  complete : ∀ {n p q kind}, kind.isLabel = true → Shape.form.accepts kind = false → R n p.begun q →
    q.rest.length < p.rest.length → R (n + 1) p (q.complete p.start.1 kind).2
  between : ∀ {n p q t ts closer name}, p.Ready → p.rest = t :: ts → t.kind.closer? = some closer →
    R n (p.openSequence name) q → R n p q.closeSequence
  literal : ∀ {p}, p.Ready → p.kind.isLiteralToken = true → R 0 p (literal p).2
  symbol : ∀ {p}, p.Ready → p.atSymbol = true → R 0 p (symbol p).2
  form : ∀ {p}, p.Ready → R 0 p (rule p).2
  sequence : ∀ {p}, p.Ready → R 0 p (sequence rule p)
  recover : ∀ {p}, p.Ready → ∀ problem, R 1 p (recover rule problem p)
  optionalMetadata : ∀ {p}, p.Ready → R 2 p (metadata? rule p)

variable {form : FormRule} {R : Nat → Parser → Parser → Prop} {n : Nat} {p q : Parser} {t u : Token} {ts : List Token}
  {kind closer : Kind}

theorem Composes.report (composes : Composes form R) (p : Parser) (problem : StructuralProblem) :
    R n p (p.report problem) :=
  composes.reportAt p problem _

theorem Composes.node {body : Parser → Parser} (composes : Composes form R) (label : kind.isLabel = true)
    (noForm : Shape.form.accepts kind = false) (inside : R n p.begun (body p.begun))
    (fewer : (body p.begun).rest.length < p.rest.length) : R (n + 1) p (p.node kind body).2 :=
  composes.complete label noForm inside fewer

/-- A node around a delimited sequence, whatever is read inside it. -/
theorem Composes.enclosed (composes : Composes form R) (name : String) (body : Parser → Parser) (ready : p.Ready)
    (rest : p.rest = t :: ts) (opens : t.kind.closer? = some closer) (label : kind.isLabel = true)
    (noForm : Shape.form.accepts kind = false) (inside : ∀ q : Parser, q.Ready → R n q (body q)) :
    R (n + 1) p (p.node kind fun p => (body (p.openSequence name)).closeSequence).2 := by
  have read := inside _ (ready.begun.openSequence rest opens name)
  have fewer := length_rest_enclosed_lt (p := p.begun) rest opens (composes.le read)
  exact composes.node label noForm (composes.between ready.begun rest opens read) fewer

theorem composes_expectForm (composes : Composes form R) (ready : p.Ready) (missing : StructuralProblem) :
    R 0 p (expectForm form missing p).2 := by
  rw [expectForm]
  split
  · exact composes.report p missing
  · exact composes.form ready

/-! ## Parameters -/

theorem composes_parameter (composes : Composes form R) (rest : p.rest = t :: ts) (label : kind.isLabel = true)
    (noForm : Shape.form.accepts kind = false) : R 1 p (p.node kind Parser.advance).2 :=
  composes.node label noForm (composes.advanceAs (p := p.begun) rest _)
    (length_rest_advanceAs_lt (p := p.begun) rest p.kind)

theorem composes_parametersLoop (composes : Composes form R) (turns : Nat) (seen : Parameters) (ready : p.Ready) :
    R 1 p (parametersLoop form turns seen p).2 := by
  induction turns generalizing p seen with
  | zero => exact composes.stay 1 p
  | succ turns inductionHypothesis =>
    rw [parametersLoop]
    split
    · exact composes.stay 1 p
    split
    · exact composes.recover ready _
    rename_i isSymbol
    obtain ⟨t, ts, rest, -⟩ := ready.exists_symbol (by simpa using isSymbol)
    -- Every other turn takes the name at the front, in a node of its own or not.
    have more (seen : Parameters) {q : Parser} (first : R 1 p q) :
        R 1 p (parametersLoop form turns seen q).2 :=
      composes.trans first (inductionHypothesis seen (composes.ready first ready))
    split
    · split
      · exact composes.recover ready _
      · exact more _ (composes.advanceAs rest .amp)
    split
    · exact more _ (composes_parameter composes rest rfl rfl)
    · exact more _ (composes_parameter composes rest rfl rfl)

theorem composes_checkAmp (composes : Composes form R) (seen : Parameters) (p : Parser) : R n p (checkAmp seen p) := by
  rw [checkAmp]
  split
  · split
    · exact composes.stay n p
    · exact composes.reportAt ..
  · exact composes.stay n p

theorem composes_parameters (composes : Composes form R) (ready : p.Ready) (isBracket : p.isAt .leftBracket = true) :
    R 2 p (parameters form p) := by
  obtain ⟨t, ts, rest, kindEq⟩ := ready.exists_isAt isBracket (by decide)
  rw [parameters_eq]
  refine composes.enclosed "parameters" (parameterList form) ready rest (by rw [kindEq]; rfl) rfl rfl fun q ready => ?_
  exact composes.trans (composes_parametersLoop composes _ _ ready) (composes_checkAmp composes ..)

/-! ## Arities -/

theorem composes_arityEnd (composes : Composes form R) (ready : p.Ready) (body : Option Completed) :
    R 1 p (arityEnd form body p) := by
  cases body with
  | none => exact composes.stay 1 p
  | some _ =>
    rw [arityEnd]
    split
    · exact composes.stay 1 p
    · exact composes.recover ready _

theorem composes_arityParts (composes : Composes form R) (ready : p.Ready) (isBracket : p.isAt .leftBracket = true) :
    R 2 p (arityParts form p) := by
  have first := composes_parameters composes ready isBracket
  have second := composes.mono (composes_expectForm composes (composes.ready first ready) .noBody) (Nat.zero_le 2)
  have both := composes.trans first second
  rw [arityParts_eq]
  exact composes.trans both (composes.mono (composes_arityEnd composes (composes.ready both ready) _) (Nat.le_succ 1))

theorem composes_bareArity (composes : Composes form R) (ready : p.Ready) (isBracket : p.isAt .leftBracket = true) :
    R 3 p (bareArity form p) := by
  have made : ReadsNode p .arity (p.node .arity (arityParts form)) Recovery.arityParts :=
    .node rfl (reads_arityParts composes.reads ready.begun isBracket) fun _ _ _ good => .inl good
  have fewer := rest_lt_of_reads made.reads_hasKind
  rw [rest_node] at fewer
  exact composes.node rfl rfl (composes_arityParts composes ready.begun isBracket) fewer

theorem composes_groupedArity (composes : Composes form R) (ready : p.Ready) (isParen : p.isAt .leftParen = true) :
    R 3 p (groupedArity form p) := by
  obtain ⟨t, ts, rest, kindEq⟩ := ready.exists_isAt isParen (by decide)
  rw [groupedArity_eq]
  refine composes.enclosed "arity" (arityInside form) ready rest (by rw [kindEq]; rfl) rfl rfl fun q ready => ?_
  rw [arityInside]
  split
  · rename_i isBracket
    exact composes_arityParts composes ready isBracket
  · exact composes.mono (composes.recover ready _) (Nat.le_succ 1)

theorem composes_groupedArities (composes : Composes form R) (turns : Nat) (ready : p.Ready) :
    R 3 p (groupedArities form turns p) := by
  induction turns generalizing p with
  | zero => exact composes.stay 3 p
  | succ turns inductionHypothesis =>
    rw [groupedArities]
    split
    · rename_i isParen
      have first := composes_groupedArity composes ready isParen
      exact composes.trans first (inductionHypothesis (composes.ready first ready))
    · exact composes.stay 3 p

theorem composes_singleArity (composes : Composes form R) (ready : p.Ready) : R 3 p (singleArity form p) := by
  rw [singleArity]
  split
  · rename_i isBracket
    exact composes_bareArity composes ready isBracket
  · exact composes.mono (composes.recover ready _) (Nat.le_add_left 1 2)

theorem composes_arities (composes : Composes form R) (ready : p.Ready) : R 3 p (arities form p) := by
  rw [arities]
  split
  · rename_i isBracket
    exact composes_bareArity composes ready isBracket
  split
  · exact composes_groupedArities composes _ ready
  · exact composes.mono (composes.recover ready _) (Nat.le_add_left 1 2)

/-! ## Bindings -/

theorem composes_binding (composes : Composes form R) (ready : p.Ready) (isSymbol : p.atSymbol = true) :
    R 1 p (binding form p) := by
  have name := composes.symbol ready.begun isSymbol
  have value := composes_expectForm composes (composes.ready name ready.begun) .noBindingValue
  have fewer := rest_lt_of_reads (reads_binding composes.reads ready isSymbol)
  rw [binding, rest_node] at fewer
  exact composes.node rfl rfl (composes.trans name value) fewer

theorem composes_bindingsLoop (composes : Composes form R) (single : Bool) (turns : Nat) (seen : Bindings)
    (ready : p.Ready) : R 1 p (bindingsLoop form single turns seen p).2 := by
  induction turns generalizing p seen with
  | zero => exact composes.stay 1 p
  | succ turns inductionHypothesis =>
    rw [bindingsLoop]
    split
    · exact composes.stay 1 p
    split
    · exact composes.recover ready _
    split
    · exact composes.recover ready _
    · rename_i isSymbol
      have first := composes_binding composes ready (by simpa using isSymbol)
      exact composes.trans first (inductionHypothesis _ (composes.ready first ready))

theorem composes_bindings (composes : Composes form R) (single : Bool) (ready : p.Ready) :
    R 2 p (bindings form single p).2 := by
  cases isBracket : p.isAt .leftBracket with
  | true =>
    obtain ⟨t, ts, rest, kindEq⟩ := ready.exists_isAt isBracket (by decide)
    rw [bindings_of_bracket isBracket]
    refine composes.enclosed "bindings" (bindingList form single) ready rest (by rw [kindEq]; rfl) rfl rfl
      fun q ready => ?_
    have loop := composes_bindingsLoop composes single q.rest.length ⟨0, false⟩ ready
    rw [bindingList]
    split
    · exact composes.trans loop (composes.report ..)
    · exact loop
  | false =>
    rw [bindings_of_no_bracket isBracket]
    exact composes.mono (composes.recover ready _) (Nat.le_succ 1)

/-- What follows a binding vector, if there is one. -/
theorem composes_bound {body : Parser → Parser} (composes : Composes form R) (single : Bool) (ready : p.Ready)
    (inside : ∀ q : Parser, q.Ready → R 2 q (body q)) :
    R 2 p (afterBindings body (bindings form single p).1 (bindings form single p).2) := by
  have first := composes_bindings composes single ready
  cases (bindings form single p).1 with
  | true => exact composes.trans first (inside _ (composes.ready first ready))
  | false => exact first

theorem composes_boundBody (composes : Composes form R) (single : Bool) (ready : p.Ready) :
    R 2 p (boundBody form single p) := by
  rw [boundBody_eq]
  exact composes_bound composes single ready fun q ready => composes.mono (composes.sequence ready) (Nat.zero_le 2)

theorem composes_branches (composes : Composes form R) (ready : p.Ready) : R 0 p (branches form p) := by
  have first := composes_expectForm composes ready .noTrueBranch
  rw [branches_eq]
  cases (expectForm form .noTrueBranch p).1 with
  | none => exact first
  | some _ => exact composes.trans first (composes.form (composes.ready first ready))

theorem composes_boundBranches (composes : Composes form R) (ready : p.Ready) : R 2 p (boundBranches form p) := by
  rw [boundBranches_eq]
  exact composes_bound composes true ready fun q ready =>
    composes.mono (composes_branches composes ready) (Nat.zero_le 2)

/-! ## Lookups, imports and definitions -/

theorem composes_expectSymbol (composes : Composes form R) (ready : p.Ready) (missing : StructuralProblem) :
    R 1 p (expectSymbol form missing p) := by
  rw [expectSymbol]
  split
  · rename_i isSymbol
    exact composes.mono (composes.symbol ready isSymbol) (Nat.zero_le 1)
  · exact composes.recover ready _

theorem composes_lookupBody (composes : Composes form R) (ready : p.Ready) : R 1 p (lookupBody form p) := by
  have name {q : Parser} (account : R 0 p q) : R 1 p (expectSymbol form .noLookupName q) :=
    composes.trans (composes.mono account (Nat.zero_le 1))
      (composes_expectSymbol composes (composes.ready account ready) _)
  rw [lookupBody]
  split
  · rename_i isAddress
    exact name (composes.literal ready (isLiteralToken_of_isAt_address isAddress))
  split
  · rename_i isSymbol
    split
    · exact name (composes.symbol ready isSymbol)
    · exact composes_expectSymbol composes ready _
  · exact composes.recover ready _

theorem composes_importBody (composes : Composes form R) (ready : p.Ready) : R 1 p (importBody form p) := by
  rw [importBody]
  split
  · rename_i isSymbol
    have library := composes.mono (composes.symbol ready isSymbol) (Nat.zero_le 1)
    have ready' := composes.ready library ready
    dsimp only
    split
    · rename_i hasAlias
      obtain ⟨t, ts, rest, -⟩ := ready'.exists_isAt (Bool.and_eq_true_iff.mp hasAlias).1 (by decide)
      have mark := composes.trans library (composes.advanceAs rest .asMark)
      exact composes.trans mark (composes_expectSymbol composes (composes.ready mark ready) _)
    · exact library
  · exact composes.recover ready _

theorem composes_definition {body : Parser → Parser} (composes : Composes form R) (ready : p.Ready)
    (missing : StructuralProblem) (inside : ∀ q : Parser, q.Ready → R 3 q (body q)) :
    R 3 p (definition form missing body p) := by
  rw [definition]
  split
  · rename_i isSymbol
    have name := composes.symbol ready isSymbol
    have attached := composes.trans (composes.mono name (Nat.zero_le 2))
      (composes.optionalMetadata (composes.ready name ready))
    exact composes.trans (composes.mono attached (Nat.le_succ 2)) (inside _ (composes.ready attached ready))
  · exact composes.mono (composes.recover ready _) (Nat.le_add_left 1 2)

/-! ## Conditions -/

theorem composes_clauses (composes : Composes form R) (turns count : Nat) (ready : p.Ready) :
    R 1 p (clauses form turns count p) := by
  induction turns generalizing p count with
  | zero => exact composes.stay 1 p
  | succ turns inductionHypothesis =>
    rw [clauses]
    split
    · exact composes.stay 1 p
    · rename_i going
      have test := composes.form ready.begun
      have fewer : (form p.begun).2.rest.length < p.begun.rest.length :=
        rest_lt_of_reads (composes.reads.reads _ ready.begun (show p.atSequenceEnd = false by simpa using going))
      change R 1 p (if (form p.begun).2.atSequenceEnd = true then _ else _)
      split
      · split
        · exact composes.complete rfl rfl test fewer
        · exact composes.complete rfl rfl test fewer
      · have value := composes.form (composes.ready test ready.begun)
        have clause : R 1 p ((form (form p.begun).2).2.complete p.start.1 .condClause).2 :=
          composes.complete rfl rfl (composes.trans test value) (Nat.lt_of_le_of_lt (composes.le value) fewer)
        exact composes.trans clause (inductionHypothesis _ (composes.ready clause ready))

/-! ## Special forms -/

theorem composes_specialBody (composes : Composes form R) (ready : p.Ready) (head : Kind) :
    R 3 p (specialBody form head p) := by
  have few {q : Parser} (inside : R 1 p q) : R 3 p q := composes.mono inside (Nat.le_add_left 1 2)
  have bound {q : Parser} (inside : R 2 p q) : R 3 p q := composes.mono inside (Nat.le_succ 2)
  cases head
  case lookupHead => exact few (composes_lookupBody composes ready)
  case importHead => exact few (composes_importBody composes ready)
  case defHead =>
    exact composes_definition composes ready _ fun _ ready =>
      composes.mono (composes_expectForm composes ready .noDefinitionValue) (Nat.zero_le 3)
  case defnHead => exact composes_definition composes ready _ fun _ ready => composes_arities composes ready
  case defmacroHead => exact composes_definition composes ready _ fun _ ready => composes_singleArity composes ready
  case fnHead | macroHead => exact composes_singleArity composes ready
  case condHead => exact few (composes_clauses composes _ 0 ready)
  case letHead | loopHead => exact bound (composes_boundBody composes false ready)
  case ifLetHead => exact bound (composes_boundBranches composes ready)
  case whenLetHead | dotimesHead => exact bound (composes_boundBody composes true ready)
  all_goals exact composes.mono (composes_expectForm composes ready _) (Nat.zero_le 3)

theorem composes_noMoreForms (composes : Composes form R) (ready : p.Ready) (name : String) :
    R 1 p (noMoreForms form name p) := by
  rw [noMoreForms]
  split
  · exact composes.stay 1 p
  · exact composes.recover ready _

/-- What is inside the node of a special form. -/
theorem composes_specialInside (composes : Composes form R) (ready : p.Ready) (rest : p.rest = t :: u :: ts)
    (isParen : t.kind = .leftParen) (head : Kind) :
    R 3 p (noMoreForms form (spellingOf head)
      (specialBody form head ((p.openSequence (spellingOf head)).advanceAs head))).closeSequence := by
  have opens : t.kind.closer? = some .rightParen := by rw [isParen]; rfl
  have ready' := ready.openSequence rest opens (spellingOf head)
  have ahead : (p.openSequence (spellingOf head)).rest = u :: ts := by
    rw [openSequence_eq rest opens]
    exact rest_advanceAs rest t.kind
  have taken : R 3 _ ((p.openSequence (spellingOf head)).advanceAs head) := composes.advanceAs ahead head
  have body := composes.trans taken (composes_specialBody composes (composes.ready taken ready') head)
  have ending := composes_noMoreForms composes (composes.ready body ready') (spellingOf head)
  exact composes.between ready rest opens (composes.trans body (composes.mono ending (Nat.le_add_left 1 2)))

end Grammar

end LispSyntax
