import LispSyntax.Proofs.Derivation.Sequence
import LispSyntax.Proofs.Delimiters.Special

/-! # How special forms are derived

The productions of `Grammar.Binding` and `Grammar.Special`, each put together from what it reads. Parameters and the
names of definitions are taken without a look at what follows them, so these parts have modes of their own. An arity in
parentheses that is closed right behind a closing delimiter that closes nothing has a rule of its own too
(`Derives.cutShort`).
-/

namespace LispSyntax

namespace Grammar

open LispSyntax.Parser Draft Delimiters

variable {p q : Parser} {t : Token} {ts : List Token} {kind closer : Kind} {mode : Mode} {form : FormRule}

/-! ## Parameters -/

theorem derived_parameter (rest : p.rest = t :: ts) (isSymbol : t.kind.isSymbolToken = true)
    (isParameter : kind = .fixedParam ∨ kind = .optionalParam) :
    Derived (.parts .listing) p (p.node kind Parser.advance).2 := by
  have label : kind.isLabel = true := by rcases isParameter with rfl | rfl <;> rfl
  have body : p.node kind Parser.advance = p.node kind fun p => p.advanceAs t.kind := by
    rw [Parser.node, Parser.node, ← kind_of_rest (p := p.begun) rest]
    rfl
  rw [body]
  refine (derivesNode_leaf rest label t.kind (.parameter isSymbol ?_)).derived
  rcases isParameter with rfl | rfl
  · exact .inr (.inl rfl)
  · exact .inr (.inr rfl)

/-- The parameters, and the token of their `&` if there is one. -/
def DerivesParameters (p : Parser) (seen : Parameters) (r : Parameters × Parser) : Prop :=
  ∃ ds rs, Walks p ds r.2 ∧ r.2.reports = p.reports ++ rs ∧
    Derives p.last (.parts .listing) p.frames ds rs r.2.rest ∧
    ∀ span, r.1.amp = some span → seen.amp = some span ∨ ∃ t ∈ tokensAll ds, span = Token.extent [t]

theorem DerivesParameters.stop {seen seen' : Parameters} (derived : Derived (.parts .listing) p q)
    (same : seen'.amp = seen.amp) : DerivesParameters p seen (seen', q) := by
  obtain ⟨ds, rs, walks, reports, derives⟩ := derived
  exact ⟨ds, rs, walks, reports, derives, fun span amp => .inl (same ▸ amp)⟩

theorem DerivesParameters.after {seen seen' : Parameters} {r : Parameters × Parser}
    (first : DerivesParameters p seen (seen', q)) (more : DerivesParameters q seen' r) :
    DerivesParameters p seen r := by
  obtain ⟨ds, rs, walks, reports, derives, here⟩ := first
  obtain ⟨es, rs', walks', reports', derives', there⟩ := more
  dsimp only at walks reports derives here
  refine ⟨ds ++ es, rs ++ rs', walks.trans walks', by rw [reports', reports, List.append_assoc], ?_, ?_⟩
  · rw [walks'.rest] at derives
    rw [walks.last, walks.frames] at derives'
    exact .append derives derives'
  · intro span amp
    rw [tokensAll_append]
    rcases there span amp with before | ⟨t, member, spanEq⟩
    · refine (here span before).imp_right ?_
      rintro ⟨t, member, spanEq⟩
      exact ⟨t, List.mem_append_left _ member, spanEq⟩
    · exact .inr ⟨t, List.mem_append_right _ member, spanEq⟩

theorem extent_singleton (t : Token) : Token.extent [t] = t.span := by
  simp [Token.extent, Span.cover]

theorem derives_parametersLoop (forms : DerivesForms form) (turns : Nat) (seen : Parameters) (ready : p.Ready) :
    DerivesParameters p seen (parametersLoop form turns seen p) := by
  induction turns generalizing p seen with
  | zero => exact .stop (.stay p) rfl
  | succ turns inductionHypothesis =>
    rw [parametersLoop]
    split
    · exact .stop (.stay p) rfl
    split
    · exact .stop (derived_recover forms ready rfl).widen rfl
    rename_i isSymbol
    obtain ⟨t, ts, rest, isSymbol⟩ := ready.exists_symbol (by simpa using isSymbol)
    have plain := isPlain_of_isSymbolToken isSymbol
    split
    · split
      · exact .stop (derived_recover forms ready rfl).widen rfl
      · have walks := walks_advanceAs rest .amp
        have first : DerivesParameters p seen ({ seen with amp := some p.current.span }, p.advanceAs .amp) := by
          refine ⟨_, [], walks, ?_, .parameter isSymbol (.inl rfl), ?_⟩
          · exact (reports_advanceAs p _).trans (List.append_nil _).symm
          · rintro span ⟨⟩
            refine .inr ⟨t, by simp, ?_⟩
            rw [extent_singleton, current_of_rest rest]
        exact first.after (inductionHypothesis _ (walks.ready ready))
    split
    · have optional := derived_parameter rest isSymbol (.inr rfl)
      have first : DerivesParameters p seen ({ seen with optional := true }, _) := .stop optional rfl
      exact first.after (inductionHypothesis _ (optional.ready ready))
    · have fixed := derived_parameter rest isSymbol (.inl rfl)
      have first : DerivesParameters p seen (seen, _) := .stop fixed rfl
      exact first.after (inductionHypothesis _ (fixed.ready ready))

/-- A parameter vector up to where it is closed. -/
theorem derived_parameterList (forms : DerivesForms form) (ready : p.Ready) :
    Derived (.parts .listing) p (parameterList form p) := by
  obtain ⟨ds, rs, walks, reports, derives, amp⟩ :=
    derives_parametersLoop forms p.rest.length ⟨none, false, false⟩ ready
  rw [parameterList]
  generalize parametersLoop form p.rest.length ⟨none, false, false⟩ p = r at *
  obtain ⟨seen, q⟩ := r
  dsimp only at *
  have stay : Derived (.parts .listing) p q := ⟨ds, rs, walks, reports, derives⟩
  rw [checkAmp]
  split
  · rename_i span isAmp
    split
    · exact stay
    · obtain ⟨t, member, rfl⟩ := (amp span isAmp).resolve_left (by simp)
      obtain ⟨before, behind, tokens⟩ := List.append_of_mem member
      have reported : Walks q [] (q.reportAt .nothingAfterAmp (Token.extent [t])) := ⟨runs_reportAt .., rfl⟩
      have inside := walks.trans reported
      rw [List.append_nil] at inside
      have around : tokensAll ds = before ++ [t] ++ behind := by rw [tokens, List.append_assoc, List.singleton_append]
      have framesEq := walks.frames
      refine ⟨ds, rs ++ [⟨.nothingAfterAmp, Token.extent [t], Delimiters.context p.frames⟩], inside, ?_, ?_⟩
      · simp [Parser.reportAt, Parser.context, Delimiters.context, framesEq, reports]
      · exact .note rfl around (List.cons_ne_nil t []) derives
  · exact stay

theorem derived_parameters (forms : DerivesForms form) (ready : p.Ready) (isBracket : p.isAt .leftBracket = true) :
    Derived (.parts .plain) p (parameters form p) := by
  obtain ⟨t, ts, rest, kindEq⟩ := ready.exists_isAt isBracket (by decide)
  have vector : Derived (.group .listing) p.begun _ := derived_enclosed "parameters" (parameterList form)
    ready.begun rest (by rw [kindEq]; rfl) (fun q ready => derived_parameterList forms ready)
    fun q ready => (finishes_checkAmp _ (finishes_parametersLoop forms.toStepsForms _ _ ready (Nat.le_refl _))).ended
  exact derived_node rfl rfl rfl (vector.imp .group)

/-! ## Arities -/

/-- An arity gets to the end of its sequence, or its body is a closing delimiter that closes nothing. -/
theorem derived_arityParts_cases (forms : DerivesForms form) (ready : p.Ready)
    (isBracket : p.isAt .leftBracket = true) :
    (Derived (.parts .plain) p (arityParts form p) ∧ (arityParts form p).atSequenceEnd = true) ∨
      ∃ q, Derived (.parts .plain) p q ∧ Derived (.form false) q (arityParts form p) := by
  have first := derived_parameters forms ready isBracket
  have ready' := first.ready ready
  unfold arityParts
  generalize parameters form p = q at first ready'
  rw [expectForm]
  cases going : q.atSequenceEnd with
  | true => exact .inl ⟨first.trans (derived_report rfl q), going⟩
  | false =>
    have body := (forms.derives q ready' going).derived
    have ready'' := forms.ready ready'
    simp only [Bool.false_eq_true, if_false]
    generalize form q = result at body ready''
    obtain ⟨counted, r⟩ := result
    cases counted with
    | none => exact .inr ⟨q, first, body⟩
    | some c =>
      left
      have whole := first.trans (body.imp .form)
      dsimp only
      split
      · rename_i ended
        exact ⟨whole, ended⟩
      · exact ⟨whole.trans (derived_recover forms ready'' rfl), (finishes_recover forms.toStepsForms ready'' rfl).ended⟩

theorem derived_arityParts (forms : DerivesForms form) (ready : p.Ready) (isBracket : p.isAt .leftBracket = true) :
    Derived (.parts .plain) p (arityParts form p) := by
  rcases derived_arityParts_cases forms ready isBracket with ⟨whole, -⟩ | ⟨q, first, stray⟩
  · exact whole
  · exact first.trans (stray.imp .form)

theorem derived_bareArity (forms : DerivesForms form) (ready : p.Ready) (isBracket : p.isAt .leftBracket = true) :
    Derived (.parts .plain) p (bareArity form p) := by
  have parts := derived_arityParts forms ready.begun isBracket
  exact derived_node rfl rfl rfl parts

/-- Closing a sequence right behind a closing delimiter that closes nothing. -/
theorem derived_cutShort {r : Parser} {name : String} (ready : p.Ready) (rest : p.rest = t :: ts)
    (opens : t.kind.closer? = some closer) (inside : Derived (.parts .plain) (p.openSequence name) q)
    (stray : Derived (.form false) q r) : Derived (.group .plain) p r.closeSequence := by
  have whole := inside.trans (stray.imp .form)
  cases ended : r.atSequenceEnd with
  | true => exact derived_between ready rest opens whole ended
  | false =>
    obtain ⟨ds, rs, walks, reports, derives⟩ := inside.opened rest opens
    obtain ⟨es, rs', walks', reports', derives'⟩ := stray
    have openFrames := walks.frames.trans (frames_openSequence rest opens name)
    have openLast : q.last = p.last := by
      rw [walks.last, openSequence_eq rest opens]
      exact (walks_advanceAs rest t.kind).last
    have framesEq : r.frames = ⟨closer, name⟩ :: p.frames := walks'.frames.trans openFrames
    have other : r.kind ≠ closer := by
      intro kindEq
      rw [ends_of_kind_eq framesEq (Kind.isCloser_of_closer? opens) kindEq] at ended
      contradiction
    have closed : r.closeSequence = { r.report (.expectedCloser closer) with frames := p.frames } := by
      simp [closeSequence, framesEq, isAt, other]
    have reported : Walks r [] (r.report (.expectedCloser closer)) := ⟨runs_report .., rfl⟩
    have all := (walks_inside rest opens (walks.trans walks')).trans (reported.withFrames p.frames)
    have lastEq := walks'.last
    rw [List.append_nil] at all
    rw [walks'.rest] at derives
    rw [openLast, openFrames] at derives'
    rw [openLast] at lastEq
    rw [closed]
    refine ⟨_, _, all, ?_, .cutShort opens derives derives'⟩
    rw [reports_openSequence rest opens] at reports
    have context : r.context = some name := by simp [Parser.context, framesEq]
    simp [report, reportAt, context, reports', reports, current, Parser.token, Token.next, lastEq]

theorem derived_groupedArity (forms : DerivesForms form) (ready : p.Ready) (isParen : p.isAt .leftParen = true) :
    Derived (.parts .plain) p (groupedArity form p) := by
  obtain ⟨t, ts, rest, kindEq⟩ := ready.exists_isAt isParen (by decide)
  have opens : t.kind.closer? = some .rightParen := by rw [kindEq]; rfl
  have ready' := ready.begun.openSequence rest opens "arity"
  have closed : Derived (.group .plain) p.begun (arityInside form (p.begun.openSequence "arity")).closeSequence := by
    rw [arityInside]
    split
    · rename_i isBracket
      rcases derived_arityParts_cases forms ready' isBracket with ⟨whole, ended⟩ | ⟨q, first, stray⟩
      · exact derived_between ready.begun rest opens whole ended
      · exact derived_cutShort ready.begun rest opens first stray
    · exact derived_between ready.begun rest opens (derived_recover forms ready' rfl)
        (finishes_recover forms.toStepsForms ready' rfl).ended
  exact derived_node rfl rfl rfl (closed.imp .group)

theorem derived_groupedArities (forms : DerivesForms form) (turns : Nat) (ready : p.Ready) :
    Derived (.parts .plain) p (groupedArities form turns p) := by
  induction turns generalizing p with
  | zero => exact .stay p
  | succ turns inductionHypothesis =>
    rw [groupedArities]
    split
    · rename_i isParen
      have first := derived_groupedArity forms ready isParen
      exact first.trans (inductionHypothesis (first.ready ready))
    · exact .stay p

theorem derived_singleArity (forms : DerivesForms form) (ready : p.Ready) :
    Derived (.parts .plain) p (singleArity form p) := by
  rw [singleArity]
  split
  · rename_i isBracket
    exact derived_bareArity forms ready isBracket
  · exact derived_recover forms ready rfl

theorem derived_arities (forms : DerivesForms form) (ready : p.Ready) :
    Derived (.parts .plain) p (arities form p) := by
  rw [arities]
  split
  · rename_i isBracket
    exact derived_bareArity forms ready isBracket
  split
  · exact derived_groupedArities forms _ ready
  · exact derived_recover forms ready rfl

/-! ## Binding vectors -/

theorem derived_binding (forms : DerivesForms form) (ready : p.Ready) (isSymbol : p.atSymbol = true) :
    Derived (.parts .plain) p (binding form p) := by
  obtain ⟨t, ts, rest, tSymbol⟩ := ready.exists_symbol isSymbol
  have name : Made p.begun (.node .symbol [Draft.token t.kind t]) [] (symbol p.begun) := by
    rw [symbol_of_rest (p := p.begun) rest tSymbol]
    exact made_leaf (p := p.begun) rest rfl t.kind
  have value : Derived (.parts .plain) (symbol p.begun).2 (expectForm form .noBindingValue (symbol p.begun).2).2 :=
    derived_expectForm forms (name.walks.ready ready.begun) rfl
  obtain ⟨ds, rs, walks, reports, derives⟩ := value
  rw [name.walks.last, name.walks.frames] at derives
  rw [name.reports, List.append_nil] at reports
  have made : Made p (.node .binding (.node .symbol [Draft.token t.kind t] :: ds)) rs
      (p.node .binding fun p => (expectForm form .noBindingValue (symbol p).2).2) :=
    made_node rfl (name.walks.trans walks) reports
  rw [binding]
  refine ⟨_, rs, made.walks, made.reports, ?_⟩
  rw [rest_node]
  exact .binding tSymbol derives

theorem derived_bindingsLoop (forms : DerivesForms form) (single : Bool) (turns : Nat) (seen : Bindings)
    (ready : p.Ready) : Derived (.parts .plain) p (bindingsLoop form single turns seen p).2 := by
  induction turns generalizing p seen with
  | zero => exact .stay p
  | succ turns inductionHypothesis =>
    rw [bindingsLoop]
    split
    · exact .stay p
    split
    · exact derived_recover forms ready rfl
    split
    · exact derived_recover forms ready rfl
    · rename_i isSymbol
      have first := derived_binding forms ready (by simpa using isSymbol)
      exact first.trans (inductionHypothesis _ (first.ready ready))

/-- A binding vector up to where it is closed. -/
theorem derived_bindingList (forms : DerivesForms form) (single : Bool) (ready : p.Ready) :
    Derived (.parts .plain) p (bindingList form single p) := by
  have loop := derived_bindingsLoop forms single p.rest.length ⟨0, false⟩ ready
  rw [bindingList]
  split
  · exact loop.trans (derived_report rfl _)
  · exact loop

theorem derived_bindingVector (forms : DerivesForms form) (single : Bool) (ready : p.Ready)
    (isBracket : p.isAt .leftBracket = true) : Derived (.parts .plain) p (bindingVector form single p) := by
  obtain ⟨t, ts, rest, kindEq⟩ := ready.exists_isAt isBracket (by decide)
  have vector : Derived (.group .plain) p.begun _ := derived_enclosed "bindings" (bindingList form single)
    ready.begun rest (by rw [kindEq]; rfl) (fun q ready => derived_bindingList forms single ready)
    fun q ready => (finishes_bindingList forms.toStepsForms single ready).ended
  exact derived_node rfl rfl rfl (vector.imp .group)

theorem derived_boundBody (forms : DerivesForms form) (single : Bool) (ready : p.Ready) :
    Derived (.parts .plain) p (boundBody form single p) := by
  cases isBracket : p.isAt .leftBracket with
  | true =>
    have first := derived_bindingVector forms single ready isBracket
    rw [boundBody_of_bracket isBracket]
    exact first.trans (derived_sequence forms (first.ready ready))
  | false =>
    rw [boundBody_of_no_bracket isBracket]
    exact derived_recover forms ready rfl

theorem derived_branches (forms : DerivesForms form) (ready : p.Ready) :
    Derived (.parts .plain) p (branches form p) := by
  have first : Derived (.parts .plain) p (expectForm form .noTrueBranch p).2 := derived_expectForm forms ready rfl
  rw [branches_eq]
  cases (expectForm form .noTrueBranch p).1 with
  | none => exact first
  | some _ => exact first.trans (derived_form forms (first.ready ready))

theorem derived_boundBranches (forms : DerivesForms form) (ready : p.Ready) :
    Derived (.parts .plain) p (boundBranches form p) := by
  cases isBracket : p.isAt .leftBracket with
  | true =>
    have first := derived_bindingVector forms true ready isBracket
    rw [boundBranches_of_bracket isBracket]
    exact first.trans (derived_branches forms (first.ready ready))
  | false =>
    rw [boundBranches_of_no_bracket isBracket]
    exact derived_recover forms ready rfl

/-! ## Lookups, imports and definitions -/

theorem derived_expectSymbol (forms : DerivesForms form) (ready : p.Ready) {missing : StructuralProblem}
    (isRemark : missing.isRemark = true) : Derived (.parts .naming) p (expectSymbol form missing p) := by
  rw [expectSymbol]
  split
  · rename_i isSymbol
    exact derived_name ready isSymbol
  · exact (derived_recover forms ready isRemark).widen

theorem derived_lookupBody (forms : DerivesForms form) (ready : p.Ready) :
    Derived (.parts .naming) p (lookupBody form p) := by
  rw [lookupBody]
  split
  · rename_i isAddress
    obtain ⟨t, ts, rest, kindEq⟩ := ready.exists_isAt isAddress (by decide)
    have isLiteral : t.kind.isLiteralToken = true := by rw [kindEq]; rfl
    have account : Derived (.parts .naming) p (literal p).2 := by
      rw [literal_of_rest rest isLiteral]
      exact (derivesNode_leaf rest rfl t.kind (.name (.inl ⟨rfl, isLiteral⟩) (.inl kindEq))).derived
    exact account.trans (derived_expectSymbol forms (account.ready ready) rfl)
  split
  · rename_i isSymbol
    split
    · have account := derived_name ready isSymbol
      exact account.trans (derived_expectSymbol forms (account.ready ready) rfl)
    · exact derived_expectSymbol forms ready rfl
  · exact (derived_recover forms ready rfl).widen

theorem derived_importBody (forms : DerivesForms form) (ready : p.Ready) :
    Derived (.parts .naming) p (importBody form p) := by
  rw [importBody]
  split
  · rename_i isSymbol
    have library := derived_name ready isSymbol
    have ready' := library.ready ready
    dsimp only
    split
    · rename_i hasAlias
      obtain ⟨t, ts, rest, kindEq⟩ := ready'.exists_isAt (Bool.and_eq_true_iff.mp hasAlias).1 (by decide)
      have mark : Derived (.parts .plain) (symbol p).2 ((symbol p).2.advanceAs .asMark) :=
        derived_mark rest (by rw [kindEq]; rfl) (by rw [kindEq]; decide) (by rw [kindEq]; rfl) .asMark
      exact (library.trans mark.widen).trans (derived_expectSymbol forms (mark.ready ready') rfl)
    · exact library
  · exact (derived_recover forms ready rfl).widen

theorem derived_definition {body : Parser → Parser} (forms : DerivesForms form) (ready : p.Ready)
    {missing : StructuralProblem} (isRemark : missing.isRemark = true)
    (inside : ∀ q : Parser, q.Ready → Derived (.parts .plain) q (body q)) :
    Derived (.parts .naming) p (definition form missing body p) := by
  rw [definition]
  split
  · rename_i isSymbol
    have name := derived_name ready isSymbol
    have attached := name.trans (derived_optionalMetadata forms (name.ready ready)).widen
    exact attached.trans (inside _ (attached.ready ready)).widen
  · exact (derived_recover forms ready isRemark).widen

/-! ## Conditions -/

theorem derived_clauses (forms : DerivesForms form) (turns count : Nat) (ready : p.Ready) :
    Derived (.parts .plain) p (clauses form turns count p) := by
  induction turns generalizing p count with
  | zero => exact .stay p
  | succ turns inductionHypothesis =>
    rw [clauses]
    split
    · exact .stay p
    · have test := derived_form forms ready.begun
      change Derived _ p (if (form p.begun).2.atSequenceEnd = true then _ else _)
      split
      · split
        · exact (derivesNode_complete rfl test (.node rfl rfl)).derived
        · exact (derivesNode_complete rfl test (.node rfl rfl)).derived
      · have both := test.trans (derived_form forms (test.ready ready.begun))
        have clause : Derived (.parts .plain) p
            ((form (form p.begun).2).2.complete p.start.1 .condClause).2 :=
          (derivesNode_complete rfl both (.node rfl rfl)).derived
        exact clause.trans (inductionHypothesis _ (clause.ready ready))

/-! ## Heads -/

def bodyMode : Kind → Mode
  | .lookupHead | .importHead | .defHead | .defnHead | .defmacroHead => .naming
  | _ => .plain

theorem fits_bodyMode (head : Kind) : (bodyMode head).fits (specialNode head) = true := by
  cases head <;> rfl

theorem specialNode_ne_mapForm (head : Kind) : specialNode head ≠ .mapForm := by
  cases head <;> decide

theorem derived_specialBody (forms : DerivesForms form) (ready : p.Ready) (head : Kind) :
    Derived (.parts (bodyMode head)) p (specialBody form head p) := by
  cases head
  case lookupHead => exact derived_lookupBody forms ready
  case importHead => exact derived_importBody forms ready
  case defHead => exact derived_definition forms ready rfl fun _ ready => derived_expectForm forms ready rfl
  case defnHead => exact derived_definition forms ready rfl fun _ ready => derived_arities forms ready
  case defmacroHead => exact derived_definition forms ready rfl fun _ ready => derived_singleArity forms ready
  case fnHead | macroHead => exact derived_singleArity forms ready
  case condHead => exact derived_clauses forms _ 0 ready
  case letHead | loopHead => exact derived_boundBody forms false ready
  case ifLetHead => exact derived_boundBranches forms ready
  case whenLetHead | dotimesHead => exact derived_boundBody forms true ready
  all_goals exact derived_expectForm forms ready rfl

theorem derived_noMoreForms (forms : DerivesForms form) (ready : p.Ready) (name : String) :
    Derived (.parts .plain) p (noMoreForms form name p) := by
  rw [noMoreForms]
  split
  · exact .stay p
  · exact derived_recover forms ready rfl

/-- A head is not the account of a lookup. -/
theorem not_looksUp_of_headAhead? {u : Token} {head : Kind} (rest : p.rest = t :: u :: ts)
    (ahead : headAhead? p = some head) : ¬ u.LooksUp ts := by
  rintro ⟨s, v, us, rfl, isSlash, -, before, -⟩
  have touching : (p.nth 2 == .slash && p.joined 1) = true := by
    simp [nth, joined, Parser.token, rest, isSlash, before]
  rw [headAhead?, touching] at ahead
  simp at ahead

theorem derivesNode_specialForm (forms : DerivesForms form) (ready : p.Ready) {u : Token} {head : Kind}
    (rest : p.rest = t :: u :: ts) (isParen : t.kind = .leftParen) (isSymbol : u.kind.isSymbolToken = true)
    (isHead : Kind.ofHead? u.text = some head) (ahead : headAhead? p = some head) :
    DerivesNode (.form true) p (specialForm form head p) := by
  have member : head ∈ Kind.heads := List.mem_of_find?_eq_some isHead
  have opens : t.kind.closer? = some .rightParen := by rw [isParen]; rfl
  have opened := ready.begun.openSequence rest opens (spellingOf head)
  have behind : (p.begun.openSequence (spellingOf head)).rest = u :: ts := by
    rw [openSequence_eq (p := p.begun) rest opens]
    exact rest_advanceAs (p := p.begun) rest t.kind
  have taken := derived_advanceAs behind (isPlain_of_isSymbolToken isSymbol)
    (fun _ => not_looksUp_of_headAhead? rest ahead) head
  have ready' := taken.ready opened
  have body := derived_specialBody forms ready' head
  have ready'' := body.ready ready'
  have inside := taken.widen.trans (body.trans (derived_noMoreForms forms ready'' (spellingOf head)).widen)
  have closed := derived_between ready.begun rest opens inside
    (finishes_noMoreForms forms.toStepsForms ready'' (spellingOf head)).ended
  rw [specialForm]
  refine derivesNode_node (isLabel_specialNode member).1 closed ?_
  exact .enclosed (fits_bodyMode head) (specialNode_ne_mapForm head)

theorem derivesNode_parenthesized (forms : DerivesForms form) (ready : p.Ready) (rest : p.rest = t :: ts)
    (isParen : t.kind = .leftParen) : DerivesNode (.form true) p (parenthesized form p) := by
  have met : p.isAt .leftParen = true := by simp [isAt, kind_of_rest rest, isParen]
  rw [parenthesized, require_eq met]
  cases ahead : headAhead? p with
  | none => exact derivesNode_delimited forms "list" ready rest (by rw [isParen]; rfl) rfl (by decide)
  | some head =>
    obtain ⟨u, us, rfl, isSymbol, isHead⟩ := exists_head ready rest ahead
    exact derivesNode_specialForm forms ready rest isParen isSymbol isHead ahead

end Grammar

end LispSyntax
