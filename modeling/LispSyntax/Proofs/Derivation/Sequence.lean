import LispSyntax.Proofs.Derivation
import LispSyntax.Proofs.Delimiters.Form

/-! # How sequences and collections are derived

The productions of `Grammar.Sequence` and `Grammar.Collection`, each put together from what it reads. `DerivesForms`
is what they ask of the rule for a form: that each of its turns is derived, and that a result covers the tokens of its
form.
-/

namespace LispSyntax

namespace Grammar

open LispSyntax.Parser Draft Delimiters

variable {p q : Parser} {t : Token} {ts : List Token} {kind closer : Kind} {mode : Mode} {role : Role} {form : FormRule}
  {last : Token} {frames : List Frame} {ds : List Draft} {rs : List Report} {after : List Token} {counts : Bool}

/-! ## One turn -/

/-- One turn of the rule for a form: it makes one node, and a result is about that node. -/
def DerivesForm (p : Parser) (r : Option Completed × Parser) : Prop :=
  ∃ d rs, Walks p [d] r.2 ∧ r.2.reports = p.reports ++ rs ∧
    Derives p.last (.form r.1.isSome) p.frames [d] rs r.2.rest ∧ ∀ c ∈ r.1, r.2.spanOf c = Token.extent d.tokens

structure DerivesForms (form : FormRule) : Prop extends StepsForms form where
  derives : ∀ p, p.Ready → p.atSequenceEnd = false → DerivesForm p (form p)

theorem Derives.exists_cons_of_group (derives : Derives last (.group mode) frames ds rs after) :
    ∃ t es, ds = Draft.token t.kind t :: es := by
  cases derives <;> exact ⟨_, _, rfl⟩

theorem Derives.exists_node_of_metadata (derives : Derives last .metadata frames ds rs after) :
    ∃ t es, ds = [.node .metadata (Draft.token t.kind t :: es)] := by
  cases derives <;> exact ⟨_, _, rfl⟩

theorem Derives.tokens_ne_nil_of_metadata (derives : Derives last .metadata frames ds rs after) :
    tokensAll ds ≠ [] := by
  obtain ⟨t, es, rfl⟩ := derives.exists_node_of_metadata
  simp

/-- A form is not empty. -/
theorem Derives.tokens_ne_nil (derives : Derives last (.form counts) frames ds rs after) : tokensAll ds ≠ [] := by
  cases derives with
  | enclosed _ _ group =>
    obtain ⟨t, es, rfl⟩ := group.exists_cons_of_group
    simp
  | misplaced _ metadata => simpa using metadata.tokens_ne_nil_of_metadata
  | _ => simp

theorem derivesForm_counted {r : Completed × Parser} (node : DerivesNode (.form true) p r) :
    DerivesForm p (counted r) := by
  obtain ⟨d, rs, made, derives⟩ := node
  refine ⟨d, rs, made.walks, made.reports, derives, ?_⟩
  rintro c ⟨⟩
  exact made.spanOf_eq (by simpa using derives.tokens_ne_nil)

theorem DerivesForm.derived {r : Option Completed × Parser} (turn : DerivesForm p r) :
    Derived (.form r.1.isSome) p r.2 := by
  obtain ⟨d, rs, walks, reports, derives, -⟩ := turn
  exact ⟨[d], rs, walks, reports, derives⟩

/-! ## Sequences -/

/-- Where a sequence ends the rule does nothing, so it can be asked anywhere. -/
theorem derived_form (forms : DerivesForms form) (ready : p.Ready) : Derived (.parts .plain) p (form p).2 := by
  cases going : p.atSequenceEnd with
  | true =>
    rw [forms.atEnd p going]
    exact .stay p
  | false => exact (forms.derives p ready going).derived.imp .form

theorem derived_sequenceLoop (forms : DerivesForms form) (turns : Nat) (ready : p.Ready) :
    Derived (.parts .plain) p (sequenceLoop form turns p) := by
  induction turns generalizing p with
  | zero => exact .stay p
  | succ turns inductionHypothesis =>
    rw [sequenceLoop]
    split
    · exact .stay p
    · have first := derived_form forms ready
      exact first.trans (inductionHypothesis (first.ready ready))

theorem derived_sequence (forms : DerivesForms form) (ready : p.Ready) :
    Derived (.parts .plain) p (sequence form p) :=
  derived_sequenceLoop forms p.rest.length ready

theorem derived_expectForm (forms : DerivesForms form) (ready : p.Ready) {missing : StructuralProblem}
    (isRemark : missing.isRemark = true) : Derived (.parts .plain) p (expectForm form missing p).2 := by
  rw [expectForm]
  split
  · exact derived_report isRemark p
  · exact derived_form forms ready

theorem derived_recover (forms : DerivesForms form) (ready : p.Ready) {problem : StructuralProblem}
    (isRemark : problem.isRemark = true) : Derived (.parts .plain) p (recover form problem p) := by
  have reported : Derived (.parts .plain) p (p.report problem) := derived_report isRemark p
  have ready' := reported.ready ready
  rw [recover, restAsError]
  split
  · exact reported
  · have filled := derived_sequence forms ready'.begun
    exact reported.trans (derived_node rfl rfl rfl filled)

/-! ## Single tokens -/

theorem literal_of_rest (rest : p.rest = t :: ts) (isLiteral : t.kind.isLiteralToken = true) :
    literal p = p.node .literal fun p => p.advanceAs t.kind := by
  have kindEq : p.begun.kind = t.kind := kind_of_rest (p := p.begun) rest
  rw [literal, require_eq (by rw [kind_of_rest rest, isLiteral]), Parser.node, Parser.node, ← kindEq]
  rfl

theorem symbol_of_rest (rest : p.rest = t :: ts) (isSymbol : t.kind.isSymbolToken = true) :
    symbol p = p.node .symbol fun p => p.advanceAs t.kind := by
  have kindEq : p.begun.kind = t.kind := kind_of_rest (p := p.begun) rest
  rw [symbol, require_eq (by rw [kind_of_rest rest, isSymbol]), Parser.node, Parser.node, ← kindEq]
  rfl

/-- A name that is taken without looking at what follows. -/
theorem derived_name (ready : p.Ready) (isSymbol : p.atSymbol = true) : Derived (.parts .naming) p (symbol p).2 := by
  obtain ⟨t, ts, rest, isSymbol⟩ := ready.exists_symbol isSymbol
  rw [symbol_of_rest rest isSymbol]
  exact (derivesNode_leaf rest rfl t.kind (.name (.inr ⟨rfl, isSymbol⟩) (.inr isSymbol))).derived

/-- What the parser sees of a lookup behind a token it has just taken. -/
theorem joins_iff {r : Completed × Parser} (previous : r.2.previous = some t) (ready : r.2.Ready) :
    (r.2.isAt .slash && r.2.joinedToPrevious && r.2.joined 0 && (r.2.nth 1).isSymbolToken) = true ↔
      t.LooksUp r.2.rest := by
  simp only [Bool.and_eq_true]
  constructor
  · rintro ⟨⟨⟨atSlash, before⟩, behind⟩, isSymbol⟩
    obtain ⟨s, ss, rest, isSlash⟩ := ready.exists_isAt atSlash (by decide)
    obtain ⟨u, us, rfl, uSymbol⟩ := ready.exists_symbol_after rest isSymbol
    refine ⟨s, u, us, rest, isSlash, uSymbol, ?_, ?_⟩
    · simpa [joinedToPrevious, previous, current_of_rest rest] using before
    · simpa [joined, Parser.token, rest] using behind
  · rintro ⟨s, u, us, rest, isSlash, uSymbol, before, behind⟩
    refine ⟨⟨⟨?_, ?_⟩, ?_⟩, ?_⟩
    · simp [isAt, kind_of_rest rest, isSlash]
    · simpa [joinedToPrevious, previous, current_of_rest rest] using before
    · simpa [joined, Parser.token, rest] using behind
    · simpa [nth, Parser.token, rest] using uSymbol

/-- A token that a slash and a name touch becomes the account of a lookup. -/
theorem made_lookup (ready : p.Ready) (rest : p.rest = t :: ts) (label : kind.isLabel = true) (looks : t.LooksUp ts) :
    ∃ s u, s.kind = .slash ∧ u.kind.isSymbolToken = true ∧ t.joined s = true ∧ s.joined u = true ∧
      Made p (.node .lookupForm [.node kind [Draft.token t.kind t], Draft.token s.kind s,
        .node .symbol [Draft.token u.kind u]]) [] (infixLookup (p.node kind fun p => p.advanceAs t.kind)) := by
  have made := made_leaf rest label t.kind
  have restEq := rest_leaf rest kind t.kind
  have previous : (p.node kind fun p => p.advanceAs t.kind).2.previous = some t := by
    simpa using made.walks.previous
  have ready' := made.walks.ready ready
  generalize (p.node kind fun p => p.advanceAs t.kind) = r at *
  rw [infixLookup, if_pos ((joins_iff previous ready').mpr (restEq.symm ▸ looks))]
  obtain ⟨s, u, us, rfl, isSlash, uSymbol, before, behind⟩ := looks
  have ahead : (preceded r).rest = s :: u :: us := (rest_preceded r).trans restEq
  have slash := walks_advanceAs ahead (preceded r).kind
  have nameAhead : (preceded r).advance.rest = u :: us := rest_advanceAs ahead _
  have name : Made (preceded r).advance (.node .symbol [Draft.token u.kind u]) [] _ := made_leaf nameAhead rfl u.kind
  have nameEq := symbol_of_rest nameAhead uSymbol
  have kindEq := kind_of_rest ahead
  rw [← nameEq] at name
  rw [kindEq] at slash
  have filled : Walks (preceded r) _ (symbol (preceded r).advance).2 :=
    slash.trans (by rw [← kindEq]; exact name.walks)
  have reports : (symbol (preceded r).advance).2.reports = (preceded r).reports ++ [] := by
    rw [name.reports, List.append_nil, List.append_nil]
    exact reports_advanceAs _ _
  exact ⟨s, u, isSlash, uSymbol, before, behind, made.wrap rfl filled reports⟩

/-- Any other is left alone. -/
theorem infixLookup_leaf (ready : p.Ready) (rest : p.rest = t :: ts) (label : kind.isLabel = true)
    (noLooks : ¬ t.LooksUp ts) :
    infixLookup (p.node kind fun p => p.advanceAs t.kind) = p.node kind fun p => p.advanceAs t.kind := by
  have made := made_leaf rest label t.kind
  have previous : (p.node kind fun p => p.advanceAs t.kind).2.previous = some t := by
    simpa using made.walks.previous
  rw [infixLookup, if_neg]
  rwa [joins_iff previous (made.walks.ready ready), rest_leaf rest kind t.kind]

/-- An account is left alone, or it becomes the account of a lookup. -/
theorem derivesNode_account (ready : p.Ready) (rest : p.rest = t :: ts) (label : kind.isLabel = true)
    (word : IsWord kind t) (account : t.IsAccount) :
    DerivesNode (.form true) p (infixLookup (p.node kind fun p => p.advanceAs t.kind)) := by
  by_cases looks : t.LooksUp ts
  · obtain ⟨s, u, isSlash, uSymbol, before, behind, made⟩ := made_lookup ready rest label looks
    exact ⟨_, _, made, .lookup word account isSlash uSymbol before behind⟩
  · rw [infixLookup_leaf ready rest label looks]
    refine ⟨_, _, made_leaf rest label t.kind, ?_⟩
    rw [rest_leaf rest kind t.kind]
    exact .word word fun _ => looks

/-- A token with a problem, as an error. -/
theorem made_badToken (rest : p.rest = t :: ts) (problem : StructuralProblem) :
    Made p (.node .error [Draft.token t.kind t]) [⟨problem, t.span, context p.frames⟩] (badToken problem p) ∧
      (badToken problem p).2.rest = ts := by
  have reported : Walks p.begun [] (p.begun.report problem) := ⟨runs_report .., rfl⟩
  have ahead : (p.begun.report problem).rest = t :: ts := rest
  have taken := walks_advanceAs ahead (p.begun.report problem).kind
  have kindEq := kind_of_rest ahead
  constructor
  · refine made_node rfl ?_ ?_
    · rw [kindEq] at taken
      have all := reported.trans taken
      rw [← kindEq] at all
      exact kindEq ▸ all
    · have same : (p.begun.report problem).advance.reports = (p.begun.report problem).reports := reports_advanceAs _ _
      rw [same, report, reportAt, current_of_rest (p := p.begun) rest]
      rfl
  · rw [badToken, rest_node]
    exact rest_advanceAs ahead _

theorem derivesNode_bad (rest : p.rest = t :: ts) (plain : isPlain t.kind = true)
    (noMark : marks.contains t.kind = false) (noAccount : ¬ t.IsAccount) {problem : StructuralProblem}
    (isRemark : problem.isRemark = true) :
    DerivesNode (.form true) p (badToken problem p) := by
  obtain ⟨made, restEq⟩ := made_badToken rest problem
  exact ⟨_, _, made, .bad plain noMark noAccount isRemark⟩

theorem derivesForm_stray (rest : p.rest = t :: ts) (isCloser : t.kind.isCloser = true)
    (going : p.atSequenceEnd = false) : DerivesForm p (none, (badToken (.unexpectedCloser p.kind) p).2) := by
  obtain ⟨made, restEq⟩ := made_badToken rest (.unexpectedCloser p.kind)
  have kindEq := kind_of_rest rest
  refine ⟨_, _, made.walks, made.reports, ?_, by simp⟩
  rw [kindEq]
  refine .stray isCloser ?_
  rw [← kindEq]
  exact going

/-! ## Skipping -/

/-- Tokens are taken as they are, and nothing is reported. -/
def Skips (p q : Parser) : Prop :=
  ∃ us : List Token, Walks p (us.map fun u => Draft.token u.kind u) q ∧ q.reports = p.reports

theorem Skips.refl (p : Parser) : Skips p p :=
  ⟨[], .refl p, rfl⟩

theorem Skips.trans {r : Parser} (first : Skips p q) (second : Skips q r) : Skips p r := by
  obtain ⟨us, walks, reports⟩ := first
  obtain ⟨vs, walks', reports'⟩ := second
  exact ⟨us ++ vs, by rw [List.map_append]; exact walks.trans walks', reports'.trans reports⟩

theorem Skips.ready (skips : Skips p q) (ready : p.Ready) : q.Ready := by
  obtain ⟨us, walks, -⟩ := skips
  exact walks.ready ready

theorem skips_advance (rest : p.rest = t :: ts) : Skips p p.advance := by
  refine ⟨[t], ?_, reports_advanceAs p p.kind⟩
  rw [Parser.advance, kind_of_rest rest]
  exact walks_advanceAs rest t.kind

theorem skips_skipMarks (turns : Nat) (ready : p.Ready) : Skips p (skipMarks turns p) := by
  induction turns generalizing p with
  | zero => exact .refl p
  | succ turns inductionHypothesis =>
    rw [skipMarks]
    split
    · rename_i marked
      obtain ⟨t, ts, rest⟩ := ready.exists_rest (by
        intro atEnd
        rw [atEnd] at marked
        exact absurd marked (by decide))
      have first := skips_advance rest
      exact first.trans (inductionHypothesis (first.ready ready))
    · exact .refl p

theorem skips_skipBalanced (turns depth : Nat) (ready : p.Ready) (isOpen : depth = 0 → p.kind.isOpener = true) :
    Skips p (skipBalanced turns depth p) := by
  induction turns generalizing p depth with
  | zero => exact .refl p
  | succ turns inductionHypothesis =>
    simp only [skipBalanced]
    split
    · exact .refl p
    · rename_i notEnd
      obtain ⟨t, ts, rest⟩ := ready.exists_rest (by simpa [isAt] using notEnd)
      rw [require_eq (not_closes_of_isOpen isOpen)]
      have first := skips_advance rest
      split
      · exact first
      · rename_i stillOpen
        exact first.trans (inductionHypothesis _ (first.ready ready) fun closed => absurd closed stillOpen)

/-- What is skipped after the marks. -/
theorem skips_skipOne (ready : p.Ready) :
    Skips p (if p.kind.isOpener then skipBalanced p.rest.length 0 p
      else if p.atSequenceEnd then p else p.advance) := by
  split
  · rename_i opener
    exact skips_skipBalanced _ 0 ready fun _ => opener
  · cases going : p.atSequenceEnd with
    | true => exact .refl p
    | false =>
      obtain ⟨t, ts, rest⟩ := ready.exists_rest_of_going going
      exact skips_advance rest

theorem tokensAll_map_token (us : List Token) : tokensAll (us.map fun u => Draft.token u.kind u) = us := by
  induction us with
  | nil => rfl
  | cons u us inductionHypothesis => simp [inductionHypothesis]

/-- A form that is nested too deeply is skipped as one error, with one report at its first token. -/
theorem made_tooDeep (ready : p.Ready) (going : p.atSequenceEnd = false) :
    ∃ t ts, Made p (.node .error ((t :: ts).map fun u => Draft.token u.kind u))
      [⟨.tooDeep, t.span, context p.frames⟩] (tooDeep p) := by
  have reported : Walks p.begun [] (p.begun.report .tooDeep) := ⟨runs_report .., rfl⟩
  have marks := skips_skipMarks (p.begun.report .tooDeep).rest.length (reported.ready ready.begun)
  obtain ⟨us, walks, reports⟩ := marks.trans (skips_skipOne (marks.ready (reported.ready ready.begun)))
  obtain ⟨t, ts, rest⟩ := ready.exists_rest_of_going going
  have made : Made p (.node .error (us.map fun u => Draft.token u.kind u)) [⟨.tooDeep, t.span, context p.frames⟩]
      (tooDeep p) := by
    refine made_node rfl (reported.trans walks) ?_
    refine reports.trans ?_
    rw [report, reportAt, current_of_rest (p := p.begun) rest]
    rfl
  have progress := rest_lt_of_reads (reads_tooDeep ready going).reads
  have restEq := made.walks.rest
  rw [tokensAll_cons, tokens_node, tokensAll_nil, List.append_nil, tokensAll_map_token] at restEq
  cases us with
  | nil =>
    rw [restEq] at progress
    exact absurd progress (Nat.lt_irrefl _)
  | cons u us =>
    obtain rfl : t = u := by
      rw [rest] at restEq
      exact (List.cons.inj restEq).1
    exact ⟨t, us, made⟩

theorem derivesNode_tooDeep (ready : p.Ready) (going : p.atSequenceEnd = false) :
    DerivesNode (.form true) p (tooDeep p) := by
  obtain ⟨t, ts, made⟩ := made_tooDeep ready going
  exact ⟨_, _, made, .tooDeep⟩

/-! ## Collections -/

/-- A node around a delimited sequence, if whatever is read inside it gets to the end. -/
theorem derived_enclosed (name : String) (body : Parser → Parser) (ready : p.Ready) (rest : p.rest = t :: ts)
    (opens : t.kind.closer? = some closer) (inside : ∀ q : Parser, q.Ready → Derived (.parts mode) q (body q))
    (ended : ∀ q : Parser, q.Ready → (body q).atSequenceEnd = true) :
    Derived (.group mode) p (body (p.openSequence name)).closeSequence := by
  have ready' := ready.openSequence rest opens name
  exact derived_between ready rest opens (inside _ ready') (ended _ ready')

theorem derivesNode_delimited (forms : DerivesForms form) (name : String) (ready : p.Ready) (rest : p.rest = t :: ts)
    (opens : t.kind.closer? = some closer) (label : kind.isLabel = true) (noMap : kind ≠ .mapForm) :
    DerivesNode (.form true) p (delimited name kind form p) := by
  have sequence : Derived (.group .plain) p.begun _ := derived_enclosed name (sequence form) ready.begun rest opens
    (fun _ ready => derived_sequence forms ready) fun _ ready => (finishes_sequence forms.toStepsForms ready).ended
  exact derivesNode_node label sequence (.enclosed rfl noMap)

/-- The turns inside a map, and what is kept of those that count. -/
theorem derived_entriesLoop (forms : DerivesForms form) (turns : Nat) (entries : Entries) (ready : p.Ready)
    (enough : p.rest.length ≤ turns) :
    ∃ counted, Derived (.row counted) p (entriesLoop form turns entries p).2 ∧
      (entriesLoop form turns entries p).1 = ⟨entries.count + counted.length,
        (counted.getLast?.map fun d => Token.extent d.tokens).or entries.last⟩ := by
  have stay : ∃ counted, Derived (.row counted) p p ∧ entries = ⟨entries.count + counted.length,
      (counted.getLast?.map fun d => Token.extent d.tokens).or entries.last⟩ :=
    ⟨[], ⟨[], [], .refl p, by simp, .done⟩, by simp⟩
  induction turns generalizing p entries with
  | zero => exact stay
  | succ turns inductionHypothesis =>
    rw [entriesLoop]
    cases going : p.atSequenceEnd with
    | true => exact stay
    | false =>
      have progress := forms.rest_lt ready going
      have ready' := forms.ready ready
      obtain ⟨d, rs, walks, reports, derives, covers⟩ := forms.derives p ready going
      simp only [Bool.false_eq_true, if_false]
      generalize form p = result at *
      obtain ⟨result, q⟩ := result
      have enough' : q.rest.length ≤ turns := by
        simp only at progress
        omega
      have more (entries : Entries) := inductionHypothesis entries ready' enough'
        ⟨[], ⟨[], [], .refl q, by simp, .done⟩, by simp⟩
      cases result with
      | some c =>
        obtain ⟨counted, ⟨ds, rs', walks', reports', derives'⟩, same⟩ :=
          more ⟨entries.count + 1, some (q.spanOf c)⟩
        refine ⟨d :: counted, ⟨d :: ds, rs ++ rs', walks.trans walks', ?_, ?_⟩, ?_⟩
        · rw [reports', reports, List.append_assoc]
        · rw [walks'.rest] at derives
          rw [walks.last, walks.frames] at derives'
          exact .entry derives derives'
        · refine same.trans ?_
          rw [covers c rfl, List.getLast?_cons]
          cases counted.getLast? <;> simp <;> omega
      | none =>
        obtain ⟨counted, ⟨ds, rs', walks', reports', derives'⟩, same⟩ := more entries
        refine ⟨counted, ⟨d :: ds, rs ++ rs', walks.trans walks', ?_, ?_⟩, same⟩
        · rw [reports', reports, List.append_assoc]
        · rw [walks'.rest] at derives
          rw [walks.last, walks.frames] at derives'
          exact .skipped derives derives'

/-- The check for pairs takes no token and reports an odd number of forms. -/
theorem walks_checkPaired {outer : List Frame} (counted : List Draft)
    (frames : q.frames = ⟨.rightBrace, "map"⟩ :: outer) {entries : Entries}
    (entriesEq : entries = ⟨0 + counted.length, (counted.getLast?.map fun d => Token.extent d.tokens).or none⟩) :
    Walks q [] (checkPaired entries q) ∧ (checkPaired entries q).reports = q.reports ++ unpaired counted := by
  rw [checkPaired, unpaired, entriesEq]
  cases counted.getLast? with
  | none => exact ⟨.refl q, by simp⟩
  | some d =>
    simp only [Option.map_some, Option.some_or, Nat.zero_add]
    split
    · refine ⟨⟨runs_reportAt .., rfl⟩, ?_⟩
      simp [Parser.reportAt, Parser.context, frames]
    · exact ⟨.refl q, by simp⟩

theorem derivesNode_map (forms : DerivesForms form) (ready : p.Ready) (rest : p.rest = t :: ts)
    (isBrace : t.kind = .leftBrace) : DerivesNode (.form true) p (map form p) := by
  have opens : t.kind.closer? = some .rightBrace := by rw [isBrace]; rfl
  have opened := ready.begun.openSequence rest opens "map"
  have framesEq := frames_openSequence (p := p.begun) rest opens "map"
  obtain ⟨counted, row, entriesEq⟩ := derived_entriesLoop forms (p.begun.openSequence "map").rest.length ⟨0, none⟩
    opened (Nat.le_refl _)
  have loop := finishes_entriesLoop forms.toStepsForms (p.begun.openSequence "map").rest.length ⟨0, none⟩ opened
    (Nat.le_refl _)
  have whole : map form p = p.node .mapForm fun p => (checkPaired
      (entriesLoop form (p.openSequence "map").rest.length ⟨0, none⟩ (p.openSequence "map")).1
      (entriesLoop form (p.openSequence "map").rest.length ⟨0, none⟩ (p.openSequence "map")).2).closeSequence := rfl
  have ended := (finishes_checkPaired
    (entriesLoop form (p.begun.openSequence "map").rest.length ⟨0, none⟩ (p.begun.openSequence "map")).1 loop).ended
  obtain ⟨ds, rs, walks, reports, derives⟩ := row.opened (p := p.begun) rest opens
  obtain ⟨checked, reports'⟩ := walks_checkPaired counted (walks.frames.trans framesEq) entriesEq
  have inside := walks.trans checked
  rw [List.append_nil] at inside
  rw [reports, List.append_assoc] at reports'
  obtain ⟨es, rs', walks', reports'', restEq, closing⟩ := exists_between ready.begun rest opens inside reports' ended
  rw [checked.rest, tokensAll_nil, List.nil_append, restEq] at derives
  rw [whole]
  refine ⟨_, _, made_node rfl walks' reports'', ?_⟩
  rw [rest_node]
  exact .map isBrace derives closing

/-! ## Metadata and quotes -/

/-- Only a closing delimiter does not count as a form. -/
theorem DerivesForms.isSome (forms : DerivesForms form) (ready : p.Ready) (going : p.atSequenceEnd = false)
    (noCloser : p.kind.isCloser = false) : (form p).1.isSome = true := by
  rw [Option.isSome_iff_ne_none]
  intro uncounted
  obtain ⟨t, ts, rest, isCloser, -⟩ := forms.uncounted p ready going uncounted
  rw [kind_of_rest rest, isCloser] at noCloser
  contradiction

/-- Behind a caret there is a form, with a report unless it is a map, or no form and the report. -/
theorem metadataBody_cases (forms : DerivesForms form) (ready : p.Ready) :
    (∃ ds noted rs, Walks p ds (metadataBody form p) ∧ (metadataBody form p).reports = p.reports ++ (noted ++ rs) ∧
      (noted = [] ∨ noted = [⟨.noMetadataMap, (Token.next p.last p.rest).span, context p.frames⟩]) ∧
      Derives p.last (.form true) p.frames ds rs (metadataBody form p).rest) ∨
    (metadataBody form p = p.report .noMetadataMap ∧
      (ends p.frames (Token.next p.last p.rest).kind = true ∨ (Token.next p.last p.rest).kind.isCloser = true)) := by
  rw [metadataBody]
  split
  · rename_i isBrace
    obtain ⟨t, ts, rest, kindEq⟩ := ready.exists_isAt isBrace (by decide)
    obtain ⟨ds, rs, walks, reports, derives⟩ := (derivesNode_map forms ready rest kindEq).derived
    exact .inl ⟨ds, [], rs, walks, reports, .inl rfl, derives⟩
  · dsimp only
    split
    · rename_i noForm
      exact .inr ⟨rfl, Bool.or_eq_true_iff.mp noForm⟩
    · rename_i isForm
      obtain ⟨going, noCloser⟩ : (p.report .noMetadataMap).atSequenceEnd = false ∧
          (p.report .noMetadataMap).kind.isCloser = false := by simpa using isForm
      have reported : Walks p [] (p.report .noMetadataMap) := ⟨runs_report .., rfl⟩
      have ready' := reported.ready ready
      obtain ⟨ds, rs, walks, reports, derives⟩ := (forms.derives _ ready' going).derived
      rw [forms.isSome ready' going noCloser] at derives
      refine .inl ⟨ds, _, rs, reported.trans walks, ?_, .inr rfl, derives⟩
      rw [reports, ← List.append_assoc]
      rfl

/-- The state behind the mark at the start of a node. -/
theorem exists_behind_mark (rest : p.rest = t :: ts) :
    ∃ q, p.begun.advance = q ∧ Walks p.begun [Draft.token t.kind t] q ∧ q.rest = ts ∧ q.reports = p.reports ∧
      q.frames = p.frames ∧ q.last = p.last := by
  have taken := walks_advanceAs (p := p.begun) rest t.kind
  have kindEq : p.begun.kind = t.kind := kind_of_rest (p := p.begun) rest
  refine ⟨_, rfl, ?_, ?_, ?_, ?_, ?_⟩
  all_goals rw [Parser.advance, kindEq]
  · exact taken
  · exact rest_advanceAs (p := p.begun) rest _
  · exact reports_advanceAs p.begun _
  · exact taken.frames
  · exact taken.last

theorem derivesNode_metadata (forms : DerivesForms form) (ready : p.Ready) (isCaret : p.isAt .caret = true) :
    DerivesNode .metadata p (metadata form p) := by
  obtain ⟨t, ts, rest, kindEq⟩ := ready.exists_isAt isCaret (by decide)
  obtain ⟨q, behind, taken, -, reportsEq, framesEq, lastEq⟩ := exists_behind_mark rest
  have body : (p.node .metadata fun p => metadataBody form p.advance).2.rest = (metadataBody form q).rest := by
    rw [rest_node, behind]
  rw [metadata, require_eq isCaret]
  rcases metadataBody_cases forms (taken.ready ready.begun) with
    ⟨ds, noted, rs, walks, reports, notedEq, derives⟩ | ⟨bodyEq, noForm⟩
  · rw [framesEq, lastEq] at derives
    rw [framesEq, lastEq, walks.rest] at notedEq
    rw [reportsEq] at reports
    subst behind
    refine ⟨_, _, made_node rfl (taken.trans walks) reports, ?_⟩
    rw [body]
    exact .described kindEq notedEq derives
  · have reported : Walks q [] (metadataBody form q) := by
      rw [bodyEq]
      exact ⟨runs_report .., rfl⟩
    have reports : (metadataBody form q).reports = p.reports ++
        [⟨.noMetadataMap, (Token.next p.last (metadataBody form q).rest).span, context p.frames⟩] := by
      rw [bodyEq, ← lastEq, ← framesEq, ← reportsEq]
      rfl
    have restEq := reported.rest
    rw [tokensAll_nil, List.nil_append] at restEq
    rw [framesEq, lastEq, restEq] at noForm
    subst behind
    refine ⟨_, _, made_node rfl (taken.trans reported) reports, ?_⟩
    rw [body]
    exact .undescribed kindEq noForm

theorem derived_optionalMetadata (forms : DerivesForms form) (ready : p.Ready) :
    Derived (.parts .plain) p (metadata? form p) := by
  rw [metadata?]
  split
  · rename_i isCaret
    exact (derivesNode_metadata forms ready isCaret).derived.imp .metadata
  · exact .stay p

theorem derivesNode_misplacedMetadata (forms : DerivesForms form) (ready : p.Ready) (isCaret : p.isAt .caret = true) :
    DerivesNode (.form true) p (misplacedMetadata form p) := by
  obtain ⟨d, rs, made, derives⟩ := derivesNode_metadata forms ready isCaret
  rw [misplacedMetadata]
  generalize metadata form p = made' at made derives ⊢
  obtain ⟨c, q⟩ := made'
  have covered : d.tokens ≠ [] := by simpa using derives.tokens_ne_nil_of_metadata
  -- The error around the metadata adds neither a token nor a report.
  have wrapped (noted : List Report) (q' : Parser) (made' : Made p d (rs ++ noted) (c, q')) (restEq : q'.rest = q.rest)
      (notedEq : noted = [] ∨ noted = [⟨.misplacedMetadata, Token.extent (tokensAll [d]), context p.frames⟩]) :
      DerivesNode (.form true) p (q'.wrap c .error id) := by
    have nothing : (id (preceded (c, q'))).reports = (preceded (c, q')).reports ++ [] := (List.append_nil _).symm
    have whole : Made p _ _ (q'.wrap c .error id) := made'.wrap rfl (.refl (preceded (c, q'))) nothing
    refine ⟨_, _, whole, ?_⟩
    have wrapRest : (q'.wrap c .error id).2.rest = (preceded (c, q')).rest := rest_complete ..
    rw [wrapRest, rest_preceded, restEq, List.append_nil]
    exact .misplaced notedEq derives
  dsimp only
  split
  · refine wrapped _ _ (made.reportAt .misplacedMetadata _) rfl (.inr ?_)
    rw [made.spanOf_eq covered, tokensAll_cons, tokensAll_nil, List.append_nil]
  · exact wrapped [] q (by rw [List.append_nil]; exact made) rfl (.inl rfl)

theorem derivesNode_markedForm (forms : DerivesForms form) (ready : p.Ready) (rest : p.rest = t :: ts)
    (isMark : [Kind.quoteMark, .backtick, .tilde].contains t.kind = true) :
    DerivesNode (.form true) p (markedForm form p) := by
  obtain ⟨q, behind, taken, -, reportsEq, framesEq, lastEq⟩ := exists_behind_mark rest
  have ready' := taken.ready ready.begun
  have label : (quoteNode t.kind).isLabel = true := by cases t.kind <;> rfl
  rw [markedForm, kind_of_rest rest]
  dsimp only
  generalize bodyEq : (fun p : Parser =>
    if p.advance.atSequenceEnd = true then p.advance.report (.nothingAfterMark t.kind) else (form p.advance).2) = body
  have bodyAt : body p.begun = if q.atSequenceEnd = true then q.report (.nothingAfterMark t.kind) else (form q).2 := by
    rw [← bodyEq, ← behind]
  cases going : q.atSequenceEnd with
  | true =>
    rw [going, if_pos rfl] at bodyAt
    have reported : Walks q [] (q.report (.nothingAfterMark t.kind)) := ⟨runs_report .., rfl⟩
    have walks := taken.trans reported
    have ended : ends q.frames (Token.next q.last q.rest).kind = true := going
    have reports : (body p.begun).reports =
        p.reports ++ [⟨.nothingAfterMark t.kind, (Token.next q.last q.rest).span, context q.frames⟩] := by
      rw [bodyAt, ← reportsEq]
      rfl
    rw [← bodyAt] at walks
    rw [framesEq, lastEq] at reports ended
    refine ⟨_, _, made_node label walks reports, ?_⟩
    rw [rest_node, bodyAt]
    exact .unquoted isMark ended
  | false =>
    rw [going, if_neg Bool.false_ne_true] at bodyAt
    obtain ⟨d, rs, walks, reports, derives, -⟩ := forms.derives q ready' going
    rw [framesEq, lastEq, ← bodyAt] at derives
    rw [reportsEq, ← bodyAt] at reports
    rw [← bodyAt] at walks
    refine ⟨_, _, made_node label (taken.trans walks) reports, ?_⟩
    rw [rest_node]
    exact .quoted isMark derives

end Grammar

end LispSyntax
