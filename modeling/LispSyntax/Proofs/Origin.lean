import LispSyntax.Proofs.Reading.Form

/-! # Where forms come from

The table of productions says what the nodes of a tree look like; it does not say in which state the parser
was when it made them. `Origin` names the productions that make forms, and `Traces p p'` says that every form
made between two states, at any depth, comes from one of them: from a state in between, with the reports of that
time. Nothing is asked of the reports, so this holds for malformed sources too.
-/

namespace LispSyntax

namespace Grammar

open LispSyntax.Parser Draft Outline

/-- The production that makes a node with the given children, and the state it starts in. -/
inductive Origin : Parser → Kind → List Draft → Completed × Parser → Prop where
  | symbol {p : Parser} {ds : List Draft} : p.atSymbol = true →
      Origin p .symbol ds (Grammar.symbol p)
  | literal {p : Parser} {ds : List Draft} : p.kind.isLiteralToken = true →
      Origin p .literal ds (Grammar.literal p)
  | map {p : Parser} {budget : Nat} {ds : List Draft} : budget < maxDepth → p.isAt .leftBrace = true →
      Origin p .mapForm ds (Grammar.map (form budget) p)
  /-- The rule for a form. A slash it makes an error of would be an error of too deep a form. -/
  | form {p q : Parser} {c : Completed} {budget : Nat} {kind : Kind} {ds : List Draft} :
      budget < maxDepth → p.atSequenceEnd = false → formAt (form budget) p = (some c, q) →
      (kind = .error → ∀ t, Draft.token .slash t ∉ ds) → Origin p kind ds (c, q)
  | stray {p : Parser} {t : Token} {ts : List Token} : p.rest = t :: ts → t.kind.isCloser = true →
      Origin p .error [Draft.token t.kind t] (badToken (.unexpectedCloser p.kind) p)
  | givenUp {p : Parser} {budget : Nat} {ds : List Draft} : (∀ d ∈ ds, ∃ kind os, d = .node kind os) →
      Origin p .error ds (p.node .error (sequence (form budget)))
  | tooDeep {p : Parser} {ds : List Draft} : p.atSequenceEnd = false →
      Origin p .error ds (Grammar.tooDeep p)

/-- What was reported in the first state still is in the second, and the first log is no longer and fits if the second
does. -/
structure Earlier (p q : Parser) : Prop where
  reports : p.reports <+: q.reports
  size : p.events.size ≤ q.events.size
  addressed : q.Addressed → p.Addressed

/-- The node was made between the two states, by one of the productions. -/
def Sourced (low high : Parser) (kind : Kind) (ds : List Draft) : Prop :=
  ∃ p r, p.Ready ∧ p.slashKind = low.slashKind ∧ Makes p (.node kind ds) r ∧
    Earlier low p ∧ Earlier r.2 high ∧ Origin p kind ds r

/-- All forms in the drafts were made between the two states. -/
def Traced (low high : Parser) (ds : List Draft) : Prop :=
  ∀ n ∈ nodesAll ds, Shape.form.accepts n.1 = true → Sourced low high n.1 n.2

def Traces (p p' : Parser) : Prop :=
  ∃ ds, Runs p ds p' ∧ Traced p p' ds

/-- The run makes a node, and all forms in it come from one of the productions. -/
def TracesNode (p : Parser) (kind : Kind) (r : Completed × Parser) : Prop :=
  ∃ ds, Makes p (.node kind ds) r ∧ Traced p r.2 ds

/-- The run makes one node, which comes from one of the productions if it is a form. -/
def TracesForm (p : Parser) (r : Option Completed × Parser) : Prop :=
  ∃ kind ds, Runs p [.node kind ds] r.2 ∧ Traced p r.2 [.node kind ds]

/-- What the productions ask of the rule for a form: it is one that a source gets to. -/
structure TracesForms (budget : Nat) : Prop where
  below : budget < maxDepth
  traces : ∀ p, p.Ready → p.atSequenceEnd = false → TracesForm p (form budget p)

variable {p q p' p'' : Parser} {t : Token} {ts : List Token} {kind : Kind} {r : Completed × Parser}
  {budget : Nat} {ds es : List Draft}

/-! ## Composition -/

theorem Earlier.refl (p : Parser) : Earlier p p :=
  ⟨List.prefix_refl _, Nat.le_refl _, id⟩

theorem Earlier.trans (first : Earlier p p') (second : Earlier p' p'') : Earlier p p'' :=
  ⟨first.reports.trans second.reports, Nat.le_trans first.size second.size, first.addressed ∘ second.addressed⟩

theorem earlier_of_grows {started ended entries : Nat} (grows : Grows p started ended entries q)
    (reports : p.reports <+: q.reports) : Earlier p q :=
  ⟨reports, grows.size_ge, grows.addressed⟩

theorem earlier_of_runs (runs : Runs p ds q) : Earlier p q :=
  earlier_of_grows runs.grows runs.reports

theorem earlier_begun (p : Parser) : Earlier p p.begun :=
  earlier_of_grows (grows_start p) (List.prefix_refl _)

theorem earlier_complete (p : Parser) (m : Marker) (kind : Kind) : Earlier p (p.complete m kind).2 :=
  earlier_of_grows (grows_complete p m kind) ((reports_complete p m kind).symm ▸ List.prefix_refl _)

theorem earlier_preceded (r : Completed × Parser) : Earlier r.2 (preceded r) := by
  exact earlier_of_grows (grows_precede r.2 r.1) ((reports_preceded r).symm ▸ List.prefix_refl _)

theorem Traced.mono (traced : Traced p q ds) (slash : p'.slashKind = p.slashKind)
    (before : Earlier p' p) (after : Earlier q p'') : Traced p' p'' ds := by
  intro n member isForm
  obtain ⟨state, made, ready, sameSlash, makes, since, upTo, origin⟩ := traced n member isForm
  exact ⟨state, made, ready, sameSlash.trans slash.symm, makes, before.trans since, upTo.trans after,
    origin⟩

theorem Traced.append (first : Traced p q ds) (second : Traced p q es) : Traced p q (ds ++ es) := by
  intro n member isForm
  obtain ⟨d, inside, below⟩ := mem_nodesAll.mp member
  cases List.mem_append.mp inside with
  | inl inFirst => exact first n (mem_nodesAll.mpr ⟨d, inFirst, below⟩) isForm
  | inr inSecond => exact second n (mem_nodesAll.mpr ⟨d, inSecond, below⟩) isForm

theorem traced_of_no_nodes (leaves : ∀ d ∈ ds, d.nodes = []) : Traced p q ds := by
  intro n member
  obtain ⟨d, inside, below⟩ := mem_nodesAll.mp member
  rw [leaves d inside] at below
  contradiction

/-- A node is traced if what is in it is, and it is itself if it is a form. -/
theorem Traced.node (inner : Traced p q ds)
    (root : Shape.form.accepts kind = true → Sourced p q kind ds) :
    Traced p q [.node kind ds] := by
  intro n member isForm
  obtain ⟨d, inside, below⟩ := mem_nodesAll.mp member
  rw [List.mem_singleton] at inside
  subst inside
  rw [nodes_node, List.mem_cons] at below
  cases below with
  | inl isRoot =>
    subst isRoot
    exact root isForm
  | inr below => exact inner n below isForm

theorem Traces.stay (p : Parser) : Traces p p :=
  ⟨[], .refl p, traced_of_no_nodes (by simp)⟩

theorem Traces.trans (first : Traces p p') (second : Traces p' p'') : Traces p p'' := by
  obtain ⟨ds, runs, traced⟩ := first
  obtain ⟨es, runs', traced'⟩ := second
  exact ⟨ds ++ es, runs.trans runs', (traced.mono rfl (.refl _) (earlier_of_runs runs')).append
    (traced'.mono runs.slash.symm (earlier_of_runs runs) (.refl _))⟩

theorem Traces.ready (traces : Traces p p') (ready : p.Ready) : p'.Ready := by
  obtain ⟨ds, runs, -⟩ := traces
  exact runs.ready ready

theorem traces_advanceAs (rest : p.rest = t :: ts) (kind : Kind) : Traces p (p.advanceAs kind) :=
  ⟨_, runs_advanceAs rest kind, traced_of_no_nodes (by simp)⟩

theorem traces_advance (rest : p.rest = t :: ts) : Traces p p.advance :=
  traces_advanceAs rest p.kind

theorem traces_reportAt (p : Parser) (problem : StructuralProblem) (span : Span) :
    Traces p (p.reportAt problem span) :=
  ⟨[], runs_reportAt p problem span, traced_of_no_nodes (by simp)⟩

theorem traces_report (p : Parser) (problem : StructuralProblem) : Traces p (p.report problem) :=
  traces_reportAt p problem _

/-! ## Nodes -/

theorem TracesNode.complete (label : kind.isLabel = true) (body : Traces p.begun q) :
    TracesNode p kind (q.complete p.start.1 kind) := by
  obtain ⟨ds, runs, traced⟩ := body
  exact ⟨ds, makes_complete label runs, traced.mono rfl (earlier_begun p) (earlier_complete ..)⟩

theorem TracesNode.node {body : Parser → Parser} (label : kind.isLabel = true)
    (inside : Traces p.begun (body p.begun)) : TracesNode p kind (p.node kind body) :=
  TracesNode.complete label inside

/-- A node of a kind that is no form needs no origin. -/
theorem TracesNode.traces (node : TracesNode p kind r) (noForm : Shape.form.accepts kind = false) :
    Traces p r.2 := by
  obtain ⟨ds, makes, traced⟩ := node
  exact ⟨_, makes.runs, traced.node fun isForm => absurd isForm (by simp [noForm])⟩

theorem TracesNode.tracesForm (node : TracesNode p kind r) (ready : p.Ready)
    (origin : ∀ ds, Makes p (.node kind ds) r → Origin p kind ds r) :
    TracesForm p (counted r) := by
  obtain ⟨ds, makes, traced⟩ := node
  exact ⟨kind, ds, makes.runs, traced.node fun _ =>
    ⟨p, r, ready, rfl, makes, .refl _, .refl _, origin ds makes⟩⟩

theorem TracesForm.traces {r : Option Completed × Parser} (form : TracesForm p r) : Traces p r.2 := by
  obtain ⟨kind, ds, runs, traced⟩ := form
  exact ⟨_, runs, traced⟩

theorem TracesNode.reportAt (node : TracesNode p kind r) (problem : StructuralProblem) (span : Span) :
    TracesNode p kind (r.1, r.2.reportAt problem span) := by
  obtain ⟨ds, makes, traced⟩ := node
  exact ⟨ds, makes.reportAt problem span, traced.mono rfl (.refl _) (earlier_of_runs (runs_reportAt ..))⟩

/-- A node around a node that is traced as a whole, and what follows it. -/
theorem tracesNode_wrap (parent : Kind) (body : Parser → Parser) (label : parent.isLabel = true)
    (makes : Makes p (.node kind ds) r) (traced : Traced p r.2 [.node kind ds])
    (inside : Traces (preceded r) (body (preceded r))) :
    ∃ es, Makes p (.node parent (.node kind ds :: es)) (r.2.wrap r.1 parent body) ∧
      Traced p (r.2.wrap r.1 parent body).2 (.node kind ds :: es) := by
  obtain ⟨es, runs, traced'⟩ := inside
  have slashEq : (preceded r).slashKind = p.slashKind := (slashKind_preceded r).trans makes.runs.slash
  have ending : Earlier (body (preceded r)) (r.2.wrap r.1 parent body).2 := earlier_complete ..
  refine ⟨es, makes_wrap label makes runs, ?_⟩
  have first : Traced p (r.2.wrap r.1 parent body).2 [.node kind ds] :=
    traced.mono rfl (.refl _) ((earlier_preceded r).trans ((earlier_of_runs runs).trans ending))
  have second : Traced p (r.2.wrap r.1 parent body).2 es :=
    traced'.mono slashEq.symm ((earlier_of_runs makes.runs).trans (earlier_preceded r)) ending
  exact first.append second

theorem traces_between {closer : Kind} {name : String} (ready : p.Ready) (rest : p.rest = t :: ts)
    (opens : t.kind.closer? = some closer) (inside : Traces (p.openSequence name) q) :
    Traces p q.closeSequence := by
  obtain ⟨ds, runs, traced⟩ := inside
  obtain ⟨ending, whole, closes, -⟩ := runs_between ready rest opens runs
  have ends := closes False False.elim
  have noNodes : ∀ d ∈ ending, d.nodes = [] := by
    rcases ends with ⟨d, rfl, u, rfl, -⟩ | ⟨-, rfl⟩ <;> simp
  have slashEq : (p.openSequence name).slashKind = p.slashKind := by
    rw [openSequence_eq rest opens]
    exact (runs_advanceAs rest t.kind).slash
  have opened : Earlier p (p.openSequence name) := by
    rw [openSequence_eq rest opens]
    exact earlier_of_grows ((grows_advanceAs p t.kind).congr rfl rfl rfl rfl) (runs_advanceAs rest t.kind).reports
  have closed : Earlier q q.closeSequence := by
    have framesEq : q.frames = ⟨closer, name⟩ :: p.frames := by
      rw [runs.frames, frames_openSequence rest opens]
    obtain ⟨r, es, runs', closedEq, -⟩ := closeSequence_eq
      (runs.ready (ready.openSequence rest opens name)) (closer_ne_eof opens) framesEq
    rw [closedEq]
    exact earlier_of_grows (runs'.grows.congr rfl rfl rfl rfl) runs'.reports
  have inner : Traced p q.closeSequence ds := traced.mono slashEq.symm opened closed
  have opening : Traced p q.closeSequence [Draft.token t.kind t] := traced_of_no_nodes (by simp)
  exact ⟨_, whole, (opening.append inner).append (traced_of_no_nodes noNodes)⟩

/-! ## Sequences -/

/-- The loop over forms makes nodes only. -/
theorem traces_sequenceLoop (forms : TracesForms budget) (turns : Nat) (ready : p.Ready) :
    ∃ ds, Runs p ds (sequenceLoop (form budget) turns p) ∧
      Traced p (sequenceLoop (form budget) turns p) ds ∧ ∀ d ∈ ds, ∃ kind os, d = .node kind os := by
  induction turns generalizing p with
  | zero => exact ⟨[], .refl p, traced_of_no_nodes (by simp), by simp⟩
  | succ turns inductionHypothesis =>
    rw [sequenceLoop]
    cases going : p.atSequenceEnd with
    | true => exact ⟨[], .refl p, traced_of_no_nodes (by simp), by simp⟩
    | false =>
      obtain ⟨kind, ds, runs, traced⟩ := forms.traces p ready going
      obtain ⟨es, runs', traced', nodes⟩ := inductionHypothesis (runs.ready ready)
      refine ⟨.node kind ds :: es, runs.trans runs', ?_, ?_⟩
      · exact (traced.mono rfl (.refl _) (earlier_of_runs runs')).append
          (traced'.mono runs.slash.symm (earlier_of_runs runs) (.refl _))
      · intro d member
        cases member with
        | head => exact ⟨kind, ds, rfl⟩
        | tail _ member => exact nodes d member

theorem traces_sequence (forms : TracesForms budget) (ready : p.Ready) :
    Traces p (sequence (form budget) p) := by
  obtain ⟨ds, runs, traced, -⟩ := traces_sequenceLoop forms p.rest.length ready
  exact ⟨ds, runs, traced⟩

/-- Where a sequence ends the rule does nothing, so it can be asked anywhere. -/
theorem traces_form (forms : TracesForms budget) (ready : p.Ready) :
    Traces p (form budget p).2 := by
  cases going : p.atSequenceEnd with
  | true =>
    rw [(readsForms_form budget).atEnd p going]
    exact .stay p
  | false => exact (forms.traces p ready going).traces

theorem traces_recover (forms : TracesForms budget) (ready : p.Ready) (problem : StructuralProblem) :
    Traces p (recover (form budget) problem p) := by
  have reported := traces_report p problem
  have ready' := reported.ready ready
  rw [recover, restAsError]
  split
  · exact reported
  · obtain ⟨ds, runs, traced, nodes⟩ := traces_sequenceLoop forms
      (p.report problem).begun.rest.length ready'.begun
    have makes : Makes (p.report problem) (.node .error ds)
        ((p.report problem).node .error (sequence (form budget))) := makes_node rfl runs
    refine reported.trans ⟨_, makes.runs, Traced.node ?_ fun _ => ?_⟩
    · exact traced.mono rfl (earlier_begun _) (earlier_complete ..)
    · exact ⟨_, _, ready', rfl, makes, .refl _, .refl _, .givenUp nodes⟩

/-! ## Single tokens -/

/-- A node around one token. -/
theorem makes_leafNode (kind asKind : Kind) (rest : p.rest = t :: ts) (label : kind.isLabel = true) :
    Makes p (.node kind [Draft.token asKind t]) (p.node kind fun p => p.advanceAs asKind) :=
  makes_node label (runs_advanceAs (p := p.begun) rest asKind)

/-- A node around one token, traced as the form it is. -/
theorem traced_leafNode (ready : p.Ready) {asKind : Kind}
    (makes : Makes p (.node kind [Draft.token asKind t]) r)
    (origin : Origin p kind [Draft.token asKind t] r) :
    Traced p r.2 [.node kind [Draft.token asKind t]] :=
  (traced_of_no_nodes (by simp)).node fun _ =>
    ⟨p, r, ready, rfl, makes, .refl _, .refl _, origin⟩

theorem traced_symbol (ready : p.Ready) (isSymbol : p.atSymbol = true) :
    ∃ t ts, p.rest = t :: ts ∧ Makes p (.node .symbol [Draft.token t.kind t]) (symbol p) ∧
      Traced p (symbol p).2 [.node .symbol [Draft.token t.kind t]] := by
  obtain ⟨t, ts, rest, -⟩ := ready.exists_symbol isSymbol
  have makes : Makes p (.node .symbol [Draft.token t.kind t]) (symbol p) := by
    have met : p.kind.isSymbolToken = true := isSymbol
    rw [symbol, require_eq met]
    exact makes_node rfl (runs_advance (p := p.begun) rest)
  exact ⟨t, ts, rest, makes, traced_leafNode ready makes (.symbol isSymbol)⟩

theorem traced_literal (ready : p.Ready) (isLiteral : p.kind.isLiteralToken = true) :
    ∃ t ts, p.rest = t :: ts ∧ Makes p (.node .literal [Draft.token t.kind t]) (literal p) ∧
      Traced p (literal p).2 [.node .literal [Draft.token t.kind t]] := by
  obtain ⟨t, ts, rest⟩ := ready.exists_rest (by
    intro atEnd
    rw [atEnd] at isLiteral
    contradiction)
  have makes : Makes p (.node .literal [Draft.token t.kind t]) (literal p) := by
    rw [literal, require_eq isLiteral]
    exact makes_node rfl (runs_advance (p := p.begun) rest)
  exact ⟨t, ts, rest, makes, traced_leafNode ready makes (.literal isLiteral)⟩

theorem traces_symbol (ready : p.Ready) (isSymbol : p.atSymbol = true) : Traces p (symbol p).2 := by
  obtain ⟨t, ts, -, makes, traced⟩ := traced_symbol ready isSymbol
  exact ⟨_, makes.runs, traced⟩

theorem traces_literal (ready : p.Ready) (isLiteral : p.kind.isLiteralToken = true) :
    Traces p (literal p).2 := by
  obtain ⟨t, ts, -, makes, traced⟩ := traced_literal ready isLiteral
  exact ⟨_, makes.runs, traced⟩

theorem makes_badToken (rest : p.rest = t :: ts) (problem : StructuralProblem) :
    Makes p (.node .error [Draft.token t.kind t]) (badToken problem p) := by
  have reported : Runs p.begun [] (p.begun.report problem) := runs_report ..
  exact makes_node rfl (reported.trans (runs_advance (p := p.begun.report problem) rest))

theorem tracesForm_counted {r : Completed × Parser} (makes : Makes p (.node kind ds) r)
    (traced : Traced p r.2 [.node kind ds]) : TracesForm p (counted r) :=
  ⟨kind, ds, makes.runs, traced⟩

/-- What an account becomes: it is left alone, or it is the account of a lookup. -/
theorem tracesForm_infixLookup (ready : p.Ready) (makes : Makes p (.node kind ds) r)
    (traced : Traced p r.2 [.node kind ds])
    (origin : ∀ kind ds, kind ≠ .error → Origin p kind ds (infixLookup r)) :
    TracesForm p (counted (infixLookup r)) := by
  have ready' : r.2.Ready := makes.runs.ready ready
  revert origin
  rw [infixLookup]
  split
  · intro origin
    rename_i touching
    simp only [Bool.and_eq_true] at touching
    obtain ⟨⟨⟨atSlash, -⟩, -⟩, isSymbol⟩ := touching
    obtain ⟨t, ts, rest, -⟩ := ready'.exists_isAt atSlash (by decide)
    have restEq : (preceded r).rest = t :: ts := (rest_preceded r).trans rest
    obtain ⟨u, us, rfl, uSymbol⟩ := ready'.exists_symbol_after rest isSymbol
    have slash := traces_advance restEq
    have nameAhead : (preceded r).advance.rest = u :: us := rest_advanceAs restEq _
    have isName : (preceded r).advance.atSymbol = true := by
      rw [atSymbol, kind_of_rest nameAhead]
      exact uSymbol
    have inside := slash.trans (traces_symbol (slash.ready ready'.preceded) isName)
    obtain ⟨es, wrapped, tracedAll⟩ := tracesNode_wrap .lookupForm
      (fun p => (symbol p.advance).2) rfl makes traced inside
    refine tracesForm_counted wrapped (tracedAll.node fun _ => ?_)
    exact ⟨p, _, ready, rfl, wrapped, .refl _, .refl _,
      origin .lookupForm _ (by decide)⟩
  · intro _
    exact tracesForm_counted makes traced

/-! ## Skipping -/

theorem traces_skipMarks (turns : Nat) (ready : p.Ready) : Traces p (skipMarks turns p) := by
  induction turns generalizing p with
  | zero => exact .stay p
  | succ turns inductionHypothesis =>
    rw [skipMarks]
    split
    · rename_i marked
      obtain ⟨t, ts, rest⟩ := ready.exists_rest (by
        intro atEnd
        rw [atEnd] at marked
        exact absurd marked (by decide))
      have first := traces_advance rest
      exact first.trans (inductionHypothesis (first.ready ready))
    · exact .stay p

theorem traces_skipBalanced (turns depth : Nat) (ready : p.Ready)
    (isOpen : depth = 0 → p.kind.isOpener = true) : Traces p (skipBalanced turns depth p) := by
  obtain ⟨ds, runs, shape⟩ := reads_skipBalanced turns depth ready isOpen
  have plain := (shape False False.elim).2.1
  refine ⟨ds, runs, traced_of_no_nodes fun d member => ?_⟩
  obtain ⟨t, rfl⟩ := plain d member
  exact nodes_token _ t

/-- What is skipped after the report of a form that is nested too deeply. -/
theorem traces_skipped (ready : p.Ready) :
    Traces p (let q := skipMarks p.rest.length p
      if q.kind.isOpener then skipBalanced q.rest.length 0 q
      else if q.atSequenceEnd then q else q.advance) := by
  have marked := traces_skipMarks p.rest.length ready
  apply marked.trans
  dsimp only
  generalize skipMarks p.rest.length p = q at marked
  have ready' : q.Ready := marked.ready ready
  split
  · rename_i opener
    exact traces_skipBalanced _ 0 ready' fun _ => opener
  · cases more : q.atSequenceEnd with
    | true => exact .stay q
    | false =>
      obtain ⟨t, ts, rest⟩ := ready'.exists_rest_of_going more
      exact traces_advance rest

theorem tracesForm_tooDeep (ready : p.Ready) (going : p.atSequenceEnd = false) :
    TracesForm p (counted (tooDeep p)) := by
  have reported := traces_report p.begun .tooDeep
  have node : TracesNode p .error (tooDeep p) :=
    TracesNode.node rfl (reported.trans (traces_skipped (reported.ready ready.begun)))
  exact node.tracesForm ready fun _ _ => .tooDeep going

/-- A form that is nested too deeply is reported at its first token. -/
theorem mem_reports_tooDeep (ready : p.Ready) :
    ⟨.tooDeep, p.current.span, p.context⟩ ∈ (tooDeep p).2.reports := by
  have reported := traces_report p.begun .tooDeep
  obtain ⟨ds, runs, -⟩ := traces_skipped (reported.ready ready.begun)
  rw [tooDeep, Parser.node, reports_complete]
  apply runs.reports.subset
  exact List.mem_append_right _ (List.mem_singleton_self _)

end Grammar

end LispSyntax
