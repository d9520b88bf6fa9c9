import LispSyntax.Proofs.Alternatives
import LispSyntax.Proofs.Reading.Special

/-! # What forms and sources read

The rule for a form makes one form at every depth (`readsForms_form`), which is what the productions
inside it have been assuming. A form takes at least one token, since no node of the table is without
children, so the loop over a whole source gets to its end (`reads_source`).
-/

namespace LispSyntax

namespace Grammar

open LispSyntax.Parser Pattern Draft Outline

variable {form : FormRule} {p : Parser}

/-! ## One form -/

/-- A run that makes one form, and whose result counts unless something is reported. -/
def ReadsForm (p : Parser) (r : Option Completed × Parser) : Prop :=
  Reads p r.2 (fun _ => single IsForm) ∧ (Quiet p r.2 → r.1.isSome = true)

theorem readsForm_counted {r : Completed × Parser} (reads : Reads p r.2 fun _ => single IsForm) :
    ReadsForm p (counted r) :=
  ⟨reads, fun _ => rfl⟩

theorem readsForm_formAt (forms : ReadsForms form) (ready : p.Ready)
    (going : p.atSequenceEnd = false) : ReadsForm p (formAt form p) := by
  obtain ⟨t, ts, rest⟩ := ready.exists_rest_of_going going
  obtain ⟨rule, alternative, formEq⟩ := formAt_cases going rest
  rw [formEq form p (kind_of_rest rest)]
  cases alternative with
  | address isAddress =>
    apply readsForm_counted
    have made := reads_literal rest (by rw [isAddress]; rfl)
    refine reads_infixLookup ready made (by decide) fun _ _ address => ?_
    rw [isAddress] at address
    exact .inl address
  | literal isLiteral => exact readsForm_counted ((reads_literal rest isLiteral).reads_isForm rfl)
  | symbol isSymbol =>
    have made := reads_symbol rest isSymbol
    exact readsForm_counted (reads_infixLookup ready made (by decide) fun _ _ name => .inr name)
  | slash isSlash =>
    have taken : Reads p.begun (p.begun.advanceAs p.slashKind) fun _ =>
        taken p.slashKind fun t => t.kind = .slash :=
      Reads.advanceAs (p := p.begun) rest p.slashKind isSlash
    have made : ReadsNode p .symbol (p.node .symbol fun p => p.advanceAs p.slashKind) _ :=
      ReadsNode.complete rfl taken fun _ _ slash => .inr slash
    exact readsForm_counted (made.reads_isForm rfl)
  | parenthesized isParen => exact readsForm_counted (reads_parenthesized forms ready rest isParen)
  | vector isBracket => exact readsForm_counted (reads_vector forms ready rest isBracket)
  | map isBrace => exact readsForm_counted ((reads_map forms ready rest isBrace).reads_isForm rfl)
  | set isHashBrace => exact readsForm_counted (reads_set forms ready rest isHashBrace)
  | marked isMark => exact readsForm_counted (reads_markedForm forms ready rest isMark)
  | metadata isCaret =>
    have atCaret : p.isAt .caret = true := by simp [isAt, kind_of_rest rest, isCaret]
    exact readsForm_counted (reads_misplacedMetadata forms ready atCaret)
  | unknown isUnknown =>
    have taken : Reads p.begun p.begun.advance fun _ => tokenOf t.kind :=
      Reads.advance (p := p.begun) rest
    rw [isUnknown] at taken
    have made : ReadsNode p .error (p.node .error Parser.advance) _ :=
      ReadsNode.node rfl taken fun _ _ _ unknown => .inl unknown
    exact readsForm_counted (made.reads_isForm rfl)
  | stray =>
    -- A closing token without a place does not count, but it is reported.
    have made := reads_badToken rest (.unexpectedCloser p.kind)
    refine ⟨made.reads_isForm rfl, fun quiet => ?_⟩
    obtain ⟨ds, -, shape⟩ := made
    exact absurd quiet (shape _ id).2.1
  | bad => exact readsForm_counted ((reads_badToken rest _).reads_isForm rfl)

/-- Where a sequence goes on, a form is chosen by the next token. -/
theorem form_of_going (budget : Nat) (going : p.atSequenceEnd = false) :
    Grammar.form (budget + 1) p = formAt (Grammar.form budget) p := by
  simp [Grammar.form, going]

/-- The rule for a form, at every depth, makes one form wherever a sequence goes on. -/
theorem readsForms_form (budget : Nat) : ReadsForms (Grammar.form budget) := by
  have readsForm : ∀ p : Parser, p.Ready → p.atSequenceEnd = false →
      ReadsForm p (Grammar.form budget p) := by
    induction budget with
    | zero =>
      intro p ready going
      have made := reads_tooDeep ready going
      simp only [Grammar.form, going, Bool.false_eq_true, if_false]
      exact readsForm_counted (made.reads_isForm rfl)
    | succ budget ih =>
      intro p ready going
      have forms : ReadsForms (Grammar.form budget) := by
        refine ⟨?_, fun p ready going => (ih p ready going).1, fun p ready going => (ih p ready going).2⟩
        intro p atEnd
        cases budget <;> simp [Grammar.form, atEnd]
      rw [form_of_going budget going]
      exact readsForm_formAt forms ready going
  refine ⟨?_, fun p ready going => (readsForm p ready going).1,
    fun p ready going => (readsForm p ready going).2⟩
  intro p atEnd
  cases budget <;> simp [Grammar.form, atEnd]

/-! ## Progress -/

theorem production_nil (alone : Kind) (quiet : Prop) (kind : Kind) :
    ¬ Recovery.production alone quiet kind [] := by
  cases kind <;>
    simp [Recovery.production, Recovery.delimited, Recovery.special, Recovery.quote,
      Recovery.account, Recovery.name, Recovery.arityParts, Recovery.groupedParts,
      Recovery.bindingParts, Recovery.errorParts, tokenOf, tokenIn, taken]

/-- A node that follows the table has children. -/
theorem children_ne_nil {alone : Kind} {quiet : Prop} {n : Kind × List Draft}
    (follows : Recovery.production alone quiet n.1 n.2) : n.2 ≠ [] := by
  intro empty
  rw [empty] at follows
  exact production_nil _ _ _ follows

theorem rest_lt_of_reads_some {p q : Parser} {pattern : Prop → Pattern (Kind × Token)} (reads : Reads p q pattern)
    (some : ∀ ds, pattern False ds → ds ≠ []) : q.rest.length < p.rest.length := by
  obtain ⟨ds, runs, shape⟩ := reads
  -- Nothing has to be known about reports here, so the table is asked for a run that is not quiet.
  obtain ⟨nodes, follows⟩ := shape False False.elim
  obtain ⟨d, ds, rfl⟩ := List.exists_cons_of_ne_nil (some ds follows)
  have someLeaf : d.leaves ≠ [] := by
    apply leaves_ne_nil
    intro n member
    exact children_ne_nil (nodes n (mem_nodesAll.mpr ⟨d, by simp, member⟩))
  have someToken : 0 < (Draft.tokens d).length := by
    rw [Draft.tokens, List.length_map]
    exact List.length_pos_iff.mpr someLeaf
  rw [runs.rest]
  simp
  omega

theorem rest_lt_of_reads {p q : Parser} {fits : Prop → Draft → Prop}
    (reads : Reads p q fun quiet => single (fits quiet)) : q.rest.length < p.rest.length :=
  rest_lt_of_reads_some reads fun _ => single_ne_nil

theorem rest_lt_sequence (forms : ReadsForms form) (ready : p.Ready) (going : p.atSequenceEnd = false) :
    (sequence form p).rest.length < p.rest.length :=
  rest_lt_of_reads_some (reads_sequence_some forms ready going) fun _ => And.left

/-! ## Sources -/

theorem atSequenceEnd_of_no_frames (frames : p.frames = []) : p.atSequenceEnd = p.isAt .eof := by
  simp [atSequenceEnd, frames]

/-- The loop over a source gets to its end. -/
theorem reads_topLevel (turns : Nat) (ready : p.Ready) (frames : p.frames = [])
    (enough : p.rest.length ≤ turns) :
    Reads p (topLevel turns p) (fun _ => many IsForm) ∧ (topLevel turns p).rest = [] := by
  induction turns generalizing p with
  | zero => exact ⟨Reads.stay fun _ => many_nil _, List.length_eq_zero_iff.mp (Nat.le_zero.mp enough)⟩
  | succ turns ih =>
    rw [topLevel]
    cases atEnd : p.isAt .eof with
    | true =>
      have isEof : p.kind = .eof := by simpa [isAt] using atEnd
      exact ⟨Reads.stay fun _ => many_nil _, ready.rest_eq_nil isEof⟩
    | false =>
      have going : p.atSequenceEnd = false := by rw [atSequenceEnd_of_no_frames frames, atEnd]
      have first := (readsForms_form maxDepth).reads p ready going
      have progress := rest_lt_of_reads first
      have frames' : (Grammar.form maxDepth p).2.frames = [] := by
        obtain ⟨ds, runs, -⟩ := first
        rw [runs.frames, frames]
      obtain ⟨more, ending⟩ := ih (first.ready ready) frames' (by omega)
      refine ⟨(first.followedBy more).imp ?_, ending⟩
      rintro _ ds ⟨us, vs, rfl, one, more⟩
      exact many_append (many_of_single one) more

theorem rest_topLevel (ready : p.Ready) (frames : p.frames = []) :
    (topLevel p.begun.rest.length p.begun).rest = [] :=
  (reads_topLevel p.begun.rest.length ready.begun frames (Nat.le_refl _)).2

/-- What a whole source leaves behind: no fault, and the log of a draft with all the tokens. -/
structure ReadsSource (p q : Parser) (d : Draft) : Prop where
  tokens : d.tokens = p.rest ++ [p.last]
  isSource : ∃ ds, d = .node .source ds
  grows : Grows p d.nodes.length d.nodes.length (Outline.entries [d]) q
  logged : q.Addressed → q.fault = none ∧ ∃ after, q.events.toList = .start .source none :: after ∧
    Event.Spine [] .source after d

/-- The nodes of the draft follow the table. -/
def FollowsTable (p q : Parser) (d : Draft) : Prop :=
  ∀ quiet : Prop, (quiet → Quiet p q) →
    ∀ n ∈ d.nodes, Recovery.production p.slashKind quiet n.1 n.2

theorem reports_takeEnd (p : Parser) : p.takeEnd.reports = p.reports := by
  rw [takeEnd, require]
  split <;> rfl

theorem reports_source (p : Parser) :
    (source p).reports = (topLevel p.begun.rest.length p.begun).reports := by
  rw [source, Parser.node, reports_complete, reports_takeEnd]
  rfl

theorem grows_source (p : Parser) :
    Grows (topLevel p.begun.rest.length p.begun) 0 1 2 (source p) :=
  (grows_takeEnd _).trans (grows_complete _ p.start.1 .source)

/-- What a source adds to its forms needs no slot. -/
theorem addressed_source_iff (p : Parser) :
    (source p).Addressed ↔ (topLevel p.begun.rest.length p.begun).Addressed := by
  constructor
  · exact (grows_source p).addressed
  · intro addressed
    exact addressed_complete (addressed_of_push addressed (events_takeEnd _) rfl) p.start.1 .source

/-- A run over all tokens, whatever it makes of them, leaves the log of its drafts and the end. -/
theorem readsSource_of_runs {ds : List Draft} (ready : p.Ready) (noEvents : p.events = #[])
    (noFault : p.fault = none) (runs : Runs p.begun ds (topLevel p.begun.rest.length p.begun))
    (ending : (topLevel p.begun.rest.length p.begun).rest = []) :
    ReadsSource p (source p) (.node .source (ds ++ [Draft.token .eof p.last])) := by
  have ready' := runs.ready ready.begun
  have met : (topLevel p.begun.rest.length p.begun).isAt .eof = true := by
    simp [isAt, ready'.kind_eq_eof ending]
  have sourceEq : source p =
      ((topLevel p.begun.rest.length p.begun).takeEnd.complete p.start.1 .source).2 := rfl
  generalize topLevel p.begun.rest.length p.begun = q at runs ending met sourceEq
  have taken : q.takeEnd = { q with events := q.events.push (.token .eof) } := by
    rw [takeEnd, require_eq met]
  rw [sourceEq]
  refine ⟨?_, ⟨_, rfl⟩, ?_, fun addressed => ?_⟩
  · have all := runs.rest
    rw [ending, List.append_nil] at all
    simp only [tokens_node, tokensAll_append, ← all]
    rfl
  · refine ((grows_start p).trans (runs.grows.trans ((grows_takeEnd q).trans
      (grows_complete q.takeEnd p.start.1 .source)))).cast ?_ ?_ ?_ <;>
      simp [Outline.nodesAll_append, Outline.nodesAll, Draft.token] <;> omega
  · have addressedEnd := (grows_complete q.takeEnd _ .source).addressed addressed
    have addressedBody := (grows_takeEnd q).addressed addressedEnd
    obtain ⟨fault, es, eventsEq, logs⟩ := runs.appends addressedBody
    have loggedEnd : q.takeEnd.events.toList = p.begun.events.toList ++ (es ++ [.token .eof]) := by
      rw [taken, Array.toList_push, eventsEq, List.append_assoc]
    obtain ⟨events, completed, filled⟩ :=
      complete_eq .source (runs.grows.addressed addressedBody) loggedEnd
    have allLogs : Event.Logs (es ++ [.token .eof]) (ds ++ [Draft.token .eof p.last]) :=
      logs.append (.token .nil)
    rw [completed, taken]
    refine ⟨fault.trans noFault, _, ?_, .plain rfl allLogs⟩
    simpa [noEvents] using filled

/-- The loop over a source makes a run over all tokens, and its nodes follow the table. -/
theorem reads_source (ready : p.Ready) (frames : p.frames = []) :
    ∃ ds, Runs p.begun ds (topLevel p.begun.rest.length p.begun) ∧
      (topLevel p.begun.rest.length p.begun).rest = [] ∧
      FollowsTable p (source p) (.node .source (ds ++ [Draft.token .eof p.last])) := by
  obtain ⟨⟨ds, runs, shape⟩, ending⟩ :=
    reads_topLevel (p := p.begun) p.begun.rest.length ready.begun frames (Nat.le_refl _)
  refine ⟨ds, runs, ending, ?_⟩
  intro quiet silent n member
  obtain ⟨nodes, good⟩ := shape quiet fun h => by
    rw [Quiet, ← reports_source]
    exact silent h
  rw [nodes_node, List.mem_cons] at member
  rcases member with rfl | member
  · exact followedBy_mk good (single_mk ⟨p.last, rfl, ready.last_eof⟩)
  · obtain ⟨d, dMember, nMember⟩ := mem_nodesAll.mp member
    rcases List.mem_append.mp dMember with dMember | dMember
    · exact nodes n (mem_nodesAll.mpr ⟨d, dMember, nMember⟩)
    · rw [List.mem_singleton] at dMember
      subst dMember
      simp at nMember

end Grammar

end LispSyntax
