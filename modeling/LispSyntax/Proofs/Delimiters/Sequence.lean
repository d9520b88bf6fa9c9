import LispSyntax.Proofs.Delimiters
import LispSyntax.Proofs.Reading.Form

/-! # How sequences and collections treat delimiters

The operations of the parser and the productions of `Grammar.Sequence` and `Grammar.Collection` as runs of
`Delimiters.Step`. A delimited sequence is closed where it ends, because everything read inside it gets to
the end of the sequence; for the loops this needs that each turn takes a token.
-/

namespace LispSyntax

namespace Parser

open Delimiters Relation

def delimiters (p : Parser) : State :=
  ⟨p.frames, p.rest ++ [p.last], p.reports⟩

/-- The parser gets from one state to the other by steps. -/
def Steps (p q : Parser) : Prop :=
  ReflTransGen Step p.delimiters q.delimiters

/-- The parser gets by steps to the end of a sequence. -/
structure Finishes (p q : Parser) : Prop where
  steps : Steps p q
  ended : q.atSequenceEnd = true

def SkipsStray (p q : Parser) : Prop :=
  ∃ t ts, p.rest = t :: ts ∧ t.kind.isCloser = true ∧
    q.delimiters = ⟨p.frames, ts ++ [p.last], p.reports ++ [⟨.unexpectedCloser t.kind, t.span, p.context⟩]⟩

variable {p q r : Parser} {t : Token} {ts : List Token}

theorem Steps.refl (p : Parser) : Steps p p :=
  ReflTransGen.refl

theorem Steps.trans (first : Steps p q) (second : Steps q r) : Steps p r :=
  ReflTransGen.trans first second

theorem Steps.finishes (first : Steps p q) (second : Finishes q r) : Finishes p r :=
  ⟨first.trans second.steps, second.ended⟩

theorem delimiters_of_rest (rest : p.rest = t :: ts) :
    p.delimiters = ⟨p.frames, t :: (ts ++ [p.last]), p.reports⟩ := by
  rw [delimiters, rest, List.cons_append]

@[simp] theorem delimiters_complete (p : Parser) (m : Marker) (kind : Kind) :
    (p.complete m kind).2.delimiters = p.delimiters := by
  simp only [complete]
  split <;> rfl

@[simp] theorem delimiters_preceded (r : Completed × Parser) :
    (preceded r).delimiters = r.2.delimiters := by
  obtain ⟨events, fault, precededEq⟩ := preceded_eq r
  rw [precededEq]
  rfl

theorem atSequenceEnd_complete (p : Parser) (m : Marker) (kind : Kind) :
    (p.complete m kind).2.atSequenceEnd = p.atSequenceEnd := by
  simp only [complete]
  split <;> rfl

theorem atSequenceEnd_of_rest_eq_nil (ready : p.Ready) (rest : p.rest = []) : p.atSequenceEnd = true := by
  simp [atSequenceEnd, isAt, ready.kind_eq_eof rest]

theorem Ready.complete (ready : p.Ready) (m : Marker) (kind : Kind) : (p.complete m kind).2.Ready := by
  simp only [Parser.complete]
  split <;> exact ⟨ready.last_eof, ready.rest_ne_eof⟩

theorem rest_length_le_of_reads {a : Prop → Pattern (Kind × Token)} (reads : Reads p q a) :
    q.rest.length ≤ p.rest.length := by
  obtain ⟨ds, runs, -⟩ := reads
  rw [runs.rest, List.length_append]
  omega

/-! ## Operations -/

theorem steps_advanceAs (rest : p.rest = t :: ts) (plain : isPlain t.kind = true) (kind : Kind) :
    Steps p (p.advanceAs kind) := by
  have advanced : (p.advanceAs kind).delimiters = ⟨p.frames, ts ++ [p.last], p.reports⟩ := by
    simp [delimiters, advanceAs, rest]
  rw [Steps, delimiters_of_rest rest, advanced]
  exact .single (.take plain)

theorem steps_advance (rest : p.rest = t :: ts) (plain : isPlain t.kind = true) : Steps p p.advance :=
  steps_advanceAs rest plain p.kind

theorem steps_reportAt {problem : StructuralProblem} (other : problem.isDelimiter = false) (p : Parser)
    (span : Span) : Steps p (p.reportAt problem span) :=
  .single (.remark other span p.context)

theorem steps_report {problem : StructuralProblem} (other : problem.isDelimiter = false) (p : Parser) :
    Steps p (p.report problem) :=
  steps_reportAt other p p.current.span

theorem steps_openSequence {closer : Kind} (rest : p.rest = t :: ts) (opens : t.kind.closer? = some closer)
    (name : String) : Steps p (p.openSequence name) := by
  have opened : (p.openSequence name).delimiters =
      ⟨⟨closer, name⟩ :: p.frames, ts ++ [p.last], p.reports⟩ := by
    rw [openSequence_eq rest opens]
    simp [delimiters, advanceAs, rest]
  rw [Steps, delimiters_of_rest rest, opened]
  exact .single (.enter name opens)

theorem Ready.closeSequence_cases {frame : Frame} {outer : List Frame} (ready : p.Ready)
    (frames : p.frames = frame :: outer) (isCloser : frame.closer.isCloser = true) :
    (∃ t ts, p.rest = t :: ts ∧ t.kind = frame.closer ∧
      p.closeSequence.delimiters = ⟨outer, ts ++ [p.last], p.reports⟩) ∨
    (p.kind ≠ frame.closer ∧ p.closeSequence.delimiters =
      ⟨outer, p.rest ++ [p.last],
        p.reports ++ [⟨.expectedCloser frame.closer, p.current.span, some frame.name⟩]⟩) := by
  cases closes : p.isAt frame.closer with
  | true =>
    obtain ⟨t, ts, rest, kindEq⟩ := ready.exists_isAt closes (ne_eof_of_isCloser isCloser)
    refine .inl ⟨t, ts, rest, kindEq, ?_⟩
    simp [closeSequence, frames, closes, delimiters, advance, advanceAs, rest]
  | false =>
    refine .inr ⟨by simpa [isAt] using closes, ?_⟩
    simp [closeSequence, frames, closes, delimiters, report, reportAt, Parser.context]

/-- The tokens to come, with the end, start with the next token. -/
theorem exists_tokens (p : Parser) : ∃ ts, p.rest ++ [p.last] = p.current :: ts := by
  cases rest : p.rest with
  | nil => exact ⟨[], by simp [current, token, rest]⟩
  | cons t ts => exact ⟨ts ++ [p.last], by simp [current, token, rest]⟩

/-- Closing a sequence where one ends takes its closing delimiter or misses it. -/
theorem steps_closeSequence {frame : Frame} {outer : List Frame} (ready : p.Ready)
    (frames : p.frames = frame :: outer) (isCloser : frame.closer.isCloser = true)
    (ended : p.atSequenceEnd = true) : Steps p p.closeSequence := by
  rcases ready.closeSequence_cases frames isCloser with ⟨t, ts, rest, closes, closed⟩ | ⟨other, closed⟩
  · rw [Steps, delimiters_of_rest rest, closed, frames]
    exact .single (.leave isCloser closes)
  · obtain ⟨ts, tokens⟩ := exists_tokens p
    rw [tokens] at closed
    rw [Steps, delimiters, tokens, closed, frames]
    refine .single (.miss isCloser ?_ other)
    rw [← frames]
    exact ended

theorem SkipsStray.steps (stray : SkipsStray p q) (going : p.atSequenceEnd = false) : Steps p q := by
  obtain ⟨t, ts, rest, isCloser, skipped⟩ := stray
  rw [Steps, delimiters_of_rest rest, skipped]
  refine .single (.stray isCloser ?_)
  rw [← kind_of_rest rest]
  exact going

theorem ends_of_kind_eq {frame : Frame} {outer : List Frame} (frames : p.frames = frame :: outer)
    (isCloser : frame.closer.isCloser = true) (kindEq : p.kind = frame.closer) :
    p.atSequenceEnd = true := by
  simp [atSequenceEnd, frames, kindEq, isCloser]

/-- Closing an arity right after a closing delimiter that closes nothing. -/
theorem SkipsStray.steps_closeSequence {outer : List Frame} (stray : SkipsStray p q)
    (going : p.atSequenceEnd = false) (ready : q.Ready) (frames : p.frames = ⟨.rightParen, "arity"⟩ :: outer) :
    Steps p q.closeSequence := by
  have steps := stray.steps going
  obtain ⟨t, ts, rest, isCloser, skipped⟩ := stray
  have framesEq : q.frames = ⟨.rightParen, "arity"⟩ :: outer := by
    rw [← frames]
    exact congrArg State.frames skipped
  cases ended : q.atSequenceEnd with
  | true => exact steps.trans (Parser.steps_closeSequence ready framesEq rfl ended)
  | false =>
    rcases ready.closeSequence_cases framesEq rfl with ⟨u, us, restEq, closes, -⟩ | ⟨-, closed⟩
    · rw [ends_of_kind_eq framesEq rfl (by rw [kind_of_rest restEq, closes])] at ended
      contradiction
    · obtain ⟨us, tokens⟩ := exists_tokens q
      have sameTokens : q.rest ++ [q.last] = ts ++ [p.last] := congrArg State.tokens skipped
      have sameReports : q.reports = p.reports ++ [⟨.unexpectedCloser t.kind, t.span, some "arity"⟩] := by
        have reports := congrArg State.reports skipped
        simpa [delimiters, Parser.context, frames] using reports
      rw [tokens, sameReports, List.append_assoc] at closed
      rw [Steps, delimiters_of_rest rest, ← sameTokens, tokens, closed, frames]
      refine .single (.closeEarly rfl isCloser ?_ ?_)
      · rw [← frames, ← kind_of_rest rest]
        exact going
      · rw [← framesEq]
        exact ended

/-! ## Nodes -/

theorem steps_complete (inside : Steps p.begun q) (m : Marker) (kind : Kind) :
    Steps p (q.complete m kind).2 := by
  rw [Steps, delimiters_complete]
  exact inside

theorem steps_node {body : Parser → Parser} {kind : Kind} (inside : Steps p.begun (body p.begun)) :
    Steps p (p.node kind body).2 :=
  steps_complete inside p.start.1 kind

theorem finishes_node {body : Parser → Parser} {kind : Kind} (inside : Finishes p.begun (body p.begun)) :
    Finishes p (p.node kind body).2 :=
  ⟨steps_node inside.steps, (atSequenceEnd_complete ..).trans inside.ended⟩

theorem steps_wrap {c : Completed} {body : Parser → Parser} {kind : Kind} (made : Steps p q)
    (inside : Steps (preceded (c, q)) (body (preceded (c, q)))) :
    Steps p (q.wrap c kind body).2 := by
  refine made.trans ?_
  rw [Steps, delimiters_preceded] at inside
  rw [Steps, wrap, delimiters_complete]
  exact inside

theorem steps_wrap_id {c : Completed} {kind : Kind} (made : Steps p q) :
    Steps p (q.wrap c kind id).2 :=
  steps_wrap made (.refl (preceded (c, q)))

end Parser

namespace Grammar

open LispSyntax.Parser Delimiters

/-- The rule takes steps, and a form that does not count is a closing delimiter that closes nothing. -/
structure StepsForms (form : FormRule) : Prop extends ReadsForms form where
  steps : ∀ p, p.Ready → p.atSequenceEnd = false → Steps p (form p).2
  uncounted : ∀ p, p.Ready → p.atSequenceEnd = false → (form p).1 = none → SkipsStray p (form p).2

variable {form : FormRule} {p : Parser} {t : Token} {ts : List Token}

theorem StepsForms.rest_lt (forms : StepsForms form) (ready : p.Ready) (going : p.atSequenceEnd = false) :
    (form p).2.rest.length < p.rest.length :=
  rest_lt_of_reads (forms.reads p ready going)

theorem StepsForms.ready (forms : StepsForms form) (ready : p.Ready) : (form p).2.Ready := by
  cases going : p.atSequenceEnd with
  | true =>
    rw [forms.atEnd p going]
    exact ready
  | false => exact (forms.reads p ready going).ready ready

/-! ## Loops over forms -/

/-- Without a token to come there is nothing to do. -/
theorem finishes_of_no_turns (ready : p.Ready) (enough : p.rest.length ≤ 0) : Finishes p p :=
  ⟨.refl p, atSequenceEnd_of_rest_eq_nil ready (List.length_eq_zero_iff.mp (Nat.le_zero.mp enough))⟩

theorem steps_form (forms : StepsForms form) (ready : p.Ready) : Steps p (form p).2 := by
  cases going : p.atSequenceEnd with
  | true =>
    rw [forms.atEnd p going]
    exact .refl p
  | false => exact forms.steps p ready going

theorem finishes_sequenceLoop (forms : StepsForms form) (turns : Nat) (ready : p.Ready)
    (enough : p.rest.length ≤ turns) : Finishes p (sequenceLoop form turns p) := by
  induction turns generalizing p with
  | zero => exact finishes_of_no_turns ready enough
  | succ turns inductionHypothesis =>
    rw [sequenceLoop]
    cases going : p.atSequenceEnd with
    | true => exact ⟨.refl p, going⟩
    | false =>
      have progress := forms.rest_lt ready going
      exact (forms.steps p ready going).finishes (inductionHypothesis (forms.ready ready) (by omega))

theorem finishes_sequence (forms : StepsForms form) (ready : p.Ready) : Finishes p (sequence form p) :=
  finishes_sequenceLoop forms p.rest.length ready (Nat.le_refl _)

theorem steps_expectForm (forms : StepsForms form) (ready : p.Ready) {missing : StructuralProblem}
    (other : missing.isDelimiter = false) : Steps p (expectForm form missing p).2 := by
  rw [expectForm]
  cases going : p.atSequenceEnd with
  | true => exact steps_report other p
  | false => exact forms.steps p ready going

theorem finishes_recover (forms : StepsForms form) (ready : p.Ready) {problem : StructuralProblem}
    (other : problem.isDelimiter = false) : Finishes p (recover form problem p) := by
  have reported := steps_report other p
  have ready' := (runs_report p problem).ready ready
  rw [recover, restAsError]
  cases going : (p.report problem).atSequenceEnd with
  | true => exact ⟨reported, going⟩
  | false =>
    exact reported.finishes (finishes_node (finishes_sequence forms ready'.begun))

/-! ## Single tokens -/

theorem isPlain_of_isLiteralToken {kind : Kind} (isLiteral : kind.isLiteralToken = true) :
    isPlain kind = true := by
  cases kind <;> first | rfl | contradiction

theorem isPlain_of_isSymbolToken {kind : Kind} (isSymbol : kind.isSymbolToken = true) :
    isPlain kind = true := by
  cases kind <;> first | rfl | contradiction

theorem steps_literal (rest : p.rest = t :: ts) (isLiteral : t.kind.isLiteralToken = true) :
    Steps p (literal p).2 := by
  rw [literal, require_eq (by rw [kind_of_rest rest, isLiteral])]
  exact steps_node (steps_advance (p := p.begun) rest (isPlain_of_isLiteralToken isLiteral))

theorem steps_symbol (rest : p.rest = t :: ts) (isSymbol : t.kind.isSymbolToken = true) :
    Steps p (symbol p).2 := by
  rw [symbol, require_eq (by rw [kind_of_rest rest, isSymbol])]
  exact steps_node (steps_advance (p := p.begun) rest (isPlain_of_isSymbolToken isSymbol))

theorem rest_symbol (rest : p.rest = t :: ts) (isSymbol : t.kind.isSymbolToken = true) :
    (symbol p).2.rest = ts := by
  rw [symbol, require_eq (by rw [kind_of_rest rest, isSymbol]), Parser.node, rest_complete]
  exact rest_advanceAs (p := p.begun) rest _

theorem steps_name (ready : p.Ready) (isSymbol : p.atSymbol = true) : Steps p (symbol p).2 := by
  obtain ⟨t, ts, rest, isSymbol⟩ := ready.exists_symbol isSymbol
  exact steps_symbol rest isSymbol

theorem steps_badToken (rest : p.rest = t :: ts) (plain : isPlain t.kind = true)
    {problem : StructuralProblem} (other : problem.isDelimiter = false) :
    Steps p (badToken problem p).2 := by
  have taken : Steps (p.begun.report problem) (p.begun.report problem).advance := steps_advance rest plain
  exact steps_node ((steps_report other p.begun).trans taken)

theorem skipsStray_badToken (rest : p.rest = t :: ts) (isCloser : t.kind.isCloser = true) :
    SkipsStray p (badToken (.unexpectedCloser p.kind) p).2 := by
  refine ⟨t, ts, rest, isCloser, ?_⟩
  rw [badToken, Parser.node, delimiters_complete, kind_of_rest rest]
  simp [delimiters, report, reportAt, advance, advanceAs, start, Parser.context, current, token, rest]

theorem steps_infixLookup {r : Completed × Parser} (made : Steps p r.2) (ready : r.2.Ready) :
    Steps p (infixLookup r).2 := by
  rw [infixLookup]
  split
  · rename_i touching
    simp only [Bool.and_eq_true] at touching
    obtain ⟨⟨⟨atSlash, -⟩, -⟩, isSymbol⟩ := touching
    obtain ⟨t, ts, rest, isSlash⟩ := ready.exists_isAt atSlash (by decide)
    have restEq : (preceded r).rest = t :: ts := (rest_preceded r).trans rest
    obtain ⟨u, us, rfl, uSymbol⟩ := ready.exists_symbol_after rest isSymbol
    have nameAhead : (preceded r).advance.rest = u :: us := rest_advanceAs restEq _
    have slash := steps_advance restEq (by rw [isSlash]; rfl)
    exact steps_wrap made (slash.trans (steps_symbol nameAhead uSymbol))
  · exact made

/-! ## Skipping -/

/-- Skipping a form that is nested too deeply is one step. -/
theorem steps_tooDeep (ready : p.Ready) (going : p.atSequenceEnd = false) : Steps p (tooDeep p).2 := by
  obtain ⟨ds, makes, -⟩ := reads_tooDeep ready going
  have framesEq := makes.runs.frames
  have reported := makes.runs.reports
  have tooDeep : ∃ report ∈ (tooDeep p).2.reports, report.problem = .tooDeep := by
    have ready' := (runs_report p.begun .tooDeep).ready ready.begun
    have marks := reads_skipMarks (p.begun.report .tooDeep).rest.length ready'
    obtain ⟨es, runs, -⟩ := marks.followedBy (reads_skipOne (marks.ready ready'))
    refine ⟨⟨.tooDeep, p.begun.current.span, p.begun.context⟩, ?_, rfl⟩
    rw [Grammar.tooDeep, Parser.node, reports_complete]
    apply runs.reports.subset
    simp [report, reportAt]
  rw [Steps, delimiters, delimiters, framesEq]
  exact .single (.skip reported tooDeep)

/-! ## Delimited sequences -/

/-- Opening a sequence and closing it where it ends. -/
theorem steps_between {q : Parser} {closer : Kind} {a : Prop → Pattern (Kind × Token)} {name : String}
    (ready : p.Ready) (rest : p.rest = t :: ts) (opens : t.kind.closer? = some closer)
    (reads : Reads (p.openSequence name) q a) (inside : Finishes (p.openSequence name) q) :
    Steps p q.closeSequence := by
  obtain ⟨ds, runs, -⟩ := reads
  have framesEq : q.frames = ⟨closer, name⟩ :: p.frames :=
    runs.frames.trans (frames_openSequence rest opens name)
  have ready' : q.Ready := runs.ready (ready.openSequence rest opens name)
  have closed := steps_closeSequence ready' framesEq (Kind.isCloser_of_closer? opens) inside.ended
  exact ((steps_openSequence rest opens name).trans inside.steps).trans closed

/-- A node around a delimited sequence, if whatever is read inside it gets to the end. -/
theorem steps_enclosed {closer : Kind} {a : Prop → Pattern (Kind × Token)} (name : String) (kind : Kind)
    (body : Parser → Parser) (ready : p.Ready) (rest : p.rest = t :: ts)
    (opens : t.kind.closer? = some closer) (reads : ∀ q : Parser, q.Ready → Reads q (body q) a)
    (inside : ∀ q : Parser, q.Ready → Finishes q (body q)) :
    Steps p (p.node kind fun p => (body (p.openSequence name)).closeSequence).2 := by
  have opened : (p.begun.openSequence name).Ready := ready.begun.openSequence rest opens name
  have closed : Steps p.begun (body (p.begun.openSequence name)).closeSequence :=
    steps_between ready.begun rest opens (reads _ opened) (inside _ opened)
  exact steps_node closed

theorem steps_delimited {closer : Kind} (forms : StepsForms form) (ready : p.Ready) (rest : p.rest = t :: ts)
    (opens : t.kind.closer? = some closer) (name : String) (kind : Kind) :
    Steps p (delimited name kind form p).2 :=
  steps_enclosed name kind (sequence form) ready rest opens
    (fun _ ready => reads_sequence forms.toReadsForms ready) fun _ ready => finishes_sequence forms ready

/-! ## Maps and metadata -/

theorem finishes_entriesLoop (forms : StepsForms form) (turns : Nat) (entries : Entries) (ready : p.Ready)
    (enough : p.rest.length ≤ turns) : Finishes p (entriesLoop form turns entries p).2 := by
  induction turns generalizing p entries with
  | zero => exact finishes_of_no_turns ready enough
  | succ turns inductionHypothesis =>
    rw [entriesLoop]
    cases going : p.atSequenceEnd with
    | true => exact ⟨.refl p, going⟩
    | false =>
      have first := forms.steps p ready going
      have progress := forms.rest_lt ready going
      have ready' := forms.ready ready
      simp only [Bool.false_eq_true, if_false]
      generalize form p = result at first progress ready'
      obtain ⟨counted, q⟩ := result
      have enough' : q.rest.length ≤ turns := by
        simp only at progress
        omega
      cases counted with
      | some entry => exact first.finishes (inductionHypothesis _ ready' enough')
      | none => exact first.finishes (inductionHypothesis entries ready' enough')

theorem finishes_checkPaired {q : Parser} (entries : Entries) (finishes : Finishes p q) :
    Finishes p (checkPaired entries q) := by
  rw [checkPaired]
  split
  · split
    · exact ⟨finishes.steps.trans (steps_reportAt rfl q _), finishes.ended⟩
    · exact finishes
  · exact finishes

theorem steps_map (forms : StepsForms form) (ready : p.Ready) (rest : p.rest = t :: ts)
    (isBrace : t.kind = .leftBrace) : Steps p (map form p).2 :=
  steps_enclosed "map" .mapForm
    (fun q => checkPaired (entriesLoop form q.rest.length ⟨0, none⟩ q).1
      (entriesLoop form q.rest.length ⟨0, none⟩ q).2)
    ready rest (by rw [isBrace]; rfl)
    (fun q ready => reads_entries forms.toReadsForms q.rest.length ready)
    fun q ready => finishes_checkPaired _
      (finishes_entriesLoop forms q.rest.length ⟨0, none⟩ ready (Nat.le_refl _))

theorem steps_metadataBody (forms : StepsForms form) (ready : p.Ready) :
    Steps p (metadataBody form p) := by
  rw [metadataBody]
  split
  · rename_i isBrace
    obtain ⟨t, ts, rest, isBrace⟩ := ready.exists_isAt isBrace (by decide)
    exact steps_map forms ready rest isBrace
  · have reported : Steps p (p.report .noMetadataMap) := steps_report rfl p
    dsimp only
    split
    · exact reported
    · exact reported.trans (steps_form forms ((runs_report p _).ready ready))

theorem steps_metadata (forms : StepsForms form) (ready : p.Ready) (isCaret : p.isAt .caret = true) :
    Steps p (metadata form p).2 := by
  obtain ⟨t, ts, rest, kindEq⟩ := ready.exists_isAt isCaret (by decide)
  have taken : Steps p.begun p.begun.advance := steps_advance (p := p.begun) rest (by rw [kindEq]; rfl)
  have ready' : p.begun.advance.Ready := (runs_advance (p := p.begun) rest).ready ready.begun
  rw [metadata, require_eq isCaret]
  exact steps_node (taken.trans (steps_metadataBody forms ready'))

theorem steps_optionalMetadata (forms : StepsForms form) (ready : p.Ready) :
    Steps p (metadata? form p) := by
  rw [metadata?]
  split
  · rename_i isCaret
    exact steps_metadata forms ready isCaret
  · exact .refl p

theorem steps_misplacedMetadata (forms : StepsForms form) (ready : p.Ready)
    (isCaret : p.isAt .caret = true) : Steps p (misplacedMetadata form p).2 := by
  have made := steps_metadata forms ready isCaret
  rw [misplacedMetadata]
  dsimp only
  cases hasMap : p.nth 1 == .leftBrace with
  | true =>
    have reported : Steps (metadata form p).2 ((metadata form p).2.reportAt .misplacedMetadata
        ((metadata form p).2.spanOf (metadata form p).1)) := steps_reportAt rfl ..
    rw [if_pos rfl]
    exact steps_wrap_id (made.trans reported)
  | false =>
    rw [if_neg Bool.false_ne_true]
    exact steps_wrap_id made

/-! ## Quotes -/

theorem steps_markedForm (forms : StepsForms form) (ready : p.Ready) (rest : p.rest = t :: ts)
    (plain : isPlain t.kind = true) : Steps p (markedForm form p).2 := by
  have taken : Steps p.begun p.begun.advance := steps_advance (p := p.begun) rest plain
  have ready' : p.begun.advance.Ready := (runs_advance (p := p.begun) rest).ready ready.begun
  rw [markedForm]
  refine steps_node (taken.trans ?_)
  dsimp only
  split
  · exact steps_report rfl _
  · rename_i going
    exact forms.steps _ ready' (by simpa using going)

end Grammar

end LispSyntax
