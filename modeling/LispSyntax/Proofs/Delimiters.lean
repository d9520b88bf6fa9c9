import Mathlib.Logic.Relation
import LispSyntax.Parser

/-! # Delimiters

What the parser reports about delimiters can be told from the tokens alone. `Delimiters.scan` reads them
once with a stack of closing delimiters that are awaited. This module compares the scan with a relation
`Delimiters.Step`, which lists everything the parser can do to its open sequences, to the tokens to come
and to its reports; that each production takes such steps is shown in the modules below this one.

A step keeps the sum of what has been reported and what a scan of the remaining tokens would find, with two
exceptions. A form that is nested too deeply is skipped without matching delimiters up. And where the body
of an arity is a closing delimiter that closes nothing, the arity is closed right after it, in the middle of
a sequence (`Delimiters.ClosedEarly`).
-/

namespace LispSyntax

def StructuralProblem.isDelimiter : StructuralProblem → Bool
  | expectedCloser _ | unexpectedCloser _ => true
  | _ => false

namespace Delimiters

/-! ## The scan -/

def expected (closer : Kind) : String :=
  "expected `" ++ spellingOf closer ++ "`"

def unexpected (closer : Kind) : String :=
  "unexpected `" ++ spellingOf closer ++ "`"

def closers : List Kind :=
  [.rightParen, .rightBracket, .rightBrace]

def messages : List String :=
  closers.flatMap fun closer => [expected closer, unexpected closer]

/-- Reads tokens with a stack of awaited closing delimiters. A closing delimiter that is awaited makes up
for those above it, which are missing; one that is not awaited is skipped. At the end all that are awaited
are missing. -/
@[simp] def scan : List Kind → List Token → List (String × Span)
  | _, [] => []
  | awaited, t :: ts =>
    match t.kind.closer? with
    | some closer => scan (closer :: awaited) ts
    | none =>
      if t.kind = .eof then awaited.map fun closer => (expected closer, t.span)
      else if t.kind.isCloser then
        if t.kind ∈ awaited then
          (awaited.takeWhile (· ≠ t.kind)).map (fun closer => (expected closer, t.span)) ++
            scan (awaited.dropWhile (· ≠ t.kind)).tail ts
        else (unexpected t.kind, t.span) :: scan awaited ts
      else scan awaited ts

/-- What the diagnostics say of delimiters, in their order. -/
def found (ds : List Diagnostic) : List (String × Span) :=
  (ds.filter fun d => d.kind = .structural ∧ d.message ∈ messages).map fun d => (d.message, d.span)

variable {awaited : List Kind} {t u : Token} {ts : List Token}

theorem closer?_eof : Kind.eof.closer? = none := rfl

theorem mem_closers {kind : Kind} (isCloser : kind.isCloser = true) : kind ∈ closers := by
  cases kind <;> first | decide | contradiction

theorem ne_eof_of_isCloser {kind : Kind} (isCloser : kind.isCloser = true) : kind ≠ .eof := by
  rintro rfl
  contradiction

theorem scan_opener {closer : Kind} (opens : t.kind.closer? = some closer) :
    scan awaited (t :: ts) = scan (closer :: awaited) ts := by
  rw [scan, opens]

/-- Neither a delimiter nor the end. -/
def isPlain (kind : Kind) : Bool :=
  kind.closer?.isNone && !kind.isCloser && kind != .eof

theorem scan_plain (plain : isPlain t.kind = true) : scan awaited (t :: ts) = scan awaited ts := by
  simp only [isPlain, Bool.and_eq_true, Option.isNone_iff_eq_none, Bool.not_eq_true', bne_iff_ne] at plain
  obtain ⟨⟨noOpener, noCloser⟩, more⟩ := plain
  rw [scan, noOpener]
  simp only [if_neg more, noCloser, Bool.false_eq_true, if_false]

theorem scan_stray (isCloser : t.kind.isCloser = true) (stray : t.kind ∉ awaited) :
    scan awaited (t :: ts) = (unexpected t.kind, t.span) :: scan awaited ts := by
  rw [scan, Kind.closer?_of_isCloser isCloser]
  simp only [if_neg (ne_eof_of_isCloser isCloser), if_pos isCloser, if_neg stray]

theorem scan_closer (isCloser : t.kind.isCloser = true) :
    scan (t.kind :: awaited) (t :: ts) = scan awaited ts := by
  rw [scan, Kind.closer?_of_isCloser isCloser]
  simp [if_neg (ne_eof_of_isCloser isCloser), isCloser]

/-- The innermost awaited delimiter is missing where an outer one stands, and at the end. -/
theorem scan_missing {closer : Kind} (other : t.kind ≠ closer)
    (ends : t.kind = .eof ∨ t.kind.isCloser = true ∧ t.kind ∈ awaited) :
    scan (closer :: awaited) (t :: ts) = (expected closer, t.span) :: scan awaited (t :: ts) := by
  rcases ends with isEof | ⟨isCloser, member⟩
  · rw [scan, scan, isEof, closer?_eof]
    rfl
  · rw [scan, scan, Kind.closer?_of_isCloser isCloser]
    simp [if_neg (ne_eof_of_isCloser isCloser), isCloser, member, other.symm]

/-- The scan finds nothing but at tokens. -/
theorem span_mem_of_mem_scan {finding : String × Span} (awaited : List Kind) (ts : List Token)
    (member : finding ∈ scan awaited ts) : finding.2 ∈ ts.map (·.span) := by
  fun_induction scan awaited ts with
  | case1 => cases member
  | case2 awaited t ts closer opens inductionHypothesis =>
    exact List.mem_cons_of_mem _ (inductionHypothesis member)
  | case3 awaited t ts plain isEof =>
    obtain ⟨closer, -, rfl⟩ := List.mem_map.mp member
    exact List.mem_cons_self
  | case4 awaited t ts plain more isCloser isAwaited inductionHypothesis =>
    cases List.mem_append.mp member with
    | inl here =>
      obtain ⟨closer, -, rfl⟩ := List.mem_map.mp here
      exact List.mem_cons_self
    | inr later => exact List.mem_cons_of_mem _ (inductionHypothesis later)
  | case5 awaited t ts plain more isCloser stray inductionHypothesis =>
    cases member with
    | head => exact List.mem_cons_self
    | tail _ later => exact List.mem_cons_of_mem _ (inductionHypothesis later)
  | case6 awaited t ts plain more noCloser inductionHypothesis =>
    exact List.mem_cons_of_mem _ (inductionHypothesis member)

/-- Each token starts after those before it. -/
def InOrder (ts : List Token) : Prop :=
  ts.Pairwise fun t u => t.span.start < u.span.start

theorem InOrder.tail (inOrder : InOrder (t :: ts)) : InOrder ts :=
  inOrder.of_cons

theorem InOrder.suffix {us : List Token} (inOrder : InOrder ts) (suffix : us <:+ ts) : InOrder us :=
  inOrder.sublist suffix.sublist

theorem InOrder.start_lt_of_mem_scan (inOrder : InOrder (t :: ts)) {finding : String × Span}
    (member : finding ∈ scan awaited ts) : t.span.start < finding.2.start := by
  obtain ⟨u, inside, spanEq⟩ := List.mem_map.mp (span_mem_of_mem_scan awaited ts member)
  rw [← spanEq]
  exact List.rel_of_pairwise_cons inOrder inside

/-- The scan finds things in the order of their places. -/
theorem pairwise_scan (awaited : List Kind) (ts : List Token) (inOrder : InOrder ts) :
    (scan awaited ts).Pairwise fun a b => a.2.start ≤ b.2.start := by
  -- What is found at one token has one place, and everything after it is found further on.
  have here (awaited : List Kind) (t : Token) :
      (awaited.map fun closer => (expected closer, t.span)).Pairwise fun a b => a.2.start ≤ b.2.start := by
    rw [List.pairwise_map, List.pairwise_iff_getElem]
    intros
    exact Nat.le_refl _
  fun_induction scan awaited ts with
  | case1 => exact List.Pairwise.nil
  | case2 awaited t ts closer opens inductionHypothesis => exact inductionHypothesis inOrder.tail
  | case3 awaited t ts plain isEof => exact here awaited t
  | case4 awaited t ts plain more isCloser isAwaited inductionHypothesis =>
    refine List.pairwise_append.mpr ⟨here _ t, inductionHypothesis inOrder.tail, ?_⟩
    intro a member b member'
    obtain ⟨closer, -, rfl⟩ := List.mem_map.mp member
    exact Nat.le_of_lt (inOrder.start_lt_of_mem_scan member')
  | case5 awaited t ts plain more isCloser stray inductionHypothesis =>
    refine List.pairwise_cons.mpr ⟨fun b member => ?_, inductionHypothesis inOrder.tail⟩
    exact Nat.le_of_lt (inOrder.start_lt_of_mem_scan member)
  | case6 awaited t ts plain more noCloser inductionHypothesis => exact inductionHypothesis inOrder.tail

/-! ## Reports -/

@[simp] theorem found_append (ds es : List Diagnostic) : found (ds ++ es) = found ds ++ found es := by
  simp [found]

theorem found_report (reports : List Report) (report : Report) :
    found ((reports ++ [report]).map Report.diagnostic) =
      found (reports.map Report.diagnostic) ++ found [report.diagnostic] := by
  rw [List.map_append, found_append, List.map_singleton]

theorem mem_found {ds : List Diagnostic} {d : Diagnostic} (member : d ∈ ds) (structural : d.kind = .structural)
    (message : d.message ∈ messages) : (d.message, d.span) ∈ found ds :=
  List.mem_map_of_mem (List.mem_filter.mpr ⟨member, by simp [structural, message]⟩)

theorem expected_mem_messages {closer : Kind} (isCloser : closer.isCloser = true) :
    expected closer ∈ messages :=
  List.mem_flatMap.mpr ⟨closer, mem_closers isCloser, List.mem_cons_self⟩

theorem unexpected_mem_messages {closer : Kind} (isCloser : closer.isCloser = true) :
    unexpected closer ∈ messages :=
  List.mem_flatMap.mpr ⟨closer, mem_closers isCloser, List.mem_cons_of_mem _ List.mem_cons_self⟩

theorem found_singleton {d : Diagnostic} (structural : d.kind = .structural) (message : d.message ∈ messages) :
    found [d] = [(d.message, d.span)] := by
  simp [found, structural, message]

theorem found_expected {closer : Kind} (isCloser : closer.isCloser = true) (span : Span)
    (context : Option String) :
    found [(⟨.expectedCloser closer, span, context⟩ : Report).diagnostic] = [(expected closer, span)] :=
  found_singleton rfl (expected_mem_messages isCloser)

theorem found_unexpected {closer : Kind} (isCloser : closer.isCloser = true) (span : Span)
    (context : Option String) :
    found [(⟨.unexpectedCloser closer, span, context⟩ : Report).diagnostic] = [(unexpected closer, span)] :=
  found_singleton rfl (unexpected_mem_messages isCloser)

/-- In a message about a delimiter, the delimiter is quoted right after the first word. -/
theorem append_not_mem_messages {start rest : String} (long : 11 < start.toList.length)
    (ninth : start.toList[9]? ≠ some '`') (eleventh : start.toList[11]? ≠ some '`') :
    start ++ rest ∉ messages := by
  intro member
  have quoted : ∀ message ∈ messages, message.toList[9]? = some '`' ∨ message.toList[11]? = some '`' := by
    decide
  have quote := quoted _ member
  rw [String.toList_append, List.getElem?_append_left (by omega), List.getElem?_append_left long] at quote
  exact quote.elim ninth eleventh

theorem message_not_mem {problem : StructuralProblem} (other : problem.isDelimiter = false) :
    problem.message ∉ messages := by
  cases problem with
  | expectedCloser => contradiction
  | unexpectedCloser => contradiction
  | nothingAfterMark mark =>
    change "expected a form after `" ++ spellingOf mark ++ "`" ∉ messages
    rw [String.append_assoc]
    exact append_not_mem_messages (by decide) (by decide) (by decide)
  | extraForms form =>
    change "unexpected form, expected `)` to close `" ++ form ++ "`" ∉ messages
    rw [String.append_assoc]
    exact append_not_mem_messages (by decide) (by decide) (by decide)
  | _ => decide

theorem expected_ne_unexpected (closer kind : Kind) : expected closer ≠ unexpected kind := by
  intro same
  have starts := congrArg (·.toList[0]?) same
  simp [expected, unexpected] at starts

theorem found_other {problem : StructuralProblem} (other : problem.isDelimiter = false) (span : Span)
    (context : Option String) : found [(⟨problem, span, context⟩ : Report).diagnostic] = [] := by
  simp [found, Report.diagnostic, message_not_mem other]

/-! ## Steps -/

/-- What the parser knows of delimiters: the open sequences, the tokens to come with the end of the text, and
the reports. -/
structure State where
  frames : List Frame
  tokens : List Token
  reports : List Report

def context (frames : List Frame) : Option String :=
  frames.head?.map (·.name)

def ends (frames : List Frame) (kind : Kind) : Bool :=
  kind == .eof || (kind.isCloser && frames.any (·.closer == kind))

inductive Step : State → State → Prop
  | take {frames t ts reports} (plain : isPlain t.kind = true) :
      Step ⟨frames, t :: ts, reports⟩ ⟨frames, ts, reports⟩
  | enter {frames t ts reports closer} (name : String) (opens : t.kind.closer? = some closer) :
      Step ⟨frames, t :: ts, reports⟩ ⟨⟨closer, name⟩ :: frames, ts, reports⟩
  | leave {frame frames t ts reports} (isCloser : frame.closer.isCloser = true)
      (closes : t.kind = frame.closer) :
      Step ⟨frame :: frames, t :: ts, reports⟩ ⟨frames, ts, reports⟩
  | miss {frame frames t ts reports} (isCloser : frame.closer.isCloser = true)
      (ended : ends (frame :: frames) t.kind = true) (other : t.kind ≠ frame.closer) :
      Step ⟨frame :: frames, t :: ts, reports⟩
        ⟨frames, t :: ts, reports ++ [⟨.expectedCloser frame.closer, t.span, some frame.name⟩]⟩
  | stray {frames t ts reports} (isCloser : t.kind.isCloser = true)
      (going : ends frames t.kind = false) :
      Step ⟨frames, t :: ts, reports⟩
        ⟨frames, ts, reports ++ [⟨.unexpectedCloser t.kind, t.span, context frames⟩]⟩
  | remark {frames ts reports problem} (other : problem.isDelimiter = false) (span : Span)
      (context : Option String) :
      Step ⟨frames, ts, reports⟩ ⟨frames, ts, reports ++ [⟨problem, span, context⟩]⟩
  | closeEarly {frame frames t u ts reports} (isArity : frame = ⟨.rightParen, "arity"⟩)
      (isCloser : t.kind.isCloser = true) (going : ends (frame :: frames) t.kind = false)
      (stillGoing : ends (frame :: frames) u.kind = false) :
      Step ⟨frame :: frames, t :: u :: ts, reports⟩
        ⟨frames, u :: ts, reports ++ [⟨.unexpectedCloser t.kind, t.span, some "arity"⟩,
          ⟨.expectedCloser .rightParen, u.span, some "arity"⟩]⟩
  | skip {frames ts ts' reports reports'} (reported : reports <+: reports')
      (tooDeep : ∃ report ∈ reports', report.problem = .tooDeep) :
      Step ⟨frames, ts, reports⟩ ⟨frames, ts', reports'⟩

/-- Of two neighbouring tokens, the first is a closing delimiter that closes nothing in an arity, and at the
second the parenthesis of the arity is missing, though not to the scan. -/
def ClosedEarly (tokens : List Token) (ds : List Diagnostic) : Prop :=
  ∃ pair ∈ tokens.zip tokens.tail,
    ⟨.structural, unexpected pair.1.kind, pair.1.span, some "arity"⟩ ∈ ds ∧
    ⟨.structural, expected .rightParen, pair.2.span, some "arity"⟩ ∈ ds ∧
    (expected .rightParen, pair.2.span) ∉ scan [] tokens

instance (tokens : List Token) (ds : List Diagnostic) : Decidable (ClosedEarly tokens ds) :=
  inferInstanceAs (Decidable (∃ pair ∈ tokens.zip tokens.tail, _))

theorem ClosedEarly.mono {tokens : List Token} {ds es : List Diagnostic} (early : ClosedEarly tokens ds)
    (more : ds ⊆ es) : ClosedEarly tokens es := by
  obtain ⟨pair, neighbours, stray, missing, unseen⟩ := early
  exact ⟨pair, neighbours, more stray, more missing, unseen⟩

theorem mem_zip_tail {tokens : List Token} (suffix : t :: u :: ts <:+ tokens) :
    (t, u) ∈ tokens.zip tokens.tail := by
  obtain ⟨before, rfl⟩ := suffix
  induction before with
  | nil => simp
  | cons v before inductionHypothesis =>
    cases before with
    | nil => simp
    | cons w before => exact List.mem_cons_of_mem _ inductionHypothesis

namespace State

/-- What has been reported of delimiters, and what a scan of the tokens to come finds. -/
def total (s : State) : List (String × Span) :=
  found (s.reports.map Report.diagnostic) ++ scan (s.frames.map (·.closer)) s.tokens

/-- The parser and the scan are together, and what has been reported lies behind the next token. -/
structure Follows (tokens : List Token) (s : State) : Prop where
  total : s.total = scan [] tokens
  suffix : s.tokens <:+ tokens
  behind : ∀ finding ∈ found (s.reports.map Report.diagnostic), ∀ t ∈ s.tokens,
    finding.2.start ≤ t.span.start

/-- The parser and the scan have parted: the parser did something that the scan does not account for. -/
def Parted (tokens : List Token) (s : State) : Prop :=
  (∃ report ∈ s.reports, report.problem = .tooDeep) ∨ ClosedEarly tokens (s.reports.map Report.diagnostic)

end State

variable {tokens : List Token} {s s' : State}

theorem Step.reports (step : Step s s') : s.reports <+: s'.reports := by
  cases step <;> simp_all

theorem State.Parted.step (parted : s.Parted tokens) (step : Step s s') : s'.Parted tokens := by
  have more := step.reports.subset
  rcases parted with ⟨report, member, tooDeep⟩ | early
  · exact .inl ⟨report, more member, tooDeep⟩
  · exact .inr (early.mono (List.map_subset Report.diagnostic more))

theorem ends_eq_true {frames : List Frame} {kind : Kind} (ended : ends frames kind = true) :
    kind = .eof ∨ kind.isCloser = true ∧ kind ∈ frames.map (·.closer) := by
  simp only [ends, Bool.or_eq_true, Bool.and_eq_true, beq_iff_eq, List.any_eq_true] at ended
  rcases ended with isEof | ⟨isCloser, frame, inside, closerEq⟩
  · exact .inl isEof
  · exact .inr ⟨isCloser, List.mem_map.mpr ⟨frame, inside, closerEq⟩⟩

theorem not_mem_of_ends {frames : List Frame} {kind : Kind} (isCloser : kind.isCloser = true)
    (going : ends frames kind = false) : kind ∉ frames.map (·.closer) := by
  intro member
  obtain ⟨frame, inside, rfl⟩ := List.mem_map.mp member
  have ended : ends frames frame.closer = true := by
    simp only [ends, isCloser, Bool.true_and, Bool.or_eq_true, List.any_eq_true, beq_iff_eq]
    exact .inr ⟨frame, inside, rfl⟩
  rw [going] at ended
  contradiction

theorem InOrder.start_le (inOrder : InOrder (t :: ts)) (later : u ∈ t :: ts) :
    t.span.start ≤ u.span.start := by
  cases later with
  | head => exact Nat.le_refl _
  | tail _ later => exact Nat.le_of_lt (List.rel_of_pairwise_cons inOrder later)

/-- Where a sequence goes on, the scan misses nothing. -/
theorem not_mem_scan_of_going {frames : List Frame} (inOrder : InOrder (t :: ts))
    (going : ends frames t.kind = false) (closer : Kind) :
    (expected closer, t.span) ∉ scan (frames.map (·.closer)) (t :: ts) := by
  have further (awaited : List Kind) : (expected closer, t.span) ∉ scan awaited ts := fun member =>
    Nat.lt_irrefl _ (inOrder.start_lt_of_mem_scan member)
  cases opens : t.kind.closer? with
  | some closer =>
    rw [scan_opener opens]
    exact further _
  | none =>
    cases closes : t.kind.isCloser with
    | true =>
      rw [scan_stray closes (not_mem_of_ends closes going), List.mem_cons, Prod.mk.injEq]
      rintro (⟨sameMessage, -⟩ | later)
      · exact expected_ne_unexpected _ _ sameMessage
      · exact further _ later
    | false =>
      have more : t.kind ≠ .eof := by
        intro isEof
        rw [isEof] at going
        contradiction
      rw [scan_plain (by simp [isPlain, opens, closes, more])]
      exact further _

/-- The parser stays together with the scan if it keeps the sum, and reports nothing of delimiters but at the
next token. -/
theorem State.Follows.next (inOrder : InOrder tokens) (follows : s.Follows tokens)
    (ahead : s.tokens = t :: ts) (total : s'.total = s.total) (suffix : s'.tokens <:+ s.tokens)
    (here : ∀ finding ∈ found (s'.reports.map Report.diagnostic),
      finding ∈ found (s.reports.map Report.diagnostic) ∨ finding.2 = t.span) : s'.Follows tokens := by
  refine ⟨total.trans follows.total, suffix.trans follows.suffix, fun finding member u later => ?_⟩
  have later := suffix.subset later
  cases here finding member with
  | inl before => exact follows.behind finding before u later
  | inr spanEq =>
    have inOrder := inOrder.suffix follows.suffix
    rw [ahead] at inOrder later
    rw [spanEq]
    exact inOrder.start_le later

/-- After a closing delimiter that closes nothing, the scan does not miss a parenthesis in the middle of a
sequence. -/
theorem State.Follows.unseen {frames : List Frame} {reports : List Report} (inOrder : InOrder tokens)
    (follows : State.Follows tokens ⟨frames, t :: u :: ts, reports⟩) (isCloser : t.kind.isCloser = true)
    (going : ends frames t.kind = false) (stillGoing : ends frames u.kind = false) :
    (expected .rightParen, u.span) ∉ scan [] tokens := by
  obtain ⟨total, suffix, behind⟩ := follows
  have inOrder := inOrder.suffix suffix
  have apart : t.span.start < u.span.start := List.rel_of_pairwise_cons inOrder List.mem_cons_self
  rw [← total, State.total, scan_stray isCloser (not_mem_of_ends isCloser going), List.mem_append,
    List.mem_cons, Prod.mk.injEq]
  -- What is found before the second token lies before it, and from there on nothing is missing at it.
  rintro (member | ⟨sameMessage, -⟩ | later)
  · exact Nat.not_lt_of_le (behind _ member t List.mem_cons_self) apart
  · exact expected_ne_unexpected _ _ sameMessage
  · exact not_mem_scan_of_going inOrder.tail stillGoing _ later

/-- One step keeps the parser together with the scan, unless they part. -/
theorem State.Follows.step (inOrder : InOrder tokens) (follows : s.Follows tokens) (step : Step s s') :
    s'.Follows tokens ∨ s'.Parted tokens := by
  -- Only in the last two cases does the parser do what the scan has no rule for.
  cases step with
  | take plain =>
    refine .inl (follows.next inOrder rfl ?_ (List.suffix_cons _ _) fun _ => .inl)
    rw [State.total, State.total, scan_plain plain]
  | enter name opens =>
    refine .inl (follows.next inOrder rfl ?_ (List.suffix_cons _ _) fun _ => .inl)
    rw [State.total, State.total, scan_opener opens]
    rfl
  | leave isCloser closes =>
    refine .inl (follows.next inOrder rfl ?_ (List.suffix_cons _ _) fun _ => .inl)
    rw [State.total, State.total, List.map_cons, ← closes, scan_closer (by rw [closes]; exact isCloser)]
  | @miss frame frames t ts reports isCloser ended other =>
    have atOuter : t.kind = .eof ∨ t.kind.isCloser = true ∧ t.kind ∈ frames.map (·.closer) := by
      simpa [other] using ends_eq_true ended
    refine .inl (follows.next inOrder rfl ?_ (List.suffix_refl _) fun finding member => ?_)
    · rw [State.total, State.total, List.map_cons, scan_missing other atOuter, found_report,
        found_expected isCloser, List.append_assoc]
      rfl
    · rw [found_report, found_expected isCloser, List.mem_append, List.mem_singleton] at member
      exact member.imp_right (congrArg Prod.snd)
  | @stray frames t ts reports isCloser going =>
    refine .inl (follows.next inOrder rfl ?_ (List.suffix_cons _ _) fun finding member => ?_)
    · rw [State.total, State.total, scan_stray isCloser (not_mem_of_ends isCloser going), found_report,
        found_unexpected isCloser, List.append_assoc]
      rfl
    · rw [found_report, found_unexpected isCloser, List.mem_append, List.mem_singleton] at member
      exact member.imp_right (congrArg Prod.snd)
  | remark other span context =>
    obtain ⟨total, suffix, behind⟩ := follows
    refine .inl ⟨?_, suffix, ?_⟩
    · rw [← total, State.total, State.total, found_report, found_other other, List.append_nil]
    · rw [found_report, found_other other, List.append_nil]
      exact behind
  | @closeEarly frame frames t u ts reports isArity isCloser going stillGoing =>
    have unseen := follows.unseen inOrder isCloser going stillGoing
    refine .inr (.inr ⟨(t, u), mem_zip_tail follows.suffix, ?_, ?_, unseen⟩)
    · rw [List.map_append]
      exact List.mem_append_right _ List.mem_cons_self
    · rw [List.map_append]
      exact List.mem_append_right _ (List.mem_cons_of_mem _ List.mem_cons_self)
  | skip reported tooDeep => exact .inr (.inl tooDeep)

/-- Along a run the parser stays together with the scan, unless they part. -/
theorem State.Follows.steps (inOrder : InOrder tokens) (follows : s.Follows tokens)
    (steps : Relation.ReflTransGen Step s s') : s'.Follows tokens ∨ s'.Parted tokens := by
  induction steps with
  | refl => exact .inl follows
  | tail _ step inductionHypothesis =>
    rcases inductionHypothesis with follows | parted
    · exact follows.step inOrder step
    · exact .inr (parted.step step)

end Delimiters

end LispSyntax
