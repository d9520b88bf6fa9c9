import LispSyntax.Parser
import LispSyntax.Proofs.Pattern
import LispSyntax.Proofs.Replay

/-! # Runs of the parser

`Parser.Runs p ds p'` says what a stretch of parsing does that starts in `p` and ends in `p'`: it takes
the tokens of the drafts `ds` off the front of the tokens to come, it appends a log of these drafts to the
events and perhaps reports to the reports, and it leaves everything else as it was, the fault included. What
it says of the log holds if all starts in it have slots; otherwise only the counts are right.
Runs compose, and every operation of the parser is one. A run that makes one node also says where the
node's start is logged (`Parser.Makes`), because a parent that comes later has to find it.

Nothing here depends on the grammar; a production is described by putting these lemmas together.
-/

namespace LispSyntax

namespace Parser

/-! ## States -/

/-- The tokens to come are not the end of the text, and the last one is. -/
structure Ready (p : Parser) : Prop where
  last_eof : p.last.kind = .eof
  rest_ne_eof : ∀ t ∈ p.rest, t.kind ≠ .eof

/-- Nothing is reported between the two states. -/
def Quiet (p p' : Parser) : Prop :=
  p'.reports = p.reports

theorem kind_of_rest {p : Parser} {t : Token} {ts : List Token} (rest : p.rest = t :: ts) :
    p.kind = t.kind := by
  simp [kind, current, token, rest]

theorem current_of_rest {p : Parser} {t : Token} {ts : List Token} (rest : p.rest = t :: ts) :
    p.current = t := by
  simp [current, token, rest]

theorem Ready.kind_eq_eof {p : Parser} (ready : p.Ready) (rest : p.rest = []) : p.kind = .eof := by
  simp [kind, current, token, rest, ready.last_eof]

theorem Ready.exists_rest {p : Parser} (ready : p.Ready) (notEnd : p.kind ≠ .eof) :
    ∃ t ts, p.rest = t :: ts := by
  cases rest : p.rest with
  | nil => exact absurd (ready.kind_eq_eof rest) notEnd
  | cons t ts => exact ⟨t, ts, rfl⟩

theorem Ready.rest_eq_nil {p : Parser} (ready : p.Ready) (atEnd : p.kind = .eof) : p.rest = [] := by
  cases rest : p.rest with
  | nil => rfl
  | cons t ts =>
    have notEnd := ready.rest_ne_eof t (by simp [rest])
    rw [kind_of_rest rest] at atEnd
    contradiction

theorem kind_ne_eof_of_not_atSequenceEnd {p : Parser} (going : p.atSequenceEnd = false) :
    p.kind ≠ .eof := by
  intro atEnd
  simp [atSequenceEnd, isAt, atEnd] at going

theorem Ready.exists_rest_of_going {p : Parser} (ready : p.Ready)
    (going : p.atSequenceEnd = false) : ∃ t ts, p.rest = t :: ts :=
  ready.exists_rest (kind_ne_eof_of_not_atSequenceEnd going)

theorem isSymbolToken_ne_eof {kind : Kind} (isSymbol : kind.isSymbolToken = true) : kind ≠ .eof := by
  rintro rfl
  contradiction

theorem Ready.exists_symbol {p : Parser} (ready : p.Ready) (isSymbol : p.atSymbol = true) :
    ∃ t ts, p.rest = t :: ts ∧ t.kind.isSymbolToken = true := by
  obtain ⟨t, ts, rest⟩ := ready.exists_rest (isSymbolToken_ne_eof isSymbol)
  exact ⟨t, ts, rest, by rw [← kind_of_rest rest]; exact isSymbol⟩

/-- A name behind the next token is one of the tokens to come, as it is not the end. -/
theorem Ready.exists_symbol_after {p : Parser} {t : Token} {ts : List Token} (ready : p.Ready)
    (rest : p.rest = t :: ts) (isSymbol : (p.nth 1).isSymbolToken = true) :
    ∃ u us, ts = u :: us ∧ u.kind.isSymbolToken = true := by
  cases ts with
  | nil =>
    simp [nth, token, rest, ready.last_eof] at isSymbol
    contradiction
  | cons u us => exact ⟨u, us, rfl, by simpa [nth, token, rest] using isSymbol⟩

theorem Ready.exists_isAt {p : Parser} (ready : p.Ready) {kind : Kind} (isAt : p.isAt kind = true)
    (notEnd : kind ≠ .eof) : ∃ t ts, p.rest = t :: ts ∧ t.kind = kind := by
  have kindEq : p.kind = kind := by simpa [Parser.isAt] using isAt
  obtain ⟨t, ts, rest⟩ := ready.exists_rest (by rw [kindEq]; exact notEnd)
  exact ⟨t, ts, rest, by rw [← kind_of_rest rest]; exact kindEq⟩

theorem isLiteralToken_of_isAt_address {p : Parser} (isAddress : p.isAt .address = true) :
    p.kind.isLiteralToken = true := by
  rw [isAt, beq_iff_eq] at isAddress
  rw [isAddress]
  rfl

/-- Where nothing is open yet a token that opens something closes nothing. -/
theorem not_closes_of_isOpen {p : Parser} {depth : Nat} (isOpen : depth = 0 → p.kind.isOpener = true) :
    (!(p.kind.isCloser && depth == 0)) = true := by
  by_cases empty : depth = 0
  · have opener := isOpen empty
    cases kindEq : p.kind <;> rw [kindEq] at opener <;> first | rfl | contradiction
  · simp [empty]

/-! ## Runs -/

/-- There is no new fault, and the entries that are appended are a log of the drafts. -/
def Appends (p : Parser) (ds : List Draft) (p' : Parser) : Prop :=
  p'.fault = p.fault ∧ ∃ es, p'.events.toList = p.events.toList ++ es ∧ Event.Logs es ds

/-- Parsing from `p` to `p'` takes the tokens of the drafts, logs the drafts, and may report. -/
structure Runs (p : Parser) (ds : List Draft) (p' : Parser) : Prop where
  rest : p.rest = Draft.tokensAll ds ++ p'.rest
  last : p'.last = p.last
  previous : p'.previous = (Draft.tokensAll ds).getLast?.or p.previous
  slash : p'.slashKind = p.slashKind
  frames : p'.frames = p.frames
  reports : p.reports <+: p'.reports
  grows : Grows p (Outline.nodesAll ds).length (Outline.nodesAll ds).length (Outline.entries ds) p'
  appends : p'.Addressed → Appends p ds p'

theorem Appends.refl (p : Parser) : Appends p [] p :=
  ⟨rfl, [], by simp, .nil⟩

theorem Appends.trans {p q r : Parser} {ds es : List Draft} (first : Appends p ds q) (second : Appends q es r) :
    Appends p (ds ++ es) r := by
  obtain ⟨fault, before, beforeEq, beforeLogs⟩ := first
  obtain ⟨fault', after, afterEq, afterLogs⟩ := second
  exact ⟨fault'.trans fault, before ++ after, by rw [afterEq, beforeEq, List.append_assoc],
    beforeLogs.append afterLogs⟩

namespace Runs

theorem refl (p : Parser) : Runs p [] p where
  rest := rfl
  last := rfl
  previous := rfl
  slash := rfl
  frames := rfl
  reports := List.prefix_refl _
  grows := .refl p
  appends _ := .refl p

theorem trans {p q r : Parser} {ds es : List Draft} (first : Runs p ds q) (second : Runs q es r) :
    Runs p (ds ++ es) r where
  rest := by rw [first.rest, second.rest, Draft.tokensAll_append, List.append_assoc]
  last := second.last.trans first.last
  previous := by
    rw [second.previous, first.previous, Draft.tokensAll_append, List.getLast?_append, Option.or_assoc]
  slash := second.slash.trans first.slash
  frames := second.frames.trans first.frames
  reports := first.reports.trans second.reports
  grows := by
    rw [Outline.nodesAll_append, List.length_append, Outline.entries_append]
    exact first.grows.trans second.grows
  appends addressed := (first.appends (second.grows.addressed addressed)).trans (second.appends addressed)

theorem ready {p q : Parser} {ds : List Draft} (runs : Runs p ds q) (ready : p.Ready) : q.Ready where
  last_eof := by rw [runs.last, ready.last_eof]
  rest_ne_eof := fun t member => ready.rest_ne_eof t (by simp [runs.rest, member])

theorem rest_le {p q : Parser} {ds : List Draft} (runs : Runs p ds q) : q.rest.length ≤ p.rest.length := by
  rw [runs.rest, List.length_append]
  exact Nat.le_add_left _ _

theorem previous_ne_none {p q : Parser} {ds : List Draft} (runs : Runs p ds q)
    (progress : q.rest.length < p.rest.length) : q.previous ≠ none := by
  have whole := congrArg List.length runs.rest
  rw [List.length_append] at whole
  have someToken : Draft.tokensAll ds ≠ [] := List.ne_nil_of_length_pos (by omega)
  rw [runs.previous, List.getLast?_eq_some_getLast someToken]
  exact Option.some_ne_none _

theorem size_eq {p q : Parser} {ds : List Draft} (runs : Runs p ds q) (addressed : q.Addressed) :
    q.events.size = p.events.size + Outline.entries ds := by
  obtain ⟨-, es, eventsEq, logs⟩ := runs.appends addressed
  rw [← Array.length_toList, eventsEq, List.length_append, logs.length_eq, Array.length_toList]

/-- A run logs one list of drafts, if all starts have slots. -/
theorem unique {p q : Parser} {ds es : List Draft} (runs : Runs p ds q) (runs' : Runs p es q)
    (addressed : q.Addressed) : ds = es := by
  obtain ⟨-, log, eventsEq, logs⟩ := runs.appends addressed
  obtain ⟨-, log', eventsEq', logs'⟩ := runs'.appends addressed
  obtain rfl : log = log' := List.append_cancel_left (eventsEq.symm.trans eventsEq')
  exact logs.unique logs' (List.append_cancel_right (runs.rest.symm.trans runs'.rest))

theorem quiet_left {p q r : Parser} {ds es : List Draft} (first : Runs p ds q) (second : Runs q es r)
    (quiet : Quiet p r) : Quiet p q := by
  -- Reports only grow, so the first part cannot report more than the whole.
  have back := second.reports
  rw [quiet] at back
  exact (first.reports.eq_of_length_le back.length_le).symm

theorem quiet_right {p q r : Parser} {ds es : List Draft} (first : Runs p ds q)
    (second : Runs q es r) (quiet : Quiet p r) : Quiet q r := by
  have same := quiet_left first second quiet
  unfold Quiet at *
  rw [quiet, same]

end Runs

/-! ## Tokens and reports -/

theorem runs_advanceAs {p : Parser} {t : Token} {ts : List Token} (rest : p.rest = t :: ts)
    (kind : Kind) : Runs p [Draft.token kind t] (p.advanceAs kind) where
  rest := by simp [advanceAs, rest]
  last := by simp [advanceAs, rest]
  previous := by simp [advanceAs, rest]
  slash := by simp [advanceAs, rest]
  frames := by simp [advanceAs, rest]
  reports := by simp [advanceAs, rest]
  grows := grows_advanceAs p kind
  appends _ := ⟨by simp [advanceAs, rest], [.token kind], by simp [advanceAs, rest], .token .nil⟩

theorem rest_advanceAs {p : Parser} {t : Token} {ts : List Token} (rest : p.rest = t :: ts)
    (kind : Kind) : (p.advanceAs kind).rest = ts := by
  simp [advanceAs, rest]

theorem quiet_advanceAs {p : Parser} {t : Token} {ts : List Token} (rest : p.rest = t :: ts)
    (kind : Kind) : Quiet p (p.advanceAs kind) := by
  simp [Quiet, advanceAs, rest]

theorem runs_advance {p : Parser} {t : Token} {ts : List Token} (rest : p.rest = t :: ts) :
    Runs p [Draft.token t.kind t] p.advance := by
  rw [advance, kind_of_rest rest]
  exact runs_advanceAs rest t.kind

theorem runs_reportAt (p : Parser) (problem : StructuralProblem) (span : Span) :
    Runs p [] (p.reportAt problem span) where
  rest := rfl
  last := rfl
  previous := rfl
  slash := rfl
  frames := rfl
  reports := List.prefix_append _ _
  grows := grows_reportAt p problem span
  appends _ := ⟨rfl, [], by simp [reportAt], .nil⟩

theorem runs_report (p : Parser) (problem : StructuralProblem) : Runs p [] (p.report problem) :=
  runs_reportAt p problem _

theorem not_quiet_reportAt (p : Parser) (problem : StructuralProblem) (span : Span) :
    ¬ Quiet p (p.reportAt problem span) := by
  simp [Quiet, reportAt]

theorem not_quiet_report (p : Parser) (problem : StructuralProblem) : ¬ Quiet p (p.report problem) :=
  not_quiet_reportAt p problem _

theorem require_eq {p : Parser} {condition : Bool} (holds : condition = true) (f : Fault) :
    p.require condition f = p := by
  rw [require, if_pos holds]

/-! ## Nodes -/

def begun (p : Parser) : Parser :=
  p.start.2

theorem Ready.begun {p : Parser} (ready : p.Ready) : p.begun.Ready :=
  ⟨ready.last_eof, ready.rest_ne_eof⟩

/-- Completing a node touches nothing but the log, unless it is a fault. -/
theorem completed_eq (p : Parser) (m : Marker) (kind : Kind) :
    ∃ events fault, (p.complete m kind).2 = { p with events := events, fault := fault } := by
  simp only [complete]
  split <;> exact ⟨_, _, rfl⟩

@[simp] theorem reports_complete (p : Parser) (m : Marker) (kind : Kind) :
    (p.complete m kind).2.reports = p.reports := by
  obtain ⟨events, fault, completed⟩ := completed_eq p m kind
  rw [completed]

@[simp] theorem rest_complete (p : Parser) (m : Marker) (kind : Kind) :
    (p.complete m kind).2.rest = p.rest := by
  obtain ⟨events, fault, completed⟩ := completed_eq p m kind
  rw [completed]

theorem rest_node (p : Parser) (kind : Kind) (body : Parser → Parser) :
    (p.node kind body).2.rest = (body p.begun).rest :=
  rest_complete ..

@[simp] theorem slot_complete (p : Parser) (m : Marker) (kind : Kind) : (p.complete m kind).1.slot = m.slot := by
  simp only [complete]
  split <;> rfl

/-- The run makes one node, whose outermost start is logged at the slot of the result. -/
structure Makes (p : Parser) (d : Draft) (r : Completed × Parser) : Prop where
  runs : Runs p [d] r.2
  spine : r.2.Addressed → ∃ before kind after,
    r.2.events.toList = p.events.toList ++ (before ++ .start kind none :: after) ∧
    Event.Spine before kind after d ∧ r.1.slot.toNat = p.events.toList.length + before.length

/-- Completing the node of a marker fills in the start that the marker stands for and logs the end. -/
theorem complete_slot_eq {q : Parser} {before after : List Event} {m : Marker} (kind : Kind)
    (eventsEq : q.events.toList = before ++ Event.tombstone :: after)
    (slotEq : m.slot.toNat = before.length) :
    ∃ events, (q.complete m kind).2 = { q with events := events } ∧
      events.toList = before ++ .start kind none :: (after ++ [.finish]) := by
  have found : q.events[m.slot.toNat]? = some (.start .tombstone none) := by
    rw [← Array.getElem?_toList, eventsEq, slotEq]
    simp [Event.tombstone]
  refine ⟨(q.events.setIfInBounds m.slot.toNat (.start kind none)).push .finish, ?_, ?_⟩
  · simp [complete, found]
  · simp [eventsEq, slotEq]

/-- Completing a node fills its start in and logs its end, after whatever was logged in between. -/
theorem complete_eq {p q : Parser} {es : List Event} (kind : Kind) (addressed : p.begun.Addressed)
    (eventsEq : q.events.toList = p.begun.events.toList ++ es) :
    ∃ events, (q.complete p.start.1 kind).2 = { q with events := events } ∧
      events.toList = p.events.toList ++ .start kind none :: (es ++ [.finish]) := by
  have begunEvents : p.begun.events.toList = p.events.toList ++ [Event.tombstone] := by
    simp [begun, start]
  have logged : q.events.toList = p.events.toList ++ Event.tombstone :: es := by
    rw [eventsEq, begunEvents, List.append_assoc]
    rfl
  exact complete_slot_eq kind logged (toNat_slot_start addressed)

theorem grows_node {p q : Parser} {ds : List Draft} (m : Marker) (kind : Kind) (body : Runs p.begun ds q) :
    Grows p (Outline.nodesAll [.node kind ds]).length (Outline.nodesAll [.node kind ds]).length
      (Outline.entries [.node kind ds]) (q.complete m kind).2 := by
  refine ((grows_start p).trans (body.grows.trans (grows_complete q m kind))).cast ?_ ?_ ?_ <;>
    simp [Outline.nodesAll] <;> omega

/-- Starting a node in `p`, filling it by a run that ends in `q`, and completing it makes the node. -/
theorem makes_complete {p q : Parser} {ds : List Draft} {kind : Kind} (label : kind.isLabel = true)
    (body : Runs p.begun ds q) :
    Makes p (.node kind ds) (q.complete p.start.1 kind) := by
  have grows := grows_node p.start.1 kind body
  have spine : (q.complete p.start.1 kind).2.Addressed → ∃ es,
      (q.complete p.start.1 kind).2.events.toList = p.events.toList ++ .start kind none :: (es ++ [.finish]) ∧
      Event.Spine [] kind (es ++ [.finish]) (.node kind ds) ∧ (q.complete p.start.1 kind).2.fault = p.fault ∧
      p.start.1.slot.toNat = p.events.size := by
    intro addressed
    have addressed := (grows_complete q _ kind).addressed addressed
    have begun := body.grows.addressed addressed
    obtain ⟨fault, es, eventsEq, logs⟩ := body.appends addressed
    obtain ⟨events, completed, filled⟩ := complete_eq kind begun eventsEq
    rw [completed]
    exact ⟨es, filled, .plain label logs, fault, toNat_slot_start begun⟩
  obtain ⟨events, fault, completed⟩ := completed_eq q p.start.1 kind
  refine ⟨?_, fun addressed => ?_⟩
  · exact {
      rest := by simpa [begun, start] using body.rest
      last := by rw [completed]; exact body.last
      previous := by
        rw [completed]
        simpa [begun, start] using body.previous
      slash := by rw [completed]; exact body.slash
      frames := by rw [completed]; exact body.frames
      reports := by
        rw [reports_complete]
        exact body.reports
      grows := grows
      appends := by
        intro addressed
        obtain ⟨es, filled, spine, fault, -⟩ := spine addressed
        exact ⟨fault, _, filled, spine.logs⟩ }
  · obtain ⟨es, filled, spine, -, slot⟩ := spine addressed
    exact ⟨[], kind, es ++ [.finish], by simpa using filled, spine, by simpa using slot⟩

theorem makes_node {p : Parser} {ds : List Draft} {kind : Kind} {body : Parser → Parser}
    (label : kind.isLabel = true) (filled : Runs p.begun ds (body p.begun)) :
    Makes p (.node kind ds) (p.node kind body) :=
  makes_complete label filled

theorem Makes.reportAt {p : Parser} {d : Draft} {r : Completed × Parser} (makes : Makes p d r)
    (problem : StructuralProblem) (span : Span) :
    Makes p d (r.1, r.2.reportAt problem span) :=
  ⟨by simpa using makes.runs.trans (runs_reportAt r.2 problem span), makes.spine⟩

/-- The state after the start of a parent for a complete node is logged. -/
def preceded (r : Completed × Parser) : Parser :=
  (r.2.precede r.1).2

theorem preceded_eq (r : Completed × Parser) :
    ∃ events fault, preceded r = { r.2 with events := events, fault := fault } := by
  simp only [preceded, precede]
  split
  · by_cases behind : r.2.start.1.slot < r.1.slot
    · rw [if_pos behind]
      exact ⟨_, _, rfl⟩
    · rw [if_neg behind]
      exact ⟨_, _, rfl⟩
  · exact ⟨_, _, rfl⟩

section

variable (r : Completed × Parser)

@[simp] theorem rest_preceded : (preceded r).rest = r.2.rest := by
  obtain ⟨events, fault, eq⟩ := preceded_eq r
  rw [eq]

@[simp] theorem last_preceded : (preceded r).last = r.2.last := by
  obtain ⟨events, fault, eq⟩ := preceded_eq r
  rw [eq]

@[simp] theorem previous_preceded : (preceded r).previous = r.2.previous := by
  obtain ⟨events, fault, eq⟩ := preceded_eq r
  rw [eq]

@[simp] theorem position_preceded : (preceded r).position = r.2.position := by
  obtain ⟨events, fault, eq⟩ := preceded_eq r
  rw [eq]

@[simp] theorem slashKind_preceded : (preceded r).slashKind = r.2.slashKind := by
  obtain ⟨events, fault, eq⟩ := preceded_eq r
  rw [eq]

@[simp] theorem frames_preceded : (preceded r).frames = r.2.frames := by
  obtain ⟨events, fault, eq⟩ := preceded_eq r
  rw [eq]

@[simp] theorem reports_preceded : (preceded r).reports = r.2.reports := by
  obtain ⟨events, fault, eq⟩ := preceded_eq r
  rw [eq]

end

theorem Ready.preceded {r : Completed × Parser} (ready : r.2.Ready) : (preceded r).Ready :=
  ⟨by rw [last_preceded]; exact ready.last_eof, by rw [rest_preceded]; exact ready.rest_ne_eof⟩

theorem marker_precede (p : Parser) (c : Completed) : (p.precede c).1 = ⟨p.start.1.slot, c.position, c.first⟩ := by
  simp only [precede]
  split
  · split <;> rfl
  · rfl

/-- Logging the parent's start links the node to it and touches nothing but the log. -/
theorem precede_eq {p : Parser} {r : Completed × Parser} {before after : List Event} {kind : Kind}
    (addressed : (preceded r).Addressed)
    (eventsEq : r.2.events.toList =
      p.events.toList ++ (before ++ .start kind none :: after))
    (slotEq : r.1.slot.toNat = p.events.toList.length + before.length) :
    ∃ events, preceded r = { r.2 with events := events } ∧
      (r.2.precede r.1).1.slot.toNat = r.2.events.size ∧
      events.toList = p.events.toList ++
        (before ++ .start kind (some (after.length + 1)) :: after) ++ [Event.tombstone] := by
  have marked := toNat_slot_start ((grows_link r.2 r.1).addressed addressed)
  have size : r.2.events.size = p.events.toList.length + before.length + (after.length + 1) := by
    rw [← Array.length_toList, eventsEq]
    simp
    omega
  have found : (r.2.events.push Event.tombstone)[r.1.slot.toNat]? = some (.start kind none) := by
    rw [← Array.getElem?_toList, Array.toList_push, eventsEq, slotEq]
    simp
  -- The node starts before the parent, so there is a way from the one to the other.
  have behind : ¬ r.2.start.1.slot < r.1.slot := by
    rw [UInt32.lt_iff_toNat_lt, marked, slotEq]
    omega
  refine ⟨(r.2.events.push Event.tombstone).setIfInBounds r.1.slot.toNat
    (.start kind (some (r.2.start.1.slot.toNat - r.1.slot.toNat))), ?_, ?_, ?_⟩
  · simp only [start] at behind
    simp [preceded, precede, start, found, behind]
  · rw [marker_precede, marked]
  · have distance : r.2.start.1.slot.toNat - r.1.slot.toNat = after.length + 1 := by omega
    rw [distance, Array.toList_setIfInBounds, Array.toList_push, eventsEq, slotEq]
    simp

theorem grows_wrap {p : Parser} {d : Draft} {r : Completed × Parser} {ds : List Draft} {q : Parser} (m : Marker)
    (kind : Kind) (made : Runs p [d] r.2) (filled : Runs (preceded r) ds q) :
    Grows p (Outline.nodesAll [.node kind (d :: ds)]).length (Outline.nodesAll [.node kind (d :: ds)]).length
      (Outline.entries [.node kind (d :: ds)]) (q.complete m kind).2 := by
  refine (made.grows.trans ((grows_precede r.2 r.1).trans
    (filled.grows.trans (grows_complete q m kind)))).cast ?_ ?_ ?_
  · simp [Outline.nodesAll]
    omega
  · simp [Outline.nodesAll]
    omega
  · rw [Outline.entries_node, Outline.entries_cons d ds, Outline.entries_nil]
    omega

/-- Putting a made node under a new parent and filling the parent up by a run logs it around the node. -/
theorem wrap_eq {p : Parser} {d : Draft} {r : Completed × Parser} {ds : List Draft} {kind : Kind}
    {body : Parser → Parser} (label : kind.isLabel = true)
    (made : Makes p d r) (filled : Runs (preceded r) ds (body (preceded r)))
    (addressed : (r.2.wrap r.1 kind body).2.Addressed) :
    ∃ before after, (r.2.wrap r.1 kind body).2.fault = p.fault ∧
      (r.2.wrap r.1 kind body).2.events.toList = p.events.toList ++ (before ++ .start kind none :: after) ∧
      Event.Spine before kind after (.node kind (d :: ds)) ∧
      (r.2.precede r.1).1.slot.toNat = p.events.toList.length + before.length := by
  have addressedBody : (body (preceded r)).Addressed := (grows_complete _ _ kind).addressed addressed
  have addressedPreceded := filled.grows.addressed addressedBody
  have addressedInside := (grows_precede r.2 r.1).addressed addressedPreceded
  -- Logging the parent's start touches one entry behind it; everything after it is the body's log.
  obtain ⟨before, inner, after, eventsEq, innerSpine, slotEq⟩ := made.spine addressedInside
  obtain ⟨events, precededEq, markerSlot, linkedEq⟩ := precede_eq addressedPreceded eventsEq slotEq
  obtain ⟨fault, es, bodyEvents, logs⟩ := filled.appends addressedBody
  have lengthEq : r.2.events.size =
      (p.events.toList ++ (before ++ .start inner (some (after.length + 1)) :: after)).length := by
    rw [← Array.length_toList, eventsEq]
    simp
  have logged : (body (preceded r)).events.toList = (p.events.toList ++
      (before ++ .start inner (some (after.length + 1)) :: after)) ++ Event.tombstone :: es := by
    rw [bodyEvents, precededEq]
    simp [linkedEq]
  obtain ⟨filledEvents, completed, outerEq⟩ := complete_slot_eq kind logged (markerSlot.trans lengthEq)
  have wrapEq : (r.2.wrap r.1 kind body).2 = { body (preceded r) with events := filledEvents } := completed
  refine ⟨_, es ++ [.finish], ?_, ?_, .wrapped label innerSpine logs, ?_⟩
  · rw [wrapEq]
    refine fault.trans ?_
    rw [precededEq]
    exact (made.runs.appends addressedInside).1
  · rw [wrapEq, outerEq]
    simp
  · rw [markerSlot, lengthEq]
    simp

/-- Putting a made node under a new parent and filling the parent up by a run makes the parent. -/
theorem makes_wrap {p : Parser} {d : Draft} {r : Completed × Parser} {ds : List Draft} {kind : Kind}
    {body : Parser → Parser} (label : kind.isLabel = true)
    (made : Makes p d r) (filled : Runs (preceded r) ds (body (preceded r))) :
    Makes p (.node kind (d :: ds)) (r.2.wrap r.1 kind body) := by
  have wrapped := wrap_eq label made filled
  have inside := made.runs
  obtain ⟨events, fault, completed⟩ := completed_eq (body (preceded r)) (r.2.precede r.1).1 kind
  have wrapEq : (r.2.wrap r.1 kind body).2 = { body (preceded r) with events := events, fault := fault } := completed
  have rest := (rest_preceded r).symm.trans filled.rest
  have last := filled.last.trans (last_preceded r)
  have slash := filled.slash.trans (slashKind_preceded r)
  have frames := filled.frames.trans (frames_preceded r)
  have reports := (reports_preceded r).symm ▸ inside.reports
  refine ⟨?_, fun addressed => ?_⟩
  · exact {
      rest := by
        rw [wrapEq, inside.rest, rest]
        simp
      last := by rw [wrapEq]; exact last.trans inside.last
      previous := by
        rw [wrapEq]
        refine filled.previous.trans ?_
        simp only [previous_preceded, inside.previous, Draft.tokensAll_cons, Draft.tokens_node, Draft.tokensAll_nil,
          List.append_nil, List.getLast?_append, Option.or_assoc]
      slash := by rw [wrapEq]; exact slash.trans inside.slash
      frames := by rw [wrapEq]; exact frames.trans inside.frames
      reports := by rw [wrapEq]; exact reports.trans filled.reports
      grows := grows_wrap _ kind made.runs filled
      appends := by
        intro addressed
        obtain ⟨before, after, fault, eventsEq, spine, -⟩ := wrapped addressed
        exact ⟨fault, _, eventsEq, spine.logs⟩ }
  · obtain ⟨before, after, -, eventsEq, spine, slot⟩ := wrapped addressed
    have slotEq : (r.2.wrap r.1 kind body).1.slot = (r.2.precede r.1).1.slot := slot_complete _ _ kind
    exact ⟨before, kind, after, eventsEq, spine, by rw [slotEq, slot]⟩

/-! ## Delimited sequences -/

theorem openSequence_eq {p : Parser} {t : Token} {ts : List Token} {closer : Kind}
    (rest : p.rest = t :: ts) (opens : t.kind.closer? = some closer) (name : String) :
    p.openSequence name = { p.advanceAs t.kind with frames := ⟨closer, name⟩ :: p.frames } := by
  have kindEq := kind_of_rest rest
  simp only [openSequence, advance, kindEq, opens, Option.isSome_some, Option.getD_some,
    require_eq rfl]
  simp [advanceAs, rest]

theorem Ready.openSequence {p : Parser} {t : Token} {ts : List Token} {closer : Kind} (ready : p.Ready)
    (rest : p.rest = t :: ts) (opens : t.kind.closer? = some closer) (name : String) :
    (p.openSequence name).Ready := by
  have advanced := (runs_advanceAs rest t.kind).ready ready
  rw [openSequence_eq rest opens]
  exact ⟨advanced.last_eof, advanced.rest_ne_eof⟩

/-- Closing a sequence takes its closing token or reports it, and forgets the frame. -/
theorem closeSequence_eq {q : Parser} {frame : Frame} {outer : List Frame} (ready : q.Ready)
    (closerOk : frame.closer ≠ .eof) (frames : q.frames = frame :: outer) :
    ∃ r ds, Runs q ds r ∧ q.closeSequence = { r with frames := outer } ∧
      ∀ quiet : Prop, (quiet → Quiet q q.closeSequence) → Draft.closing quiet frame.closer ds := by
  cases closes : q.isAt frame.closer with
  | true =>
    have kindEq : q.kind = frame.closer := by simpa [isAt] using closes
    obtain ⟨t, ts, rest⟩ := ready.exists_rest (by rw [kindEq]; exact closerOk)
    rw [kind_of_rest rest] at kindEq
    refine ⟨q.advance, [Draft.token t.kind t], runs_advance rest, ?_, ?_⟩
    · simp [closeSequence, frames, closes]
    · intro quiet _
      rw [kindEq]
      exact .inl (Pattern.single_mk ⟨t, rfl, kindEq⟩)
  | false =>
    refine ⟨q.report (.expectedCloser frame.closer), [], runs_report .., ?_, ?_⟩
    · simp [closeSequence, frames, closes]
    · intro quiet silent
      refine .inr ⟨fun h => ?_, rfl⟩
      simpa [Quiet, closeSequence, frames, closes, report, reportAt] using silent h

theorem length_rest_advanceAs_le (p : Parser) (kind : Kind) : (p.advanceAs kind).rest.length ≤ p.rest.length := by
  unfold advanceAs
  split
  · exact Nat.le_refl _
  · rename_i rest
    rw [rest]
    exact Nat.le_succ _

theorem length_rest_advanceAs_lt {p : Parser} {t : Token} {ts : List Token} (rest : p.rest = t :: ts) (kind : Kind) :
    (p.advanceAs kind).rest.length < p.rest.length := by
  rw [rest_advanceAs rest, rest]
  exact Nat.lt_succ_self _

theorem length_rest_closeSequence_le (p : Parser) : p.closeSequence.rest.length ≤ p.rest.length := by
  unfold closeSequence
  split
  · exact Nat.le_refl _
  · dsimp only
    split
    · exact length_rest_advanceAs_le p _
    · exact Nat.le_refl _

/-- A delimited sequence takes its opening token, if what is inside it takes nothing back. -/
theorem length_rest_enclosed_lt {p : Parser} {t : Token} {ts : List Token} {closer : Kind} {name : String}
    {body : Parser → Parser} (rest : p.rest = t :: ts) (opens : t.kind.closer? = some closer)
    (inside : (body (p.openSequence name)).rest.length ≤ (p.openSequence name).rest.length) :
    (body (p.openSequence name)).closeSequence.rest.length < p.rest.length := by
  have opened : (p.openSequence name).rest = ts := by
    rw [openSequence_eq rest opens]
    exact rest_advanceAs rest t.kind
  rw [opened] at inside
  rw [rest, List.length_cons]
  exact Nat.lt_succ_of_le (Nat.le_trans (length_rest_closeSequence_le _) inside)

theorem closer_ne_eof {k closer : Kind} (opens : k.closer? = some closer) : closer ≠ .eof := by
  unfold Kind.closer? at opens
  split at opens <;> cases opens <;> decide

/-- A frame is there for the time of a run only: opening a sequence and a run inside it make up a run. -/
theorem runs_inside {p q : Parser} {ds : List Draft} {t : Token} {ts : List Token} {closer : Kind}
    {name : String} (rest : p.rest = t :: ts) (opens : t.kind.closer? = some closer)
    (inside : Runs (p.openSequence name) ds q) :
    Runs p (Draft.token t.kind t :: ds) { q with frames := p.frames } := by
  have opened := runs_advanceAs rest t.kind
  rw [openSequence_eq rest opens] at inside
  have middle : Runs (p.advanceAs t.kind) ds { q with frames := p.frames } := by
    exact {
      rest := inside.rest
      last := inside.last
      previous := inside.previous
      slash := inside.slash
      frames := opened.frames.symm
      reports := inside.reports
      grows := inside.grows.congr rfl rfl rfl rfl
      appends := inside.appends }
  exact opened.trans middle

theorem Runs.withFrames {p q : Parser} {ds : List Draft} (runs : Runs p ds q) (frames : List Frame) :
    Runs { p with frames := frames } ds { q with frames := frames } where
  rest := runs.rest
  last := runs.last
  previous := runs.previous
  slash := runs.slash
  frames := rfl
  reports := runs.reports
  grows := runs.grows.congr rfl rfl rfl rfl
  appends := runs.appends

theorem reports_openSequence {p : Parser} {t : Token} {ts : List Token} {closer : Kind}
    (rest : p.rest = t :: ts) (opens : t.kind.closer? = some closer) (name : String) :
    (p.openSequence name).reports = p.reports := by
  rw [openSequence_eq rest opens]
  exact quiet_advanceAs rest t.kind

theorem frames_openSequence {p : Parser} {t : Token} {ts : List Token} {closer : Kind}
    (rest : p.rest = t :: ts) (opens : t.kind.closer? = some closer) (name : String) :
    (p.openSequence name).frames = ⟨closer, name⟩ :: p.frames := by
  rw [openSequence_eq rest opens]

theorem runs_between {p q : Parser} {ds : List Draft} {t : Token} {ts : List Token} {closer : Kind}
    {name : String} (ready : p.Ready) (rest : p.rest = t :: ts) (opens : t.kind.closer? = some closer)
    (inside : Runs (p.openSequence name) ds q) :
    ∃ ending, Runs p (Draft.token t.kind t :: ds ++ ending) q.closeSequence ∧
      (∀ quiet : Prop, (quiet → Quiet p q.closeSequence) → Draft.closing quiet closer ending) ∧
      (Quiet p q.closeSequence → Quiet (p.openSequence name) q) := by
  have framesEq : q.frames = ⟨closer, name⟩ :: p.frames := by
    rw [inside.frames, frames_openSequence rest opens]
  have qReady : q.Ready := inside.ready (ready.openSequence rest opens name)
  obtain ⟨r, ending, closes, closedEq, shape⟩ :=
    closeSequence_eq qReady (closer_ne_eof opens) framesEq
  have first := runs_inside rest opens inside
  have final : Runs { q with frames := p.frames } ending q.closeSequence := by
    rw [closedEq]
    exact closes.withFrames p.frames
  refine ⟨ending, first.trans final, ?_, ?_⟩
  · intro quiet silent
    exact shape quiet fun h => first.quiet_right final (silent h)
  · intro quiet
    have inner := first.quiet_left final quiet
    exact inner.trans (reports_openSequence rest opens name).symm

end Parser

end LispSyntax
