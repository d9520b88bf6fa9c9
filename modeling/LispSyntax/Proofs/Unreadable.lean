import LispSyntax.Proofs.Derivation.Pairing

/-! # Reports about tokens that cannot be read

A token that the scanner could make nothing of is reported by the scanner. The rule for a form knows this and makes an
error of the token without a report of its own; the other rules do not look at the kind of a token they have no use
for. So which reports point at such a token depends on who met it first. `Explained` says of a stretch of parsing that
each report is about some token, and, if this is one that cannot be read, which of the drafts tells so: one that was
given up at the token, or a map that has it as a key. The other way round every draft given up at a token has a report.

A report that only the rules around the stretch can explain is *pending*. The lemmas here are about sequences and
collections; those about special forms stand in the module below this one.
-/

namespace LispSyntax

open Draft

/-- The span is that of some of the tokens, of which this is the first. -/
def Token.Begins (t : Token) (tokens : List Token) (span : Span) : Prop :=
  ∃ us, t :: us <:+: tokens ∧ span = Token.extent (t :: us)

theorem Token.Begins.mono {t : Token} {tokens tokens' : List Token} {span : Span} (begins : t.Begins tokens span)
    (suffix : tokens <:+ tokens') : t.Begins tokens' span := by
  obtain ⟨us, within, spanEq⟩ := begins
  exact ⟨us, within.trans suffix.isInfix, spanEq⟩

/-- An error around nothing but the token. -/
def Draft.unreadable (t : Token) : Draft :=
  .node .error [Draft.token t.kind t]

namespace Grammar

open LispSyntax.Parser Outline

/-- An error, or metadata, that starts with an error around nothing but the token. -/
def GivenUpAt (t : Token) (n : Kind × List Draft) : Prop :=
  [Kind.error, .metadata].contains n.1 = true ∧ n.2.find? Outline.isNode = some (unreadable t)

/-- The node is why the report is about the token: it was given up there, or it is a map with a key there. -/
def Explains (report : Report) (t : Token) (n : Kind × List Draft) : Prop :=
  report.problem ≠ .noMapValue ∧ GivenUpAt t n ∨
    report.problem = .noMapValue ∧ n.1 = .mapForm ∧ unreadable t ∈ n.2

/-- Nothing is left for the rules around a stretch to explain. -/
def settled (_ : Report) (_ : Token) : Prop :=
  False

def upcoming (q : Parser) (report : Report) (t : Token) : Prop :=
  report.problem ≠ .noMapValue ∧ q.current = t

/-- The report is about one of the tokens, or more. If the first of these cannot be read, the report is pending, or a
node explains it. -/
def IsAbout (pending : Report → Token → Prop) (tokens : List Token) (ds : List Draft) (report : Report) : Prop :=
  ∃ t : Token, t.Begins tokens report.span ∧
    (t.kind = .unknown → pending report t ∨ ∃ n ∈ nodesAll ds, Explains report t n)

/-- The reports of a stretch of parsing are about the tokens, and all nodes that were given up are reported. -/
structure Explained (pending : Report → Token → Prop) (tokens : List Token) (ds : List Draft) (rs : List Report) :
    Prop where
  reports : ∀ report ∈ rs, report.problem = .tooDeep ∨ IsAbout pending tokens ds report
  nodes : ∀ t, ∀ n ∈ nodesAll ds, GivenUpAt t n → ∃ report ∈ rs, report.span = t.span ∧ report.problem.isRemark = true

def ahead (p : Parser) : List Token :=
  p.rest ++ [p.last]

/-- The parser gets from one state to the other, and its reports are explained. -/
def Answers (pending : Report → Token → Prop) (p q : Parser) : Prop :=
  ∃ ds rs, Walks p ds q ∧ q.reports = p.reports ++ rs ∧ Explained pending (ahead p) ds rs

variable {p q r : Parser} {t : Token} {ts tokens tokens' : List Token} {kind closer : Kind} {ds es pre : List Draft}
  {rs rs' : List Report} {pending pending' : Report → Token → Prop} {report : Report} {form : FormRule}

/-! ## Tokens to come -/

theorem begins_current (p : Parser) : p.current.Begins (ahead p) p.current.span := by
  obtain ⟨ts, tokens⟩ := exists_tokens p
  refine ⟨[], ?_, (extent_singleton _).symm⟩
  rw [ahead, tokens]
  exact (List.prefix_append [p.current] ts).isInfix

theorem ahead_suffix (walks : Walks p ds q) : ahead q <:+ ahead p := by
  rw [ahead, ahead, walks.last, walks.rest, List.append_assoc]
  exact List.suffix_append _ _

theorem begins_of_walks {d : Draft} (walks : Walks p [d] q) (tokens : d.tokens = t :: ts) :
    t.Begins (ahead p) (Token.extent d.tokens) := by
  refine ⟨ts, ?_, by rw [tokens]⟩
  rw [ahead, walks.rest, tokensAll_cons, tokensAll_nil, List.append_nil, tokens, List.append_assoc]
  exact (List.prefix_append _ _).isInfix

/-- A sequence does not end at a token that cannot be read. -/
theorem kind_ne_unknown_of_ended (ended : p.atSequenceEnd = true) : p.kind ≠ .unknown := by
  intro isUnknown
  rw [atSequenceEnd, isAt, isUnknown] at ended
  contradiction

/-! ## What is explained -/

theorem GivenUpAt.not_of_kind {n : Kind × List Draft} (other : [Kind.error, .metadata].contains n.1 = false) :
    ¬ GivenUpAt t n := by
  rintro ⟨isGivenUp, -⟩
  rw [other] at isGivenUp
  contradiction

theorem IsAbout.mono (about : IsAbout pending tokens ds report) (suffix : tokens <:+ tokens')
    (more : nodesAll ds ⊆ nodesAll es)
    (imp : ∀ t : Token, t.kind = .unknown → pending report t →
      pending' report t ∨ ∃ n ∈ nodesAll es, Explains report t n) : IsAbout pending' tokens' es report := by
  obtain ⟨t, begins, explained⟩ := about
  refine ⟨t, begins.mono suffix, fun isUnknown => ?_⟩
  rcases explained isUnknown with left | ⟨n, member, explains⟩
  · exact imp t isUnknown left
  · exact .inr ⟨n, more member, explains⟩

namespace Explained

theorem nothing : Explained pending tokens [] [] :=
  ⟨by simp, by simp⟩

theorem mono (explained : Explained pending tokens ds rs) (suffix : tokens <:+ tokens') :
    Explained pending tokens' ds rs := by
  refine ⟨fun report member => (explained.reports report member).imp_right fun about => ?_, explained.nodes⟩
  exact about.mono suffix (List.Subset.refl _) fun _ _ => .inl

/-- What was pending may have an explanation in the drafts after all. -/
theorem resolve (explained : Explained pending tokens ds rs)
    (resolves : ∀ report t, t.kind = .unknown → pending report t →
      pending' report t ∨ ∃ n ∈ nodesAll ds, Explains report t n) : Explained pending' tokens ds rs := by
  refine ⟨fun report member => (explained.reports report member).imp_right fun about => ?_, explained.nodes⟩
  exact about.mono (List.suffix_refl _) (List.Subset.refl _) (resolves report)

theorem imp (explained : Explained pending tokens ds rs)
    (imp : ∀ report t, t.kind = .unknown → pending report t → pending' report t) :
    Explained pending' tokens ds rs :=
  explained.resolve fun report t isUnknown left => .inl (imp report t isUnknown left)

theorem weaken (explained : Explained settled tokens ds rs) : Explained pending tokens ds rs :=
  explained.imp fun _ _ _ => False.elim

theorem append (first : Explained pending tokens ds rs) (second : Explained pending tokens es rs') :
    Explained pending tokens (ds ++ es) (rs ++ rs') := by
  have left : nodesAll ds ⊆ nodesAll (ds ++ es) := fun n member => by
    obtain ⟨d, inside, below⟩ := mem_nodesAll.mp member
    exact mem_nodesAll.mpr ⟨d, List.mem_append_left _ inside, below⟩
  have right : nodesAll es ⊆ nodesAll (ds ++ es) := fun n member => by
    obtain ⟨d, inside, below⟩ := mem_nodesAll.mp member
    exact mem_nodesAll.mpr ⟨d, List.mem_append_right _ inside, below⟩
  constructor
  · intro report member
    rcases List.mem_append.mp member with before | behind
    · exact (first.reports report before).imp_right (·.mono (List.suffix_refl _) left fun _ _ => .inl)
    · exact (second.reports report behind).imp_right (·.mono (List.suffix_refl _) right fun _ _ => .inl)
  · intro t n member givenUp
    obtain ⟨d, inside, below⟩ := mem_nodesAll.mp member
    rcases List.mem_append.mp inside with before | behind
    · obtain ⟨report, reported, found⟩ := first.nodes t n (mem_nodesAll.mpr ⟨d, before, below⟩) givenUp
      exact ⟨report, List.mem_append_left _ reported, found⟩
    · obtain ⟨report, reported, found⟩ := second.nodes t n (mem_nodesAll.mpr ⟨d, behind, below⟩) givenUp
      exact ⟨report, List.mem_append_right _ reported, found⟩

/-- One report. -/
theorem note (about : report.problem = .tooDeep ∨ IsAbout pending tokens [] report) :
    Explained pending tokens [] [report] :=
  ⟨by simpa using about, by simp⟩

/-- Drafts without nodes explain nothing and need no report. -/
theorem leaves (leaves : ∀ d ∈ ds, d.isNode = false) : Explained pending tokens ds [] := by
  refine ⟨by simp, fun t n member => ?_⟩
  obtain ⟨d, inside, below⟩ := mem_nodesAll.mp member
  rw [nodes_eq_nil (leaves d inside)] at below
  cases below

/-- A node explains what is pending of its inside, and has a report if it was given up. -/
theorem node (inside : Explained pending' tokens ds rs)
    (resolves : ∀ report t, t.kind = .unknown → pending' report t → pending report t ∨ Explains report t (kind, ds))
    (root : ∀ t, GivenUpAt t (kind, ds) → ∃ report ∈ rs, report.span = t.span ∧ report.problem.isRemark = true) :
    Explained pending tokens [.node kind ds] rs := by
  have below : nodesAll ds ⊆ nodesAll [.node kind ds] := fun n member =>
    mem_nodesAll.mpr ⟨_, List.mem_singleton_self _, by rw [nodes_node]; exact List.mem_cons_of_mem _ member⟩
  constructor
  · intro report member
    refine (inside.reports report member).imp_right fun about => about.mono (List.suffix_refl _) below ?_
    intro t isUnknown left
    exact (resolves report t isUnknown left).imp_right fun explains => ⟨(kind, ds), by simp, explains⟩
  · intro t n member givenUp
    obtain ⟨d, here, under⟩ := mem_nodesAll.mp member
    obtain rfl := List.mem_singleton.mp here
    rw [nodes_node] at under
    rcases List.mem_cons.mp under with rfl | under
    · exact root t givenUp
    · exact inside.nodes t n under givenUp

/-- A node of a kind that is not given up. -/
theorem plainNode (inside : Explained pending tokens ds rs) (plain : [Kind.error, .metadata].contains kind = false) :
    Explained pending tokens [.node kind ds] rs :=
  inside.node (fun _ _ _ => .inl) fun _ givenUp => absurd givenUp (GivenUpAt.not_of_kind plain)

/-- An error around tokens. -/
theorem skipped (leaves : ∀ d ∈ ds, d.isNode = false) : Explained pending tokens [.node kind ds] [] := by
  refine (Explained.leaves leaves).node (fun _ _ _ => .inl) fun t givenUp => ?_
  have isNode := List.find?_some givenUp.2
  rw [leaves _ (List.mem_of_find?_eq_some givenUp.2)] at isNode
  contradiction

end Explained

/-! ## Stretches -/

namespace Answers

theorem ready (answers : Answers pending p q) (ready : p.Ready) : q.Ready := by
  obtain ⟨ds, rs, walks, -⟩ := answers
  exact walks.ready ready

theorem stay (p : Parser) : Answers pending p p :=
  ⟨[], [], .refl p, by simp, .nothing⟩

theorem imp (answers : Answers pending p q)
    (imp : ∀ report t, t.kind = .unknown → pending report t → pending' report t) : Answers pending' p q := by
  obtain ⟨ds, rs, walks, reports, explained⟩ := answers
  exact ⟨ds, rs, walks, reports, explained.imp imp⟩

theorem weaken (answers : Answers settled p q) : Answers pending p q :=
  answers.imp fun _ _ _ => False.elim

theorem trans (first : Answers settled p q) (second : Answers pending q r) : Answers pending p r := by
  obtain ⟨ds, rs, walks, reports, explained⟩ := first
  obtain ⟨es, rs', walks', reports', explained'⟩ := second
  refine ⟨ds ++ es, rs ++ rs', walks.trans walks', by rw [reports', reports, List.append_assoc], ?_⟩
  exact explained.weaken.append (explained'.mono (ahead_suffix walks))

end Answers

theorem answers_advanceAs (rest : p.rest = t :: ts) (kind : Kind) : Answers pending p (p.advanceAs kind) :=
  ⟨_, [], walks_advanceAs rest kind, by rw [reports_advanceAs, List.append_nil], .leaves (by simp)⟩

/-- A report about a token that can be read, perhaps one taken before. -/
theorem Answers.reportAt (answers : Answers pending p q) {problem : StructuralProblem} {span : Span}
    (begins : t.Begins (ahead p) span) (readable : t.kind ≠ .unknown) :
    Answers pending p (q.reportAt problem span) := by
  obtain ⟨ds, rs, walks, reports, explained⟩ := answers
  have reported : Walks q [] (q.reportAt problem span) := ⟨runs_reportAt q problem span, rfl⟩
  have noted : Explained pending (ahead p) [] [⟨problem, span, q.context⟩] :=
    .note (.inr ⟨t, begins, fun isUnknown => absurd isUnknown readable⟩)
  refine ⟨_, rs ++ [⟨problem, span, q.context⟩], walks.trans reported, ?_, explained.append noted⟩
  rw [← List.append_assoc, ← reports]
  rfl

theorem answers_report {problem : StructuralProblem} (readable : p.kind ≠ .unknown) :
    Answers pending p (p.report problem) :=
  (Answers.stay p).reportAt (begins_current p) readable

/-! ## Nodes -/

def AnswersNode (pending : Report → Token → Prop) (p q : Parser) : Prop :=
  ∃ kind ds rs, Walks p [.node kind ds] q ∧ q.reports = p.reports ++ rs ∧
    Explained pending (ahead p) [.node kind ds] rs

theorem AnswersNode.answers (node : AnswersNode pending p q) : Answers pending p q := by
  obtain ⟨kind, ds, rs, walks, reports, explained⟩ := node
  exact ⟨_, rs, walks, reports, explained⟩

theorem answersNode_complete (label : kind.isLabel = true) (plain : [Kind.error, .metadata].contains kind = false)
    (inside : Answers pending p.begun q) : AnswersNode pending p (q.complete p.start.1 kind).2 := by
  obtain ⟨ds, rs, walks, reports, explained⟩ := inside
  have made := made_complete label walks reports
  exact ⟨kind, ds, rs, made.walks, made.reports, explained.plainNode plain⟩

/-- A node of a kind that is not given up. -/
theorem answersNode_node {body : Parser → Parser} (label : kind.isLabel = true)
    (plain : [Kind.error, .metadata].contains kind = false) (inside : Answers pending p.begun (body p.begun)) :
    AnswersNode pending p (p.node kind body).2 :=
  answersNode_complete label plain inside

/-- A node around a token. -/
theorem answersNode_leaf (rest : p.rest = t :: ts) (label : kind.isLabel = true) (asKind : Kind) :
    AnswersNode pending p (p.node kind fun p => p.advanceAs asKind).2 := by
  have made := made_leaf rest label asKind
  exact ⟨kind, _, [], made.walks, made.reports, .skipped (by simp)⟩

/-! ## Delimited sequences -/

/-- Closing a sequence is explained where it has ended; else what is next has to be explained by the rules around. -/
theorem exists_answers_between {name : String} (ready : p.Ready) (rest : p.rest = t :: ts)
    (opens : t.kind.closer? = some closer) (walks : Walks (p.openSequence name) ds q)
    (reports : q.reports = (p.openSequence name).reports ++ rs)
    (explained : Explained pending (ahead (p.openSequence name)) ds rs) :
    ∃ es rs', Walks p (Draft.token t.kind t :: ds ++ es) q.closeSequence ∧
      q.closeSequence.reports = p.reports ++ (rs ++ rs') ∧
      Explained (fun report u => pending report u ∨ q.atSequenceEnd = false ∧ upcoming q.closeSequence report u)
        (ahead p) (Draft.token t.kind t :: ds ++ es) (rs ++ rs') := by
  have framesEq : q.frames = ⟨closer, name⟩ :: p.frames := walks.frames.trans (frames_openSequence rest opens name)
  have ready' : q.Ready := walks.ready (ready.openSequence rest opens name)
  have opened := walks_inside rest opens walks
  have openAhead : ahead (p.openSequence name) <:+ ahead p := ⟨[t], by
    simp [ahead, openSequence_eq rest opens, advanceAs, rest]⟩
  rw [reports_openSequence rest opens] at reports
  have opener : Explained pending (ahead p) [Draft.token t.kind t] [] := .leaves (by simp)
  have before : Explained
      (fun report u => pending report u ∨ q.atSequenceEnd = false ∧ upcoming q.closeSequence report u) (ahead p)
      (Draft.token t.kind t :: ds) rs :=
    (opener.append (explained.mono openAhead)).imp fun _ _ _ => .inl
  cases closes : q.isAt closer with
  | true =>
    obtain ⟨u, us, restEq, -⟩ := ready'.exists_isAt closes (closer_ne_eof opens)
    have closed : q.closeSequence = { q.advance with frames := p.frames } := by
      simp [closeSequence, framesEq, closes]
    have taken := (walks_advanceAs restEq q.kind).withFrames p.frames
    have quiet : q.advance.reports = p.reports ++ rs := (reports_advanceAs q q.kind).trans reports
    rw [closed] at before ⊢
    refine ⟨_, [], opened.trans taken, by rw [List.append_nil]; exact quiet, before.append ?_⟩
    exact .leaves (by simp)
  | false =>
    have closed : q.closeSequence = { q.report (.expectedCloser closer) with frames := p.frames } := by
      simp [closeSequence, framesEq, closes]
    have reported : Walks q [] (q.report (.expectedCloser closer)) := ⟨runs_report q _, rfl⟩
    have whole := opened.trans (reported.withFrames p.frames)
    rw [closed] at before ⊢
    refine ⟨_, [⟨.expectedCloser closer, q.current.span, q.context⟩], whole, ?_, before.append ?_⟩
    · rw [← List.append_assoc, ← reports]
      rfl
    · have begins : q.current.Begins (ahead p) q.current.span :=
        (begins_current q).mono ((ahead_suffix walks).trans openAhead)
      refine .note (.inr ⟨q.current, begins, fun isUnknown => .inl (.inr ⟨?_, by simp, rfl⟩)⟩)
      rw [Bool.eq_false_iff]
      exact fun ended => kind_ne_unknown_of_ended ended isUnknown

theorem answers_between {name : String} (ready : p.Ready) (rest : p.rest = t :: ts)
    (opens : t.kind.closer? = some closer) (inside : Answers settled (p.openSequence name) q) :
    Answers (fun report u => q.atSequenceEnd = false ∧ upcoming q.closeSequence report u) p q.closeSequence := by
  obtain ⟨ds, rs, walks, reports, explained⟩ := inside
  obtain ⟨es, rs', walks', reports', explained'⟩ := exists_answers_between ready rest opens walks reports explained
  exact ⟨_, _, walks', reports', explained'.imp fun _ _ _ left => left.resolve_left id⟩

theorem answers_between_ended {name : String} (ready : p.Ready) (rest : p.rest = t :: ts)
    (opens : t.kind.closer? = some closer) (inside : Answers settled (p.openSequence name) q)
    (ended : q.atSequenceEnd = true) : Answers pending p q.closeSequence := by
  refine (answers_between ready rest opens inside).imp fun _ _ _ left => ?_
  rw [ended] at left
  exact absurd left.1 Bool.true_eq_false.mp

/-! ## Forms -/

/-- One turn of the rule for a form: a token that cannot be read becomes an error by itself. -/
def AnswersForm (p q : Parser) : Prop :=
  ∃ kind ds rs, Walks p [.node kind ds] q ∧ q.reports = p.reports ++ rs ∧
    Explained settled (ahead p) [.node kind ds] rs ∧ (p.kind = .unknown → .node kind ds = unreadable p.current)

structure AnswersForms (form : FormRule) : Prop extends DerivesForms form where
  answers : ∀ p, p.Ready → p.atSequenceEnd = false → AnswersForm p (form p).2

theorem AnswersForm.answers (turn : AnswersForm p q) : Answers pending p q := by
  obtain ⟨kind, ds, rs, walks, reports, explained, -⟩ := turn
  exact ⟨_, rs, walks, reports, explained.weaken⟩

theorem AnswersNode.answersForm (node : AnswersNode settled p q) (readable : p.kind ≠ .unknown) : AnswersForm p q := by
  obtain ⟨kind, ds, rs, walks, reports, explained⟩ := node
  exact ⟨kind, ds, rs, walks, reports, explained, fun isUnknown => absurd isUnknown readable⟩

/-- Where a sequence ends the rule does nothing, so it can be asked anywhere. -/
theorem answers_form (forms : AnswersForms form) (ready : p.Ready) : Answers pending p (form p).2 := by
  cases going : p.atSequenceEnd with
  | true =>
    rw [forms.atEnd p going]
    exact .stay p
  | false => exact (forms.answers p ready going).answers

/-- A loop over forms makes nodes. A token that cannot be read, if it is next, is the first of them. -/
theorem exists_answers_sequenceLoop (forms : AnswersForms form) (turns : Nat) (ready : p.Ready) :
    ∃ ds rs, Walks p ds (sequenceLoop form turns p) ∧ (sequenceLoop form turns p).reports = p.reports ++ rs ∧
      Explained settled (ahead p) ds rs ∧ (∀ d ∈ ds, d.isNode = true) ∧
      (turns ≠ 0 → p.kind = .unknown → ds.head? = some (unreadable p.current)) := by
  induction turns generalizing p with
  | zero => exact ⟨[], [], .refl p, by simp [sequenceLoop], .nothing, by simp, by simp⟩
  | succ turns inductionHypothesis =>
    rw [sequenceLoop]
    cases going : p.atSequenceEnd with
    | true =>
      refine ⟨[], [], .refl p, by simp, .nothing, by simp, fun _ isUnknown => ?_⟩
      exact absurd isUnknown (kind_ne_unknown_of_ended going)
    | false =>
      obtain ⟨kind, ds, rs, walks, reports, explained, first⟩ := forms.answers p ready going
      obtain ⟨es, rs', walks', reports', explained', nodes, -⟩ := inductionHypothesis (walks.ready ready)
      refine ⟨.node kind ds :: es, rs ++ rs', walks.trans walks', ?_, ?_, ?_, ?_⟩
      · exact reports'.trans (by rw [reports, List.append_assoc])
      · exact explained.append (explained'.mono (ahead_suffix walks))
      · exact List.forall_mem_cons.mpr ⟨rfl, nodes⟩
      · exact fun _ isUnknown => congrArg some (first isUnknown)

theorem answers_sequence (forms : AnswersForms form) (ready : p.Ready) : Answers pending p (sequence form p) := by
  obtain ⟨ds, rs, walks, reports, explained, -⟩ := exists_answers_sequenceLoop forms p.rest.length ready
  exact ⟨ds, rs, walks, reports, explained.weaken⟩

theorem answers_expectForm (forms : AnswersForms form) (ready : p.Ready) (missing : StructuralProblem) :
    Answers pending p (expectForm form missing p).2 := by
  rw [expectForm]
  split
  · rename_i ended
    exact answers_report (kind_ne_unknown_of_ended ended)
  · exact answers_form forms ready

/-! ## Giving up -/

/-- A report about the next token, and behind it drafts in a node that is given up. If the first of them is an error
around nothing but a token, that token was next. -/
theorem explained_givenUp {problem : StructuralProblem} {context : Option String} (isRemark : problem.isRemark = true)
    (givenUp : [Kind.error, .metadata].contains kind = true) (leaves : ∀ d ∈ pre, d.isNode = false)
    (suffix : ahead p <:+ tokens) (walks : Walks p ds q) (explained : Explained settled (ahead p) ds rs)
    (nodes : ∀ d ∈ ds, d.isNode = true) (first : p.kind = .unknown → ds.head? = some (unreadable p.current)) :
    Explained pending tokens [.node kind (pre ++ ds)] (⟨problem, p.current.span, context⟩ :: rs) := by
  have found : (pre ++ ds).find? Outline.isNode = ds.head? := by
    rw [List.find?_append, List.find?_eq_none.mpr fun d member => by simp [leaves d member], Option.none_or]
    cases ds with
    | nil => rfl
    | cons d ds => exact List.find?_cons_of_pos (nodes d List.mem_cons_self)
  have noKey : problem ≠ .noMapValue := by
    rintro rfl
    contradiction
  have noted : Explained (fun report t => p.kind = .unknown ∧ upcoming p report t) tokens []
      [⟨problem, p.current.span, context⟩] :=
    .note (.inr ⟨p.current, (begins_current p).mono suffix, fun isUnknown => .inl ⟨isUnknown, noKey, rfl⟩⟩)
  have inside := (Explained.leaves leaves).append (noted.append (explained.mono suffix).weaken)
  refine inside.node ?_ ?_
  · rintro report t - ⟨isUnknown, noKey, rfl⟩
    exact .inr (.inl ⟨noKey, givenUp, found.trans (first isUnknown)⟩)
  · rintro t ⟨-, isFirst⟩
    rw [List.nil_append, found] at isFirst
    obtain ⟨es, rfl⟩ := List.head?_eq_some_iff.mp isFirst
    have restEq : p.rest = t :: (tokensAll es ++ q.rest) := by
      rw [walks.rest]
      simp [unreadable]
    have next : p.current = t := current_of_rest restEq
    exact ⟨_, List.mem_cons_self, congrArg Token.span next, isRemark⟩

/-- Giving up on the rest of a sequence explains its report, and one that is pending about the same token. -/
theorem exists_answers_recover (forms : AnswersForms form) (ready : p.Ready) {problem : StructuralProblem}
    (isRemark : problem.isRemark = true) :
    ∃ ds rs, Walks p ds (recover form problem p) ∧ (recover form problem p).reports = p.reports ++ rs ∧
      Explained settled (ahead p) ds rs ∧
      (p.kind = .unknown → ∃ n ∈ nodesAll ds, GivenUpAt p.current n) := by
  have reported : Walks p [] (p.report problem) := ⟨runs_report p problem, rfl⟩
  rw [recover, restAsError]
  cases going : (p.report problem).atSequenceEnd with
  | true =>
    have readable : p.kind ≠ .unknown := kind_ne_unknown_of_ended going
    have answers : Answers settled p (p.report problem) := answers_report readable
    obtain ⟨ds, rs, walks, reports, explained⟩ := answers
    exact ⟨ds, rs, walks, reports, explained, fun isUnknown => absurd isUnknown readable⟩
  | false =>
    obtain ⟨es, rs, walks, reports, explained, nodes, first⟩ :=
      exists_answers_sequenceLoop forms (p.report problem).begun.rest.length (reported.ready ready).begun
    obtain ⟨t, ts, rest⟩ := ready.exists_rest_of_going going
    have turns : (p.report problem).begun.rest.length ≠ 0 := by
      have restEq : (p.report problem).begun.rest = t :: ts := rest
      simp [restEq]
    have made : Made (p.report problem) (.node .error es) rs ((p.report problem).node .error (sequence form)) :=
      made_node rfl walks reports
    refine ⟨_, ⟨problem, p.current.span, p.context⟩ :: rs, reported.trans made.walks, ?_, ?_, fun isUnknown => ?_⟩
    · exact made.reports.trans (List.append_assoc ..)
    · have noLeaf : ∀ d ∈ ([] : List Draft), d.isNode = false := by simp
      have givenUp : Explained settled (ahead p) [.node .error ([] ++ es)]
          (⟨problem, p.current.span, p.context⟩ :: rs) :=
        explained_givenUp (p := (p.report problem).begun) isRemark rfl noLeaf (List.suffix_refl _) walks explained nodes
          (first turns)
      exact givenUp
    · refine ⟨(.error, es), by simp, rfl, ?_⟩
      obtain ⟨rest, rfl⟩ := List.head?_eq_some_iff.mp (first turns isUnknown)
      rfl

theorem answers_recover (forms : AnswersForms form) (ready : p.Ready) {problem : StructuralProblem}
    (isRemark : problem.isRemark = true) : Answers pending p (recover form problem p) := by
  obtain ⟨ds, rs, walks, reports, explained, -⟩ := exists_answers_recover forms ready isRemark
  exact ⟨ds, rs, walks, reports, explained.weaken⟩

/-! ## Single tokens -/

theorem answersNode_literal (ready : p.Ready) (isLiteral : p.kind.isLiteralToken = true) :
    AnswersNode pending p (literal p).2 := by
  obtain ⟨t, ts, rest⟩ := ready.exists_rest (by
    intro atEnd
    rw [atEnd] at isLiteral
    contradiction)
  rw [literal_of_rest rest (kind_of_rest rest ▸ isLiteral)]
  exact answersNode_leaf rest rfl t.kind

theorem answersNode_symbol (ready : p.Ready) (isSymbol : p.atSymbol = true) : AnswersNode pending p (symbol p).2 := by
  obtain ⟨t, ts, rest, isSymbol⟩ := ready.exists_symbol isSymbol
  rw [symbol_of_rest rest isSymbol]
  exact answersNode_leaf rest rfl t.kind

/-- An account is left alone, or it becomes the account of a lookup. -/
theorem answersNode_account (ready : p.Ready) (rest : p.rest = t :: ts) (label : kind.isLabel = true) :
    AnswersNode pending p (infixLookup (p.node kind fun p => p.advanceAs t.kind)).2 := by
  by_cases looks : t.LooksUp ts
  · obtain ⟨s, u, -, -, -, -, made⟩ := made_lookup ready rest label looks
    refine ⟨_, _, [], made.walks, made.reports, ?_⟩
    refine .plainNode ?_ rfl
    have account : Explained pending (ahead p) [.node kind [Draft.token t.kind t]] [] := .skipped (by simp)
    have slash : Explained pending (ahead p) [Draft.token s.kind s] [] := .leaves (by simp)
    have name : Explained pending (ahead p) [.node .symbol [Draft.token u.kind u]] [] := .skipped (by simp)
    exact account.append (slash.append name)
  · rw [infixLookup_leaf ready rest label looks]
    exact answersNode_leaf rest label t.kind

theorem answersNode_badToken (rest : p.rest = t :: ts) (readable : t.kind ≠ .unknown) (problem : StructuralProblem) :
    AnswersNode pending p (badToken problem p).2 := by
  obtain ⟨made, -⟩ := made_badToken rest problem
  refine ⟨_, _, _, made.walks, made.reports, ?_⟩
  have noted : Explained pending (ahead p) [] [⟨problem, t.span, Delimiters.context p.frames⟩] :=
    .note (.inr ⟨t, current_of_rest rest ▸ begins_current p, fun isUnknown => absurd isUnknown readable⟩)
  exact noted.append (.skipped (by simp))

/-! ## Collections -/

/-- A node around a delimited sequence that is read to its end. -/
theorem answersNode_enclosed (name : String) (body : Parser → Parser) (ready : p.Ready) (rest : p.rest = t :: ts)
    (opens : t.kind.closer? = some closer) (label : kind.isLabel = true)
    (plain : [Kind.error, .metadata].contains kind = false)
    (inside : ∀ q : Parser, q.Ready → Answers settled q (body q))
    (ended : ∀ q : Parser, q.Ready → (body q).atSequenceEnd = true) :
    AnswersNode pending p (p.node kind fun p => (body (p.openSequence name)).closeSequence).2 := by
  have ready' := ready.begun.openSequence rest opens name
  exact answersNode_node label plain
    (answers_between_ended ready.begun rest opens (inside _ ready') (ended _ ready'))

theorem answersNode_delimited (forms : AnswersForms form) (name : String) (ready : p.Ready) (rest : p.rest = t :: ts)
    (opens : t.kind.closer? = some closer) (label : kind.isLabel = true)
    (plain : [Kind.error, .metadata].contains kind = false) :
    AnswersNode pending p (delimited name kind form p).2 :=
  answersNode_enclosed name (sequence form) ready rest opens label plain (fun _ ready => answers_sequence forms ready)
    fun _ ready => (finishes_sequence forms.toStepsForms ready).ended

/-! ## Maps -/

/-- The span of a counted form is that of its tokens. -/
theorem begins_spanOf (forms : DerivesForms form) (ready : p.Ready) (going : p.atSequenceEnd = false) {c : Completed}
    (counts : (form p).1 = some c) : p.current.Begins (ahead p) ((form p).2.spanOf c) := by
  obtain ⟨d, rs, walks, -, derives, covers⟩ := forms.derives p ready going
  have filled := derives.tokens_ne_nil
  have restEq := walks.rest
  rw [tokensAll_cons, tokensAll_nil, List.append_nil] at filled restEq
  obtain ⟨t, ts, tokens⟩ := List.exists_cons_of_ne_nil filled
  rw [tokens] at restEq
  rw [covers c counts, current_of_rest restEq]
  exact begins_of_walks walks tokens

/-- The span is that of one of the forms, as far as its first token cannot be read. -/
def IsEntry (tokens : List Token) (ds : List Draft) (span : Span) : Prop :=
  ∃ t : Token, t.Begins tokens span ∧ (t.kind = .unknown → unreadable t ∈ ds)

theorem exists_answers_entriesLoop (forms : AnswersForms form) (turns : Nat) (entries : Entries) (ready : p.Ready) :
    ∃ ds rs, Walks p ds (entriesLoop form turns entries p).2 ∧
      (entriesLoop form turns entries p).2.reports = p.reports ++ rs ∧ Explained settled (ahead p) ds rs ∧
      ∀ span, (entriesLoop form turns entries p).1.last = some span →
        entries.last = some span ∨ IsEntry (ahead p) ds span := by
  induction turns generalizing p entries with
  | zero => exact ⟨[], [], .refl p, by simp [entriesLoop], .nothing, fun _ => .inl⟩
  | succ turns inductionHypothesis =>
    rw [entriesLoop]
    cases going : p.atSequenceEnd with
    | true => exact ⟨[], [], .refl p, by simp, .nothing, fun _ => .inl⟩
    | false =>
      obtain ⟨kind, ds, rs, walks, reports, explained, unread⟩ := forms.answers p ready going
      have begins := fun c counts => begins_spanOf (c := c) forms.toDerivesForms ready going counts
      simp only [Bool.false_eq_true, if_false]
      generalize form p = result at walks reports begins
      obtain ⟨result, q⟩ := result
      have more (entries : Entries) := inductionHypothesis entries (walks.ready ready)
      have later {es : List Draft} {span : Span} (isEntry : IsEntry (ahead q) es span) :
          IsEntry (ahead p) (.node kind ds :: es) span := by
        obtain ⟨t, begins, unread⟩ := isEntry
        exact ⟨t, begins.mono (ahead_suffix walks), fun isUnknown => List.mem_cons_of_mem _ (unread isUnknown)⟩
      cases result with
      | some c =>
        obtain ⟨es, rs', walks', reports', explained', last⟩ := more ⟨entries.count + 1, some (q.spanOf c)⟩
        refine ⟨_, rs ++ rs', walks.trans walks', ?_, explained.append (explained'.mono (ahead_suffix walks)), ?_⟩
        · rw [reports', reports, List.append_assoc]
        · intro span isLast
          rcases last span isLast with here | behind
          · obtain rfl := Option.some.inj here
            refine .inr ⟨p.current, begins c rfl, fun isUnknown => ?_⟩
            exact unread isUnknown ▸ List.mem_cons_self
          · exact .inr (later behind)
      | none =>
        obtain ⟨es, rs', walks', reports', explained', last⟩ := more entries
        refine ⟨_, rs ++ rs', walks.trans walks', ?_, explained.append (explained'.mono (ahead_suffix walks)), ?_⟩
        · rw [reports', reports, List.append_assoc]
        · exact fun span isLast => (last span isLast).imp_right later

/-- The forms of a map explain the report of a key without a value. -/
theorem exists_answers_checkPaired {entries : Entries} (walks : Walks p ds q) (reports : q.reports = p.reports ++ rs)
    (explained : Explained settled (ahead p) ds rs)
    (last : ∀ span, entries.last = some span → IsEntry (ahead p) ds span) :
    ∃ rs', Walks p ds (checkPaired entries q) ∧ (checkPaired entries q).reports = p.reports ++ (rs ++ rs') ∧
      Explained (fun report t => report.problem = .noMapValue ∧ unreadable t ∈ ds) (ahead p) ds (rs ++ rs') := by
  have unchanged : ∃ rs', Walks p ds q ∧ q.reports = p.reports ++ (rs ++ rs') ∧
      Explained (fun report t => report.problem = .noMapValue ∧ unreadable t ∈ ds) (ahead p) ds (rs ++ rs') :=
    ⟨[], walks, by rw [reports, List.append_nil], by rw [List.append_nil]; exact explained.weaken⟩
  rw [checkPaired]
  split
  · rename_i span isLast
    split
    · obtain ⟨t, begins, unread⟩ := last span isLast
      have reported : Walks q [] (q.reportAt .noMapValue span) := ⟨runs_reportAt .., rfl⟩
      have whole := walks.trans reported
      have noted : Explained (fun report t => report.problem = .noMapValue ∧ unreadable t ∈ ds) (ahead p) []
          [⟨.noMapValue, span, q.context⟩] :=
        .note (.inr ⟨t, begins, fun isUnknown => .inl ⟨rfl, unread isUnknown⟩⟩)
      have both := explained.weaken.append noted
      rw [List.append_nil] at whole both
      refine ⟨_, whole, ?_, both⟩
      rw [← List.append_assoc, ← reports]
      rfl
    · exact unchanged
  · exact unchanged

theorem exists_answers_map (forms : AnswersForms form) (ready : p.Ready) (isBrace : p.isAt .leftBrace = true) :
    ∃ ds rs, Walks p [.node .mapForm ds] (map form p).2 ∧ (map form p).2.reports = p.reports ++ rs ∧
      Explained pending (ahead p) [.node .mapForm ds] rs := by
  obtain ⟨t, ts, rest, kindEq⟩ := ready.exists_isAt isBrace (by decide)
  have opens : t.kind.closer? = some .rightBrace := by rw [kindEq]; rfl
  have opened := ready.begun.openSequence rest opens "map"
  obtain ⟨ds, rs, walks, reports, explained, last⟩ :=
    exists_answers_entriesLoop forms (p.begun.openSequence "map").rest.length ⟨0, none⟩ opened
  obtain ⟨rs', walks', reports', explained'⟩ := exists_answers_checkPaired walks reports explained
    fun span isLast => (last span isLast).resolve_left nofun
  have ended := (finishes_checkPaired
    (entriesLoop form (p.begun.openSequence "map").rest.length ⟨0, none⟩ (p.begun.openSequence "map")).1
    (finishes_entriesLoop forms.toStepsForms (p.begun.openSequence "map").rest.length ⟨0, none⟩ opened
      (Nat.le_refl _))).ended
  obtain ⟨es, rs'', walks'', reports'', explained''⟩ :=
    exists_answers_between ready.begun rest opens walks' reports' explained'
  have made : Made p (.node .mapForm (Draft.token t.kind t :: ds ++ es)) (rs ++ rs' ++ rs'') (map form p) :=
    made_node rfl walks'' reports''
  refine ⟨_, _, made.walks, made.reports, explained''.node ?_ fun _ givenUp =>
    absurd givenUp (GivenUpAt.not_of_kind rfl)⟩
  rintro report u - (⟨isMissing, member⟩ | ⟨going, -⟩)
  · exact .inr (.inr ⟨isMissing, rfl, List.mem_append_left _ (List.mem_cons_of_mem _ member)⟩)
  · rw [ended] at going
    exact absurd going Bool.true_eq_false.mp

/-! ## Metadata and quotes -/

/-- What follows a caret is a map, or a report about the next token, or both this and a form. -/
theorem exists_answers_metadata (forms : AnswersForms form) (ready : p.Ready) (isCaret : p.isAt .caret = true) :
    ∃ t ds rs, t.kind = .caret ∧ Made p (.node .metadata (Draft.token t.kind t :: ds)) rs (metadata form p) ∧
      Explained pending (ahead p) [.node .metadata (Draft.token t.kind t :: ds)] rs := by
  obtain ⟨t, ts, rest, kindEq⟩ := ready.exists_isAt isCaret (by decide)
  obtain ⟨q, behind, taken, -, reportsEq, -, -⟩ := exists_behind_mark rest
  have ready' := taken.ready ready.begun
  have suffix : ahead q <:+ ahead p := ahead_suffix (p := p.begun) taken
  have caret : ∀ d ∈ [Draft.token t.kind t], d.isNode = false := by simp
  rw [metadata, require_eq isCaret]
  -- It is enough to look at what is read behind the caret.
  suffices inside : ∃ ds rs, Walks q ds (metadataBody form q) ∧ (metadataBody form q).reports = q.reports ++ rs ∧
      Explained pending (ahead p) [.node .metadata ([Draft.token t.kind t] ++ ds)] rs by
    obtain ⟨ds, rs, walks, reports, explained⟩ := inside
    rw [reportsEq] at reports
    subst behind
    exact ⟨t, ds, rs, kindEq, made_node rfl (taken.trans walks) reports, explained⟩
  rw [metadataBody]
  split
  · rename_i isBrace
    obtain ⟨ds, rs, walks, reports, explained⟩ := exists_answers_map forms ready' isBrace
    have inside : Explained pending (ahead p) ([Draft.token t.kind t] ++ [.node .mapForm ds]) rs :=
      (Explained.leaves caret).append (explained.mono suffix)
    refine ⟨_, rs, walks, reports, inside.node (fun _ _ _ => .inl) ?_⟩
    rintro u ⟨-, first⟩
    simp [unreadable] at first
  · have reported : Walks q [] (q.report .noMetadataMap) := ⟨runs_report .., rfl⟩
    have ready'' := reported.ready ready'
    dsimp only
    split
    · rename_i noForm
      have readable : q.kind ≠ .unknown := by
        intro isUnknown
        rcases Bool.or_eq_true_iff.mp noForm with ended | isCloser
        · exact kind_ne_unknown_of_ended ended isUnknown
        · change q.kind.isCloser = true at isCloser
          rw [isUnknown] at isCloser
          contradiction
      refine ⟨[], [⟨.noMetadataMap, q.current.span, q.context⟩], reported, rfl, ?_⟩
      exact explained_givenUp rfl rfl caret suffix (.refl q) .nothing (by simp) fun isUnknown =>
        absurd isUnknown readable
    · rename_i isForm
      obtain ⟨going, -⟩ : (q.report .noMetadataMap).atSequenceEnd = false ∧
          (q.report .noMetadataMap).kind.isCloser = false := by simpa using isForm
      obtain ⟨kind, ds, rs, walks, reports, explained, first⟩ := forms.answers _ ready'' going
      refine ⟨[.node kind ds], ⟨.noMetadataMap, q.current.span, q.context⟩ :: rs, reported.trans walks, ?_, ?_⟩
      · rw [reports]
        exact List.append_assoc ..
      · exact explained_givenUp (p := q.report .noMetadataMap) rfl rfl caret suffix walks explained (by simp)
          fun isUnknown => congrArg some (first isUnknown)

theorem answers_optionalMetadata (forms : AnswersForms form) (ready : p.Ready) :
    Answers pending p (metadata? form p) := by
  rw [metadata?]
  split
  · rename_i isCaret
    obtain ⟨t, ds, rs, -, made, explained⟩ := exists_answers_metadata forms ready isCaret
    exact ⟨_, rs, made.walks, made.reports, explained⟩
  · exact .stay p

/-- Metadata out of place is an error that starts with metadata, and its report starts at the caret. -/
theorem answersNode_misplacedMetadata (forms : AnswersForms form) (ready : p.Ready) (isCaret : p.isAt .caret = true) :
    AnswersNode pending p (misplacedMetadata form p).2 := by
  obtain ⟨t, ds, rs, kindEq, made, explained⟩ := exists_answers_metadata forms ready isCaret
  rw [misplacedMetadata]
  generalize metadata form p = r at made ⊢
  obtain ⟨c, q⟩ := r
  have wrapped (noted : List Report) (q' : Parser)
      (made' : Made p (.node .metadata (Draft.token t.kind t :: ds)) (rs ++ noted) (c, q'))
      (about : Explained pending (ahead p) [] noted) : AnswersNode pending p (q'.wrap c .error id).2 := by
    have nothing : (id (preceded (c, q'))).reports = (preceded (c, q')).reports ++ [] := (List.append_nil _).symm
    have whole : Made p _ _ (q'.wrap c .error id) := made'.wrap rfl (.refl (preceded (c, q'))) nothing
    refine ⟨_, _, _, whole.walks, whole.reports, ?_⟩
    rw [List.append_nil]
    refine (explained.append about).node (fun _ _ _ => .inl) ?_
    rintro u ⟨-, first⟩
    simp [unreadable] at first
  dsimp only
  split
  · refine wrapped _ _ (made.reportAt .misplacedMetadata _) (.note (.inr ⟨t, ?_, fun isUnknown => ?_⟩))
    · rw [made.spanOf_eq (by simp)]
      exact begins_of_walks made.walks (by simp; rfl)
    · rw [kindEq] at isUnknown
      contradiction
  · exact wrapped [] q (by rw [List.append_nil]; exact made) .nothing

theorem answersNode_markedForm (forms : AnswersForms form) (ready : p.Ready) (rest : p.rest = t :: ts) :
    AnswersNode pending p (markedForm form p).2 := by
  have label : (quoteNode p.kind).isLabel = true := by cases p.kind <;> rfl
  have plain : [Kind.error, .metadata].contains (quoteNode p.kind) = false := by cases p.kind <;> rfl
  rw [markedForm]
  refine answersNode_node label plain ?_
  have mark : Answers settled p.begun p.begun.advance := answers_advanceAs (p := p.begun) rest _
  refine mark.trans ?_
  dsimp only
  split
  · rename_i ended
    exact answers_report (kind_ne_unknown_of_ended ended)
  · exact answers_form forms (mark.ready ready.begun)

end Grammar

end LispSyntax
