import LispSyntax.Proofs.Delimiters.Sequence
import LispSyntax.Proofs.Likeness

/-! # Derivations of stretches of parsing

The table of productions says what nodes look like, and `Delimiters.Step` what happens to open sequences; neither
says which form was read where, with which reports. `Derives` does: it lists how a stretch of parsing is put together
from smaller ones, with the sequences open around it, the drafts it makes, the problems it reports and the tokens that
come after it. A property of all parsing is then an induction over its rules.

`Parser.Derived` says that the parser gets from one state to another by a derivation. The lemmas here are about the
operations of the parser; those about the productions stand in the modules below this one.
-/

namespace LispSyntax

open Draft Delimiters

/-! ## Tokens -/

namespace Token

/-- The next token, if these are the tokens to come; behind the last of them it is the end. -/
def next (last : Token) (after : List Token) : Token :=
  after[0]?.getD last

def extent : List Token → Span
  | [] => Span.empty 0
  | t :: ts => t.span.cover (ts.getLast?.getD t).span

/-- A slash touches the token, and a name touches the slash. -/
def LooksUp (t : Token) (after : List Token) : Prop :=
  ∃ s u us, after = s :: u :: us ∧ s.kind = .slash ∧ u.kind.isSymbolToken = true ∧
    t.joined s = true ∧ s.joined u = true

def IsAccount (t : Token) : Prop :=
  t.kind = .address ∨ t.kind.isSymbolToken = true

end Token

def Draft.IsWord (kind : Kind) (t : Token) : Prop :=
  kind = .literal ∧ t.kind.isLiteralToken = true ∨ kind = .symbol ∧ t.kind.isSymbolToken = true

namespace Draft

variable {kind : Kind} {t : Token} {ds : List Draft}

theorem tokensAll_node : tokensAll [.node kind ds] = tokensAll ds := by
  simp

theorem tokensAll_token : tokensAll (Draft.token kind t :: ds) = t :: tokensAll ds := by
  simp

end Draft

/-- A problem about which nothing has to be known but where it is. -/
def StructuralProblem.isRemark : StructuralProblem → Bool
  | expectedCloser _ | unexpectedCloser _ | noMapValue | tooDeep => false
  | _ => true

/-! ## Rules -/

namespace Grammar

/-- What may stand between the forms of a node. -/
inductive Mode where
  | plain
  /-- Names and addresses that are taken without looking at what follows. -/
  | naming
  /-- Parameters. -/
  | listing
deriving DecidableEq

def Mode.fits : Mode → Kind → Bool
  | .plain, _ => true
  | .naming, kind => [Kind.lookupForm, .importForm, .defForm, .defnForm, .defmacroForm].contains kind
  | .listing, kind => kind == .paramList

/-- The nodes around parts of a form, and around what is left of a sequence. -/
def isPart (kind : Kind) : Bool :=
  [Kind.paramList, .arity, .condClause, .condFallback, .bindings, .error].contains kind

theorem symbol_cases {kind : Kind} (isSymbol : kind.isSymbolToken = true) :
    kind = .name ∨ kind = .builtinSymbol ∨ kind = .builtinFunction := by
  revert isSymbol
  cases kind <;> decide

theorem isPlain_of_mark {kind : Kind} (isMark : [Kind.quoteMark, .backtick, .tilde].contains kind = true) :
    isPlain kind = true := by
  revert isMark
  cases kind <;> decide

theorem isMark_of_quote {kind : Kind} (isMark : [Kind.quoteMark, .backtick, .tilde].contains kind = true) :
    marks.contains kind = true := by
  revert isMark
  cases kind <;> decide

theorem isPlain_of_isAccount {t : Token} (account : t.IsAccount) :
    isPlain t.kind = true ∧ marks.contains t.kind = false := by
  rcases account with isAddress | isSymbol
  · rw [isAddress]
    decide
  · rcases symbol_cases isSymbol with h | h | h <;> rw [h] <;> decide

theorem not_isAccount_of_kind {t : Token} {kind : Kind} (isKind : t.kind = kind)
    (noAccount : (kind == .address || kind.isSymbolToken) = false) : ¬ t.IsAccount := by
  rw [Token.IsAccount, isKind]
  simpa using noAccount

inductive Role where
  /-- One turn of the rule for a form, and whether its result counts. -/
  | form (counts : Bool)
  | metadata
  /-- A delimited sequence. -/
  | group (mode : Mode)
  | parts (mode : Mode)
  /-- The turns inside a map, with the drafts of those that count. -/
  | row (counted : List Draft)

def unpaired (counted : List Draft) : List Report :=
  match counted.getLast? with
  | some d => if counted.length % 2 ≠ 0 then [⟨.noMapValue, Token.extent d.tokens, some "map"⟩] else []
  | none => []

/-- How a sequence is closed where it ends: by its delimiter, or by a report that this is missing. -/
inductive Closing (last : Token) (frames : List Frame) (frame : Frame) : List Draft → List Report → List Token → Prop
  | taken {t after} : t.kind = frame.closer → Closing last frames frame [Draft.token t.kind t] [] after
  | missing {after} : ends (frame :: frames) (Token.next last after).kind = true →
      (Token.next last after).kind ≠ frame.closer →
      Closing last frames frame [] [⟨.expectedCloser frame.closer, (Token.next last after).span, some frame.name⟩] after

/-- A stretch of parsing in the given role: the sequences open around it, what it makes, what it reports, and the
tokens that come after it, up to the last one, which is the end. -/
inductive Derives (last : Token) : Role → List Frame → List Draft → List Report → List Token → Prop
  -- Parts.
  | nothing {mode frames after} : Derives last (.parts mode) frames [] [] after
  | append {mode frames ds es rs rs' after} : Derives last (.parts mode) frames ds rs (tokensAll es ++ after) →
      Derives last (.parts mode) frames es rs' after → Derives last (.parts mode) frames (ds ++ es) (rs ++ rs') after
  | widen {mode frames ds rs after} : Derives last (.parts .plain) frames ds rs after →
      Derives last (.parts mode) frames ds rs after
  | form {counts frames ds rs after} : Derives last (.form counts) frames ds rs after →
      Derives last (.parts .plain) frames ds rs after
  | metadata {frames ds rs after} : Derives last .metadata frames ds rs after →
      Derives last (.parts .plain) frames ds rs after
  | group {mode frames ds rs after} : Derives last (.group mode) frames ds rs after →
      Derives last (.parts mode) frames ds rs after
  | node {mode kind frames ds rs after} : isPart kind = true → mode.fits kind = true →
      Derives last (.parts mode) frames ds rs after → Derives last (.parts .plain) frames [.node kind ds] rs after
  /-- A name to bind, and its value unless that is missing. -/
  | binding {t frames ds rs after} : t.kind.isSymbolToken = true → Derives last (.parts .plain) frames ds rs after →
      Derives last (.parts .plain) frames [.node .binding (.node .symbol [Draft.token t.kind t] :: ds)] rs after
  /-- A mark, or a head that no slash makes an account of. -/
  | token {kind t frames after} : isPlain t.kind = true → (t.IsAccount → ¬ t.LooksUp after) →
      Derives last (.parts .plain) frames [Draft.token kind t] [] after
  | name {kind t frames after} : IsWord kind t → t.IsAccount →
      Derives last (.parts .naming) frames [.node kind [Draft.token t.kind t]] [] after
  | parameter {d t frames after} : t.kind.isSymbolToken = true →
      d = Draft.token .amp t ∨ d = .node .fixedParam [Draft.token t.kind t] ∨
        d = .node .optionalParam [Draft.token t.kind t] →
      Derives last (.parts .listing) frames [d] [] after
  /-- A problem with the next token. -/
  | remark {problem mode frames after} : problem.isRemark = true →
      Derives last (.parts mode) frames [] [⟨problem, (Token.next last after).span, context frames⟩] after
  /-- A problem with tokens that were taken. -/
  | note {problem mode frames ds before ts behind rs after} : problem.isRemark = true →
      tokensAll ds = before ++ ts ++ behind → ts ≠ [] → Derives last (.parts mode) frames ds rs after →
      Derives last (.parts mode) frames ds (rs ++ [⟨problem, Token.extent ts, context frames⟩]) after
  -- Delimited sequences.
  | closed {mode frames closer name t ds es rs rs' after} : t.kind.closer? = some closer →
      Derives last (.parts mode) (⟨closer, name⟩ :: frames) ds rs (tokensAll es ++ after) →
      Closing last frames ⟨closer, name⟩ es rs' after →
      Derives last (.group mode) frames (Draft.token t.kind t :: ds ++ es) (rs ++ rs') after
  /-- A sequence that is closed right after a closing delimiter that closes nothing. -/
  | cutShort {mode frames closer name t ds es rs rs' after} : t.kind.closer? = some closer →
      Derives last (.parts mode) (⟨closer, name⟩ :: frames) ds rs (tokensAll es ++ after) →
      Derives last (.form false) (⟨closer, name⟩ :: frames) es rs' after →
      Derives last (.group mode) frames (Draft.token t.kind t :: ds ++ es)
        (rs ++ rs' ++ [⟨.expectedCloser closer, (Token.next last after).span, some name⟩]) after
  -- Metadata.
  | described {t frames ds noted rs after} : t.kind = .caret →
      noted = [] ∨ noted = [⟨.noMetadataMap, (Token.next last (tokensAll ds ++ after)).span, context frames⟩] →
      Derives last (.form true) frames ds rs after →
      Derives last .metadata frames [.node .metadata (Draft.token t.kind t :: ds)] (noted ++ rs) after
  | undescribed {t frames after} : t.kind = .caret →
      ends frames (Token.next last after).kind = true ∨ (Token.next last after).kind.isCloser = true →
      Derives last .metadata frames [.node .metadata [Draft.token t.kind t]]
        [⟨.noMetadataMap, (Token.next last after).span, context frames⟩] after
  -- Forms.
  | word {kind t frames after} : IsWord kind t → (t.IsAccount → ¬ t.LooksUp after) →
      Derives last (.form true) frames [.node kind [Draft.token t.kind t]] [] after
  | lookup {kind t s u frames after} : IsWord kind t → t.IsAccount → s.kind = .slash → u.kind.isSymbolToken = true →
      t.joined s = true → s.joined u = true →
      Derives last (.form true) frames [.node .lookupForm [.node kind [Draft.token t.kind t],
        Draft.token s.kind s, .node .symbol [Draft.token u.kind u]]] [] after
  | division {kind t frames after} : t.kind = .slash →
      Derives last (.form true) frames [.node .symbol [Draft.token kind t]] [] after
  | unreadable {t frames after} : t.kind = .unknown →
      Derives last (.form true) frames [.node .error [Draft.token t.kind t]] [] after
  | bad {problem t frames after} : isPlain t.kind = true → marks.contains t.kind = false → ¬ t.IsAccount →
      problem.isRemark = true →
      Derives last (.form true) frames [.node .error [Draft.token t.kind t]] [⟨problem, t.span, context frames⟩] after
  | enclosed {mode kind frames ds rs after} : mode.fits kind = true → kind ≠ .mapForm →
      Derives last (.group mode) frames ds rs after → Derives last (.form true) frames [.node kind ds] rs after
  | map {t counted frames ds es rs rs' after} : t.kind = .leftBrace →
      Derives last (.row counted) (⟨.rightBrace, "map"⟩ :: frames) ds rs (tokensAll es ++ after) →
      Closing last frames ⟨.rightBrace, "map"⟩ es rs' after →
      Derives last (.form true) frames [.node .mapForm (Draft.token t.kind t :: ds ++ es)]
        (rs ++ unpaired counted ++ rs') after
  | quoted {t counts frames ds rs after} : [Kind.quoteMark, .backtick, .tilde].contains t.kind = true →
      Derives last (.form counts) frames ds rs after →
      Derives last (.form true) frames [.node (quoteNode t.kind) (Draft.token t.kind t :: ds)] rs after
  | unquoted {t frames after} : [Kind.quoteMark, .backtick, .tilde].contains t.kind = true →
      ends frames (Token.next last after).kind = true →
      Derives last (.form true) frames [.node (quoteNode t.kind) [Draft.token t.kind t]]
        [⟨.nothingAfterMark t.kind, (Token.next last after).span, context frames⟩] after
  | misplaced {frames ds noted rs after} :
      noted = [] ∨ noted = [⟨.misplacedMetadata, Token.extent (tokensAll ds), context frames⟩] →
      Derives last .metadata frames ds rs after →
      Derives last (.form true) frames [.node .error ds] (rs ++ noted) after
  | tooDeep {t ts frames after} :
      Derives last (.form true) frames [.node .error ((t :: ts).map fun u => Draft.token u.kind u)]
        [⟨.tooDeep, t.span, context frames⟩] after
  | stray {t frames after} : t.kind.isCloser = true → ends frames t.kind = false →
      Derives last (.form false) frames [.node .error [Draft.token t.kind t]]
        [⟨.unexpectedCloser t.kind, t.span, context frames⟩] after
  -- Maps.
  | done {frames after} : Derives last (.row []) frames [] [] after
  | entry {d frames counted ds rs rs' after} : Derives last (.form true) frames [d] rs (tokensAll ds ++ after) →
      Derives last (.row counted) frames ds rs' after →
      Derives last (.row (d :: counted)) frames (d :: ds) (rs ++ rs') after
  | skipped {d frames counted ds rs rs' after} : Derives last (.form false) frames [d] rs (tokensAll ds ++ after) →
      Derives last (.row counted) frames ds rs' after → Derives last (.row counted) frames (d :: ds) (rs ++ rs') after

end Grammar

namespace Parser

open Grammar

def Derived (role : Role) (p q : Parser) : Prop :=
  ∃ ds rs, Walks p ds q ∧ q.reports = p.reports ++ rs ∧ Derives p.last role p.frames ds rs q.rest

/-- The result is a node, made with the reports. -/
structure Made (p : Parser) (d : Draft) (rs : List Report) (r : Completed × Parser) : Prop where
  makes : Makes p d r
  walks : Walks p [d] r.2
  reports : r.2.reports = p.reports ++ rs
  marks : Marks p r

def DerivesNode (role : Role) (p : Parser) (r : Completed × Parser) : Prop :=
  ∃ d rs, Made p d rs r ∧ Derives p.last role p.frames [d] rs r.2.rest

variable {p q r : Parser} {t : Token} {ts : List Token} {role inner outer : Role} {mode : Mode} {kind closer : Kind}
  {name : String}

/-! ## Composition -/

theorem Derived.ready (derived : Derived role p q) (ready : p.Ready) : q.Ready := by
  obtain ⟨ds, rs, walks, -⟩ := derived
  exact walks.ready ready

theorem Derived.imp (derived : Derived inner p q)
    (rule : ∀ {ds rs after}, Derives p.last inner p.frames ds rs after → Derives p.last outer p.frames ds rs after) :
    Derived outer p q := by
  obtain ⟨ds, rs, walks, reports, derives⟩ := derived
  exact ⟨ds, rs, walks, reports, rule derives⟩

theorem Derived.widen (derived : Derived (.parts .plain) p q) : Derived (.parts mode) p q :=
  derived.imp .widen

theorem Derived.stay (p : Parser) : Derived (.parts mode) p p :=
  ⟨[], [], .refl p, by simp, .nothing⟩

theorem Derived.trans (first : Derived (.parts mode) p q) (second : Derived (.parts mode) q r) :
    Derived (.parts mode) p r := by
  obtain ⟨ds, rs, walks, reports, derives⟩ := first
  obtain ⟨es, rs', walks', reports', derives'⟩ := second
  refine ⟨ds ++ es, rs ++ rs', walks.trans walks', by rw [reports', reports, List.append_assoc], ?_⟩
  rw [walks'.rest] at derives
  rw [walks.last, walks.frames] at derives'
  exact .append derives derives'

theorem derived_report {problem : StructuralProblem} (isRemark : problem.isRemark = true) (p : Parser) :
    Derived (.parts mode) p (p.report problem) :=
  ⟨[], _, ⟨runs_report p problem, rfl⟩, rfl, .remark isRemark⟩

theorem walks_advanceAs (rest : p.rest = t :: ts) (kind : Kind) : Walks p [Draft.token kind t] (p.advanceAs kind) :=
  ⟨runs_advanceAs rest kind, by simp [advanceAs, rest]⟩

theorem reports_advanceAs (p : Parser) (kind : Kind) : (p.advanceAs kind).reports = p.reports := by
  unfold advanceAs
  split <;> rfl

theorem derived_advanceAs (rest : p.rest = t :: ts) (plain : isPlain t.kind = true)
    (noAccount : t.IsAccount → ¬ t.LooksUp ts) (kind : Kind) : Derived (.parts .plain) p (p.advanceAs kind) := by
  refine ⟨_, [], walks_advanceAs rest kind, by rw [reports_advanceAs, List.append_nil], ?_⟩
  rw [rest_advanceAs rest]
  exact .token plain noAccount

/-- A token that is neither an address nor a name. -/
theorem derived_mark (rest : p.rest = t :: ts) (plain : isPlain t.kind = true) (notAddress : t.kind ≠ .address)
    (noName : t.kind.isSymbolToken = false) (kind : Kind) : Derived (.parts .plain) p (p.advanceAs kind) := by
  refine derived_advanceAs rest plain ?_ kind
  rintro (isAddress | isName)
  · exact absurd isAddress notAddress
  · rw [noName] at isName
    contradiction

/-! ## Nodes -/

theorem DerivesNode.derived {r : Completed × Parser} (node : DerivesNode role p r) : Derived role p r.2 := by
  obtain ⟨d, rs, made, derives⟩ := node
  exact ⟨[d], rs, made.walks, made.reports, derives⟩

theorem made_complete {ds : List Draft} {rs : List Report} (label : kind.isLabel = true) (walks : Walks p.begun ds q)
    (reports : q.reports = p.reports ++ rs) : Made p (.node kind ds) rs (q.complete p.start.1 kind) := by
  refine ⟨makes_complete label walks.toRuns, walks_complete label walks, ?_, marks_complete p _ kind rfl rfl⟩
  rw [reports_complete]
  exact reports

theorem made_node {body : Parser → Parser} {ds : List Draft} {rs : List Report} (label : kind.isLabel = true)
    (walks : Walks p.begun ds (body p.begun)) (reports : (body p.begun).reports = p.reports ++ rs) :
    Made p (.node kind ds) rs (p.node kind body) :=
  made_complete label walks reports

theorem derivesNode_complete (label : kind.isLabel = true) (body : Derived inner p.begun q)
    (rule : ∀ {ds rs after}, Derives p.last inner p.frames ds rs after →
      Derives p.last outer p.frames [.node kind ds] rs after) :
    DerivesNode outer p (q.complete p.start.1 kind) := by
  obtain ⟨ds, rs, walks, reports, derives⟩ := body
  refine ⟨.node kind ds, rs, made_complete label walks reports, ?_⟩
  rw [rest_complete]
  exact rule derives

theorem derivesNode_node {body : Parser → Parser} (label : kind.isLabel = true)
    (filled : Derived inner p.begun (body p.begun))
    (rule : ∀ {ds rs after}, Derives p.last inner p.frames ds rs after →
      Derives p.last outer p.frames [.node kind ds] rs after) : DerivesNode outer p (p.node kind body) :=
  derivesNode_complete label filled rule

/-- A node around parts. -/
theorem derived_node {body : Parser → Parser} (label : kind.isLabel = true) (part : isPart kind = true)
    (fits : mode.fits kind = true) (filled : Derived (.parts mode) p.begun (body p.begun)) :
    Derived (.parts .plain) p (p.node kind body).2 :=
  (derivesNode_node label filled (.node part fits)).derived

/-- A node around a token that is just taken. -/
theorem made_leaf (rest : p.rest = t :: ts) (label : kind.isLabel = true) (asKind : Kind) :
    Made p (.node kind [Draft.token asKind t]) [] (p.node kind fun p => p.advanceAs asKind) := by
  refine made_node label (walks_advanceAs (p := p.begun) rest asKind) ?_
  rw [reports_advanceAs, List.append_nil]
  rfl

theorem rest_leaf (rest : p.rest = t :: ts) (kind asKind : Kind) :
    (p.node kind fun p => p.advanceAs asKind).2.rest = ts := by
  rw [rest_node]
  exact rest_advanceAs (p := p.begun) rest asKind

theorem derivesNode_leaf (rest : p.rest = t :: ts) (label : kind.isLabel = true) (asKind : Kind)
    (rule : Derives p.last role p.frames [.node kind [Draft.token asKind t]] [] ts) :
    DerivesNode role p (p.node kind fun p => p.advanceAs asKind) := by
  refine ⟨_, _, made_leaf rest label asKind, ?_⟩
  rw [rest_leaf rest]
  exact rule

namespace Made

variable {d : Draft} {es : List Draft} {rs rs' : List Report} {r : Completed × Parser} {body : Parser → Parser}

theorem reportAt (made : Made p d rs r) (problem : StructuralProblem) (span : Span) :
    Made p d (rs ++ [⟨problem, span, Delimiters.context p.frames⟩]) (r.1, r.2.reportAt problem span) := by
  refine ⟨made.makes.reportAt problem span, ?_, ?_, ⟨made.marks.position, made.marks.first, made.marks.covered⟩⟩
  · have reported : Walks r.2 [] (r.2.reportAt problem span) := ⟨runs_reportAt .., rfl⟩
    simpa using made.walks.trans reported
  · have frames := made.walks.frames
    simp [Parser.reportAt, made.reports, Parser.context, frames, Delimiters.context]

theorem wrap (made : Made p d rs r) (label : kind.isLabel = true) (filled : Walks (preceded r) es (body (preceded r)))
    (reports : (body (preceded r)).reports = (preceded r).reports ++ rs') :
    Made p (.node kind (d :: es)) (rs ++ rs') (r.2.wrap r.1 kind body) := by
  refine ⟨makes_wrap label made.makes filled.toRuns, walks_wrap label made.makes made.walks filled, ?_,
    marks_wrap made.marks⟩
  have wrapped : (r.2.wrap r.1 kind body).2.reports = (body (preceded r)).reports := reports_complete ..
  rw [wrapped, reports, reports_preceded, made.reports, List.append_assoc]

/-- A node with tokens covers them all. -/
theorem spanOf_eq (made : Made p d rs r) (filled : d.tokens ≠ []) : r.2.spanOf r.1 = Token.extent d.tokens := by
  have restEq := made.walks.rest
  have positionEq := made.walks.position
  have previousEq := made.walks.previous
  simp only [tokensAll_cons, tokensAll_nil, List.append_nil] at restEq positionEq previousEq
  cases tokens : d.tokens with
  | nil => contradiction
  | cons t ts =>
    rw [tokens] at restEq positionEq previousEq
    have moved : p.position < r.2.position := by
      rw [positionEq, List.length_cons]
      omega
    have current : p.current = t := current_of_rest restEq
    rw [Parser.spanOf, made.marks.covered, if_pos moved, previousEq, current, List.getLast?_cons]
    rfl

end Made

/-! ## Delimited sequences -/

theorem Walks.withFrames {ds : List Draft} (walks : Walks p ds q) (frames : List Frame) :
    Walks { p with frames := frames } ds { q with frames := frames } :=
  ⟨walks.toRuns.withFrames frames, walks.position⟩

theorem walks_inside {ds : List Draft} (rest : p.rest = t :: ts) (opens : t.kind.closer? = some closer)
    (inside : Walks (p.openSequence name) ds q) :
    Walks p (Draft.token t.kind t :: ds) { q with frames := p.frames } := by
  refine ⟨runs_inside rest opens inside.toRuns, ?_⟩
  have position : q.position = _ := inside.position
  rw [openSequence_eq rest opens] at position
  have taken := (walks_advanceAs rest t.kind).position
  simp only [tokensAll_cons, tokens_token, List.length_append, List.length_singleton] at taken ⊢
  rw [position, taken]
  simp
  omega

/-- Closing a sequence is a stretch of its own, outside of the sequence. -/
theorem exists_closing {frame : Frame} {outer : List Frame} (ready : q.Ready) (notEnd : frame.closer ≠ .eof)
    (frames : q.frames = frame :: outer) (ended : q.atSequenceEnd = true) :
    ∃ es rs, Walks { q with frames := outer } es q.closeSequence ∧ q.closeSequence.reports = q.reports ++ rs ∧
      Closing q.last outer frame es rs q.closeSequence.rest := by
  cases closes : q.isAt frame.closer with
  | true =>
    obtain ⟨t, ts, rest, kindEq⟩ := ready.exists_isAt closes notEnd
    have closed : q.closeSequence = { q.advance with frames := outer } := by
      simp [closeSequence, frames, closes]
    have taken := (walks_advanceAs rest q.kind).withFrames outer
    rw [closed]
    refine ⟨_, [], taken, ?_, ?_⟩
    · exact (reports_advanceAs q q.kind).trans (List.append_nil _).symm
    · rw [kind_of_rest rest]
      exact .taken kindEq
  | false =>
    have closed : q.closeSequence = { q.report (.expectedCloser frame.closer) with frames := outer } := by
      simp [closeSequence, frames, closes]
    have context : q.context = some frame.name := by simp [Parser.context, frames]
    have reported : Walks q [] (q.report (.expectedCloser frame.closer)) := ⟨runs_report q _, rfl⟩
    rw [closed]
    refine ⟨[], [⟨.expectedCloser frame.closer, q.current.span, some frame.name⟩], reported.withFrames outer, ?_, ?_⟩
    · simp [report, reportAt, context]
    · have other : q.kind ≠ frame.closer := by simpa [isAt] using closes
      refine .missing ?_ other
      rw [← frames]
      exact ended

/-- Opening a sequence, reading it to its end and closing it. -/
theorem exists_between {ds : List Draft} {rs : List Report} (ready : p.Ready) (rest : p.rest = t :: ts)
    (opens : t.kind.closer? = some closer) (walks : Walks (p.openSequence name) ds q)
    (reports : q.reports = (p.openSequence name).reports ++ rs) (ended : q.atSequenceEnd = true) :
    ∃ es rs', Walks p (Draft.token t.kind t :: ds ++ es) q.closeSequence ∧
      q.closeSequence.reports = p.reports ++ (rs ++ rs') ∧ q.rest = tokensAll es ++ q.closeSequence.rest ∧
      Closing p.last p.frames ⟨closer, name⟩ es rs' q.closeSequence.rest := by
  have last : (p.openSequence name).last = p.last := by
    rw [openSequence_eq rest opens]
    exact (walks_advanceAs rest t.kind).last
  have frames := frames_openSequence rest opens name
  have ready' : q.Ready := walks.ready (ready.openSequence rest opens name)
  obtain ⟨es, rs', closes, reports', closing⟩ :=
    exists_closing ready' (closer_ne_eof opens) (walks.frames.trans frames) ended
  refine ⟨es, rs', (walks_inside rest opens walks).trans closes, ?_, closes.rest, ?_⟩
  · rw [reports', reports, reports_openSequence rest opens, List.append_assoc]
  · rw [walks.last, last] at closing
    exact closing

theorem Derived.opened (rest : p.rest = t :: ts) (opens : t.kind.closer? = some closer)
    (inside : Derived role (p.openSequence name) q) :
    ∃ ds rs, Walks (p.openSequence name) ds q ∧ q.reports = (p.openSequence name).reports ++ rs ∧
      Derives p.last role (⟨closer, name⟩ :: p.frames) ds rs q.rest := by
  obtain ⟨ds, rs, walks, reports, derives⟩ := inside
  have last : (p.openSequence name).last = p.last := by
    rw [openSequence_eq rest opens]
    exact (walks_advanceAs rest t.kind).last
  rw [last, frames_openSequence rest opens] at derives
  exact ⟨ds, rs, walks, reports, derives⟩

theorem derived_between (ready : p.Ready) (rest : p.rest = t :: ts) (opens : t.kind.closer? = some closer)
    (inside : Derived (.parts mode) (p.openSequence name) q) (ended : q.atSequenceEnd = true) :
    Derived (.group mode) p q.closeSequence := by
  obtain ⟨ds, rs, walks, reports, derives⟩ := inside.opened rest opens
  obtain ⟨es, rs', walks', reports', restEq, closing⟩ := exists_between ready rest opens walks reports ended
  rw [restEq] at derives
  exact ⟨_, _, walks', reports', .closed opens derives closing⟩

end Parser

end LispSyntax
