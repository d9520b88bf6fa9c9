import LispSyntax.Proofs.Reading.Form

/-! # Stretches of tokens in their settings

A form is read in a setting: tokens come after it, and sequences are open around it. `Setting.around s x` puts a
state `x`, which knows a stretch of tokens and the sequences opened in it alone, into the setting `s`. As long as
nothing is reported and no token behind the stretch is taken, the setting cannot be seen from inside, so parsing
in one setting and in another leads from `s.around x` to `s.around y` with the same `y`. `Setting.Carries` says
this of one stretch of parsing; it is closed under composition, and here are its operations.

What makes it work is that the tokens of the stretch close exactly the sequences that are open in it
(`Token.Closes`): a closing token belongs to the innermost of them, and the stretch cannot end before they do.
-/

namespace LispSyntax

/-- The tokens close the awaited sequences, innermost first, and those that they open themselves. -/
inductive Token.Closes : List Kind → List Token → Prop where
  | done : Closes [] []
  | opener {t : Token} {ts : List Token} {closer : Kind} {awaited : List Kind} :
      t.kind.closer? = some closer → Closes (closer :: awaited) ts → Closes awaited (t :: ts)
  | closer {t : Token} {ts : List Token} {awaited : List Kind} :
      t.kind.isCloser = true → Closes awaited ts → Closes (t.kind :: awaited) (t :: ts)
  | plain {t : Token} {ts : List Token} {awaited : List Kind} :
      t.kind.closer? = none → t.kind.isCloser = false → Closes awaited ts → Closes awaited (t :: ts)

namespace Token

variable {t : Token} {ts us : List Token} {awaited outer : List Kind} {closer : Kind}

theorem Closes.append (first : Closes awaited ts) (second : Closes outer us) :
    Closes (awaited ++ outer) (ts ++ us) := by
  induction first with
  | done => exact second
  | opener opens _ inductionHypothesis => exact .opener opens inductionHypothesis
  | closer closes _ inductionHypothesis => exact .closer closes inductionHypothesis
  | plain noOpener noCloser _ inductionHypothesis => exact .plain noOpener noCloser inductionHypothesis

theorem Closes.after_opener (closes : Closes awaited (t :: ts)) (opens : t.kind.closer? = some closer) :
    Closes (closer :: awaited) ts := by
  cases closes with
  | opener opens' inner =>
    rw [opens] at opens'
    rw [Option.some.inj opens']
    exact inner
  | closer isCloser _ =>
    rw [Kind.closer?_of_isCloser isCloser] at opens
    contradiction
  | plain noOpener _ _ =>
    rw [noOpener] at opens
    contradiction

theorem Closes.after_plain (closes : Closes awaited (t :: ts)) (noOpener : t.kind.closer? = none)
    (noCloser : t.kind.isCloser = false) : Closes awaited ts := by
  cases closes with
  | opener opens _ =>
    rw [noOpener] at opens
    contradiction
  | closer isCloser _ =>
    rw [noCloser] at isCloser
    contradiction
  | plain _ _ inner => exact inner

/-- A closing token closes the innermost sequence. -/
theorem Closes.after_closer (closes : Closes awaited (t :: ts)) (isCloser : t.kind.isCloser = true) :
    ∃ outer, awaited = t.kind :: outer ∧ Closes outer ts := by
  cases closes with
  | opener opens _ =>
    rw [Kind.closer?_of_isCloser isCloser] at opens
    contradiction
  | closer _ inner => exact ⟨_, rfl, inner⟩
  | plain _ noCloser _ =>
    rw [isCloser] at noCloser
    contradiction

theorem Closes.ne_nil (closes : Closes awaited ts) (waiting : awaited ≠ []) : ts ≠ [] := by
  cases closes with
  | done => contradiction
  | opener | closer | plain => exact List.cons_ne_nil _ _

end Token

open LispSyntax.Parser

/-- What surrounds a stretch of tokens: the tokens after it, the end of the text, and the sequences that are
open around it. -/
structure Setting where
  after : List Token
  last : Token
  outer : List Frame

namespace Setting

def around (s : Setting) (x : Parser) : Parser :=
  { x with rest := x.rest ++ s.after, last := s.last, frames := x.frames ++ s.outer }

variable {s a b : Setting} {x y : Parser} {t : Token} {ts : List Token} {kind closer : Kind}

/-! ## What can be seen -/

theorem rest_around (rest : x.rest = t :: ts) : (s.around x).rest = t :: (ts ++ s.after) := by
  simp [around, rest]

theorem current_around (rest : x.rest = t :: ts) : (s.around x).current = t :=
  current_of_rest (rest_around rest)

theorem kind_around (rest : x.rest = t :: ts) : (s.around x).kind = t.kind :=
  kind_of_rest (rest_around rest)

theorem isAt_around (rest : x.rest = t :: ts) (kind : Kind) :
    (s.around x).isAt kind = (t.kind == kind) := by
  rw [isAt, kind_around rest]

theorem atSymbol_around (rest : x.rest = t :: ts) :
    (s.around x).atSymbol = t.kind.isSymbolToken := by
  rw [atSymbol, kind_around rest]

/-- The state knows a stretch that closes all it opens, in a setting that is ready to be read. -/
structure Fits (s : Setting) (x : Parser) : Prop where
  ready : (s.around x).Ready
  closes : Token.Closes (x.frames.map Frame.closer) x.rest

theorem Fits.exists_rest (fits : s.Fits x) (inside : x.frames ≠ []) : ∃ t ts, x.rest = t :: ts := by
  apply List.exists_cons_of_ne_nil
  apply fits.closes.ne_nil
  simpa using inside

theorem Fits.kind_ne_eof (fits : s.Fits x) (rest : x.rest = t :: ts) : t.kind ≠ .eof :=
  fits.ready.rest_ne_eof t (by simp [around, rest])

/-- In a stretch the setting does not decide where a sequence ends. -/
theorem Fits.atSequenceEnd_eq (fits : s.Fits x) (rest : x.rest = t :: ts) (b : Setting) :
    (b.around x).atSequenceEnd = t.kind.isCloser := by
  have notEnd : (t.kind == .eof) = false := by simpa using fits.kind_ne_eof rest
  rw [atSequenceEnd, isAt_around rest, kind_around rest, notEnd, Bool.false_or]
  cases isCloser : t.kind.isCloser with
  | false => rfl
  | true =>
    have closes := fits.closes
    rw [rest] at closes
    obtain ⟨outer, awaited, -⟩ := closes.after_closer isCloser
    have found : (x.frames ++ b.outer).any (fun frame => frame.closer == t.kind) = true := by
      cases frames : x.frames with
      | nil => simp [frames] at awaited
      | cons frame frames' =>
        have same : frame.closer = t.kind := by simpa [frames] using congrArg List.head? awaited
        simp [same]
    simpa [around] using found

/-! ## Operations -/

theorem advanceAs_around (rest : x.rest = t :: ts) (s : Setting) (kind : Kind) :
    (s.around x).advanceAs kind = s.around (x.advanceAs kind) := by
  simp [advanceAs, around, rest]

theorem advance_around (rest : x.rest = t :: ts) (s : Setting) :
    (s.around x).advance = s.around x.advance := by
  rw [advance, advance, kind_around rest, kind_of_rest rest, advanceAs_around rest]

theorem start_around (rest : x.rest = t :: ts) (s : Setting) :
    (s.around x).start = (x.start.1, s.around x.begun) := by
  simp only [start, current_around rest, current_of_rest rest, begun]
  rfl

theorem complete_around (s : Setting) (x : Parser) (m : Marker) (kind : Kind) :
    (s.around x).complete m kind = ((x.complete m kind).1, s.around (x.complete m kind).2) := by
  have eventsEq : (s.around x).events = x.events := rfl
  simp only [complete, eventsEq]
  split <;> rfl

theorem precede_around (s : Setting) (x : Parser) (c : Completed) :
    (s.around x).precede c = ((x.precede c).1, s.around (x.precede c).2) := by
  have eventsEq : (s.around x).events = x.events := rfl
  simp only [precede, start, eventsEq]
  split
  · by_cases behind : x.events.size.toUInt32 < c.slot <;> simp only [behind, if_true, if_false] <;> rfl
  · rfl

theorem openSequence_around (rest : x.rest = t :: ts) (opens : t.kind.closer? = some closer)
    (s : Setting) (name : String) :
    (s.around x).openSequence name = s.around (x.openSequence name) := by
  rw [openSequence_eq (rest_around rest) opens, openSequence_eq rest opens, advanceAs_around rest]
  simp [around]

/-! ## Stretches of parsing -/

/-- Nothing has been reported, and no token behind the stretch has been taken. -/
structure Holds (s : Setting) (p : Parser) : Prop where
  quiet : p.reports = []
  inside : s.after.length ≤ p.rest.length

theorem Holds.before {p q : Parser} {ds : List Draft} (holds : s.Holds q) (runs : Runs p ds q) : s.Holds p where
  quiet := by
    have reports := runs.reports
    rw [holds.quiet] at reports
    exact List.prefix_nil.mp reports
  inside := by
    rw [runs.rest, List.length_append]
    exact Nat.le_trans holds.inside (Nat.le_add_left _ _)

theorem Holds.congr {p q : Parser} (holds : s.Holds q) (reports : q.reports = p.reports)
    (rest : q.rest = p.rest) : s.Holds p :=
  ⟨reports ▸ holds.quiet, rest ▸ holds.inside⟩

/-- Parsing from `x` on goes the same way in both settings, as long as it holds in the first: `p` is where it
leads in the one, and `p'` where it leads in the other. -/
def Carries (a b : Setting) (x p p' : Parser) : Prop :=
  a.Holds p → ∃ y, p = a.around y ∧ p' = b.around y ∧ a.Fits y ∧ y.frames = x.frames

def CarriesResult {α : Type} (a b : Setting) (x : Parser) (r r' : α × Parser) : Prop :=
  a.Holds r.2 → ∃ v y, r = (v, a.around y) ∧ r' = (v, b.around y) ∧ a.Fits y ∧ y.frames = x.frames

section

variable {α : Type} {p p' q : Parser} {r r' : α × Parser} {ds : List Draft}

theorem CarriesResult.carries (result : CarriesResult a b x r r') : Carries a b x r.2 r'.2 := by
  intro holds
  obtain ⟨v, y, left, right, fits, frames⟩ := result holds
  exact ⟨y, congrArg Prod.snd left, congrArg Prod.snd right, fits, frames⟩

theorem Carries.result (carries : Carries a b x p p') (v : α) : CarriesResult a b x (v, p) (v, p') := by
  intro holds
  obtain ⟨y, left, right, fits, frames⟩ := carries holds
  exact ⟨v, y, by rw [left], by rw [right], fits, frames⟩

theorem Carries.stay (fits : a.Fits x) (b : Setting) : Carries a b x (a.around x) (b.around x) :=
  fun _ => ⟨x, rfl, rfl, fits, rfl⟩

/-- A run that reports something in any case does not hold. -/
theorem not_holds_of_noisy {pattern : Prop → Pattern (Kind × Token)} (reads : Reads q p pattern)
    (noisy : ∀ ds, ¬ pattern True ds) : ¬ s.Holds p := by
  intro holds
  obtain ⟨ds, runs, shape⟩ := reads
  have quiet : Quiet q p := by rw [Quiet, holds.quiet, (holds.before runs).quiet]
  exact noisy ds (shape True fun _ => quiet).2

theorem Carries.of_noisy {pattern : Prop → Pattern (Kind × Token)} (reads : Reads q p pattern)
    (noisy : ∀ ds, ¬ pattern True ds) : Carries a b x p p' :=
  fun holds => absurd holds (not_holds_of_noisy reads noisy)

theorem CarriesResult.of_noisy {pattern : Prop → Pattern (Kind × Token)} (reads : Reads q r.2 pattern)
    (noisy : ∀ ds, ¬ pattern True ds) : CarriesResult a b x r r' :=
  fun holds => absurd holds (not_holds_of_noisy reads noisy)

/-- The next stretch is asked only from a state in the setting. -/
theorem CarriesResult.andThen {β : Type} (first : CarriesResult a b x r r')
    (next next' : α → Parser → β × Parser) (grows : ∃ ds, Runs r.2 ds (next r.1 r.2).2)
    (second : ∀ v y, a.Fits y → y.frames = x.frames → r = (v, a.around y) →
      CarriesResult a b y (next v (a.around y)) (next' v (b.around y))) :
    CarriesResult a b x (next r.1 r.2) (next' r'.1 r'.2) := by
  intro holds
  obtain ⟨ds, runs⟩ := grows
  obtain ⟨v, y, left, right, fits, frames⟩ := first (holds.before runs)
  have following := second v y fits frames left
  rw [left] at holds ⊢
  rw [right]
  obtain ⟨w, z, left', right', fits', frames'⟩ := following holds
  exact ⟨w, z, left', right', fits', frames'.trans frames⟩

/-- The same where the next stretch has no result of its own. -/
theorem CarriesResult.andCarries (first : CarriesResult a b x r r') (next next' : α → Parser → Parser)
    (grows : ∃ ds, Runs r.2 ds (next r.1 r.2))
    (second : ∀ v y, a.Fits y → y.frames = x.frames → r = (v, a.around y) →
      Carries a b y (next v (a.around y)) (next' v (b.around y))) :
    Carries a b x (next r.1 r.2) (next' r'.1 r'.2) :=
  (first.andThen (fun v p => ((), next v p)) (fun v p => ((), next' v p)) grows fun v y fits frames here =>
    (second v y fits frames here).result ()).carries

theorem Carries.andThenResult (first : Carries a b x p p') (next next' : Parser → α × Parser)
    (grows : ∃ ds, Runs p ds (next p).2)
    (second : ∀ y, a.Fits y → y.frames = x.frames → p = a.around y →
      CarriesResult a b y (next (a.around y)) (next' (b.around y))) :
    CarriesResult a b x (next p) (next' p') :=
  (first.result ()).andThen (fun _ => next) (fun _ => next') grows fun _ y fits frames here =>
    second y fits frames (congrArg Prod.snd here)

theorem Carries.andThen (first : Carries a b x p p') (next next' : Parser → Parser)
    (grows : ∃ ds, Runs p ds (next p))
    (second : ∀ y, a.Fits y → y.frames = x.frames → p = a.around y →
      Carries a b y (next (a.around y)) (next' (b.around y))) :
    Carries a b x (next p) (next' p') :=
  (first.result ()).andCarries (fun _ => next) (fun _ => next') grows fun _ y fits frames here =>
    second y fits frames (congrArg Prod.snd here)

end

/-! ## Tokens -/

theorem Fits.advanceAs (fits : s.Fits x) (rest : x.rest = t :: ts) (noOpener : t.kind.closer? = none)
    (noCloser : t.kind.isCloser = false) (kind : Kind) : s.Fits (x.advanceAs kind) := by
  have taken := runs_advanceAs (rest_around (s := s) rest) kind
  have closes := fits.closes
  rw [rest] at closes
  refine ⟨?_, ?_⟩
  · rw [← advanceAs_around rest]
    exact taken.ready fits.ready
  · rw [(runs_advanceAs rest kind).frames, rest_advanceAs rest]
    exact closes.after_plain noOpener noCloser

theorem carries_advanceAs (fits : a.Fits x) (rest : x.rest = t :: ts) (noOpener : t.kind.closer? = none)
    (noCloser : t.kind.isCloser = false) (kind : Kind) :
    Carries a b x ((a.around x).advanceAs kind) ((b.around x).advanceAs kind) := by
  intro _
  rw [advanceAs_around rest, advanceAs_around rest]
  exact ⟨_, rfl, rfl, fits.advanceAs rest noOpener noCloser kind, (runs_advanceAs rest kind).frames⟩

theorem carries_advance (fits : a.Fits x) (rest : x.rest = t :: ts) (noOpener : t.kind.closer? = none)
    (noCloser : t.kind.isCloser = false) :
    Carries a b x (a.around x).advance (b.around x).advance := by
  rw [advance, advance, kind_around rest, kind_around rest]
  exact carries_advanceAs fits rest noOpener noCloser t.kind

/-! ## Nodes -/

theorem Fits.congr (fits : s.Fits x) (rest : y.rest = x.rest) (frames : y.frames = x.frames) : s.Fits y := by
  refine ⟨⟨fits.ready.last_eof, ?_⟩, ?_⟩
  · intro t member
    apply fits.ready.rest_ne_eof t
    simpa [around, rest] using member
  · rw [rest, frames]
    exact fits.closes

theorem frames_complete (p : Parser) (m : Marker) (kind : Kind) :
    (p.complete m kind).2.frames = p.frames := by
  simp only [complete]
  split <;> rfl

theorem carriesResult_complete (rest : x.rest = t :: ts) {p p' : Parser} (kind : Kind)
    (body : Carries a b x.begun p p') :
    CarriesResult a b x (p.complete (a.around x).start.1 kind) (p'.complete (b.around x).start.1 kind) := by
  intro holds
  obtain ⟨y, rfl, rfl, fits, frames⟩ := body (holds.congr (reports_complete ..) (rest_complete ..))
  rw [start_around rest, start_around rest, complete_around, complete_around]
  refine ⟨_, _, rfl, rfl, fits.congr (rest_complete ..) (frames_complete ..), ?_⟩
  rw [frames_complete, frames]
  rfl

theorem carriesResult_node (rest : x.rest = t :: ts) {body body' : Parser → Parser} (kind : Kind)
    (filled : Carries a b x.begun (body (a.around x.begun)) (body' (b.around x.begun))) :
    CarriesResult a b x ((a.around x).node kind body) ((b.around x).node kind body') := by
  have node := carriesResult_complete rest kind filled
  simpa only [Parser.node, start_around rest] using node

theorem Fits.begun (fits : s.Fits x) : s.Fits x.begun :=
  fits.congr rfl rfl

theorem carriesResult_wrap (c : Completed) (kind : Kind) (body body' : Parser → Parser)
    (filled : Carries a b (x.precede c).2 (body (a.around (x.precede c).2))
      (body' (b.around (x.precede c).2))) :
    CarriesResult a b x ((a.around x).wrap c kind body) ((b.around x).wrap c kind body') := by
  simp only [Parser.wrap, precede_around]
  intro holds
  obtain ⟨y, left, right, fits, frames⟩ := filled (holds.congr (reports_complete ..) (rest_complete ..))
  rw [left, right, complete_around, complete_around]
  refine ⟨_, _, rfl, rfl, fits.congr (rest_complete ..) (frames_complete ..), ?_⟩
  exact (frames_complete ..).trans (frames.trans (frames_preceded (c, x)))

/-! ## Delimited sequences -/

theorem rest_openSequence {p : Parser} (rest : p.rest = t :: ts) (opens : t.kind.closer? = some closer)
    (name : String) : (p.openSequence name).rest = ts := by
  rw [openSequence_eq rest opens]
  exact rest_advanceAs rest t.kind

theorem Fits.openSequence (fits : s.Fits x) (rest : x.rest = t :: ts)
    (opens : t.kind.closer? = some closer) (name : String) : s.Fits (x.openSequence name) := by
  have closes := fits.closes
  rw [rest] at closes
  refine ⟨?_, ?_⟩
  · rw [← openSequence_around rest opens]
    exact fits.ready.openSequence (rest_around rest) opens name
  · rw [frames_openSequence rest opens, rest_openSequence rest opens]
    exact closes.after_opener opens

theorem closeSequence_around {frame : Frame} {outer : List Frame} (rest : x.rest = t :: ts)
    (frames : x.frames = frame :: outer) (closes : t.kind = frame.closer) (s : Setting) :
    (s.around x).closeSequence = s.around { x.advance with frames := outer } := by
  have framesEq : (s.around x).frames = frame :: (outer ++ s.outer) := by simp [around, frames]
  have atCloser : (s.around x).isAt frame.closer = true := by simp [isAt_around rest, closes]
  simp only [closeSequence, framesEq, atCloser, if_true, advance_around rest]
  rfl

theorem carries_between {p p' : Parser} {name : String} (fits : a.Fits x) (rest : x.rest = t :: ts)
    (opens : t.kind.closer? = some closer) (grows : ∃ ds, Runs ((a.around x).openSequence name) ds p)
    (inside : Carries a b (x.openSequence name) p p') : Carries a b x p.closeSequence p'.closeSequence := by
  intro holds
  obtain ⟨ds, runs⟩ := grows
  have ready := runs.ready (fits.ready.openSequence (rest_around rest) opens name)
  have frames := runs.frames
  rw [frames_openSequence (rest_around rest) opens] at frames
  obtain ⟨q, es, closing, closedEq, -⟩ := closeSequence_eq ready (closer_ne_eof opens) frames
  have holdsOpen : a.Holds p := by
    rw [closedEq] at holds
    exact Holds.before (q := q) ⟨holds.quiet, holds.inside⟩ closing
  obtain ⟨y, rfl, rfl, fits', frames'⟩ := inside holdsOpen
  rw [frames_openSequence rest opens] at frames'
  obtain ⟨u, us, rest'⟩ := fits'.exists_rest (by rw [frames']; exact List.cons_ne_nil _ _)
  by_cases closes : u.kind = closer
  · rw [closeSequence_around rest' frames' closes, closeSequence_around rest' frames' closes]
    refine ⟨_, rfl, rfl, ⟨?_, ?_⟩, rfl⟩
    · have advanced := (runs_advance (rest_around (s := a) rest')).ready fits'.ready
      rw [advance_around rest'] at advanced
      exact ⟨advanced.last_eof, advanced.rest_ne_eof⟩
    · have inner := fits'.closes
      rw [rest', frames'] at inner
      obtain ⟨outer, awaited, after⟩ := inner.after_closer (by rw [closes]; exact Kind.isCloser_of_closer? opens)
      have same : x.frames.map Frame.closer = outer := (List.cons.inj awaited).2
      have restEq : y.advance.rest = us := rest_advanceAs rest' _
      change Token.Closes (x.frames.map Frame.closer) y.advance.rest
      rw [restEq, same]
      exact after
  · -- A closing token that is missing is reported.
    have reported : (a.around y).closeSequence.reports ≠ [] := by
      have framesEq : (a.around y).frames = ⟨closer, name⟩ :: (x.frames ++ a.outer) := by
        simp [around, frames']
      have notAt : (a.around y).isAt closer = false := by simpa [isAt_around rest'] using closes
      simp [closeSequence, framesEq, notAt, report, reportAt]
    exact absurd holds.quiet reported

end Setting

end LispSyntax
