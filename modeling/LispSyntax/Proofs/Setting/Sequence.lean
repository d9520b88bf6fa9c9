import LispSyntax.Proofs.Setting

/-! # Sequences, collections and vectors in their settings

The productions that read forms one after another, carried from one setting to another. What they ask of the rule
for a form is `CarriesForms`; the two rules may differ, as the nesting that is allowed differs with the setting.
Loops run on the number of tokens to come, which differs too, so each loop is carried for all numbers that are
large enough.
-/

namespace LispSyntax

namespace Setting

open LispSyntax.Parser Grammar

/-- The rule for a form in the one setting goes the same way as that in the other. -/
structure CarriesForms (a b : Setting) (form form' : FormRule) : Prop where
  reads : ReadsForms form
  reads' : ReadsForms form'
  carries : ∀ x t ts, a.Fits x → x.rest = t :: ts → t.kind.isCloser = false →
    CarriesResult a b x (form (a.around x)) (form' (b.around x))

variable {a b : Setting} {form form' : FormRule} {x y : Parser} {t : Token} {ts : List Token} {kind closer : Kind}

theorem grows_of_reads {p q : Parser} {pattern : Prop → Pattern (Kind × Token)} (reads : Reads p q pattern) :
    ∃ ds, Runs p ds q := by
  obtain ⟨ds, runs, -⟩ := reads
  exact ⟨ds, runs⟩

theorem Fits.going (fits : a.Fits x) (rest : x.rest = t :: ts) (noCloser : t.kind.isCloser = false) :
    (a.around x).atSequenceEnd = false := by
  rw [fits.atSequenceEnd_eq rest, noCloser]

/-- Inside a sequence there is something to come, so a loop that has turns enough has one. -/
theorem Fits.turns_pos {turns : Nat} (fits : a.Fits x) (inside : x.frames ≠ []) (enough : x.rest.length ≤ turns) :
    0 < turns := by
  obtain ⟨t, ts, rest⟩ := fits.exists_rest inside
  rw [rest, List.length_cons] at enough
  omega

/-- The stretch gets shorter where the tokens to come do. -/
theorem length_lt_of_around (shorter : (a.around y).rest.length < (a.around x).rest.length) :
    y.rest.length < x.rest.length := by
  simp only [around, List.length_append] at shorter
  omega

theorem length_le_around (s : Setting) (x : Parser) : x.rest.length ≤ (s.around x).rest.length := by
  simp [around]

theorem CarriesForms.shorter (forms : CarriesForms a b form form') (fits : a.Fits x)
    (rest : x.rest = t :: ts) (noCloser : t.kind.isCloser = false)
    (next : (form (a.around x)).2 = a.around y) : y.rest.length < x.rest.length := by
  have progress := rest_lt_of_reads (forms.reads.reads _ fits.ready (fits.going rest noCloser))
  rw [next] at progress
  exact length_lt_of_around progress

/-- The rule can be asked anywhere in a stretch; where a sequence ends it does nothing. -/
theorem CarriesForms.carriesResult (forms : CarriesForms a b form form') (fits : a.Fits x)
    (rest : x.rest = t :: ts) : CarriesResult a b x (form (a.around x)) (form' (b.around x)) := by
  cases noCloser : t.kind.isCloser with
  | false => exact forms.carries x t ts fits rest noCloser
  | true =>
    have ended : ∀ s : Setting, (s.around x).atSequenceEnd = true := by
      intro s
      rw [fits.atSequenceEnd_eq rest, noCloser]
    rw [forms.reads.atEnd _ (ended a), forms.reads'.atEnd _ (ended b)]
    exact (Carries.stay fits b).result none

/-! ## Forms in a row -/

theorem carries_sequenceLoop (forms : CarriesForms a b form form') (turns turns' : Nat) (fits : a.Fits x)
    (inside : x.frames ≠ []) (enough : x.rest.length ≤ turns) (enough' : x.rest.length ≤ turns') :
    Carries a b x (sequenceLoop form turns (a.around x)) (sequenceLoop form' turns' (b.around x)) := by
  induction turns generalizing x turns' with
  | zero => exact absurd (fits.turns_pos inside enough) (Nat.lt_irrefl 0)
  | succ turns inductionHypothesis =>
    obtain ⟨t, ts, rest⟩ := fits.exists_rest inside
    cases turns' with
    | zero => exact absurd (fits.turns_pos inside enough') (Nat.lt_irrefl 0)
    | succ turns' =>
      simp only [sequenceLoop, fits.atSequenceEnd_eq rest]
      cases noCloser : t.kind.isCloser with
      | true => exact Carries.stay fits b
      | false =>
        have reads := forms.reads.reads _ fits.ready (fits.going rest noCloser)
        have first := (forms.carries x t ts fits rest noCloser).carries
        refine first.andThen (sequenceLoop form turns) (sequenceLoop form' turns')
          (grows_of_reads (reads_sequenceLoop forms.reads turns (reads.ready fits.ready))) ?_
        intro y fits' frames next
        have shorter := forms.shorter fits rest noCloser next
        exact inductionHypothesis turns' fits' (frames ▸ inside) (by omega) (by omega)

theorem carries_sequence (forms : CarriesForms a b form form') (fits : a.Fits x) (inside : x.frames ≠ []) :
    Carries a b x (sequence form (a.around x)) (sequence form' (b.around x)) :=
  carries_sequenceLoop forms _ _ fits inside (length_le_around a x) (length_le_around b x)

theorem carriesResult_expectForm (forms : CarriesForms a b form form') (fits : a.Fits x)
    (rest : x.rest = t :: ts) (missing : StructuralProblem) :
    CarriesResult a b x (expectForm form missing (a.around x)) (expectForm form' missing (b.around x)) := by
  simp only [expectForm, fits.atSequenceEnd_eq rest]
  cases noCloser : t.kind.isCloser with
  | true => exact .of_noisy (Reads.report (a.around x) missing) fun _ noisy => noisy.1 trivial
  | false => exact forms.carries x t ts fits rest noCloser

theorem carries_recover (forms : CarriesForms a b form form') (fits : a.Fits x)
    (problem : StructuralProblem) (p' : Parser) : Carries a b x (recover form problem (a.around x)) p' :=
  .of_noisy (reads_recover forms.reads fits.ready problem) fun _ noisy => noisy.1 trivial

/-! ## Single tokens -/

theorem plain_of_isSymbolToken (isSymbol : kind.isSymbolToken = true) :
    kind.closer? = none ∧ kind.isCloser = false := by
  cases kind <;> first | exact ⟨rfl, rfl⟩ | contradiction

theorem plain_of_isLiteralToken (isLiteral : kind.isLiteralToken = true) :
    kind.closer? = none ∧ kind.isCloser = false := by
  cases kind <;> first | exact ⟨rfl, rfl⟩ | contradiction

/-- A node around one token that neither opens nor closes anything. -/
theorem carriesResult_leafNode (fits : a.Fits x) (rest : x.rest = t :: ts)
    (plain : t.kind.closer? = none ∧ t.kind.isCloser = false) (kind : Kind) :
    CarriesResult a b x ((a.around x).node kind Parser.advance) ((b.around x).node kind Parser.advance) :=
  carriesResult_node rest kind (carries_advance fits.begun rest plain.1 plain.2)

theorem carriesResult_literal (fits : a.Fits x) (rest : x.rest = t :: ts)
    (isLiteral : t.kind.isLiteralToken = true) :
    CarriesResult a b x (literal (a.around x)) (literal (b.around x)) := by
  have met : ∀ s : Setting, (s.around x).kind.isLiteralToken = true := by
    intro s
    rw [kind_around rest, isLiteral]
  rw [literal, literal, require_eq (met a), require_eq (met b)]
  exact carriesResult_leafNode fits rest (plain_of_isLiteralToken isLiteral) .literal

theorem carriesResult_symbol (fits : a.Fits x) (rest : x.rest = t :: ts)
    (isSymbol : t.kind.isSymbolToken = true) :
    CarriesResult a b x (symbol (a.around x)) (symbol (b.around x)) := by
  have met : ∀ s : Setting, (s.around x).kind.isSymbolToken = true := by
    intro s
    rw [kind_around rest, isSymbol]
  rw [symbol, symbol, require_eq (met a), require_eq (met b)]
  exact carriesResult_leafNode fits rest (plain_of_isSymbolToken isSymbol) .symbol

/-! ## Lookups -/

/-- The setting keeps apart from what stands in it: a token that follows has trivia in front of it. -/
structure Apart (s : Setting) : Prop where
  last_eof : s.last.kind = .eof
  leading : ∀ t ts, s.after = t :: ts → t.leading ≠ []

def lookupNext (p : Parser) : Bool :=
  p.isAt .slash && p.joinedToPrevious && p.joined 0 && (p.nth 1).isSymbolToken

theorem infixLookup_eq (c : Completed) (p : Parser) : infixLookup (c, p) =
    if lookupNext p then p.wrap c .lookupForm fun p => (symbol p.advance).2 else (c, p) :=
  rfl

theorem joined_of_leading {t u : Token} (leading : u.leading ≠ []) : t.joined u = false := by
  simp [Token.joined, leading]

theorem lookupNext_around {u : Token} {us : List Token} (rest : x.rest = t :: u :: us) (s : Setting) :
    lookupNext (s.around x) = lookupNext x := by
  simp [lookupNext, isAt, Parser.kind, joinedToPrevious, current, joined, nth, Parser.token, around, rest]

/-- At the end of a stretch, no lookup reaches into a setting that keeps apart. -/
theorem Apart.lookupNext_eq (apart : b.Apart) (short : x.rest.length ≤ 1) : lookupNext (b.around x) = false := by
  have lastKind := apart.last_eof
  have leading := apart.leading
  cases rest : x.rest with
  | nil =>
    cases after : b.after with
    | nil => simp [lookupNext, isAt, Parser.kind, current, Parser.token, around, rest, after, lastKind]
    | cons u us =>
      have apart' := leading u us after
      have notJoined : (b.around x).joinedToPrevious = false := by
        have next : (b.around x).current = u := by simp [current, Parser.token, around, rest, after]
        rw [joinedToPrevious, next]
        split
        · exact joined_of_leading apart'
        · rfl
      simp [lookupNext, notJoined]
  | cons t ts =>
    obtain rfl : ts = [] := by simpa [rest] using short
    cases after : b.after with
    | nil =>
      have next : (b.around x).nth 1 = .eof := by simp [nth, Parser.token, around, rest, after, lastKind]
      rw [lookupNext, next]
      exact Bool.and_false _
    | cons u us =>
      have notJoined : (b.around x).joined 0 = false := by
        simpa [joined, Parser.token, around, rest, after] using joined_of_leading (leading u us after)
      simp [lookupNext, notJoined]

/-- Where no lookup follows in the one setting, none follows in one that keeps apart. -/
theorem Apart.lookupNext_eq_false (apart : b.Apart) (next : lookupNext (a.around y) = false) :
    lookupNext (b.around y) = false := by
  match rest : y.rest with
  | [] | [_] => exact apart.lookupNext_eq (by simp [rest])
  | t :: u :: us => rw [lookupNext_around rest, ← lookupNext_around rest a, next]

theorem exists_of_lookupNext {p : Parser} (ready : p.Ready) (next : lookupNext p = true) :
    ∃ t u us, p.rest = t :: u :: us ∧ t.kind = .slash ∧ u.kind.isSymbolToken = true := by
  simp only [lookupNext, Bool.and_eq_true] at next
  obtain ⟨⟨⟨atSlash, -⟩, -⟩, isSymbol⟩ := next
  obtain ⟨t, ts, rest, isSlash⟩ := ready.exists_isAt atSlash (by decide)
  obtain ⟨u, us, rfl, isSymbol⟩ := ready.exists_symbol_after rest isSymbol
  exact ⟨t, u, us, rest, isSlash, isSymbol⟩

/-- A lookup takes a slash and a name, and reports nothing. -/
theorem lookup_fields {p : Parser} {u : Token} {us : List Token} (c : Completed) (rest : p.rest = t :: u :: us)
    (isSymbol : u.kind.isSymbolToken = true) :
    (p.wrap c .lookupForm fun p => (symbol p.advance).2).2.rest = us ∧
      (p.wrap c .lookupForm fun p => (symbol p.advance).2).2.reports = p.reports := by
  have restEq : (p.precede c).2.rest = t :: u :: us := (rest_preceded (c, p)).trans rest
  have ahead : (p.precede c).2.advance.rest = u :: us := rest_advanceAs restEq _
  have met : (p.precede c).2.advance.kind.isSymbolToken = true := by rw [kind_of_rest ahead, isSymbol]
  have quiet : (p.precede c).2.advance.reports = p.reports := (quiet_advanceAs restEq _).trans (reports_preceded (c, p))
  rw [Parser.wrap, rest_complete, reports_complete, symbol, require_eq met, Parser.node, rest_complete,
    reports_complete]
  exact ⟨rest_advanceAs (p := (p.precede c).2.advance.begun) ahead _,
    (quiet_advanceAs (p := (p.precede c).2.advance.begun) ahead _).trans quiet⟩

/-- What ends before the tokens that follow is in the stretch. -/
theorem exists_two_inside {u : Token} {us : List Token} (rest : (a.around y).rest = t :: u :: us)
    (inside : a.after.length ≤ us.length) : ∃ us', y.rest = t :: u :: us' := by
  have split : y.rest ++ a.after = t :: u :: us := rest
  have lengths := congrArg List.length split
  match y.rest, split, lengths with
  | [], split, lengths | [_], split, lengths =>
    simp at lengths
    omega
  | t' :: u' :: us', split, _ =>
    simp only [List.cons_append, List.cons.injEq] at split
    obtain ⟨rfl, rfl, -⟩ := split
    exact ⟨us', rfl⟩

/-- The slash and the name of a lookup. -/
theorem carries_lookupEnd {u : Token} {us : List Token} (fits : a.Fits x) (rest : x.rest = t :: u :: us)
    (isSlash : t.kind = .slash) (isSymbol : u.kind.isSymbolToken = true) :
    Carries a b x (symbol (a.around x).advance).2 (symbol (b.around x).advance).2 := by
  have plain : t.kind.closer? = none ∧ t.kind.isCloser = false := by rw [isSlash]; exact ⟨rfl, rfl⟩
  have ahead : (a.around x).advance.rest = u :: (us ++ a.after) := rest_advanceAs (rest_around rest) _
  refine (carries_advance fits rest plain.1 plain.2).andThen (fun p => (symbol p).2) (fun p => (symbol p).2)
    (grows_of_reads (reads_symbol ahead isSymbol).reads) ?_
  intro z fitsZ _ next
  rw [next] at ahead
  have split : z.rest ++ a.after = (u :: us) ++ a.after := ahead
  exact (carriesResult_symbol fitsZ (List.append_cancel_right split) isSymbol).carries

theorem carriesResult_infixLookup {r r' : Completed × Parser} (apart : b.Apart) (ready : r.2.Ready)
    (account : CarriesResult a b x r r') : CarriesResult a b x (infixLookup r) (infixLookup r') := by
  intro holds
  obtain ⟨c, p⟩ := r
  cases next : lookupNext p with
  | false =>
    have unchanged : infixLookup (c, p) = (c, p) := by rw [infixLookup_eq, next]; rfl
    rw [unchanged] at holds ⊢
    obtain ⟨v, y, left, rfl, fits, frames⟩ := account holds
    obtain ⟨rfl, rfl⟩ := Prod.mk.inj left
    rw [infixLookup_eq, apart.lookupNext_eq_false next]
    exact ⟨_, y, rfl, rfl, fits, frames⟩
  | true =>
    obtain ⟨t, u, us, rest, isSlash, isSymbol⟩ := exists_of_lookupNext ready next
    obtain ⟨restEq, reportsEq⟩ := lookup_fields c rest isSymbol
    rw [infixLookup_eq, next, if_pos rfl] at holds ⊢
    have inside : a.after.length ≤ us.length := by
      have within := holds.inside
      rwa [restEq] at within
    obtain ⟨v, y, left, rfl, fits, frames⟩ := account ⟨reportsEq ▸ holds.quiet, by rw [rest]; simp; omega⟩
    obtain ⟨rfl, rfl⟩ := Prod.mk.inj left
    -- The lookup ends inside the stretch, so both its tokens are in the stretch.
    obtain ⟨us', restY⟩ := exists_two_inside rest inside
    rw [infixLookup_eq, lookupNext_around restY, ← lookupNext_around restY a, next, if_pos rfl]
    have restP : (y.precede c).2.rest = t :: u :: us' := (rest_preceded (c, y)).trans restY
    have fitsP : a.Fits (y.precede c).2 := fits.congr (rest_preceded (c, y)) (frames_preceded (c, y))
    obtain ⟨w, z, left', right', fits', frames'⟩ := carriesResult_wrap c .lookupForm
      (fun p => (symbol p.advance).2) (fun p => (symbol p.advance).2) (carries_lookupEnd fitsP restP isSlash isSymbol)
      holds
    exact ⟨w, z, left', right', fits', frames'.trans frames⟩

/-! ## Collections -/

/-- A node around a delimited sequence, whatever is read inside it. -/
theorem carriesResult_enclosed (name : String) (kind : Kind) (body body' : Parser → Parser) (fits : a.Fits x)
    (rest : x.rest = t :: ts) (opens : t.kind.closer? = some closer)
    (grows : ∀ q : Parser, q.Ready → q.rest = ts ++ a.after → ∃ ds, Runs q ds (body q))
    (inside : ∀ y, a.Fits y → y.frames ≠ [] → y.rest = ts →
      Carries a b y (body (a.around y)) (body' (b.around y))) :
    CarriesResult a b x ((a.around x).node kind fun p => (body (p.openSequence name)).closeSequence)
      ((b.around x).node kind fun p => (body' (p.openSequence name)).closeSequence) := by
  apply carriesResult_node rest
  have opened := fits.begun.openSequence rest opens name
  apply carries_between fits.begun rest opens
  · exact grows _ (fits.begun.ready.openSequence (rest_around rest) opens name)
      (rest_openSequence (rest_around (x := x.begun) rest) opens name)
  · rw [openSequence_around (x := x.begun) rest opens, openSequence_around (x := x.begun) rest opens]
    refine inside _ opened ?_ (rest_openSequence (p := x.begun) rest opens name)
    rw [frames_openSequence (p := x.begun) rest opens]
    exact List.cons_ne_nil _ _

theorem carriesResult_delimited (forms : CarriesForms a b form form') (name : String) (kind : Kind)
    (fits : a.Fits x) (rest : x.rest = t :: ts) (opens : t.kind.closer? = some closer) :
    CarriesResult a b x (delimited name kind form (a.around x)) (delimited name kind form' (b.around x)) :=
  carriesResult_enclosed name kind (sequence form) (sequence form') fits rest opens
    (fun _ ready _ => grows_of_reads (reads_sequence forms.reads ready))
    (fun _ fits' inside _ => carries_sequence forms fits' inside)

/-! ## Maps and metadata -/

/-- The entries of a map after one more turn, which may have read a form. -/
def entriesAfter (entries : Entries) (p : Parser) : Option Completed → Entries
  | some entry => ⟨entries.count + 1, some (p.spanOf entry)⟩
  | none => entries

theorem entriesLoop_of_going {p : Parser} (turns : Nat) (entries : Entries) (going : p.atSequenceEnd = false) :
    entriesLoop form (turns + 1) entries p =
      entriesLoop form turns (entriesAfter entries (form p).2 (form p).1) (form p).2 := by
  rw [entriesLoop, going, if_neg Bool.false_ne_true]
  generalize form p = r
  obtain ⟨v, q⟩ := r
  cases v <;> rfl

theorem entriesAfter_around (rest : x.rest = t :: ts) (s : Setting) (entries : Entries)
    (v : Option Completed) : entriesAfter entries (s.around x) v = entriesAfter entries x v := by
  cases v with
  | none => rfl
  | some entry =>
    rw [entriesAfter, entriesAfter, spanOf, spanOf, current_around rest, current_of_rest rest]

theorem carriesResult_entriesLoop (forms : CarriesForms a b form form') (turns turns' : Nat) (entries : Entries)
    (fits : a.Fits x) (inside : x.frames ≠ []) (enough : x.rest.length ≤ turns)
    (enough' : x.rest.length ≤ turns') :
    CarriesResult a b x (entriesLoop form turns entries (a.around x))
      (entriesLoop form' turns' entries (b.around x)) := by
  induction turns generalizing x turns' entries with
  | zero => exact absurd (fits.turns_pos inside enough) (Nat.lt_irrefl 0)
  | succ turns inductionHypothesis =>
    obtain ⟨t, ts, rest⟩ := fits.exists_rest inside
    cases turns' with
    | zero => exact absurd (fits.turns_pos inside enough') (Nat.lt_irrefl 0)
    | succ turns' =>
      cases noCloser : t.kind.isCloser with
      | true =>
        simp only [entriesLoop, fits.atSequenceEnd_eq rest, noCloser]
        exact (Carries.stay fits b).result entries
      | false =>
        have going : ∀ s : Setting, (s.around x).atSequenceEnd = false := by
          intro s
          rw [fits.atSequenceEnd_eq rest, noCloser]
        have ready := (forms.reads.reads _ fits.ready (going a)).ready fits.ready
        rw [entriesLoop_of_going turns entries (going a), entriesLoop_of_going turns' entries (going b)]
        refine (forms.carries x t ts fits rest noCloser).andThen
          (fun v p => entriesLoop form turns (entriesAfter entries p v) p)
          (fun v p => entriesLoop form' turns' (entriesAfter entries p v) p)
          (grows_of_reads (reads_entriesLoop forms.reads turns _ ready)) ?_
        intro v y fits' frames next
        have shorter := forms.shorter fits rest noCloser (congrArg Prod.snd next)
        have inside' : y.frames ≠ [] := frames ▸ inside
        obtain ⟨u, us, rest'⟩ := fits'.exists_rest inside'
        rw [entriesAfter_around rest', entriesAfter_around rest']
        exact inductionHypothesis turns' _ fits' inside' (by omega) (by omega)

theorem carries_checkPaired (entries : Entries) (fits : a.Fits x) :
    Carries a b x (checkPaired entries (a.around x)) (checkPaired entries (b.around x)) := by
  unfold checkPaired
  split
  · split
    · exact .of_noisy (Reads.reportAt (a.around x) _ _) fun _ noisy => noisy.1 trivial
    · exact Carries.stay fits b
  · exact Carries.stay fits b

theorem grows_checkPaired (entries : Entries) (p : Parser) : ∃ ds, Runs p ds (checkPaired entries p) := by
  unfold checkPaired
  split
  · split
    · exact ⟨_, runs_reportAt ..⟩
    · exact ⟨_, .refl p⟩
  · exact ⟨_, .refl p⟩

theorem carriesResult_map (forms : CarriesForms a b form form') (fits : a.Fits x) (rest : x.rest = t :: ts)
    (isBrace : t.kind = .leftBrace) :
    CarriesResult a b x (map form (a.around x)) (map form' (b.around x)) := by
  refine carriesResult_enclosed "map" .mapForm
    (fun q => checkPaired (entriesLoop form q.rest.length ⟨0, none⟩ q).1
      (entriesLoop form q.rest.length ⟨0, none⟩ q).2)
    (fun q => checkPaired (entriesLoop form' q.rest.length ⟨0, none⟩ q).1
      (entriesLoop form' q.rest.length ⟨0, none⟩ q).2)
    fits rest (by rw [isBrace]; rfl) (fun q ready _ => grows_of_reads (reads_entries forms.reads _ ready)) ?_
  intro y fits' inside _
  have entries := carriesResult_entriesLoop forms _ _ ⟨0, none⟩ fits' inside (length_le_around a y)
    (length_le_around b y)
  exact entries.andCarries checkPaired checkPaired (grows_checkPaired _ _)
    fun entries z fits'' _ _ => carries_checkPaired entries fits''

theorem carries_metadataBody (forms : CarriesForms a b form form') (fits : a.Fits x) (inside : x.frames ≠ []) :
    Carries a b x (metadataBody form (a.around x)) (metadataBody form' (b.around x)) := by
  obtain ⟨t, ts, rest⟩ := fits.exists_rest inside
  by_cases isBrace : t.kind = .leftBrace
  · have braced : ∀ s : Setting, (s.around x).isAt .leftBrace = true := by
      intro s
      simp [isAt_around rest, isBrace]
    rw [metadataBody, metadataBody, if_pos (braced a), if_pos (braced b)]
    exact (carriesResult_map forms fits rest isBrace).carries
  · have noMap : (a.around x).isAt .leftBrace = false := by simp [isAt_around rest, isBrace]
    exact .of_noisy (reads_noMetadataMap forms.reads fits.ready noMap) fun _ noisy => noisy.1 trivial

theorem carriesResult_metadata (forms : CarriesForms a b form form') (fits : a.Fits x) (inside : x.frames ≠ [])
    (rest : x.rest = t :: ts) (isCaret : t.kind = .caret) :
    CarriesResult a b x (metadata form (a.around x)) (metadata form' (b.around x)) := by
  have met : ∀ s : Setting, (s.around x).isAt .caret = true := by
    intro s
    simp [isAt_around rest, isCaret]
  rw [metadata, metadata, require_eq (met a), require_eq (met b)]
  apply carriesResult_node rest
  have ready := (runs_advance (rest_around (s := a) (x := x.begun) rest)).ready fits.begun.ready
  refine (carries_advance fits.begun rest (by rw [isCaret]; rfl) (by rw [isCaret]; rfl)).andThen
    (metadataBody form) (metadataBody form') (grows_of_reads (reads_metadataBody forms.reads ready)) ?_
  intro y fits' frames _
  exact carries_metadataBody forms fits' (frames ▸ inside)

theorem carries_optionalMetadata (forms : CarriesForms a b form form') (fits : a.Fits x)
    (inside : x.frames ≠ []) :
    Carries a b x (metadata? form (a.around x)) (metadata? form' (b.around x)) := by
  obtain ⟨t, ts, rest⟩ := fits.exists_rest inside
  simp only [metadata?, isAt_around rest, beq_iff_eq]
  by_cases isCaret : t.kind = .caret
  · rw [if_pos isCaret, if_pos isCaret]
    exact (carriesResult_metadata forms fits inside rest isCaret).carries
  · rw [if_neg isCaret, if_neg isCaret]
    exact Carries.stay fits b

/-! ## Quotes -/

/-- Behind a stretch there is no form to expect: it would be taken from the setting, or reported. -/
theorem not_holds_expectForm (forms : ReadsForms form) (fits : a.Fits x) (ended : x.rest = [])
    (missing : StructuralProblem) : ¬ a.Holds (expectForm form missing (a.around x)).2 := by
  intro holds
  rw [expectForm] at holds
  cases going : (a.around x).atSequenceEnd with
  | true =>
    rw [going, if_pos rfl] at holds
    exact not_holds_of_noisy (Reads.report (a.around x) missing) (fun _ noisy => noisy.1 trivial) holds
  | false =>
    rw [going, if_neg Bool.false_ne_true] at holds
    have progress := rest_lt_of_reads (forms.reads _ fits.ready going)
    have within := holds.inside
    simp only [around, ended, List.nil_append] at progress within
    omega

theorem expectForm_eq (form : FormRule) (missing : StructuralProblem) (p : Parser) :
    (expectForm form missing p).2 = if p.atSequenceEnd then p.report missing else (form p).2 := by
  rw [expectForm]
  split <;> rfl

theorem carriesResult_markedForm (forms : CarriesForms a b form form') (fits : a.Fits x)
    (rest : x.rest = t :: ts) (isMark : t.kind = .quoteMark ∨ t.kind = .backtick ∨ t.kind = .tilde) :
    CarriesResult a b x (markedForm form (a.around x)) (markedForm form' (b.around x)) := by
  have plain : t.kind.closer? = none ∧ t.kind.isCloser = false := by
    rcases isMark with isMark | isMark | isMark <;> rw [isMark] <;> exact ⟨rfl, rfl⟩
  rw [markedForm, markedForm, kind_around rest, kind_around rest]
  simp only [← expectForm_eq]
  apply carriesResult_node rest
  have ready := (runs_advance (rest_around (s := a) (x := x.begun) rest)).ready fits.begun.ready
  refine (carries_advance fits.begun rest plain.1 plain.2).andThen
    (fun p => (expectForm form (.nothingAfterMark t.kind) p).2)
    (fun p => (expectForm form' (.nothingAfterMark t.kind) p).2)
    (grows_of_reads (reads_expectForm forms.reads ready _)) ?_
  intro y fits' _ _
  cases rest' : y.rest with
  | nil => exact fun holds => absurd holds (not_holds_expectForm forms.reads fits' rest' _)
  | cons u us => exact (carriesResult_expectForm forms fits' rest' _).carries

end Setting

end LispSyntax
