import LispSyntax.Proofs.Setting.Binding

/-! # Forms in their settings

Special forms, and with them the rule for a form at every depth (`carriesForms_form`): a form that is read without
a report in one setting is read in the same way in another that keeps apart from it and allows at least as much
nesting. The loop over a source is carried too, up to the end of the stretch.
-/

namespace LispSyntax

namespace Setting

open LispSyntax.Parser Grammar

variable {a b : Setting} {form form' : FormRule} {x y : Parser} {t : Token} {ts : List Token} {kind closer : Kind}

/-! ## Lookups, imports and definitions -/

theorem carries_expectSymbol (forms : CarriesForms a b form form') (fits : a.Fits x) (inside : x.frames ≠ [])
    (missing : StructuralProblem) :
    Carries a b x (expectSymbol form missing (a.around x)) (expectSymbol form' missing (b.around x)) := by
  obtain ⟨t, ts, rest⟩ := fits.exists_rest inside
  simp only [expectSymbol, atSymbol_around rest]
  split
  · rename_i isSymbol
    exact (carriesResult_symbol fits rest isSymbol).carries
  · exact carries_recover forms fits missing _

/-- A symbol that must be there, after something else. -/
theorem Carries.andSymbol {p p' : Parser} (forms : CarriesForms a b form form') (inside : x.frames ≠ [])
    (ready : p.Ready) (first : Carries a b x p p') (missing : StructuralProblem) :
    Carries a b x (expectSymbol form missing p) (expectSymbol form' missing p') :=
  first.andThen (expectSymbol form missing) (expectSymbol form' missing)
    (grows_of_reads (reads_expectSymbol forms.reads ready missing))
    fun _ fits' frames _ => carries_expectSymbol forms fits' (frames ▸ inside) missing

/-- Inside a sequence a token that does not close it is followed by another. -/
theorem Fits.exists_second (fits : a.Fits x) (inside : x.frames ≠ []) (rest : x.rest = t :: ts)
    (plain : t.kind.closer? = none ∧ t.kind.isCloser = false) : ∃ u us, ts = u :: us := by
  have closes := fits.closes
  rw [rest] at closes
  apply List.exists_cons_of_ne_nil
  apply (closes.after_plain plain.1 plain.2).ne_nil
  simpa using inside

theorem carries_lookupBody (forms : CarriesForms a b form form') (fits : a.Fits x) (inside : x.frames ≠ []) :
    Carries a b x (lookupBody form (a.around x)) (lookupBody form' (b.around x)) := by
  obtain ⟨t, ts, rest⟩ := fits.exists_rest inside
  simp only [lookupBody, isAt_around_iff rest, atSymbol_around rest]
  split
  · rename_i isAddress
    have isLiteral : t.kind.isLiteralToken = true := by rw [isAddress]; rfl
    exact (carriesResult_literal fits rest isLiteral).carries.andSymbol forms inside
      ((reads_literal (rest_around rest) isLiteral).reads.ready fits.ready) _
  split
  · rename_i isSymbol
    obtain ⟨u, us, rfl⟩ := fits.exists_second inside rest (plain_of_isSymbolToken isSymbol)
    have second : ∀ s : Setting, (s.around x).nth 1 = u.kind := by
      intro s
      simp [nth, Parser.token, around, rest]
    rw [second a, second b]
    split
    · exact (carriesResult_symbol fits rest isSymbol).carries.andSymbol forms inside
        ((reads_symbol (rest_around rest) isSymbol).reads.ready fits.ready) _
    · exact carries_expectSymbol forms fits inside _
  · exact carries_recover forms fits .nothingToLookUp _

def importEnd (form : FormRule) (p : Parser) : Parser :=
  if p.isAt .keyword && p.current.text = ":as".toList then expectSymbol form .noAlias (p.advanceAs .asMark)
  else p

theorem grows_importEnd {p : Parser} (forms : ReadsForms form) (ready : p.Ready) :
    ∃ ds, Runs p ds (importEnd form p) := by
  rw [importEnd]
  split
  · rename_i isMark
    rw [Bool.and_eq_true] at isMark
    obtain ⟨t, ts, rest, -⟩ := ready.exists_isAt isMark.1 (by decide)
    have mark := runs_advanceAs rest .asMark
    exact grows_trans ⟨_, mark⟩ (grows_of_reads (reads_expectSymbol forms (mark.ready ready) .noAlias))
  · exact ⟨[], .refl p⟩

theorem carries_importEnd (forms : CarriesForms a b form form') (fits : a.Fits x) (inside : x.frames ≠ []) :
    Carries a b x (importEnd form (a.around x)) (importEnd form' (b.around x)) := by
  obtain ⟨t, ts, rest⟩ := fits.exists_rest inside
  simp only [importEnd, isAt_around rest, current_around rest]
  split
  · rename_i isMark
    simp only [Bool.and_eq_true, beq_iff_eq] at isMark
    have mark := runs_advanceAs (rest_around (s := a) rest) .asMark
    exact (carries_advanceAs fits rest (by rw [isMark.1]; rfl) (by rw [isMark.1]; rfl) .asMark).andSymbol
      forms inside (mark.ready fits.ready) .noAlias
  · exact Carries.stay fits b

theorem carries_importBody (forms : CarriesForms a b form form') (fits : a.Fits x) (inside : x.frames ≠ []) :
    Carries a b x (importBody form (a.around x)) (importBody form' (b.around x)) := by
  obtain ⟨t, ts, rest⟩ := fits.exists_rest inside
  simp only [importBody, atSymbol_around rest]
  split
  · rename_i isSymbol
    have ready := (reads_symbol (rest_around (s := a) rest) isSymbol).reads.ready fits.ready
    exact (carriesResult_symbol fits rest isSymbol).carries.andThen (importEnd form) (importEnd form')
      (grows_importEnd forms.reads ready) fun y fits' frames _ => carries_importEnd forms fits' (frames ▸ inside)
  · exact carries_recover forms fits .noLibrary _

theorem carries_definition (forms : CarriesForms a b form form') (missing : StructuralProblem)
    (body body' : Parser → Parser) (fits : a.Fits x) (inside : x.frames ≠ [])
    (grows : ∀ q : Parser, q.Ready → ∃ ds, Runs q ds (body q))
    (bodies : ∀ y, a.Fits y → y.frames ≠ [] → Carries a b y (body (a.around y)) (body' (b.around y))) :
    Carries a b x (definition form missing body (a.around x)) (definition form' missing body' (b.around x)) := by
  obtain ⟨t, ts, rest⟩ := fits.exists_rest inside
  simp only [definition, atSymbol_around rest]
  split
  · rename_i isSymbol
    have ready := (reads_symbol (rest_around (s := a) rest) isSymbol).reads.ready fits.ready
    have attached := reads_optionalMetadata forms.reads ready
    have named := (carriesResult_symbol (b := b) fits rest isSymbol).carries.andThen (metadata? form)
      (metadata? form') (grows_of_reads attached)
      fun y fits' frames _ => carries_optionalMetadata forms fits' (frames ▸ inside)
    exact named.andThen body body' (grows _ (attached.ready ready))
      fun y fits' frames _ => bodies y fits' (frames ▸ inside)
  · exact carries_recover forms fits missing _

theorem carries_expectForm (forms : CarriesForms a b form form') (fits : a.Fits x) (inside : x.frames ≠ [])
    (missing : StructuralProblem) :
    Carries a b x (expectForm form missing (a.around x)).2 (expectForm form' missing (b.around x)).2 := by
  obtain ⟨t, ts, rest⟩ := fits.exists_rest inside
  exact (carriesResult_expectForm forms fits rest missing).carries

/-! ## Conditions -/

theorem grows_clauses {p : Parser} (forms : ReadsForms form) (turns count : Nat) (ready : p.Ready) :
    ∃ ds, Runs p ds (clauses form turns count p) := by
  cases count with
  | zero => exact grows_of_reads (reads_clauses forms turns ready)
  | succ count => exact grows_of_reads (reads_moreClauses forms turns (count + 1) ready (Nat.succ_ne_zero _))

def clauseEnd (form : FormRule) (turns count : Nat) (m : Marker) (p : Parser) : Parser :=
  if p.atSequenceEnd then (p.complete m (if count = 0 then .condClause else .condFallback)).2
  else clauses form turns (count + 1) ((form p).2.complete m .condClause).2

theorem clauses_of_going {p : Parser} (form : FormRule) (turns count : Nat) (going : p.atSequenceEnd = false) :
    clauses form (turns + 1) count p = clauseEnd form turns count p.start.1 (form p.begun).2 := by
  rw [clauses, going]
  rfl

theorem ready_complete {p : Parser} (ready : p.Ready) (m : Marker) (kind : Kind) :
    (p.complete m kind).2.Ready := by
  simp only [complete]
  split <;> exact ⟨ready.last_eof, ready.rest_ne_eof⟩

theorem holds_of_clauseEnd {p : Parser} (forms : ReadsForms form) (turns count : Nat) (m : Marker)
    (ready : p.Ready) (holds : a.Holds (clauseEnd form turns count m p)) : a.Holds p := by
  rw [clauseEnd] at holds
  split at holds
  · exact holds.congr (reports_complete ..) (rest_complete ..)
  · obtain ⟨es, second, -⟩ := reads_optionalForm forms ready
    obtain ⟨ds, others⟩ := grows_clauses forms turns (count + 1)
      (ready_complete (second.ready ready) m .condClause)
    exact ((holds.before others).congr (reports_complete ..) (rest_complete ..)).before second

theorem carries_clauses (forms : CarriesForms a b form form') (turns turns' count : Nat) (fits : a.Fits x)
    (inside : x.frames ≠ []) (enough : x.rest.length ≤ turns) (enough' : x.rest.length ≤ turns') :
    Carries a b x (clauses form turns count (a.around x)) (clauses form' turns' count (b.around x)) := by
  induction turns generalizing x turns' count with
  | zero => exact absurd (fits.turns_pos inside enough) (Nat.lt_irrefl 0)
  | succ turns inductionHypothesis =>
    obtain ⟨t, ts, rest⟩ := fits.exists_rest inside
    cases turns' with
    | zero => exact absurd (fits.turns_pos inside enough') (Nat.lt_irrefl 0)
    | succ turns' =>
      cases noCloser : t.kind.isCloser with
      | true =>
        simp only [clauses, fits.atSequenceEnd_eq rest, noCloser]
        exact Carries.stay fits b
      | false =>
        have going : ∀ s : Setting, (s.around x).atSequenceEnd = false := by
          intro s
          rw [fits.atSequenceEnd_eq rest, noCloser]
        have test := forms.reads.reads (a.around x).begun fits.begun.ready (going a)
        have progress := rest_lt_of_reads test
        have ready := test.ready fits.begun.ready
        have first := (forms.carries x.begun t ts fits.begun rest noCloser).carries
        rw [clauses_of_going form turns count (going a), clauses_of_going form' turns' count (going b)]
        -- Only when the test has been carried is it known whether the sequence ends behind it.
        intro holds
        obtain ⟨y, left, right, fits', frames⟩ := first (holds_of_clauseEnd forms.reads turns count _ ready holds)
        obtain ⟨u, us, rest'⟩ := fits'.exists_rest (frames ▸ inside)
        have sameEnd : (form' (b.around x).begun).2.atSequenceEnd =
            (form (a.around x).begun).2.atSequenceEnd := by
          have left : (form (a.around x).begun).2 = a.around y := left
          have right : (form' (b.around x).begun).2 = b.around y := right
          rw [left, right, fits'.atSequenceEnd_eq rest', fits'.atSequenceEnd_eq rest']
        revert holds
        rw [clauseEnd, clauseEnd, sameEnd]
        split
        · exact (carriesResult_complete rest _ first).carries
        · rename_i more
          have result := forms.reads.reads _ ready (by simpa using more)
          have both := first.andThen (fun p => (form p).2) (fun p => (form' p).2) (grows_of_reads result)
            fun z fits'' frames' _ => by
              obtain ⟨v, vs, rest''⟩ := fits''.exists_rest (frames' ▸ inside)
              exact (forms.carriesResult fits'' rest'').carries
          refine (carriesResult_complete rest .condClause both).carries.andThen
            (clauses form turns (count + 1)) (clauses form' turns' (count + 1))
            (grows_clauses forms.reads turns _ (ready_complete (result.ready ready) _ _)) ?_
          intro z fits'' frames' next
          have shorter : z.rest.length < x.rest.length := by
            have restEq := congrArg (fun p : Parser => p.rest.length) next
            have progress' := rest_lt_of_reads result
            simp only [rest_complete] at restEq
            apply length_lt_of_around (a := a)
            rw [← restEq]
            exact Nat.lt_trans progress' progress
          exact inductionHypothesis turns' _ fits'' (frames' ▸ inside) (by omega) (by omega)

/-! ## Special forms -/

theorem carries_specialBody (forms : CarriesForms a b form form') (fits : a.Fits x) (inside : x.frames ≠ [])
    (head : Kind) :
    Carries a b x (specialBody form head (a.around x)) (specialBody form' head (b.around x)) := by
  cases head
  case lookupHead => exact carries_lookupBody forms fits inside
  case importHead => exact carries_importBody forms fits inside
  case defHead =>
    exact carries_definition forms _ (definitionValue form) (definitionValue form') fits inside
      (fun q ready => grows_of_reads (reads_expectForm forms.reads ready _))
      fun y fits' inside' => carries_expectForm forms fits' inside' _
  case defnHead =>
    exact carries_definition forms _ (arities form) (arities form') fits inside
      (fun q ready => grows_of_reads (reads_arities forms.reads ready))
      fun y fits' inside' => carries_arities forms fits' inside'
  case defmacroHead =>
    exact carries_definition forms _ (singleArity form) (singleArity form') fits inside
      (fun q ready => grows_of_reads (reads_singleArity forms.reads ready))
      fun y fits' inside' => carries_singleArity forms fits' inside'
  case fnHead | macroHead => exact carries_singleArity forms fits inside
  case condHead => exact carries_clauses forms _ _ 0 fits inside (length_le_around a x) (length_le_around b x)
  case letHead | loopHead => exact carries_boundBody forms false fits inside
  case ifLetHead => exact carries_boundBranches forms fits inside
  case whenLetHead | dotimesHead => exact carries_boundBody forms true fits inside
  all_goals exact carries_expectForm forms fits inside _

theorem carries_noMoreForms (forms : CarriesForms a b form form') (fits : a.Fits x) (inside : x.frames ≠ [])
    (name : String) :
    Carries a b x (noMoreForms form name (a.around x)) (noMoreForms form' name (b.around x)) := by
  obtain ⟨t, ts, rest⟩ := fits.exists_rest inside
  simp only [noMoreForms, fits.atSequenceEnd_eq rest]
  split
  · exact Carries.stay fits b
  · exact carries_recover forms fits _ _

theorem carriesResult_specialForm {u : Token} {us : List Token} {head : Kind}
    (forms : CarriesForms a b form form') (fits : a.Fits x) (rest : x.rest = t :: u :: us)
    (isParen : t.kind = .leftParen) (isSymbol : u.kind.isSymbolToken = true) (isHead : head ∈ Kind.heads) :
    CarriesResult a b x (specialForm form head (a.around x)) (specialForm form' head (b.around x)) := by
  have bodyReads : ∀ q : Parser, q.Ready → q.rest = u :: (us ++ a.after) →
      Reads (q.advanceAs head) (specialBody form head (q.advanceAs head)) _ :=
    fun q ready ahead => reads_specialBody forms.reads ((runs_advanceAs ahead head).ready ready) isHead
  refine carriesResult_enclosed (spellingOf head) (specialNode head)
    (fun q => noMoreForms form (spellingOf head) (specialBody form head (q.advanceAs head)))
    (fun q => noMoreForms form' (spellingOf head) (specialBody form' head (q.advanceAs head)))
    fits rest (by rw [isParen]; rfl) ?_ ?_
  · intro q ready ahead
    have taken := runs_advanceAs ahead head
    have body := bodyReads q ready ahead
    exact grows_trans ⟨_, taken⟩ (grows_trans (grows_of_reads body)
      (grows_of_reads (reads_noMoreForms forms.reads (body.ready (taken.ready ready)) _)))
  · intro y fits' inside ahead
    have plain := plain_of_isSymbolToken isSymbol
    have aheadA : (a.around y).rest = u :: (us ++ a.after) := rest_around ahead
    have ready := (runs_advanceAs aheadA head).ready fits'.ready
    have body := bodyReads _ fits'.ready aheadA
    have bodies := (carries_advanceAs (b := b) fits' ahead plain.1 plain.2 head).andThen
      (specialBody form head) (specialBody form' head) (grows_of_reads body)
      fun z fits'' frames _ => carries_specialBody forms fits'' (frames ▸ inside) head
    exact bodies.andThen (noMoreForms form (spellingOf head)) (noMoreForms form' (spellingOf head))
      (grows_of_reads (reads_noMoreForms forms.reads (body.ready ready) _))
      fun z fits'' frames _ => carries_noMoreForms forms fits'' (frames ▸ inside) _

/-- Whether a list has a head is seen inside it. -/
theorem Fits.headAhead?_eq (fits : a.Fits x) (rest : x.rest = t :: ts) (isParen : t.kind = .leftParen)
    (s : Setting) : headAhead? (s.around x) = headAhead? x := by
  have closes := fits.closes
  rw [rest] at closes
  have inner : Token.Closes (.rightParen :: x.frames.map Frame.closer) ts :=
    closes.after_opener (by rw [isParen]; rfl)
  obtain ⟨u, us, rfl⟩ := List.exists_cons_of_ne_nil (inner.ne_nil (List.cons_ne_nil _ _))
  have second : ∀ p : Parser, (∃ after, p.rest = t :: u :: us ++ after) → p.token 1 = u := by
    rintro p ⟨after, restEq⟩
    simp [Parser.token, restEq]
  have secondX := second x ⟨[], by simp [rest]⟩
  have secondS := second (s.around x) ⟨s.after, by simp [around, rest]⟩
  simp only [headAhead?, nth, secondX, secondS]
  cases isSymbol : u.kind.isSymbolToken with
  | false => rfl
  | true =>
    have plain := plain_of_isSymbolToken isSymbol
    obtain ⟨v, vs, rfl⟩ := List.exists_cons_of_ne_nil
      ((inner.after_plain plain.1 plain.2).ne_nil (List.cons_ne_nil _ _))
    simp [joined, Parser.token, around, rest]

theorem carriesResult_parenthesized (forms : CarriesForms a b form form') (fits : a.Fits x)
    (rest : x.rest = t :: ts) (isParen : t.kind = .leftParen) :
    CarriesResult a b x (parenthesized form (a.around x)) (parenthesized form' (b.around x)) := by
  have met : ∀ s : Setting, (s.around x).isAt .leftParen = true := fun s =>
    (isAt_around_iff rest s).mpr isParen
  have sameHead : headAhead? (b.around x) = headAhead? (a.around x) := by
    rw [fits.headAhead?_eq rest isParen, fits.headAhead?_eq rest isParen]
  rw [parenthesized, parenthesized, require_eq (met a), require_eq (met b), sameHead]
  cases ahead : headAhead? (a.around x) with
  | none => exact carriesResult_delimited forms "list" .listForm fits rest (by rw [isParen]; rfl)
  | some head =>
    obtain ⟨u, us, split, isSymbol, isHead⟩ := exists_head fits.ready (rest_around rest) ahead
    have closes := fits.closes
    rw [rest] at closes
    have inner : Token.Closes (.rightParen :: x.frames.map Frame.closer) ts :=
      closes.after_opener (by rw [isParen]; rfl)
    obtain ⟨v, vs, rfl⟩ := List.exists_cons_of_ne_nil (inner.ne_nil (List.cons_ne_nil _ _))
    obtain ⟨rfl, -⟩ := List.cons.inj split
    exact carriesResult_specialForm forms fits rest isParen isSymbol (List.mem_of_find?_eq_some isHead)

/-! ## Forms -/

theorem carriesResult_counted {r r' : Completed × Parser} (node : CarriesResult a b x r r') :
    CarriesResult a b x (counted r) (counted r') := by
  intro holds
  obtain ⟨c, y, rfl, rfl, fits, frames⟩ := node holds
  exact ⟨some c, y, rfl, rfl, fits, frames⟩

theorem carriesResult_slash (fits : a.Fits x) (rest : x.rest = t :: ts) (isSlash : t.kind = .slash) :
    CarriesResult a b x ((a.around x).node .symbol fun p => p.advanceAs p.slashKind)
      ((b.around x).node .symbol fun p => p.advanceAs p.slashKind) :=
  carriesResult_node rest .symbol
    (carries_advanceAs fits.begun rest (by rw [isSlash]; rfl) (by rw [isSlash]; rfl) x.slashKind)

/-- A form that is read without a report is read alike in every setting that keeps apart from it. A closing token
does not start one, and neither does one that is reported in any case. -/
theorem carriesResult_formAt (forms : CarriesForms a b form form') (apart : b.Apart) (fits : a.Fits x)
    (rest : x.rest = t :: ts) (noCloser : t.kind.isCloser = false) :
    CarriesResult a b x (formAt form (a.around x)) (formAt form' (b.around x)) := by
  obtain ⟨rule, alternative, formEq⟩ := formAt_cases (fits.going rest noCloser) (rest_around rest)
  rw [formEq form _ (kind_around rest), formEq form' _ (kind_around rest)]
  cases alternative with
  | address isAddress =>
    have isLiteral : t.kind.isLiteralToken = true := by rw [isAddress]; rfl
    exact carriesResult_counted (carriesResult_infixLookup apart
      ((reads_literal (rest_around rest) isLiteral).reads.ready fits.ready)
      (carriesResult_literal fits rest isLiteral))
  | literal isLiteral => exact carriesResult_counted (carriesResult_literal fits rest isLiteral)
  | symbol isSymbol =>
    exact carriesResult_counted (carriesResult_infixLookup apart
      ((reads_symbol (rest_around rest) isSymbol).reads.ready fits.ready)
      (carriesResult_symbol fits rest isSymbol))
  | slash isSlash => exact carriesResult_counted (carriesResult_slash fits rest isSlash)
  | parenthesized isParen => exact carriesResult_counted (carriesResult_parenthesized forms fits rest isParen)
  | vector isBracket =>
    exact carriesResult_counted
      (carriesResult_delimited forms "vector" .vectorForm fits rest (by rw [isBracket]; rfl))
  | map isBrace => exact carriesResult_counted (carriesResult_map forms fits rest isBrace)
  | set isHashBrace =>
    exact carriesResult_counted
      (carriesResult_delimited forms "set" .setForm fits rest (by rw [isHashBrace]; rfl))
  | marked isMark => exact carriesResult_counted (carriesResult_markedForm forms fits rest isMark)
  | metadata isCaret =>
    refine carriesResult_counted (.of_noisy
      (readsNode_misplacedMetadata forms.reads fits.ready ((isAt_around_iff rest a).mpr isCaret)).reads ?_)
    rintro _ ⟨_, _, _, _, reported⟩
    exact reported trivial
  | unknown isUnknown =>
    exact carriesResult_counted
      (carriesResult_leafNode fits rest (by rw [isUnknown]; exact ⟨rfl, rfl⟩) .error)
  | stray isCloser =>
    rw [noCloser] at isCloser
    contradiction
  | bad =>
    -- A token that is reported in any case is not read without a report.
    refine .of_noisy (reads_badToken (rest_around rest) _).reads ?_
    rintro _ ⟨_, _, _, _, reported, _⟩
    exact reported trivial

/-- The rule for a form is carried at every depth, to any depth that is not lower. -/
theorem carriesForms_form (apart : b.Apart) (budget budget' : Nat) (deeper : budget ≤ budget') :
    CarriesForms a b (Grammar.form budget) (Grammar.form budget') := by
  induction budget generalizing budget' with
  | zero =>
    refine ⟨readsForms_form 0, readsForms_form budget', fun x t ts fits rest noCloser => ?_⟩
    have going := fits.going rest noCloser
    have unfolded : Grammar.form 0 (a.around x) = counted (tooDeep (a.around x)) := by
      simp only [Grammar.form, going, Bool.false_eq_true, if_false]
    rw [unfolded]
    refine .of_noisy (reads_tooDeep fits.ready going).reads ?_
    rintro _ ⟨_, _, _, _, reported, _⟩
    exact reported trivial
  | succ budget inductionHypothesis =>
    refine ⟨readsForms_form (budget + 1), readsForms_form budget', fun x t ts fits rest noCloser => ?_⟩
    obtain ⟨budget', rfl⟩ : ∃ n, budget' = n + 1 := ⟨budget' - 1, by omega⟩
    have going : ∀ s : Setting, (s.around x).atSequenceEnd = false := by
      intro s
      rw [fits.atSequenceEnd_eq rest, noCloser]
    simp only [Grammar.form, going, Bool.false_eq_true, if_false]
    exact carriesResult_formAt (inductionHypothesis budget' (by omega)) apart fits rest noCloser

/-! ## Sources -/

theorem topLevel_of_end {p : Parser} (turns : Nat) (atEnd : p.isAt .eof = true) : topLevel turns p = p := by
  cases turns with
  | zero => rfl
  | succ turns => rw [topLevel, if_pos atEnd]

/-- In a source without open sequences the loop goes on until the end. -/
theorem going_of_no_frames {p : Parser} (frames : p.frames = []) (notEnd : p.isAt .eof = false) :
    p.atSequenceEnd = false := by
  rw [atSequenceEnd_of_no_frames frames, notEnd]

/-- It does not matter how many turns there are, if there are enough. -/
theorem topLevel_enough {p : Parser} (ready : p.Ready) (frames : p.frames = []) {turns turns' : Nat}
    (enough : p.rest.length ≤ turns) (enough' : p.rest.length ≤ turns') : topLevel turns p = topLevel turns' p := by
  induction turns generalizing p turns' with
  | zero =>
    have none : p.rest = [] := List.length_eq_zero_iff.mp (Nat.le_zero.mp enough)
    have atEnd : p.isAt .eof = true := by simp [isAt, ready.kind_eq_eof none]
    rw [topLevel_of_end _ atEnd, topLevel_of_end _ atEnd]
  | succ turns inductionHypothesis =>
    cases atEnd : p.isAt .eof with
    | true => rw [topLevel_of_end _ atEnd, topLevel_of_end _ atEnd]
    | false =>
      have first := (readsForms_form maxDepth).reads p ready (going_of_no_frames frames atEnd)
      have progress := rest_lt_of_reads first
      obtain ⟨ds, runs⟩ := grows_of_reads first
      cases turns' with
      | zero => omega
      | succ turns' =>
        rw [topLevel, topLevel, atEnd]
        exact inductionHypothesis (runs.ready ready) (runs.frames.trans frames) (by omega) (by omega)

theorem Fits.noCloser (fits : a.Fits x) (frames : x.frames = []) (rest : x.rest = t :: ts) :
    t.kind.isCloser = false := by
  have closes := fits.closes
  rw [frames, rest] at closes
  cases isCloser : t.kind.isCloser with
  | false => rfl
  | true =>
    obtain ⟨outer, none, -⟩ := closes.after_closer isCloser
    contradiction

/-- A source that closes all it opens and is read without a report is read in the same way where other tokens follow,
and then the loop goes on with these. -/
theorem exists_topLevel_around (after : a.after = []) (outer : a.outer = []) (outer' : b.outer = []) (apart : b.Apart)
    (fits : a.Fits x) (ready : (b.around x).Ready) (frames : x.frames = []) {turns : Nat}
    (enough : x.rest.length ≤ turns) (quiet : (topLevel turns (a.around x)).reports = []) :
    ∃ y, topLevel turns (a.around x) = a.around y ∧ y.rest = [] ∧ y.frames = [] ∧
      ∀ turns', (b.around x).rest.length ≤ turns' →
        topLevel turns' (b.around x) = topLevel (b.around y).rest.length (b.around y) := by
  have noFrames : ∀ {z : Parser}, z.frames = [] → (a.around z).frames = [] ∧ (b.around z).frames = [] := by
    intro z none
    simp [around, none, outer, outer']
  -- One turn is carried by the rule for a form. It takes a token in either setting, so both loops have turns left.
  induction turns generalizing x with
  | zero =>
    have none : x.rest = [] := List.length_eq_zero_iff.mp (Nat.le_zero.mp enough)
    exact ⟨x, rfl, none, frames,
      fun turns' enough' => topLevel_enough ready (noFrames frames).2 enough' (Nat.le_refl _)⟩
  | succ turns inductionHypothesis =>
    cases rest : x.rest with
    | nil =>
      have atEnd : (a.around x).isAt .eof = true := by
        simp [isAt, fits.ready.kind_eq_eof (by simp [around, rest, after])]
      exact ⟨x, topLevel_of_end _ atEnd, rest, frames,
        fun turns' enough' => topLevel_enough ready (noFrames frames).2 enough' (Nat.le_refl _)⟩
    | cons t ts =>
      have notEnd : ∀ s : Setting, (s.around x).isAt .eof = false := by
        intro s
        rw [isAt_around rest]
        simpa using fits.kind_ne_eof rest
      have first := (readsForms_form maxDepth).reads _ fits.ready (going_of_no_frames (noFrames frames).1 (notEnd a))
      have first' := (readsForms_form maxDepth).reads _ ready (going_of_no_frames (noFrames frames).2 (notEnd b))
      have progress := rest_lt_of_reads first
      have progress' := rest_lt_of_reads first'
      have unfolded : topLevel (turns + 1) (a.around x) = topLevel turns (Grammar.form maxDepth (a.around x)).2 := by
        rw [topLevel, notEnd]
        rfl
      obtain ⟨ds, runs⟩ := grows_of_reads first
      have restEq : (a.around x).rest = x.rest := by simp [around, after]
      have others := (reads_topLevel turns (first.ready fits.ready) (runs.frames.trans (noFrames frames).1)
        (by rw [restEq] at progress; omega)).1
      rw [unfolded] at quiet ⊢
      obtain ⟨es, runs'⟩ := grows_of_reads others
      have holds : a.Holds (topLevel turns (Grammar.form maxDepth (a.around x)).2) := ⟨quiet, by simp [after]⟩
      obtain ⟨v, y, left, right, fits', frames'⟩ :=
        (carriesForms_form apart maxDepth maxDepth (Nat.le_refl _)).carries x t ts fits rest (fits.noCloser frames rest)
          (holds.before runs')
      rw [left] at quiet progress ⊢
      simp only [right] at progress'
      have ready' : (b.around y).Ready := by
        have kept := first'.ready ready
        rwa [right] at kept
      obtain ⟨z, ends, none, noFrame, goes⟩ := inductionHypothesis fits' ready' (frames'.trans frames)
        (by have shorter := length_lt_of_around progress; omega) quiet
      refine ⟨z, ends, none, noFrame, fun turns' enough' => ?_⟩
      cases turns' with
      | zero => omega
      | succ turns' =>
        rw [topLevel, notEnd, right]
        exact goes turns' (by omega)

end Setting

end LispSyntax
