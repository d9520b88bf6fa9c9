import LispSyntax.Proofs.Recovery

/-! # What sequences and single tokens read

The productions of `Grammar.Sequence` as runs. `ReadsForms form` is all that the productions ask of the
rule for a form: at the end of a sequence it does nothing, anywhere else it makes one form, and if it
reports nothing then the form counts.
-/

namespace LispSyntax

namespace Grammar

open LispSyntax.Parser Pattern Draft Outline

structure ReadsForms (form : FormRule) : Prop where
  atEnd : ∀ p, p.atSequenceEnd = true → form p = (none, p)
  reads : ∀ p, p.Ready → p.atSequenceEnd = false → Reads p (form p).2 fun _ => single IsForm
  counts : ∀ p, p.Ready → p.atSequenceEnd = false → Quiet p (form p).2 → (form p).1.isSome = true

variable {form : FormRule} {p : Parser}

/-! ## Loops over forms -/

theorem reads_sequenceLoop (forms : ReadsForms form) (turns : Nat) (ready : p.Ready) :
    Reads p (sequenceLoop form turns p) fun _ => many IsForm := by
  induction turns generalizing p with
  | zero => exact Reads.stay fun _ => many_nil _
  | succ turns ih =>
    rw [sequenceLoop]
    cases going : p.atSequenceEnd with
    | true => exact Reads.stay fun _ => many_nil _
    | false =>
      have first := forms.reads p ready going
      refine (first.followedBy (ih (first.ready ready))).imp fun _ ds => ?_
      rintro ⟨us, vs, rfl, one, more⟩
      exact many_append (many_of_single one) more

theorem reads_sequence (forms : ReadsForms form) (ready : p.Ready) :
    Reads p (sequence form p) fun _ => many IsForm :=
  reads_sequenceLoop forms _ ready

theorem reads_sequence_some (forms : ReadsForms form) (ready : p.Ready)
    (going : p.atSequenceEnd = false) : Reads p (sequence form p) fun _ => Pattern.some IsForm := by
  obtain ⟨t, ts, rest⟩ := ready.exists_rest_of_going going
  have first := forms.reads p ready going
  have more := reads_sequenceLoop forms ts.length (first.ready ready)
  have unfolded : sequence form p = sequenceLoop form ts.length (form p).2 := by
    simp [sequence, rest, sequenceLoop, going]
  rw [unfolded]
  refine (first.followedBy more).imp fun _ ds => ?_
  rintro ⟨us, vs, rfl, one, more⟩
  refine ⟨?_, many_append (many_of_single one) more⟩
  intro empty
  exact single_ne_nil one (List.append_eq_nil_iff.mp empty).1

theorem ReadsForms.reads_counted (forms : ReadsForms form) (ready : p.Ready)
    (going : p.atSequenceEnd = false) :
    Reads p (form p).2 fun quiet ds => single IsForm ds ∧ (quiet → (form p).1.isSome = true) :=
  (forms.reads p ready going).noting (forms.counts p ready going)

theorem reads_expectForm (forms : ReadsForms form) (ready : p.Ready) (missing : StructuralProblem) :
    Reads p (expectForm form missing p).2 Recovery.expected := by
  rw [expectForm]
  cases going : p.atSequenceEnd with
  | true => exact (Reads.report p missing).imp fun _ _ noisy => .inr noisy
  | false => exact (forms.reads p ready going).imp fun _ _ one => .inl one

/-- Giving up on the rest of a sequence after a report leaves nothing or an error node. -/
theorem reads_recover (forms : ReadsForms form) (ready : p.Ready) (problem : StructuralProblem) :
    Reads p (recover form problem p) Recovery.gaveUp := by
  have reported : Runs p [] (p.report problem) := runs_report p problem
  rw [recover, restAsError]
  cases going : (p.report problem).atSequenceEnd with
  | true => exact (Reads.report p problem).imp fun _ _ noisy => ⟨noisy.1, .inl noisy.2⟩
  | false =>
    obtain ⟨ds, runs, shape⟩ := reads_sequence_some forms (reported.ready ready).begun going
    have makes : Makes (p.report problem) (.node .error ds)
        ((p.report problem).node .error (sequence form)) :=
      makes_node rfl runs
    -- The report comes before the node, so the table is asked for the whole run at once.
    refine ⟨[.node .error ds], reported.trans makes.runs, fun quiet silent => ?_⟩
    have noisy : ¬ quiet := fun h =>
      not_quiet_report p problem (reported.quiet_left makes.runs (silent h))
    obtain ⟨nodes, follows⟩ := shape quiet fun h => absurd h noisy
    refine ⟨?_, noisy, .inr (single_mk ⟨ds, rfl⟩)⟩
    intro n member
    obtain ⟨d, dMember, nMember⟩ := mem_nodesAll.mp member
    rw [List.mem_singleton] at dMember
    subst dMember
    rw [nodes_node, List.mem_cons] at nMember
    rcases nMember with rfl | nMember
    · exact .inr ⟨noisy, .inr (.inl follows)⟩
    · exact nodes n nMember

/-! ## Single tokens -/

theorem tokenIn_of_tokenOf {kind : Kind} {within : Kind → Bool} (good : within kind = true)
    {ds : List Draft} : tokenOf kind ds → tokenIn within ds := by
  apply single_imp
  rintro d ⟨t, rfl, rfl⟩
  exact ⟨t, rfl, good⟩

theorem reads_literal {t : Token} {ts : List Token} (rest : p.rest = t :: ts)
    (isLiteral : t.kind.isLiteralToken = true) :
    ReadsNode p .literal (literal p) fun _ => tokenOf t.kind := by
  have met : p.kind.isLiteralToken = true := by rw [kind_of_rest rest, isLiteral]
  rw [literal, require_eq met]
  apply ReadsNode.node rfl
  · exact Reads.advance rest
  · intro alone quiet ds
    exact tokenIn_of_tokenOf isLiteral

theorem reads_symbol {t : Token} {ts : List Token} (rest : p.rest = t :: ts)
    (isSymbol : t.kind.isSymbolToken = true) :
    ReadsNode p .symbol (symbol p) fun _ => tokenIn Kind.isSymbolToken := by
  have met : p.kind.isSymbolToken = true := by rw [kind_of_rest rest, isSymbol]
  rw [symbol, require_eq met]
  apply ReadsNode.node rfl
  · have taken : Reads p.begun p.begun.advance fun _ => tokenOf t.kind := Reads.advance rest
    exact taken.imp fun _ _ => tokenIn_of_tokenOf isSymbol
  · intro alone quiet ds good
    exact .inl good

theorem reads_name (ready : p.Ready) (isSymbol : p.atSymbol = true) :
    Reads p (symbol p).2 fun _ => Recovery.name := by
  obtain ⟨t, ts, rest, isSymbol⟩ := ready.exists_symbol isSymbol
  exact (reads_symbol rest isSymbol).reads

theorem some_plainToken {kind : Kind} {ds : List Draft} (one : tokenOf kind ds) :
    Pattern.some Recovery.IsPlainToken ds := by
  obtain ⟨d, rfl, t, rfl, rfl⟩ := one
  exact ⟨by simp, many_of_single (single_mk ⟨t, rfl⟩)⟩

theorem reads_badToken {t : Token} {ts : List Token} (rest : p.rest = t :: ts)
    (problem : StructuralProblem) :
    ReadsNode p .error (badToken problem p) fun quiet =>
      .provided (¬ quiet) (Pattern.some Recovery.IsPlainToken) := by
  apply ReadsNode.node rfl
  · have taken : Reads (p.begun.report problem) (p.begun.report problem).advance
        fun _ => tokenOf t.kind := Reads.advance rest
    exact (taken.imp fun _ _ => some_plainToken).after_report
  · rintro alone quiet ds ⟨noisy, good⟩
    exact .inr ⟨noisy, .inl good⟩

/-- The rule leaves an account alone, or makes it the account of a lookup. -/
theorem reads_infixLookup {kind : Kind} {r : Completed × Parser} {a : Prop → Pattern (Kind × Token)}
    (ready : p.Ready) (made : ReadsNode p kind r a) (isForm : Shape.form.accepts kind = true)
    (isAccount : ∀ quiet ds, Pattern.node kind (a quiet) ds → Recovery.account ds) :
    Reads p (infixLookup r).2 fun _ => single IsForm := by
  have ready' : r.2.Ready := made.reads.ready ready
  rw [infixLookup]
  split
  · rename_i touching
    simp only [Bool.and_eq_true] at touching
    obtain ⟨⟨⟨atSlash, -⟩, -⟩, isSymbol⟩ := touching
    -- A slash is not the end, and neither is a name, so there are two tokens to take.
    obtain ⟨t, ts, rest, isSlash⟩ := ready'.exists_isAt atSlash (by decide)
    have restEq : (preceded r).rest = t :: ts := (rest_preceded r).trans rest
    obtain ⟨u, us, rfl, uSymbol⟩ := ready'.exists_symbol_after rest isSymbol
    have slash : Reads (preceded r) (preceded r).advance fun _ => tokenOf .slash := by
      rw [← isSlash]
      exact Reads.advance restEq
    have nameAhead : (preceded r).advance.rest = u :: us := rest_advanceAs restEq _
    have inside := slash.followedBy (reads_symbol nameAhead uSymbol).reads
    have wrapped : ReadsNode p .lookupForm
        (r.2.wrap r.1 .lookupForm fun p => (symbol p.advance).2) _ :=
      made.wrap rfl inside fun alone quiet ds good =>
        .inl (followedBy_imp (isAccount quiet) (fun _ => id) good)
    exact wrapped.reads_isForm rfl
  · exact made.reads_isForm isForm

/-! ## Skipping -/

theorem reads_skipMarks (turns : Nat) (ready : p.Ready) :
    Reads p (skipMarks turns p) fun _ ds => many Recovery.IsPlainToken ds ∧
      (turns ≠ 0 → marks.contains p.kind = true → ds ≠ []) := by
  induction turns generalizing p with
  | zero => exact Reads.stay fun _ => ⟨many_nil _, fun someTurns => absurd rfl someTurns⟩
  | succ turns ih =>
    rw [skipMarks]
    split
    · rename_i marked
      have notEnd : p.kind ≠ .eof := by
        intro atEnd
        rw [atEnd] at marked
        exact absurd marked (by decide)
      obtain ⟨t, ts, rest⟩ := ready.exists_rest notEnd
      have first := Reads.advance rest
      refine (first.followedBy (ih (first.ready ready))).imp fun _ ds => ?_
      rintro ⟨us, vs, rfl, one, more, -⟩
      obtain ⟨nonempty, plain⟩ := some_plainToken one
      exact ⟨many_append plain more, fun _ _ empty => nonempty (List.append_eq_nil_iff.mp empty).1⟩
    · rename_i unmarked
      exact Reads.stay fun _ => ⟨many_nil _, fun _ marked => absurd marked unmarked⟩

/-- Skipping never sees a closing token with nothing open: it starts at an opening one, and stops as soon
as all is closed. -/
theorem reads_skipBalanced (turns depth : Nat) (ready : p.Ready)
    (isOpen : depth = 0 → p.kind.isOpener = true) :
    Reads p (skipBalanced turns depth p) fun _ ds => many Recovery.IsPlainToken ds ∧
      (turns ≠ 0 → p.kind ≠ .eof → ds ≠ []) := by
  induction turns generalizing p depth with
  | zero => exact Reads.stay fun _ => ⟨many_nil _, fun someTurns => absurd rfl someTurns⟩
  | succ turns ih =>
    simp only [skipBalanced]
    split
    · rename_i atEnd
      have atEnd : p.kind = .eof := by simpa [isAt] using atEnd
      exact Reads.stay fun _ => ⟨many_nil _, fun _ notEnd => absurd atEnd notEnd⟩
    · rename_i notEnd
      have notEnd : p.kind ≠ .eof := by simpa [isAt] using notEnd
      obtain ⟨t, ts, rest⟩ := ready.exists_rest notEnd
      rw [require_eq (not_closes_of_isOpen isOpen)]
      have first := Reads.advance rest
      split
      · refine first.imp fun _ _ one => ?_
        exact ⟨(some_plainToken one).2, fun _ _ => (some_plainToken one).1⟩
      · rename_i stillOpen
        refine (first.followedBy (ih _ (first.ready ready) fun h => absurd h stillOpen)).imp ?_
        rintro _ ds ⟨us, vs, rfl, one, more, -⟩
        obtain ⟨nonempty, plain⟩ := some_plainToken one
        exact ⟨many_append plain more,
          fun _ _ empty => nonempty (List.append_eq_nil_iff.mp empty).1⟩

/-- What is skipped after the marks: everything up to where all is closed again, or one token. -/
theorem reads_skipOne (ready : p.Ready) :
    Reads p (if p.kind.isOpener then skipBalanced p.rest.length 0 p
      else if p.atSequenceEnd then p else p.advance)
      fun _ ds => many Recovery.IsPlainToken ds ∧ (p.atSequenceEnd = false → ds ≠ []) := by
  split
  · rename_i opener
    have notEnd : p.kind ≠ .eof := by
      intro atEnd
      rw [atEnd] at opener
      contradiction
    obtain ⟨t, ts, rest⟩ := ready.exists_rest notEnd
    refine (reads_skipBalanced p.rest.length 0 ready fun _ => opener).imp ?_
    rintro _ ds ⟨plain, nonempty⟩
    exact ⟨plain, fun _ => nonempty (by simp [rest]) notEnd⟩
  · cases going : p.atSequenceEnd with
    | true => exact Reads.stay fun _ => ⟨many_nil _, by simp⟩
    | false =>
      obtain ⟨t, ts, rest⟩ := ready.exists_rest_of_going going
      refine (Reads.advance rest).imp fun _ _ one => ?_
      exact ⟨(some_plainToken one).2, fun _ => (some_plainToken one).1⟩

theorem skipMarks_of_unmarked (turns : Nat) (unmarked : marks.contains p.kind = false) :
    skipMarks turns p = p := by
  cases turns with
  | zero => rfl
  | succ turns => simp [skipMarks, unmarked]

theorem reads_tooDeep (ready : p.Ready) (going : p.atSequenceEnd = false) :
    ReadsNode p .error (tooDeep p) fun quiet =>
      .provided (¬ quiet) (Pattern.some Recovery.IsPlainToken) := by
  apply ReadsNode.node rfl
  · have reported : Runs p.begun [] (p.begun.report .tooDeep) := runs_report ..
    have ready' := reported.ready ready.begun
    obtain ⟨t, ts, rest⟩ := ready.exists_rest_of_going going
    have prefixed := reads_skipMarks (p.begun.report .tooDeep).rest.length ready'
    have skipped := prefixed.followedBy (reads_skipOne (prefixed.ready ready'))
    refine (skipped.imp ?_).after_report
    rintro _ ds ⟨us, vs, rfl, ⟨plain, someMarks⟩, plain', someMore⟩
    refine ⟨?_, many_append plain plain'⟩
    -- Something is skipped: the marks, or where there are none the token that the form starts with.
    intro empty
    obtain ⟨noMarks, noMore⟩ := List.append_eq_nil_iff.mp empty
    cases marked : marks.contains (p.begun.report .tooDeep).kind with
    | true =>
      exact someMarks (by simp [begun, start, report, reportAt, rest]) marked noMarks
    | false =>
      rw [skipMarks_of_unmarked _ marked] at someMore
      exact someMore going noMore
  · rintro alone quiet ds ⟨noisy, good⟩
    exact .inr ⟨noisy, .inl good⟩

end Grammar

end LispSyntax
