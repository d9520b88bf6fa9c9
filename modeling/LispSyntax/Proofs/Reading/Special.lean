import LispSyntax.Grammar.Special
import LispSyntax.Proofs.Reading.Binding

/-! # What special forms read

The productions of `Grammar.Special` as runs. The heads share everything but their bodies, so a special
form is described once, from a description of each body.
-/

namespace LispSyntax

namespace Grammar

open LispSyntax.Parser Pattern Draft Outline

variable {form : FormRule} {p : Parser}

/-! ## Lookups and imports -/

theorem reads_expectSymbol (forms : ReadsForms form) (ready : p.Ready) (missing : StructuralProblem) :
    Reads p (expectSymbol form missing p) Recovery.expectedName := by
  rw [expectSymbol]
  split
  · rename_i isSymbol
    exact (reads_name ready isSymbol).imp fun _ _ name => .inl name
  · exact (reads_recover forms ready missing).imp fun _ _ rest => .inr rest

theorem reads_lookupBody (forms : ReadsForms form) (ready : p.Ready) :
    Reads p (lookupBody form p) Recovery.lookupBody := by
  rw [lookupBody]
  split
  · rename_i isAddress
    obtain ⟨t, ts, rest, kindEq⟩ := ready.exists_isAt isAddress (by decide)
    have first : Reads p (literal p).2 fun _ => Recovery.account := by
      refine (reads_literal rest (by rw [kindEq]; rfl)).reads.imp fun _ _ address => ?_
      rw [kindEq] at address
      exact .inl address
    have second := reads_expectSymbol forms (first.ready ready) .noLookupName
    exact (first.followedBy second).imp fun _ _ good => .inl good
  · split
    · rename_i isSymbol
      split
      · have first : Reads p (symbol p).2 fun _ => Recovery.account :=
          (reads_name ready isSymbol).imp fun _ _ name => .inr name
        have second := reads_expectSymbol forms (first.ready ready) .noLookupName
        exact (first.followedBy second).imp fun _ _ good => .inl good
      · exact (reads_expectSymbol forms ready .noLookupName).imp fun _ _ good => .inr good
    · exact (reads_recover forms ready .nothingToLookUp).imp fun _ _ rest => .inr (.inr rest)

theorem reads_importBody (forms : ReadsForms form) (ready : p.Ready) :
    Reads p (importBody form p) Recovery.importBody := by
  rw [importBody]
  split
  · rename_i isSymbol
    have library := reads_name ready isSymbol
    have ready' := library.ready ready
    dsimp only
    split
    · rename_i hasAlias
      obtain ⟨isKeyword, isAs⟩ : (symbol p).2.isAt .keyword = true ∧
          (symbol p).2.current.text = ":as".toList := by simpa using hasAlias
      obtain ⟨t, ts, rest, kindEq⟩ := ready'.exists_isAt isKeyword (by decide)
      rw [current_of_rest rest] at isAs
      have mark : Reads (symbol p).2 ((symbol p).2.advanceAs .asMark) fun _ =>
          taken .asMark fun t => t.kind = .keyword ∧ t.text = ":as".toList :=
        Reads.advanceAs rest .asMark ⟨kindEq, isAs⟩
      have renamed := reads_expectSymbol forms (mark.ready ready') .noAlias
      refine (library.followedBy (mark.followedBy renamed)).imp ?_
      rintro _ ds ⟨us, vs, rfl, name, good⟩
      exact .inl (followedBy_mk name (.inr good))
    · refine library.imp fun _ ds name => .inl ?_
      rw [← List.append_nil ds]
      exact followedBy_mk name (.inl rfl)
  · exact (reads_recover forms ready .noLibrary).imp fun _ _ rest => .inr rest

/-! ## Definitions -/

theorem reads_definition {body : Parser → Parser} {a : Prop → Pattern (Kind × Token)}
    (forms : ReadsForms form) (ready : p.Ready) (missing : StructuralProblem)
    (inside : ∀ q : Parser, q.Ready → Reads q (body q) a) :
    Reads p (definition form missing body p) fun quiet => Recovery.definition quiet (a quiet) := by
  rw [definition]
  split
  · rename_i isSymbol
    have name := reads_name ready isSymbol
    have metadata := reads_optionalMetadata forms (name.ready ready)
    have rest := inside _ (metadata.ready (name.ready ready))
    exact (name.followedBy (metadata.followedBy rest)).imp fun _ _ good => .inl good
  · exact (reads_recover forms ready missing).imp fun _ _ rest => .inr rest

/-! ## Conditions -/

theorem reads_pair (forms : ReadsForms form) (ready : p.Ready) (going : p.atSequenceEnd = false)
    (more : (form p.begun).2.atSequenceEnd = false) :
    Reads p ((form (form p.begun).2).2.complete p.start.1 .condClause).2
      fun _ => single Recovery.IsPair := by
  have test := forms.reads p.begun ready.begun going
  have result := forms.reads _ (test.ready ready.begun) more
  have made : ReadsNode p .condClause _ _ :=
    ReadsNode.complete rfl (test.followedBy result) fun _ _ =>
      followedBy_imp (fun _ => id) fun _ result => .inr result
  refine made.reads.imp fun _ _ => single_imp ?_
  rintro d ⟨os, rfl, us, vs, rfl, ⟨test, rfl, isTest⟩, result, rfl, isResult⟩
  exact ⟨test, result, rfl, isTest, isResult⟩

/-- After the first clause, more pairs and perhaps a fallback. -/
theorem reads_moreClauses (forms : ReadsForms form) (turns count : Nat) (ready : p.Ready)
    (notFirst : count ≠ 0) :
    Reads p (clauses form turns count p) fun _ =>
      (many Recovery.IsPair).followedBy (.optional (single Recovery.IsFallback)) := by
  induction turns generalizing p count with
  | zero => exact Reads.stay fun _ => followedBy_mk (many_nil _) (.inl rfl)
  | succ turns ih =>
    rw [clauses]
    cases going : p.atSequenceEnd with
    | true => exact Reads.stay fun _ => followedBy_mk (many_nil _) (.inl rfl)
    | false =>
      dsimp only
      rw [if_neg Bool.false_ne_true, if_neg notFirst]
      change Reads p (if (form p.begun).2.atSequenceEnd = true then _ else _) _
      cases more : (form p.begun).2.atSequenceEnd with
      | true =>
        have last := forms.reads p.begun ready.begun going
        have made : ReadsNode p .condFallback _ _ :=
          ReadsNode.complete rfl last fun _ _ => id
        refine made.reads.imp fun _ _ fallback => ?_
        refine followedBy_mk (many_nil _) (.inr (single_imp ?_ fallback))
        rintro d ⟨os, rfl, form, rfl, isForm⟩
        exact ⟨form, rfl, isForm⟩
      | false =>
        have first := reads_pair forms ready going more
        refine (first.followedBy (ih _ (first.ready ready) (Nat.succ_ne_zero count))).imp ?_
        rintro quiet ds ⟨us, vs, rfl, one, ws, xs, rfl, pairs, fallback⟩
        rw [← List.append_assoc]
        exact followedBy_mk (many_append (many_of_single one) pairs) fallback

theorem reads_clauses (forms : ReadsForms form) (turns : Nat) (ready : p.Ready) :
    Reads p (clauses form turns 0 p) fun _ => Recovery.clauses := by
  cases turns with
  | zero => exact Reads.stay fun _ => .inl (many_nil _)
  | succ turns =>
    rw [clauses]
    cases going : p.atSequenceEnd with
    | true => exact Reads.stay fun _ => .inl (many_nil _)
    | false =>
      dsimp only
      rw [if_neg Bool.false_ne_true, if_pos rfl]
      change Reads p (if (form p.begun).2.atSequenceEnd = true then _ else _) _
      cases more : (form p.begun).2.atSequenceEnd with
      | true =>
        have test := forms.reads p.begun ready.begun going
        have made : ReadsNode p .condClause _ _ :=
          ReadsNode.complete rfl test fun _ ds test => by
            rw [← List.append_nil ds]
            exact followedBy_mk test (.inl rfl)
        refine made.reads.imp fun _ _ clause => .inr (.inl (single_imp ?_ clause))
        rintro d ⟨os, rfl, test, rfl, isForm⟩
        exact ⟨test, rfl, isForm⟩
      | false =>
        have first := reads_pair forms ready going more
        have rest := reads_moreClauses forms turns 1 (first.ready ready) Nat.one_ne_zero
        refine (first.followedBy rest).imp ?_
        rintro quiet ds ⟨us, vs, rfl, one, ws, xs, rfl, pairs, fallback⟩
        have all := many_append (many_of_single one) pairs
        rcases fallback with rfl | fallback
        · exact .inl (by simpa using all)
        · rw [← List.append_assoc]
          refine .inr (.inr (followedBy_mk ⟨?_, all⟩ fallback))
          intro empty
          exact single_ne_nil one (List.append_eq_nil_iff.mp empty).1

/-! ## Heads -/

theorem reads_specialBody (forms : ReadsForms form) (ready : p.Ready) {head : Kind}
    (isHead : head ∈ Kind.heads) :
    Reads p (specialBody form head p) fun quiet => Recovery.specialBody quiet head := by
  cases head
  case lookupHead => exact reads_lookupBody forms ready
  case importHead => exact reads_importBody forms ready
  case defHead => exact reads_definition forms ready _ fun _ ready => reads_expectForm forms ready _
  case defnHead => exact reads_definition forms ready _ fun _ ready => reads_arities forms ready
  case defmacroHead => exact reads_definition forms ready _ fun _ ready => reads_singleArity forms ready
  case fnHead | macroHead => exact reads_singleArity forms ready
  case condHead => exact reads_clauses forms _ ready
  case letHead | loopHead => exact reads_boundBody forms false ready
  case ifLetHead => exact reads_boundBranches forms ready
  case whenLetHead | dotimesHead => exact reads_boundBody forms true ready
  case quoteHead | quasiquoteHead | unquoteHead => exact reads_expectForm forms ready _
  all_goals exact absurd isHead (by decide)

theorem reads_noMoreForms (forms : ReadsForms form) (ready : p.Ready) (name : String) :
    Reads p (noMoreForms form name p) fun quiet => .optional (Recovery.gaveUp quiet) := by
  rw [noMoreForms]
  split
  · exact Reads.stay fun _ => .inl rfl
  · exact (reads_recover forms ready _).imp fun _ _ rest => .inr rest

/-- The node of a special form has a place for its children in the table. -/
theorem production_special {head : Kind} (isHead : head ∈ Kind.heads) (alone : Kind) (quiet : Prop)
    (ds : List Draft) (good : Recovery.special quiet head ds) :
    Recovery.production alone quiet (specialNode head) ds := by
  cases head
  -- Lookups and quotes have a second notation, so theirs is one of two alternatives.
  case lookupHead | quoteHead | quasiquoteHead | unquoteHead => exact .inr good
  all_goals first | exact good | exact absurd isHead (by decide)

theorem isLabel_specialNode {head : Kind} (isHead : head ∈ Kind.heads) :
    (specialNode head).isLabel = true ∧
      Shape.form.accepts (specialNode head) = true := by
  revert head
  decide

theorem reads_specialForm (forms : ReadsForms form) (ready : p.Ready) {t u : Token}
    {ts : List Token} {head : Kind} (rest : p.rest = t :: u :: ts) (isParen : t.kind = .leftParen)
    (isSymbol : u.kind.isSymbolToken = true) (isHead : Kind.ofHead? u.text = Option.some head) :
    Reads p (specialForm form head p).2 fun _ => single IsForm := by
  have member : head ∈ Kind.heads := List.mem_of_find?_eq_some isHead
  obtain ⟨label, accepted⟩ := isLabel_specialNode member
  have opens : t.kind.closer? = Option.some .rightParen := by rw [isParen]; rfl
  have opened := ready.begun.openSequence rest opens (spellingOf head)
  have ahead : (p.begun.openSequence (spellingOf head)).rest = u :: ts := by
    rw [openSequence_eq (p := p.begun) rest opens]
    exact rest_advanceAs (p := p.begun) rest t.kind
  have headRead : Reads (p.begun.openSequence (spellingOf head))
      ((p.begun.openSequence (spellingOf head)).advanceAs head) fun _ =>
        taken head fun t => t.kind.isSymbolToken = true ∧ Kind.ofHead? t.text = Option.some head :=
    Reads.advanceAs ahead head ⟨isSymbol, isHead⟩
  have body := reads_specialBody forms (headRead.ready opened) member
  have ending := reads_noMoreForms forms (body.ready (headRead.ready opened)) (spellingOf head)
  have inside := reads_between ready.begun rest opens
    (headRead.followedBy (body.followedBy ending))
  rw [isParen] at inside
  have made : ReadsNode p (specialNode head) (p.node (specialNode head) fun p =>
      (noMoreForms form (spellingOf head) (specialBody form head
        ((p.openSequence (spellingOf head)).advanceAs head))).closeSequence)
      fun quiet => Recovery.special quiet head :=
    ReadsNode.node label inside (production_special member)
  exact made.reads_isForm accepted

/-- The head of a list is a name, and the text of the second token. -/
theorem exists_head (ready : p.Ready) {t : Token} {ts : List Token} {head : Kind} (rest : p.rest = t :: ts)
    (ahead : headAhead? p = Option.some head) :
    ∃ u us, ts = u :: us ∧ u.kind.isSymbolToken = true ∧ Kind.ofHead? u.text = Option.some head := by
  rw [headAhead?] at ahead
  split at ahead
  · rename_i isName
    simp only [Bool.and_eq_true] at isName
    obtain ⟨u, us, rfl, isSymbol⟩ := ready.exists_symbol_after rest isName.1
    exact ⟨u, us, rfl, isSymbol, by simpa [Parser.token, rest] using ahead⟩
  · contradiction

theorem reads_parenthesized (forms : ReadsForms form) (ready : p.Ready) {t : Token}
    {ts : List Token} (rest : p.rest = t :: ts) (isParen : t.kind = .leftParen) :
    Reads p (parenthesized form p).2 fun _ => single IsForm := by
  have met : p.isAt .leftParen = true := by simp [isAt, kind_of_rest rest, isParen]
  rw [parenthesized, require_eq met]
  cases ahead : headAhead? p with
  | none => exact reads_list forms ready rest isParen
  | some head =>
    obtain ⟨u, us, rfl, isSymbol, isHead⟩ := exists_head ready rest ahead
    exact reads_specialForm forms ready rest isParen isSymbol isHead

end Grammar

end LispSyntax
