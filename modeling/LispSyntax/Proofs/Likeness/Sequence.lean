import LispSyntax.Proofs.Likeness

/-! # Sequences and collections of sources that are alike

The productions of `Grammar.Sequence` and `Grammar.Collection`, each followed through two sources at once.
A production that looks at the next token sees the same on both sides, so the two take the same branch; what
is left is to follow that branch. `TwinForms` is what is asked of the rule for the forms inside.
-/

namespace LispSyntax

namespace Grammar

open LispSyntax.Parser

variable {γ : Type} {L : Likeness γ} {form : FormRule} {p q : Parser}

/-- The rule does the same on both sides, and if its result counts then it counts on both. -/
def TwinForm (L : Likeness γ) (p q : Parser) (r s : Option Completed × Parser) : Prop :=
  Twin L p q r.2 s.2 ∧ Option.Rel L.completed r.1 s.1

/-- The rule for a form does the same wherever a sequence goes on in two sources that are alike. -/
structure TwinForms (L : Likeness γ) (form : FormRule) : Prop where
  reads : ReadsForms form
  twin : ∀ p q, Alike L p q → p.atSequenceEnd = false → TwinForm L p q (form p) (form q)

/-- Where a sequence ends the rule does nothing, so it can be asked anywhere. -/
theorem TwinForms.twinForm (forms : TwinForms L form) (alike : Alike L p q) :
    TwinForm L p q (form p) (form q) := by
  cases going : p.atSequenceEnd with
  | true =>
    rw [forms.reads.atEnd p going, forms.reads.atEnd q (by rw [alike.atSequenceEnd, going])]
    exact ⟨Twin.refl p q, .none⟩
  | false => exact forms.twin p q alike going

/-! ## Loops over forms -/

theorem twin_sequenceLoop (forms : TwinForms L form) (turns : Nat) (alike : Alike L p q) :
    Twin L p q (sequenceLoop form turns p) (sequenceLoop form turns q) := by
  induction turns generalizing p q with
  | zero => exact Twin.refl p q
  | succ turns inductionHypothesis =>
    rw [sequenceLoop, sequenceLoop, alike.atSequenceEnd]
    split
    · exact Twin.refl p q
    · have first := (forms.twinForm alike).1
      exact first.trans (inductionHypothesis (alike.after first))

theorem twin_sequence (forms : TwinForms L form) (alike : Alike L p q) :
    Twin L p q (sequence form p) (sequence form q) := by
  rw [sequence, sequence, alike.length]
  exact twin_sequenceLoop forms _ alike

theorem twin_expectForm (forms : TwinForms L form) (alike : Alike L p q)
    (missing : StructuralProblem) :
    TwinForm L p q (expectForm form missing p) (expectForm form missing q) := by
  rw [expectForm, expectForm, alike.atSequenceEnd]
  split
  · exact ⟨twin_report alike missing, .none⟩
  · exact forms.twinForm alike

theorem twin_recover (forms : TwinForms L form) (alike : Alike L p q) (problem : StructuralProblem) :
    Twin L p q (recover form problem p) (recover form problem q) := by
  have reported := twin_report alike problem
  have alike' := alike.after reported
  rw [recover, recover, restAsError, restAsError, alike'.atSequenceEnd]
  split
  · exact reported
  · exact reported.trans (twin_node rfl (twin_sequence forms alike'.begun)).twin

/-! ## Single tokens -/

/-- A node around one token. -/
theorem twin_leafNode {kind : Kind} {k l : Kind} (alike : Alike L p q) {t : Token} {ts : List Token}
    (rest : p.rest = t :: ts) (label : kind.isLabel = true) (kinds : L.kinds k l) :
    TwinNode L p q (p.node kind fun p => p.advanceAs k) (q.node kind fun q => q.advanceAs l) :=
  twin_complete label (twin_advanceAs alike.begun rest kinds)

theorem twin_literal (alike : Alike L p q) (isLiteral : p.kind.isLiteralToken = true) :
    TwinNode L p q (literal p) (literal q) := by
  have isLiteral' : q.kind.isLiteralToken = true := by
    rw [alike.kind_congr Kind.isLiteralToken ⟨rfl, rfl⟩, isLiteral]
  obtain ⟨t, ts, rest⟩ := alike.ready.exists_rest (by rintro atEnd; rw [atEnd] at isLiteral; contradiction)
  rw [literal, literal, require_eq isLiteral, require_eq isLiteral']
  exact twin_node rfl (twin_advance alike.begun rest)

theorem twin_symbol (alike : Alike L p q) (isSymbol : p.atSymbol = true) :
    TwinNode L p q (symbol p) (symbol q) := by
  have isSymbol' : q.atSymbol = true := by rw [alike.atSymbol, isSymbol]
  obtain ⟨t, ts, rest, -⟩ := alike.ready.exists_symbol isSymbol
  rw [atSymbol] at isSymbol isSymbol'
  rw [symbol, symbol, require_eq isSymbol, require_eq isSymbol']
  exact twin_node rfl (twin_advance alike.begun rest)

theorem twin_badToken (alike : Alike L p q) {t : Token} {ts : List Token} (rest : p.rest = t :: ts)
    (problem : StructuralProblem) : TwinNode L p q (badToken problem p) (badToken problem q) := by
  have reported := twin_report alike.begun problem
  exact twin_node rfl (reported.trans (twin_advance (alike.begun.after reported) rest))

theorem twin_infixLookup {r s : Completed × Parser} (alike : Alike L p q) (node : TwinNode L p q r s)
    (progress : r.2.rest.length < p.rest.length) : TwinNode L p q (infixLookup r) (infixLookup s) := by
  have alike' := alike.after node.twin
  have taken : r.2.previous ≠ none := by
    obtain ⟨⟨ds, es, walks, -⟩, -⟩ := node.twin
    exact walks.previous_ne_none progress
  rw [infixLookup, infixLookup, alike'.joins_eq taken]
  split
  · rename_i touching
    simp only [Bool.and_eq_true] at touching
    obtain ⟨⟨⟨atSlash, -⟩, -⟩, isSymbol⟩ := touching
    obtain ⟨t, ts, rest, -⟩ := alike'.ready.exists_isAt atSlash (by decide)
    have inside := node.preceded_alike alike
    have restEq : (preceded r).rest = t :: ts := (rest_preceded r).trans rest
    have slash := twin_advance inside restEq
    refine node.wrap rfl (slash.trans (twin_symbol (inside.after slash) ?_).twin)
    obtain ⟨events, fault, precededEq⟩ := preceded_eq r
    have ahead : (preceded r).advance.token 0 = r.2.token 1 := by
      rw [Parser.advance, token_advanceAs restEq, precededEq]
      rfl
    rw [atSymbol, kind, current, ahead]
    exact isSymbol
  · exact node

/-! ## Skipping -/

theorem twin_skipMarks (turns : Nat) (alike : Alike L p q) :
    Twin L p q (skipMarks turns p) (skipMarks turns q) := by
  induction turns generalizing p q with
  | zero => exact Twin.refl p q
  | succ turns inductionHypothesis =>
    rw [skipMarks, skipMarks, alike.kind_congr marks.contains (by decide)]
    split
    · rename_i marked
      obtain ⟨t, ts, rest⟩ := alike.ready.exists_rest (by
        intro atEnd
        rw [atEnd] at marked
        exact absurd marked (by decide))
      have first := twin_advance alike rest
      exact first.trans (inductionHypothesis (alike.after first))
    · exact Twin.refl p q

theorem twin_skipBalanced (turns depth : Nat) (alike : Alike L p q)
    (isOpen : depth = 0 → p.kind.isOpener = true) :
    Twin L p q (skipBalanced turns depth p) (skipBalanced turns depth q) := by
  induction turns generalizing p q depth with
  | zero => exact Twin.refl p q
  | succ turns inductionHypothesis =>
    have met := not_closes_of_isOpen isOpen
    simp only [skipBalanced]
    rw [alike.isAt rfl, alike.kind_congr Kind.isCloser ⟨rfl, rfl⟩,
      alike.kind_congr (depthAfter depth) ⟨rfl, rfl⟩]
    split
    · exact Twin.refl p q
    · rename_i notEnd
      obtain ⟨t, ts, rest⟩ := alike.ready.exists_rest (by simpa [isAt] using notEnd)
      have first := twin_advance alike rest
      rw [require_eq met, require_eq met]
      split
      · exact first
      · rename_i stillOpen
        exact first.trans (inductionHypothesis _ (alike.after first) fun empty => absurd empty stillOpen)

theorem twin_tooDeep (alike : Alike L p q) : TwinNode L p q (tooDeep p) (tooDeep q) := by
  have reported := twin_report alike.begun .tooDeep
  have marks := twin_skipMarks (p.begun.report .tooDeep).rest.length (alike.begun.after reported)
  have before := reported.trans marks
  have alike' := alike.begun.after before
  apply twin_node rfl
  simp only
  rw [(alike.begun.after reported).length, alike'.kind_congr Kind.isOpener ⟨rfl, rfl⟩, alike'.atSequenceEnd]
  split
  · rename_i opener
    rw [alike'.length]
    exact before.trans (twin_skipBalanced _ 0 alike' fun _ => opener)
  · split
    · exact before
    · rename_i going
      obtain ⟨t, ts, rest⟩ := alike'.ready.exists_rest_of_going (by simpa using going)
      exact before.trans (twin_advance alike' rest)

/-! ## Collections -/

/-- A node around a delimited sequence, whatever is read inside it. -/
theorem twin_enclosed {t : Token} {ts : List Token} {closer : Kind} (name : String) (kind : Kind)
    (body : Parser → Parser) (alike : Alike L p q) (rest : p.rest = t :: ts)
    (opens : t.kind.closer? = some closer) (label : kind.isLabel = true)
    (inside : ∀ p q, Alike L p q → Twin L p q (body p) (body q)) :
    TwinNode L p q (p.node kind fun p => (body (p.openSequence name)).closeSequence)
      (q.node kind fun q => (body (q.openSequence name)).closeSequence) :=
  twin_node label (twin_between alike.begun rest opens
    (inside _ _ (alike.begun.openSequence rest opens name)))

theorem twin_delimited (forms : TwinForms L form) {t : Token} {ts : List Token} {closer : Kind}
    (name : String) {kind : Kind} (alike : Alike L p q) (rest : p.rest = t :: ts)
    (opens : t.kind.closer? = some closer) (label : kind.isLabel = true) :
    TwinNode L p q (delimited name kind form p) (delimited name kind form q) :=
  twin_enclosed name kind (sequence form) alike rest opens label
    fun _ _ alike => twin_sequence forms alike

theorem spanOf_related {c d : Completed} (counted : L.completed c d) :
    L.spans (p.spanOf c) (q.spanOf d) := by
  obtain ⟨a, b, covered, covered', related⟩ := counted
  rw [spanOf, spanOf, covered, covered']
  exact related

def AlikeEntries (L : Likeness γ) (a b : Entries) : Prop :=
  b.count = a.count ∧ Option.Rel L.spans a.last b.last

theorem twin_entriesLoop (forms : TwinForms L form) (turns : Nat) {a b : Entries}
    (entries : AlikeEntries L a b) (alike : Alike L p q) :
    Twin L p q (entriesLoop form turns a p).2 (entriesLoop form turns b q).2 ∧
      AlikeEntries L (entriesLoop form turns a p).1 (entriesLoop form turns b q).1 := by
  induction turns generalizing p q a b with
  | zero => exact ⟨Twin.refl p q, entries⟩
  | succ turns inductionHypothesis =>
    rw [entriesLoop, entriesLoop, alike.atSequenceEnd]
    split
    · exact ⟨Twin.refl p q, entries⟩
    · obtain ⟨first, counted⟩ := forms.twinForm alike
      have alike' := alike.after first
      generalize form p = r at first counted alike'
      generalize form q = s at first counted alike'
      obtain ⟨c, p'⟩ := r
      obtain ⟨d, q'⟩ := s
      cases counted with
      | none =>
        obtain ⟨more, last⟩ := inductionHypothesis entries alike'
        exact ⟨first.trans more, last⟩
      | some related =>
        have entries' : AlikeEntries L ⟨a.count + 1, some (p'.spanOf _)⟩ ⟨b.count + 1, some (q'.spanOf _)⟩ :=
          ⟨congrArg (· + 1) entries.1, .some (spanOf_related related)⟩
        obtain ⟨more, last⟩ := inductionHypothesis entries' alike'
        exact ⟨first.trans more, last⟩

theorem twin_checkPaired {a b : Entries} (entries : AlikeEntries L a b) (alike : Alike L p q) :
    Twin L p q (checkPaired a p) (checkPaired b q) := by
  obtain ⟨count, last⟩ := entries
  rw [checkPaired, checkPaired, count]
  generalize a.last = left at last
  generalize b.last = right at last
  cases last with
  | none => exact Twin.refl p q
  | some related =>
    dsimp only
    split
    · exact twin_reportAt alike .noMapValue related
    · exact Twin.refl p q

theorem twin_map (forms : TwinForms L form) (alike : Alike L p q) (isBrace : p.isAt .leftBrace = true) :
    TwinNode L p q (map form p) (map form q) := by
  obtain ⟨t, ts, rest, kindEq⟩ := alike.ready.exists_isAt isBrace (by decide)
  refine twin_enclosed "map" .mapForm
    (fun q => checkPaired (entriesLoop form q.rest.length ⟨0, none⟩ q).1
      (entriesLoop form q.rest.length ⟨0, none⟩ q).2)
    alike rest (by rw [kindEq]; rfl) rfl ?_
  intro p q alike
  have noEntries : AlikeEntries L ⟨0, none⟩ ⟨0, none⟩ := ⟨rfl, .none⟩
  obtain ⟨loop, entries⟩ := twin_entriesLoop forms p.rest.length noEntries alike
  rw [alike.length]
  exact loop.trans (twin_checkPaired entries (alike.after loop))

/-! ## Metadata and quotes -/

theorem twin_metadataBody (forms : TwinForms L form) (alike : Alike L p q) :
    Twin L p q (metadataBody form p) (metadataBody form q) := by
  rw [metadataBody, metadataBody, alike.isAt rfl]
  split
  · rename_i isBrace
    exact (twin_map forms alike isBrace).twin
  · have reported := twin_report alike .noMetadataMap
    have alike' := alike.after reported
    dsimp only
    rw [alike'.atSequenceEnd, alike'.kind_congr Kind.isCloser ⟨rfl, rfl⟩]
    split
    · exact reported
    · exact reported.trans (forms.twinForm alike').1

theorem twin_metadata (forms : TwinForms L form) (alike : Alike L p q)
    (isCaret : p.isAt .caret = true) :
    TwinNode L p q (metadata form p) (metadata form q) ∧
      (metadata form p).2.rest.length < p.rest.length := by
  obtain ⟨t, ts, rest, -⟩ := alike.ready.exists_isAt isCaret (by decide)
  have caret := twin_advance alike.begun rest
  have body := twin_metadataBody forms (alike.begun.after caret)
  rw [metadata, metadata, require_eq isCaret, require_eq (by rw [alike.isAt rfl, isCaret])]
  refine ⟨twin_node rfl (caret.trans body), ?_⟩
  have shorter := body.length_le
  have advanced : p.begun.advance.rest = ts := rest_advanceAs (p := p.begun) rest _
  rw [advanced] at shorter
  rw [Parser.node, rest_complete, rest]
  exact Nat.lt_succ_of_le shorter

theorem twin_optionalMetadata (forms : TwinForms L form) (alike : Alike L p q) :
    Twin L p q (metadata? form p) (metadata? form q) := by
  rw [metadata?, metadata?, alike.isAt rfl]
  split
  · rename_i isCaret
    exact (twin_metadata forms alike isCaret).1.twin
  · exact Twin.refl p q

theorem twin_misplacedMetadata (forms : TwinForms L form) (alike : Alike L p q)
    (isCaret : p.isAt .caret = true) :
    TwinNode L p q (misplacedMetadata form p) (misplacedMetadata form q) := by
  obtain ⟨node, progress⟩ := twin_metadata forms alike isCaret
  have covered := spanOf_related (p := (metadata form p).2) (q := (metadata form q).2)
    (node.completed alike progress)
  simp only [misplacedMetadata]
  rw [alike.nth_congr 1 (· == .leftBrace) ⟨rfl, rfl⟩]
  split
  · have reported := node.reportAt alike .misplacedMetadata covered
    exact reported.wrap rfl (Twin.refl _ _)
  · exact node.wrap rfl (Twin.refl _ _)

theorem twin_markedForm (forms : TwinForms L form) (alike : Alike L p q) {t : Token}
    {ts : List Token} (rest : p.rest = t :: ts) (noSymbol : p.kind.isSymbolToken = false) :
    TwinNode L p q (markedForm form p) (markedForm form q) := by
  have mark := twin_advance alike.begun rest
  have alike' := alike.begun.after mark
  rw [markedForm, markedForm, Likeness.eq_of_kinds alike.kinds noSymbol]
  refine twin_node ?_ ?_
  · unfold quoteNode
    split <;> rfl
  · dsimp only
    rw [alike'.atSequenceEnd]
    split
    · exact mark.trans (twin_report alike' _)
    · exact mark.trans (forms.twinForm alike').1

end Grammar

end LispSyntax
