import LispSyntax.Proofs.Composition
import LispSyntax.Proofs.Origin

/-! # Where forms inside collections and special forms come from

The productions of `Grammar.Collection`, each put together from the parts it reads; those of special forms follow, as
`Traces` composes. A node that is no form needs no origin of its own; the nodes that are forms get theirs from the rule
that asks for them, in `Origin.Form`.
-/

namespace LispSyntax

namespace Grammar

open LispSyntax.Parser Draft Outline

variable {p q : Parser} {t : Token} {ts : List Token} {kind closer : Kind} {budget : Nat}

/-! ## Collections -/

/-- A node around a delimited sequence, whatever is read inside it. -/
theorem tracesNode_enclosed (name : String) (body : Parser → Parser) (ready : p.Ready)
    (rest : p.rest = t :: ts) (opens : t.kind.closer? = some closer) (label : kind.isLabel = true)
    (inside : ∀ q : Parser, q.Ready → Traces q (body q)) :
    TracesNode p kind (p.node kind fun p => (body (p.openSequence name)).closeSequence) := by
  apply TracesNode.node label
  exact traces_between ready.begun rest opens (inside _ (ready.begun.openSequence rest opens name))

theorem tracesNode_delimited (forms : TracesForms budget) (name : String) (ready : p.Ready)
    (rest : p.rest = t :: ts) (opens : t.kind.closer? = some closer) (label : kind.isLabel = true) :
    TracesNode p kind (delimited name kind (form budget) p) :=
  tracesNode_enclosed name (sequence (form budget)) ready rest opens label fun _ ready =>
    traces_sequence forms ready

theorem traces_entriesLoop (forms : TracesForms budget) (turns : Nat) (entries : Entries)
    (ready : p.Ready) : Traces p (entriesLoop (form budget) turns entries p).2 := by
  induction turns generalizing p entries with
  | zero => exact .stay p
  | succ turns inductionHypothesis =>
    rw [entriesLoop]
    split
    · exact .stay p
    · have first := traces_form forms ready
      generalize form budget p = result at first
      obtain ⟨counted, q⟩ := result
      have ready' : q.Ready := first.ready ready
      cases counted with
      | some entry => exact first.trans (inductionHypothesis _ ready')
      | none => exact first.trans (inductionHypothesis entries ready')

theorem traces_checkPaired (entries : Entries) (p : Parser) : Traces p (checkPaired entries p) := by
  rw [checkPaired]
  split
  · split
    · exact traces_reportAt ..
    · exact .stay p
  · exact .stay p

theorem tracesNode_map (forms : TracesForms budget) (ready : p.Ready)
    (isBrace : p.isAt .leftBrace = true) : TracesNode p .mapForm (map (form budget) p) := by
  obtain ⟨t, ts, rest, kindEq⟩ := ready.exists_isAt isBrace (by decide)
  exact tracesNode_enclosed "map" (fun q =>
      checkPaired (entriesLoop (form budget) q.rest.length ⟨0, none⟩ q).1
        (entriesLoop (form budget) q.rest.length ⟨0, none⟩ q).2)
    ready rest (by rw [kindEq]; rfl) rfl fun q ready =>
      (traces_entriesLoop forms _ _ ready).trans (traces_checkPaired ..)

/-! ## Metadata and quotes -/

theorem traces_metadataBody (forms : TracesForms budget) (ready : p.Ready) :
    Traces p (metadataBody (form budget) p) := by
  rw [metadataBody]
  split
  · rename_i isBrace
    exact ((tracesNode_map forms ready isBrace).tracesForm ready fun _ _ => .map forms.below isBrace).traces
  · have reported := traces_report p .noMetadataMap
    apply reported.trans
    dsimp only
    split
    · exact .stay _
    · exact traces_form forms (reported.ready ready)

theorem tracesNode_metadata (forms : TracesForms budget) (ready : p.Ready)
    (isCaret : p.isAt .caret = true) : TracesNode p .metadata (metadata (form budget) p) := by
  obtain ⟨t, ts, rest, -⟩ := ready.exists_isAt isCaret (by decide)
  rw [metadata, require_eq isCaret]
  apply TracesNode.node rfl
  have caret : Traces p.begun p.begun.advance := traces_advance rest
  exact caret.trans (traces_metadataBody forms (caret.ready ready.begun))

theorem traces_optionalMetadata (forms : TracesForms budget) (ready : p.Ready) :
    Traces p (metadata? (form budget) p) := by
  rw [metadata?]
  split
  · rename_i isCaret
    exact (tracesNode_metadata forms ready isCaret).traces rfl
  · exact .stay p

/-- Metadata out of place is an error whose one child is a node. -/
theorem makes_misplacedMetadata (forms : TracesForms budget) (ready : p.Ready)
    (isCaret : p.isAt .caret = true) :
    ∃ ds, Makes p (.node .error [.node .metadata ds]) (misplacedMetadata (form budget) p) ∧
      Traced p (misplacedMetadata (form budget) p).2 [.node .metadata ds] := by
  have wrapped : ∀ r : Completed × Parser, TracesNode p .metadata r →
      ∃ ds, Makes p (.node .error [.node .metadata ds]) (r.2.wrap r.1 .error id) ∧
        Traced p (r.2.wrap r.1 .error id).2 [.node .metadata ds] := by
    intro r node
    obtain ⟨ds, makes, traced⟩ := node
    have noForm : Shape.form.accepts .metadata = false := rfl
    have inside : Runs (preceded r) [] (id (preceded r)) := .refl _
    refine ⟨ds, makes_wrap rfl makes inside, ?_⟩
    have whole : Traced p r.2 [.node .metadata ds] :=
      traced.node fun isForm => absurd isForm (by simp [noForm])
    exact whole.mono rfl (.refl _) ((earlier_preceded r).trans (earlier_complete ..))
  have made := tracesNode_metadata forms ready isCaret
  have reported := wrapped _ (made.reportAt .misplacedMetadata
    ((metadata (form budget) p).2.spanOf (metadata (form budget) p).1))
  simp only [misplacedMetadata]
  cases p.nth 1 == .leftBrace with
  | true =>
    rw [if_pos rfl]
    exact reported
  | false =>
    rw [if_neg Bool.false_ne_true]
    exact wrapped _ made

theorem tracesNode_markedForm (forms : TracesForms budget) (ready : p.Ready) (rest : p.rest = t :: ts)
    (label : (quoteNode p.kind).isLabel = true) :
    TracesNode p (quoteNode p.kind) (markedForm (form budget) p) := by
  rw [markedForm]
  apply TracesNode.node label
  have mark : Traces p.begun p.begun.advance := traces_advance rest
  apply mark.trans
  dsimp only
  split
  · exact traces_report ..
  · exact traces_form forms (mark.ready ready.begun)

/-! ## Special forms -/

/-- What holds of every step of a rule holds of the rules of special forms. -/
theorem TracesForms.composes (forms : TracesForms budget) : Composes (form budget) fun _ => Traces where
  reads := readsForms_form budget
  le := by
    rintro - p q ⟨ds, runs, -⟩
    exact runs.rest_le
  ready traces := traces.ready
  mono traces _ := traces
  stay _ := .stay
  trans := .trans
  advanceAs := traces_advanceAs
  reportAt := traces_reportAt
  complete label noForm inside _ := (TracesNode.complete label inside).traces noForm
  between := traces_between
  literal := traces_literal
  symbol := traces_symbol
  form := traces_form forms
  sequence := traces_sequence forms
  recover := traces_recover forms
  optionalMetadata := traces_optionalMetadata forms

theorem tracesNode_specialForm (forms : TracesForms budget) (ready : p.Ready) {u : Token} {head : Kind}
    (rest : p.rest = t :: u :: ts) (isParen : t.kind = .leftParen)
    (label : (specialNode head).isLabel = true) :
    TracesNode p (specialNode head) (specialForm (form budget) head p) := by
  rw [specialForm]
  apply TracesNode.node label
  exact composes_specialInside forms.composes ready.begun rest isParen head

end Grammar

end LispSyntax
