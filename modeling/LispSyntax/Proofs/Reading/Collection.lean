import LispSyntax.Grammar.Collection
import LispSyntax.Proofs.Reading.Sequence

/-! # What collections, metadata and quotes read

The productions of `Grammar.Collection` as runs. Only maps and misplaced metadata need more than their
parts: a map counts its forms, and the count is the number of its children if nothing is reported;
metadata out of place is reported in any case, for the missing map or for its place.
-/

namespace LispSyntax

namespace Grammar

open LispSyntax.Parser Pattern Draft Outline

variable {form : FormRule} {p : Parser} {t : Token} {ts : List Token}

/-- A node around a delimited sequence, whatever is read inside it. -/
theorem reads_enclosed {closer : Kind} {a : Prop → Pattern (Kind × Token)} (name : String)
    (kind : Kind) (body : Parser → Parser) (ready : p.Ready) (rest : p.rest = t :: ts)
    (opens : t.kind.closer? = some closer) (label : kind.isLabel = true)
    (inside : ∀ q : Parser, q.Ready → Reads q (body q) a)
    (fits : ∀ alone quiet ds, Recovery.delimited quiet t.kind closer (a quiet) ds →
      Recovery.production alone quiet kind ds) :
    ReadsNode p kind (p.node kind fun p => (body (p.openSequence name)).closeSequence)
      fun quiet => Recovery.delimited quiet t.kind closer (a quiet) := by
  apply ReadsNode.node label
  · have opened := ready.begun.openSequence rest opens name
    exact reads_between ready.begun rest opens (inside _ opened)
  · exact fits

theorem reads_list (forms : ReadsForms form) (ready : p.Ready) (rest : p.rest = t :: ts)
    (isParen : t.kind = .leftParen) : Reads p (list form p).2 fun _ => single IsForm := by
  have made : ReadsNode p .listForm (list form p) _ :=
    reads_enclosed "list" .listForm (sequence form) ready rest
      (by rw [isParen]; rfl) rfl
      (fun _ ready => reads_sequence forms ready) (by rw [isParen]; exact fun _ _ _ => id)
  exact made.reads_isForm rfl

theorem reads_vector (forms : ReadsForms form) (ready : p.Ready) (rest : p.rest = t :: ts)
    (isBracket : t.kind = .leftBracket) : Reads p (vector form p).2 fun _ => single IsForm := by
  have made : ReadsNode p .vectorForm (vector form p) _ :=
    reads_enclosed "vector" .vectorForm (sequence form) ready rest
      (by rw [isBracket]; rfl) rfl
      (fun _ ready => reads_sequence forms ready) (by rw [isBracket]; exact fun _ _ _ => id)
  exact made.reads_isForm rfl

theorem reads_set (forms : ReadsForms form) (ready : p.Ready) (rest : p.rest = t :: ts)
    (isBrace : t.kind = .hashLeftBrace) : Reads p (set form p).2 fun _ => single IsForm := by
  have made : ReadsNode p .setForm (set form p) _ :=
    reads_enclosed "set" .setForm (sequence form) ready rest
      (by rw [isBrace]; rfl) rfl
      (fun _ ready => reads_sequence forms ready) (by rw [isBrace]; exact fun _ _ _ => id)
  exact made.reads_isForm rfl

/-! ## Maps -/

/-- The span of a last form is known as soon as one is counted. -/
theorem entriesLoop_last (form : FormRule) (turns : Nat) (entries : Entries) (p : Parser)
    (known : entries.count ≠ 0 → entries.last.isSome = true) :
    (entriesLoop form turns entries p).1.count ≠ 0 →
      (entriesLoop form turns entries p).1.last.isSome = true := by
  induction turns generalizing entries p with
  | zero => exact known
  | succ turns ih =>
    rw [entriesLoop]
    split
    · exact known
    · split
      · exact ih _ _ fun _ => rfl
      · exact ih _ _ known

theorem reads_entriesLoop (forms : ReadsForms form) (turns : Nat) (entries : Entries)
    (ready : p.Ready) :
    Reads p (entriesLoop form turns entries p).2 fun quiet ds => many IsForm ds ∧
      (quiet → (entriesLoop form turns entries p).1.count = entries.count + ds.length) := by
  induction turns generalizing p entries with
  | zero => exact Reads.stay fun _ => ⟨many_nil _, fun _ => rfl⟩
  | succ turns ih =>
    rw [entriesLoop]
    cases going : p.atSequenceEnd with
    | true => exact Reads.stay fun _ => ⟨many_nil _, fun _ => rfl⟩
    | false =>
      have first := forms.reads_counted ready going
      simp only [Bool.false_eq_true, if_false]
      generalize form p = result at first
      obtain ⟨counted, q⟩ := result
      have ready' : q.Ready := first.ready ready
      cases counted with
      | some entry =>
        refine (first.followedBy (ih _ ready')).imp ?_
        rintro quiet ds ⟨us, vs, rfl, ⟨one, -⟩, more, count⟩
        refine ⟨many_append (many_of_single one) more, fun h => ?_⟩
        obtain ⟨d, rfl, -⟩ := one
        rw [count h]
        simp
        omega
      | none =>
        refine (first.followedBy (ih entries ready')).imp ?_
        rintro quiet ds ⟨us, vs, rfl, ⟨one, isCounted⟩, more, -⟩
        exact ⟨many_append (many_of_single one) more, fun h => by simpa using isCounted h⟩

theorem reads_checkPaired (entries : Entries)
    (known : entries.count ≠ 0 → entries.last.isSome = true) :
    Reads p (checkPaired entries p) fun quiet ds => ds = [] ∧ (quiet → entries.count % 2 = 0) := by
  rw [checkPaired]
  split
  · split
    · exact (Reads.reportAt p _ _).imp fun _ _ noisy => ⟨noisy.2, fun h => absurd h noisy.1⟩
    · rename_i paired
      exact Reads.stay fun _ => ⟨rfl, fun _ => by omega⟩
  · rename_i unknown
    have empty : entries.count = 0 := by
      by_cases h : entries.count = 0
      · exact h
      · simpa [unknown] using known h
    exact Reads.stay fun _ => ⟨rfl, fun _ => by omega⟩

theorem reads_entries (forms : ReadsForms form) (turns : Nat) (ready : p.Ready) :
    Reads p (checkPaired (entriesLoop form turns ⟨0, none⟩ p).1
      (entriesLoop form turns ⟨0, none⟩ p).2) Recovery.entries := by
  have known := entriesLoop_last form turns ⟨0, none⟩ p fun some => absurd rfl some
  refine ((reads_entriesLoop forms turns ⟨0, none⟩ ready).followedBy
    (reads_checkPaired _ known)).imp ?_
  rintro quiet ds ⟨us, vs, rfl, ⟨good, count⟩, rfl, paired⟩
  refine ⟨by simpa using good, fun h => ?_⟩
  have even := paired h
  rw [count h] at even
  simpa using even

theorem reads_map (forms : ReadsForms form) (ready : p.Ready) (rest : p.rest = t :: ts)
    (isBrace : t.kind = .leftBrace) :
    ReadsNode p .mapForm (map form p)
      fun quiet => Recovery.delimited quiet .leftBrace .rightBrace (Recovery.entries quiet) := by
  rw [← isBrace]
  exact reads_enclosed "map" .mapForm
    (fun q => checkPaired (entriesLoop form q.rest.length ⟨0, none⟩ q).1
      (entriesLoop form q.rest.length ⟨0, none⟩ q).2)
    ready rest (by rw [isBrace]; rfl) rfl
    (fun q ready => reads_entries forms q.rest.length ready)
    (by rw [isBrace]; exact fun _ _ _ => id)

/-! ## Metadata -/

/-- Without a map, the metadata is reported. -/
theorem reads_noMetadataMap (forms : ReadsForms form) (ready : p.Ready)
    (noMap : p.isAt .leftBrace = false) :
    Reads p (metadataBody form p) fun quiet => .provided (¬ quiet) (.optional (single IsForm)) := by
  have reported := (runs_report p .noMetadataMap).ready ready
  simp only [metadataBody, noMap, Bool.false_eq_true, if_false]
  apply Reads.after_report
  cases going : (p.report .noMetadataMap).atSequenceEnd with
  | true => exact Reads.stay fun _ => .inl rfl
  | false =>
    simp only [Bool.false_or]
    split
    · exact Reads.stay fun _ => .inl rfl
    · exact (forms.reads _ reported going).imp fun _ _ one => .inr one

theorem reads_metadataBody (forms : ReadsForms form) (ready : p.Ready) :
    Reads p (metadataBody form p) fun quiet ds =>
      ((single (HasKind .mapForm)).orElse (.provided (¬ quiet) (.optional (single IsForm)))) ds ∧
        (p.isAt .leftBrace = false → ¬ quiet) := by
  cases braced : p.isAt .leftBrace with
  | true =>
    obtain ⟨t, ts, rest, isBrace⟩ := ready.exists_isAt braced (by decide)
    rw [metadataBody, if_pos braced]
    refine (reads_map forms ready rest isBrace).reads_hasKind.imp fun _ _ one => ?_
    exact ⟨.inl one, fun unbraced => absurd unbraced (by decide)⟩
  | false =>
    refine (reads_noMetadataMap forms ready braced).imp fun _ _ noisy => ?_
    exact ⟨.inr noisy, fun _ => noisy.1⟩

theorem reads_metadata (forms : ReadsForms form) (ready : p.Ready) (isCaret : p.isAt .caret = true) :
    ReadsNode p .metadata (metadata form p) fun quiet _ => (p.nth 1 == .leftBrace) = false → ¬ quiet := by
  obtain ⟨t, ts, rest, kindEq⟩ := ready.exists_isAt isCaret (by decide)
  have caret : Reads p.begun p.begun.advance fun _ => tokenOf .caret := by
    rw [← kindEq]
    exact Reads.advance rest
  have body := caret.followedBy (reads_metadataBody forms (caret.ready ready.begun))
  have ahead : p.begun.advance.isAt .leftBrace = (p.nth 1 == .leftBrace) := by
    have restEq : p.begun.advance.rest = ts := rest_advanceAs (p := p.begun) rest _
    have lastEq : p.begun.advance.last = p.last := (runs_advance (p := p.begun) rest).last
    simp [isAt, kind, current, nth, Parser.token, restEq, lastEq, rest]
  rw [ahead] at body
  rw [metadata, require_eq isCaret]
  refine (ReadsNode.node rfl body ?_).imp fun quiet ds parts => ?_
  · rintro alone quiet ds ⟨us, vs, rfl, one, good, -⟩
    exact followedBy_mk one good
  · obtain ⟨us, vs, -, -, -, noisy⟩ := parts
    exact noisy

theorem reads_optionalMetadata (forms : ReadsForms form) (ready : p.Ready) :
    Reads p (metadata? form p) fun _ => Recovery.attached := by
  rw [metadata?]
  split
  · rename_i isCaret
    exact (reads_metadata forms ready isCaret).reads_hasKind.imp fun _ _ one => .inr one
  · exact Reads.stay fun _ => .inl rfl

/-- Metadata out of place is an error, and one of the two problems is reported. -/
theorem readsNode_misplacedMetadata (forms : ReadsForms form) (ready : p.Ready)
    (isCaret : p.isAt .caret = true) :
    ReadsNode p .error (misplacedMetadata form p) fun quiet _ => ¬ quiet := by
  have made := reads_metadata forms ready isCaret
  have wrapped : ∀ r : Completed × Parser, ReadsNode p .metadata r (fun quiet _ => ¬ quiet) →
      ReadsNode p .error (r.2.wrap r.1 .error id) fun quiet _ => ¬ quiet := by
    intro r noisy
    have inside : Reads (preceded r) (id (preceded r)) fun _ => .nothing := Reads.stay fun _ => rfl
    refine (noisy.wrap rfl inside ?_).imp ?_
    · rintro alone quiet ds ⟨us, vs, rfl, ⟨d, rfl, os, rfl, noisy⟩, rfl⟩
      exact .inr ⟨noisy, .inr (.inr (single_mk ⟨os, rfl⟩))⟩
    · rintro quiet ds ⟨us, vs, rfl, ⟨d, rfl, os, rfl, noisy⟩, rfl⟩
      exact noisy
  simp only [misplacedMetadata]
  cases hasMap : p.nth 1 == .leftBrace with
  | true =>
    have reported := made.reportAt .misplacedMetadata
      ((metadata form p).2.spanOf (metadata form p).1)
    have error := wrapped _ (reported.imp fun _ _ noisy => noisy.1)
    rw [if_pos rfl]
    exact error
  | false =>
    rw [if_neg Bool.false_ne_true]
    exact wrapped _ (made.imp fun _ _ noisy => noisy hasMap)

theorem reads_misplacedMetadata (forms : ReadsForms form) (ready : p.Ready)
    (isCaret : p.isAt .caret = true) :
    Reads p (misplacedMetadata form p).2 fun _ => single IsForm :=
  (readsNode_misplacedMetadata forms ready isCaret).reads_isForm rfl

/-! ## Quotes -/

theorem reads_markedForm (forms : ReadsForms form) (ready : p.Ready) (rest : p.rest = t :: ts)
    (isMark : t.kind = .quoteMark ∨ t.kind = .backtick ∨ t.kind = .tilde) :
    Reads p (markedForm form p).2 fun _ => single IsForm := by
  have mark : Reads p.begun p.begun.advance fun _ => tokenOf t.kind := Reads.advance rest
  have marked := reads_expectForm forms (mark.ready ready.begun) (.nothingAfterMark t.kind)
  have body : Reads p.begun (if p.begun.advance.atSequenceEnd then
      p.begun.advance.report (.nothingAfterMark t.kind) else (form p.begun.advance).2)
      fun quiet => (tokenOf t.kind).followedBy (Recovery.expected quiet) := by
    have whole := mark.followedBy marked
    rw [expectForm] at whole
    split at whole <;> simp_all
  rw [markedForm, kind_of_rest rest]
  rcases isMark with isMark | isMark | isMark <;> rw [isMark] at body ⊢
  · refine (ReadsNode.node rfl body ?_).reads_isForm rfl
    exact fun _ _ _ good => .inl good
  · refine (ReadsNode.node rfl body ?_).reads_isForm rfl
    exact fun _ _ _ good => .inl good
  · refine (ReadsNode.node rfl body ?_).reads_isForm rfl
    exact fun _ _ _ good => .inl good

end Grammar

end LispSyntax
