import LispSyntax.Proofs.Setting.Form

/-! # Nesting and the budget for it

The rule for a form has a budget of levels, and what it reads does not depend on the budget as long as that is not used
up. `Outline.levels` counts the levels that a form takes. Two rules with different budgets are `SameUpTo` a limit if
they read alike whatever nests no deeper; every production hands this on from the rule for the forms inside it, with
one level more for a form of its own.

`Shallow` says of a stretch of parsing that nothing is reported and that it nests no deeper than the limit. It goes over
to the parts of the stretch (`Shallow.left`, `Shallow.right`, `Shallow.inside`, `Shallow.between`), and this is all that
the productions here need.
-/

namespace LispSyntax

/-! ## Levels -/

/-- The levels of a node, given those inside it. The words of a lookup or of an import are not forms inside it, and
metadata takes its map on the level of the definition. -/
def Kind.levels (kind : Kind) (inside : Nat) : Nat :=
  if kind = .lookupForm ∨ kind = .importForm then 1
  else if kind = .metadata then inside - 1
  else if Shape.form.accepts kind then inside + 1
  else inside

namespace Outline

variable {α β : Type}

mutual

/-- How many levels deep forms nest. -/
def levels : Outline α → Nat
  | node kind children => kind.levels (levelsAll children)
  | leaf _ => 0

def levelsAll : List (Outline α) → Nat
  | [] => 0
  | o :: os => max o.levels (levelsAll os)

end

@[simp] theorem levels_node (kind : Kind) (children : List (Outline α)) :
    (node kind children).levels = kind.levels (levelsAll children) := rfl

@[simp] theorem levels_leaf (value : α) : (leaf value).levels = 0 := rfl

@[simp] theorem levelsAll_nil : levelsAll ([] : List (Outline α)) = 0 := rfl

@[simp] theorem levelsAll_cons (o : Outline α) (os : List (Outline α)) :
    levelsAll (o :: os) = max o.levels (levelsAll os) := rfl

@[simp] theorem levelsAll_append (os us : List (Outline α)) :
    levelsAll (os ++ us) = max (levelsAll os) (levelsAll us) := by
  induction os with
  | nil => simp
  | cons o os inductionHypothesis => simp [inductionHypothesis, Nat.max_assoc]

mutual

/-- What stands at the leaves does not matter. -/
theorem levels_map (f : α → β) : (o : Outline α) → (o.map f).levels = o.levels
  | node kind children => by rw [map, levels_node, levels_node, levelsAll_mapAll f children]
  | leaf _ => rfl

theorem levelsAll_mapAll (f : α → β) : (os : List (Outline α)) → levelsAll (mapAll f os) = levelsAll os
  | [] => rfl
  | o :: os => by rw [mapAll, levelsAll_cons, levelsAll_cons, levels_map f o, levelsAll_mapAll f os]

end

end Outline

/-- A kind of node that is a form with forms inside it. -/
def Kind.nests (kind : Kind) : Bool :=
  Shape.form.accepts kind && kind != .lookupForm && kind != .importForm

theorem Kind.levels_of_nests {kind : Kind} (nests : kind.nests = true) (inside : Nat) :
    kind.levels inside = inside + 1 := by
  simp only [Kind.nests, Bool.and_eq_true, bne_iff_ne, ne_eq] at nests
  obtain ⟨⟨isForm, notLookup⟩, notImport⟩ := nests
  have notMetadata : kind ≠ .metadata := by
    rintro rfl
    exact absurd isForm (by decide)
  rw [levels, if_neg (by simp [notLookup, notImport]), if_neg notMetadata, if_pos isForm]

theorem Kind.le_of_nests {kind : Kind} (nests : kind.nests = true) {inside limit : Nat}
    (below : kind.levels inside ≤ limit + 1) : inside ≤ limit := by
  rw [levels_of_nests nests] at below
  exact Nat.le_of_succ_le_succ below

/-- A form takes at least one level. -/
theorem Kind.levels_pos {kind : Kind} (isForm : Shape.form.accepts kind = true) (inside : Nat) :
    0 < kind.levels inside := by
  cases nests : kind.nests with
  | true =>
    rw [levels_of_nests nests]
    exact Nat.succ_pos inside
  | false =>
    have isWord : kind = .lookupForm ∨ kind = .importForm := by
      simpa [Kind.nests, isForm, Decidable.or_iff_not_imp_left] using nests
    rw [levels, if_pos isWord]
    exact Nat.one_pos

open LispSyntax.Parser

/-! ## Shallow stretches -/

/-- Nothing is reported between the two states, and what is made nests no deeper than the limit. -/
structure Shallow (limit : Nat) (p q : Parser) : Prop where
  quiet : Quiet p q
  levels : ∀ ds, Runs p ds q → Outline.levelsAll ds ≤ limit

section

variable {limit below : Nat} {p q s : Parser} {t : Token} {ts : List Token} {kind closer : Kind} {name : String}
  {pattern : Prop → Pattern (Kind × Token)}

theorem Shallow.left (shallow : Shallow limit p s) (first : ∃ ds, Runs p ds q) (second : ∃ ds, Runs q ds s) :
    Shallow limit p q := by
  obtain ⟨ds, before⟩ := first
  obtain ⟨es, after⟩ := second
  refine ⟨before.quiet_left after shallow.quiet, fun us runs => ?_⟩
  have whole := shallow.levels _ (runs.trans after)
  rw [Outline.levelsAll_append] at whole
  exact (Nat.max_le.mp whole).1

theorem Shallow.right (shallow : Shallow limit p s) (first : ∃ ds, Runs p ds q) (second : ∃ ds, Runs q ds s) :
    Shallow limit q s := by
  obtain ⟨ds, before⟩ := first
  obtain ⟨es, after⟩ := second
  refine ⟨before.quiet_right after shallow.quiet, fun us runs => ?_⟩
  have whole := shallow.levels _ (before.trans runs)
  rw [Outline.levelsAll_append] at whole
  exact (Nat.max_le.mp whole).2

/-- From a node to what is read in it. -/
theorem Shallow.inside (shallow : Shallow limit p (q.complete p.start.1 kind).2) (label : kind.isLabel = true)
    (enough : ∀ inside, kind.levels inside ≤ limit → inside ≤ below) : Shallow below p.begun q := by
  refine ⟨?_, fun ds runs => enough _ ?_⟩
  · have quiet := shallow.quiet
    rw [Quiet, reports_complete] at quiet
    exact quiet
  · have whole := shallow.levels _ (makes_complete label runs).runs
    simpa using whole

theorem Shallow.node {body : Parser → Parser} (shallow : Shallow limit p (p.node kind body).2)
    (label : kind.isLabel = true) (enough : ∀ inside, kind.levels inside ≤ limit → inside ≤ below) :
    Shallow below p.begun (body p.begun) :=
  shallow.inside label enough

/-- From a delimited sequence to what is read in it. -/
theorem Shallow.between (shallow : Shallow limit p q.closeSequence) (ready : p.Ready) (rest : p.rest = t :: ts)
    (opens : t.kind.closer? = some closer) (filled : ∃ ds, Runs (p.openSequence name) ds q) :
    Shallow limit (p.openSequence name) q := by
  obtain ⟨es, inside⟩ := filled
  obtain ⟨-, -, -, quiet⟩ := runs_between ready rest opens inside
  refine ⟨quiet shallow.quiet, fun ds runs => ?_⟩
  obtain ⟨ending, whole, -, -⟩ := runs_between ready rest opens runs
  have enclosed := shallow.levels _ whole
  simp only [List.cons_append, Outline.levelsAll_cons, Outline.levelsAll_append] at enclosed
  exact (Nat.max_le.mp (Nat.max_le.mp enclosed).2).1

theorem node_eq (p : Parser) (kind : Kind) (body : Parser → Parser) :
    p.node kind body = (body p.begun).complete p.start.1 kind := rfl

theorem node_congr {body body' : Parser → Parser} {kind : Kind} (same : body' p.begun = body p.begun) :
    p.node kind body' = p.node kind body := by
  rw [node_eq, node_eq, same]

/-- A run that reports something in any case is not quiet. -/
theorem not_quiet_of_noisy (reads : Reads p q pattern) (noisy : ∀ ds, ¬ pattern True ds) : ¬ Quiet p q := by
  intro quiet
  obtain ⟨ds, -, shape⟩ := reads
  exact noisy ds (shape True fun _ => quiet).2

/-- A node around a delimited sequence, whatever is read inside it. -/
theorem enclosed_congr (name : String) (body body' : Parser → Parser) (ready : p.Ready) (rest : p.rest = t :: ts)
    (opens : t.kind.closer? = some closer) (label : kind.isLabel = true)
    (enough : ∀ inside, kind.levels inside ≤ limit → inside ≤ below)
    (grows : ∀ q : Parser, q.Ready → ∃ ds, Runs q ds (body q))
    (same : ∀ q : Parser, q.Ready → Shallow below q (body q) → body' q = body q)
    (shallow : Shallow limit p (p.node kind fun p => (body (p.openSequence name)).closeSequence).2) :
    (p.node kind fun p => (body' (p.openSequence name)).closeSequence) =
      p.node kind fun p => (body (p.openSequence name)).closeSequence := by
  have opened : (p.begun.openSequence name).Ready := ready.begun.openSequence rest opens name
  have filled := grows _ opened
  have inner : Shallow below (p.begun.openSequence name) (body (p.begun.openSequence name)) :=
    (Shallow.inside shallow label enough).between ready.begun rest opens filled
  exact node_congr (congrArg Parser.closeSequence (same _ opened inner))

end

namespace Grammar

open Setting

/-- Where what the one rule reads nests no deeper than the limit, the other reads the same. -/
structure SameUpTo (limit : Nat) (form form' : FormRule) : Prop where
  reads : ReadsForms form
  reads' : ReadsForms form'
  same : ∀ p, p.Ready → p.atSequenceEnd = false → Shallow limit p (form p).2 → form' p = form p

variable {limit : Nat} {form form' : FormRule} {p : Parser} {t : Token} {ts : List Token} {kind closer : Kind}

theorem SameUpTo.anywhere (rules : SameUpTo limit form form') (ready : p.Ready)
    (shallow : Shallow limit p (form p).2) : form' p = form p := by
  cases going : p.atSequenceEnd with
  | true => rw [rules.reads.atEnd p going, rules.reads'.atEnd p going]
  | false => exact rules.same p ready going shallow

theorem not_quiet_recover (forms : ReadsForms form) (ready : p.Ready) (problem : StructuralProblem) :
    ¬ Quiet p (recover form problem p) :=
  not_quiet_of_noisy (reads_recover forms ready problem) fun _ noisy => noisy.1 trivial

/-! ## Forms in a row -/

theorem sequenceLoop_congr (rules : SameUpTo limit form form') (turns : Nat) (ready : p.Ready)
    (shallow : Shallow limit p (sequenceLoop form turns p)) :
    sequenceLoop form' turns p = sequenceLoop form turns p := by
  induction turns generalizing p with
  | zero => rfl
  | succ turns inductionHypothesis =>
    simp only [sequenceLoop] at shallow ⊢
    cases going : p.atSequenceEnd with
    | true => rfl
    | false =>
      simp only [going, Bool.false_eq_true, if_false] at shallow ⊢
      have first := rules.reads.reads p ready going
      have ready' := first.ready ready
      have others := grows_of_reads (reads_sequenceLoop rules.reads turns ready')
      rw [rules.same p ready going (shallow.left (grows_of_reads first) others)]
      exact inductionHypothesis ready' (shallow.right (grows_of_reads first) others)

theorem sequence_congr (rules : SameUpTo limit form form') (ready : p.Ready)
    (shallow : Shallow limit p (sequence form p)) : sequence form' p = sequence form p :=
  sequenceLoop_congr rules _ ready shallow

theorem expectForm_congr (rules : SameUpTo limit form form') (missing : StructuralProblem) (ready : p.Ready)
    (shallow : Shallow limit p (expectForm form missing p).2) :
    expectForm form' missing p = expectForm form missing p := by
  simp only [expectForm] at shallow ⊢
  cases going : p.atSequenceEnd with
  | true => rfl
  | false =>
    simp only [going, Bool.false_eq_true, if_false] at shallow ⊢
    exact rules.same p ready going shallow

/-! ## Collections -/

theorem delimited_congr (rules : SameUpTo limit form form') (name : String) (ready : p.Ready)
    (rest : p.rest = t :: ts) (opens : t.kind.closer? = some closer) (label : kind.isLabel = true)
    (nests : kind.nests = true) (shallow : Shallow (limit + 1) p (delimited name kind form p).2) :
    delimited name kind form' p = delimited name kind form p :=
  enclosed_congr name (sequence form) (sequence form') ready rest opens label (fun _ => Kind.le_of_nests nests)
    (fun _ ready => grows_of_reads (reads_sequence rules.reads ready))
    (fun _ ready shallow => sequence_congr rules ready shallow) shallow

theorem entriesLoop_congr (rules : SameUpTo limit form form') (turns : Nat) (entries : Entries) (ready : p.Ready)
    (shallow : Shallow limit p (entriesLoop form turns entries p).2) :
    entriesLoop form' turns entries p = entriesLoop form turns entries p := by
  induction turns generalizing p entries with
  | zero => rfl
  | succ turns inductionHypothesis =>
    cases going : p.atSequenceEnd with
    | true => simp only [entriesLoop, going, if_true]
    | false =>
      rw [entriesLoop_of_going turns entries going] at shallow ⊢
      have first := rules.reads.reads p ready going
      have ready' := first.ready ready
      have others := grows_of_reads
        (reads_entriesLoop rules.reads turns (entriesAfter entries (form p).2 (form p).1) ready')
      rw [entriesLoop_of_going turns entries going,
        rules.same p ready going (shallow.left (grows_of_reads first) others)]
      exact inductionHypothesis _ ready' (shallow.right (grows_of_reads first) others)

theorem map_congr (rules : SameUpTo limit form form') (ready : p.Ready) (rest : p.rest = t :: ts)
    (isBrace : t.kind = .leftBrace) (shallow : Shallow (limit + 1) p (map form p).2) : map form' p = map form p := by
  refine enclosed_congr "map"
    (fun q => checkPaired (entriesLoop form q.rest.length ⟨0, none⟩ q).1
      (entriesLoop form q.rest.length ⟨0, none⟩ q).2)
    (fun q => checkPaired (entriesLoop form' q.rest.length ⟨0, none⟩ q).1
      (entriesLoop form' q.rest.length ⟨0, none⟩ q).2)
    ready rest (by rw [isBrace]; rfl) rfl (fun _ => Kind.le_of_nests rfl)
    (fun q ready => grows_of_reads (reads_entries rules.reads _ ready)) ?_ shallow
  intro q ready shallow
  have entries := grows_of_reads (reads_entriesLoop rules.reads q.rest.length ⟨0, none⟩ ready)
  simp only [entriesLoop_congr rules _ _ ready (shallow.left entries (grows_checkPaired _ _))]

/-! ## Metadata -/

theorem metadataBody_congr (rules : SameUpTo limit form form') (ready : p.Ready)
    (shallow : Shallow (limit + 1) p (metadataBody form p)) : metadataBody form' p = metadataBody form p := by
  cases braced : p.isAt .leftBrace with
  | true =>
    obtain ⟨t, ts, rest, isBrace⟩ := ready.exists_isAt braced (by decide)
    rw [metadataBody, if_pos braced] at shallow ⊢
    rw [metadataBody, if_pos braced, map_congr rules ready rest isBrace shallow]
  | false =>
    refine absurd shallow.quiet (not_quiet_of_noisy (reads_noMetadataMap rules.reads ready braced) ?_)
    exact fun _ noisy => noisy.1 trivial

theorem metadata?_congr (rules : SameUpTo limit form form') (ready : p.Ready)
    (shallow : Shallow limit p (metadata? form p)) : metadata? form' p = metadata? form p := by
  cases isCaret : p.isAt .caret with
  | false => simp only [metadata?, isCaret, Bool.false_eq_true, if_false]
  | true =>
    obtain ⟨t, ts, rest, -⟩ := ready.exists_isAt isCaret (by decide)
    simp only [metadata?, metadata, isCaret, if_true] at shallow ⊢
    have mark := runs_advance (p := p.begun) rest
    have body := grows_of_reads (reads_metadataBody rules.reads (mark.ready ready.begun))
    have inner : Shallow (limit + 1) p.begun (metadataBody form p.begun.advance) :=
      Shallow.inside shallow rfl fun inside below => Nat.sub_le_iff_le_add.mp below
    exact congrArg Prod.snd (node_congr
      (metadataBody_congr rules (mark.ready ready.begun) (inner.right ⟨_, mark⟩ body)))

/-! ## Quotes -/

theorem markedForm_congr (rules : SameUpTo limit form form') (ready : p.Ready) (rest : p.rest = t :: ts)
    (isMark : t.kind = .quoteMark ∨ t.kind = .backtick ∨ t.kind = .tilde)
    (shallow : Shallow (limit + 1) p (markedForm form p).2) : markedForm form' p = markedForm form p := by
  have node : (quoteNode t.kind).isLabel = true ∧ (quoteNode t.kind).nests = true := by
    rcases isMark with isMark | isMark | isMark <;> rw [isMark] <;> decide
  simp only [markedForm, kind_of_rest rest, ← expectForm_eq] at shallow ⊢
  have mark := runs_advance (p := p.begun) rest
  have ready' := mark.ready ready.begun
  have inner : Shallow limit p.begun (expectForm form (.nothingAfterMark t.kind) p.begun.advance).2 :=
    Shallow.inside shallow node.1 fun _ => Kind.le_of_nests node.2
  have body := grows_of_reads (reads_expectForm rules.reads ready' (.nothingAfterMark t.kind))
  refine node_congr (congrArg Prod.snd (expectForm_congr rules _ ready' (inner.right ⟨_, mark⟩ body)))

end Grammar

end LispSyntax
