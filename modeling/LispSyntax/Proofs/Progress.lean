import LispSyntax.Proofs.Completeness
import LispSyntax.Proofs.Conditions
import LispSyntax.Proofs.Derivation.Form
import LispSyntax.Proofs.Skipping

/-! # The rule for a form makes progress

Wherever the parser stands in the tokens of a text, the rule for a form either does nothing, because the
sequence is at its end, or it takes tokens and makes one node of them. `Makes` says this of the log in terms
of drafts; here it is said of what the log does when it is replayed (`Event.Adds`), and for every state that
stands in the tokens of some text, whatever sequences are open and however deep it is. What is logged is a node just
when all starts have slots then. A text can be so long that it gets to a state without a slot for the next form.

The loops of the grammar are bounded by the number of tokens to come. That the bound is never what ends one
of them is `LoopsEnd`: with that many turns, or more, each stops in a state in which it would stop anyway.
-/

namespace LispSyntax

/-! ## Replaying a stretch of a log -/

/-- Replaying the events takes the tokens and adds the tree to the innermost open node, wherever they stand
in a log. -/
def Event.Adds (text : Text) (es : List Event) (taken : List Token) (t : Tree) : Prop :=
  ∀ (before after : List Event) (b : Builder) (more : List Token), b.text = text → b.stack ≠ [] →
    ∃ done : List Event, done.length = before.length + es.length ∧
      (List.range' before.length es.length).foldlM Event.step
          ⟨(before ++ es ++ after).toArray, taken ++ more, b⟩ =
        .ok ⟨(done ++ after).toArray, more, b.add t⟩

theorem Event.Logs.adds {text : Text} {es : List Event} {d : Draft} (logs : Logs es [d])
    (lies : ∀ t ∈ d.tokens, t.LiesIn text) (small : Text.size text < sizeLimit) :
    Adds text es d.tokens (d.tree text) := by
  rintro before after b more rfl inside
  have cuttable : ∀ t ∈ Draft.tokensAll [d], t.Cuttable False b.text := by
    intro t member
    have lies : t.LiesIn b.text := lies t (by simpa using member)
    exact ⟨lies, lies.not_tooLong small⟩
  obtain ⟨done, doneLength, replayed⟩ := replay_logs logs before after
    ⟨(before ++ es ++ after).toArray, d.tokens ++ more, b⟩ more rfl (by simp) inside cuttable
  refine ⟨done, doneLength, ?_⟩
  cases replayed with
  | inl replayed => exact replayed
  | inr impossible => exact impossible.1.elim

/-- If the events start and end as many nodes then they leave none of the starts open. -/
theorem Event.Adds.isTombstone_eq_false {text : Text} {es : List Event} {taken : List Token} {t : Tree}
    (adds : Adds text es taken t) (paired : es.countP isStart = es.countP isFinish) :
    ∀ e ∈ es, e.isTombstone = false := by
  obtain ⟨done, -, replayed⟩ := adds [] [] ((Builder.ofText text).enter .source) [] rfl (List.cons_ne_nil _ _)
  simp only [List.nil_append, List.append_nil, List.length_nil, ← List.range_eq_range'] at replayed
  have ended := isFinish_le_of_foldlM replayed
  rw [length_stack_add] at ended
  exact isTombstone_eq_false_of_countP paired (Nat.add_le_add_iff_left.mp ended)

namespace Parser

variable {text : Text} {p q : Parser} {kind : Kind} {ds : List Draft} {taken : List Token} {t : Tree}

/-- There is no fault, and everything that was logged before is kept, with events behind it that add the tree. -/
def AddsTree (text : Text) (p : Parser) (taken : List Token) (t : Tree) (q : Parser) : Prop :=
  q.fault = none ∧ ∃ es, q.events.toList = p.events.toList ++ es ∧ Event.Adds text es taken t

/-- If some node is started and no start is left open, then the starts have slots. -/
theorem Grows.addressed_of_filled {started ended entries : Nat} {es : List Event}
    (grows : Grows p started ended entries q) (eventsEq : q.events.toList = p.events.toList ++ es)
    (someStart : 0 < es.countP Event.isStart) (filled : ∀ e ∈ es, e.isTombstone = false) : q.Addressed := by
  have beyondEq : q.beyond = p.beyond ++ es.drop (sizeLimit - p.events.size) := by
    rw [Parser.beyond, Parser.beyond, eventsEq, List.drop_append, Array.length_toList]
  obtain ⟨fs, grown, unfilled⟩ := grows.beyond
  obtain rfl := List.append_cancel_left (grown.symm.trans beyondEq)
  have noStart : ∀ e ∈ es.drop (sizeLimit - p.events.size), e.isStart = false := by
    refine fun e member => Bool.eq_false_iff.mpr fun isStart => ?_
    have isTombstone := filled e (List.mem_of_mem_drop member)
    rw [unfilled e member isStart] at isTombstone
    contradiction
  -- Otherwise all of the events would be behind the slots, and no node would be started.
  have below : p.events.size < sizeLimit := by
    refine Nat.lt_of_not_le fun behind => ?_
    rw [Nat.sub_eq_zero_of_le behind, List.drop_zero] at noStart
    rw [List.countP_eq_zero.mpr fun e member => by simp [noStart e member]] at someStart
    contradiction
  have before : p.beyond = [] := List.drop_eq_nil_of_le (by simpa using Nat.le_of_lt below)
  rwa [Addressed, beyondEq, before]

/-- A run that makes one node adds a tree only if there was no fault and all starts have slots. -/
theorem Runs.addressed_of_addsTree (runs : Runs p [.node kind ds] q) (added : AddsTree text p taken t q) :
    p.fault = none ∧ q.Addressed := by
  obtain ⟨noFault, es, eventsEq, adds⟩ := added
  obtain ⟨noFault', starts, ends⟩ := runs.grows.counts noFault
  rw [eventsEq, List.countP_append, Nat.add_left_cancel_iff] at starts ends
  have filled := adds.isTombstone_eq_false (starts.trans ends.symm)
  refine ⟨noFault', runs.grows.addressed_of_filled eventsEq ?_ filled⟩
  simp [starts, Outline.nodesAll]

theorem Runs.addsTree_iff (runs : Runs p [.node kind ds] q) (lies : ∀ t ∈ Draft.tokensAll ds, t.LiesIn text)
    (small : Text.size text < sizeLimit) :
    AddsTree text p (Draft.tokensAll ds) (.node kind (Draft.trees text ds)) q ↔ p.fault = none ∧ q.Addressed := by
  constructor
  · exact runs.addressed_of_addsTree
  · rintro ⟨noFault, addressed⟩
    obtain ⟨fault, es, eventsEq, logs⟩ := runs.appends addressed
    refine ⟨fault.trans noFault, es, eventsEq, ?_⟩
    have adds := logs.adds (by simpa using lies) small
    rw [Draft.tokens_node] at adds
    exact adds

/-- Before a node whose start has a slot there are fewer entries than slots. -/
theorem Runs.size_lt_of_addressed (runs : Runs p [.node kind ds] q) (addressed : q.Addressed) :
    p.events.size < sizeLimit := by
  obtain ⟨-, es, eventsEq, logs⟩ := runs.appends addressed
  have alone : Event.Logs es ([] ++ .node kind ds :: []) := logs
  obtain ⟨e, member, isStart⟩ := alone.exists_isStart
  refine Nat.lt_of_not_le fun behind => ?_
  have found : e ∈ q.beyond := by
    rw [beyond, eventsEq, List.drop_append, Array.length_toList, Nat.sub_eq_zero_of_le behind]
    exact List.mem_append_right _ member
  rw [addressed e found] at isStart
  contradiction

end Parser

/-! ## States in the tokens of a text -/

namespace Parser

/-- The tokens to come are the last ones of the text, and those before them are counted as taken. -/
def StandsIn (text : Text) (r : Registry) (p : Parser) : Prop :=
  ∃ taken, (Token.tokenize text r).1 = taken ++ p.rest ++ [p.last] ∧ p.position = taken.length ∧
    p.previous = taken.getLast?

variable {text : Text} {r : Registry} {p q : Parser} {ds : List Draft}

theorem StandsIn.ready (stands : p.StandsIn text r) : p.Ready := by
  obtain ⟨taken, tokens, -⟩ := stands
  obtain ⟨init, last, tokens', isEnd, noEnd⟩ := Token.exists_init_tokensFrom r 0 text
  obtain ⟨same, same'⟩ := List.append_inj' (tokens.symm.trans tokens') rfl
  obtain rfl := List.singleton_inj.mp same'
  subst same
  exact ⟨isEnd, fun t member => noEnd t (by simp [member])⟩

theorem StandsIn.liesIn (stands : p.StandsIn text r) : ∀ t ∈ p.rest, t.LiesIn text := by
  obtain ⟨taken, tokens, -⟩ := stands
  intro t member
  apply Token.liesIn_of_mem_tokenize (r := r)
  rw [tokens]
  simp [member]

theorem StandsIn.walks (stands : p.StandsIn text r) (walks : Walks p ds q) : q.StandsIn text r := by
  obtain ⟨taken, tokens, position, previous⟩ := stands
  refine ⟨taken ++ Draft.tokensAll ds, ?_, ?_, ?_⟩
  · rw [tokens, walks.rest, walks.last]
    simp only [List.append_assoc]
  · rw [walks.position, position, List.length_append]
  · rw [walks.previous, previous, List.getLast?_append]

end Parser

namespace Grammar

open LispSyntax.Parser

variable {text : Text} {r : Registry} {p q : Parser} {form : FormRule}

/-! ## Loops -/

theorem isAt_leftParen_groupedArities (forms : StepsForms form) (turns : Nat) (ready : p.Ready)
    (enough : p.rest.length ≤ turns) : (groupedArities form turns p).isAt .leftParen = false := by
  induction turns generalizing p with
  | zero =>
    have atEnd := ready.kind_eq_eof (List.length_eq_zero_iff.mp (Nat.le_zero.mp enough))
    simp [groupedArities, isAt, atEnd]
  | succ turns inductionHypothesis =>
    rw [groupedArities]
    cases isParen : p.isAt .leftParen with
    | false => exact isParen
    | true =>
      have reads := reads_groupedArity forms.toReadsForms ready isParen
      have progress := rest_lt_of_reads reads
      exact inductionHypothesis (reads.ready ready) (by omega)

theorem not_mark_skipMarks (turns : Nat) (ready : p.Ready) (enough : p.rest.length ≤ turns) :
    marks.contains (skipMarks turns p).kind = false := by
  induction turns generalizing p with
  | zero =>
    have atEnd := ready.kind_eq_eof (List.length_eq_zero_iff.mp (Nat.le_zero.mp enough))
    rw [skipMarks, atEnd]
    decide
  | succ turns inductionHypothesis =>
    rw [skipMarks]
    by_cases isMark : marks.contains p.kind = true
    · have notEnd : p.kind ≠ .eof := by
        intro atEnd
        rw [atEnd] at isMark
        exact absurd isMark (by decide)
      obtain ⟨t, ts, rest⟩ := ready.exists_rest notEnd
      have advanced := runs_advance rest
      rw [if_pos isMark]
      refine inductionHypothesis (advanced.ready ready) ?_
      rw [advance, rest_advanceAs rest]
      rw [rest, List.length_cons] at enough
      omega
    · rw [if_neg isMark]
      exact Bool.eq_false_iff.mpr isMark

/-- Skipping stops at the end of the text, or where the delimiters that were taken balance. -/
theorem balanced_skipBalanced (turns depth : Nat) (ready : p.Ready)
    (inside : p.kind.isCloser = true → depth ≠ 0) (enough : p.rest.length ≤ turns) :
    ∃ taken, p.rest = taken ++ (skipBalanced turns depth p).rest ∧
      ((skipBalanced turns depth p).isAt .eof = true ∨
        taken ≠ [] ∧ (taken.map Token.kind).foldl depthAfter depth = 0) := by
  induction turns generalizing p depth with
  | zero =>
    have atEnd := ready.kind_eq_eof (List.length_eq_zero_iff.mp (Nat.le_zero.mp enough))
    exact ⟨[], rfl, .inl (by simp [skipBalanced, isAt, atEnd])⟩
  | succ turns inductionHypothesis =>
    cases rest : p.rest with
    | nil =>
      have atEnd : p.isAt .eof = true := by simp [isAt, ready.kind_eq_eof rest]
      rw [skipBalanced, if_pos atEnd]
      exact ⟨[], rest.symm, .inl atEnd⟩
    | cons t ts =>
      rw [kind_of_rest rest] at inside
      rw [skipBalanced_cons ready rest turns inside]
      have advanced : p.advance.rest = ts := rest_advanceAs rest _
      by_cases closed : depthAfter depth t.kind = 0
      · rw [if_pos closed]
        exact ⟨[t], by rw [advanced]; rfl, .inr ⟨List.cons_ne_nil _ _, closed⟩⟩
      · rw [if_neg closed]
        have ready' := (runs_advance rest).ready ready
        have enough' : p.advance.rest.length ≤ turns := by
          rw [rest, List.length_cons] at enough
          rw [advanced]
          omega
        obtain ⟨taken, restEq, ending⟩ :=
          inductionHypothesis (depthAfter depth t.kind) ready' (fun _ => closed) enough'
        refine ⟨t :: taken, by rw [List.cons_append, ← restEq, advanced], ending.imp_right ?_⟩
        intro balanced
        exact ⟨List.cons_ne_nil _ _, balanced.2⟩

/-- With as many turns as there are tokens to come, or more, each loop stops because it is done. -/
structure LoopsEnd (form : FormRule) (p : Parser) : Prop where
  sequence : ∀ turns, p.rest.length ≤ turns → (sequenceLoop form turns p).atSequenceEnd = true
  entries : ∀ turns seen, p.rest.length ≤ turns → (entriesLoop form turns seen p).2.atSequenceEnd = true
  parameters : ∀ turns seen, p.rest.length ≤ turns →
    (parametersLoop form turns seen p).2.atSequenceEnd = true
  arities : ∀ turns, p.rest.length ≤ turns → (groupedArities form turns p).isAt .leftParen = false
  bindings : ∀ turns single seen, p.rest.length ≤ turns →
    (bindingsLoop form single turns seen p).2.atSequenceEnd = true
  clauses : ∀ turns count, p.rest.length ≤ turns → (clauses form turns count p).atSequenceEnd = true
  marks : ∀ turns, p.rest.length ≤ turns → marks.contains (skipMarks turns p).kind = false
  balanced : ∀ turns depth, (p.kind.isCloser = true → depth ≠ 0) → p.rest.length ≤ turns →
    ∃ taken, p.rest = taken ++ (skipBalanced turns depth p).rest ∧
      ((skipBalanced turns depth p).isAt .eof = true ∨
        taken ≠ [] ∧ (taken.map Token.kind).foldl depthAfter depth = 0)
  source : ∀ turns, p.frames = [] → p.rest.length ≤ turns → (topLevel turns p).isAt .eof = true

theorem loopsEnd (forms : StepsForms form) (ready : p.Ready) : LoopsEnd form p where
  sequence turns enough := (finishes_sequenceLoop forms turns ready enough).ended
  entries turns seen enough := (finishes_entriesLoop forms turns seen ready enough).ended
  parameters turns seen enough := (finishes_parametersLoop forms turns seen ready enough).ended
  arities turns enough := isAt_leftParen_groupedArities forms turns ready enough
  bindings turns single seen enough := (finishes_bindingsLoop forms single turns seen ready enough).ended
  clauses turns count enough := ended_clauses forms.toReadsForms turns count ready enough
  marks turns enough := not_mark_skipMarks turns ready enough
  balanced turns depth inside enough := balanced_skipBalanced turns depth ready inside enough
  source turns frames enough := by
    obtain ⟨reads, ending⟩ := reads_topLevel turns ready frames enough
    simp [isAt, (reads.ready ready).kind_eq_eof ending]

/-! ## One form -/

/-- The result takes tokens, and makes one node of them that is a form. Everything reported before is kept, and nothing
else changes. If the node does not count, it is the error of a closing delimiter. It is added to what was logged before
just if all starts have slots. -/
structure Contributes (text : Text) (p : Parser) (result : Option Completed × Parser) : Prop where
  fewer : result.2.rest.length < p.rest.length
  last : result.2.last = p.last
  frames : result.2.frames = p.frames
  slash : result.2.slashKind = p.slashKind
  reports : p.reports <+: result.2.reports
  node : ∃ taken kind children, p.rest = taken ++ result.2.rest ∧ Shape.form.accepts kind = true ∧
    (result.1 = none → kind = .error ∧
      ∃ t, t.kind.isCloser = true ∧ taken = [t] ∧ children = [.leaf (t.leaf text t.kind)]) ∧
    (Text.size text < sizeLimit →
      (AddsTree text p taken (.node kind children) result.2 ↔ p.fault = none ∧ result.2.Addressed))

/-- A form that does not count is a closing delimiter that closes nothing. -/
theorem Derives.eq_stray {last : Token} {frames : List Frame} {ds : List Draft} {rs : List Report}
    {after : List Token} (derives : Derives last (.form false) frames ds rs after) :
    ∃ t, t.kind.isCloser = true ∧ ds = [.node .error [Draft.token t.kind t]] := by
  cases derives with
  | stray isCloser => exact ⟨_, isCloser, rfl⟩

/-- A run that makes one node contributes the tree of that node. -/
theorem contributes_of_runs {result : Option Completed × Parser} {kind : Kind} {ds : List Draft}
    (stands : p.StandsIn text r) (runs : Runs p [.node kind ds] result.2)
    (fewer : result.2.rest.length < p.rest.length) (isForm : Shape.form.accepts kind = true)
    (stray : result.1 = none → kind = .error ∧
      ∃ t, t.kind.isCloser = true ∧ ds = [Draft.token t.kind t]) : Contributes text p result := by
  have rest := runs.rest
  rw [Draft.tokensAll_node] at rest
  have lies : ∀ t ∈ Draft.tokensAll ds, t.LiesIn text := by
    intro t member
    apply stands.liesIn
    rw [rest]
    exact List.mem_append_left _ member
  refine ⟨fewer, runs.last, runs.frames, runs.slash, runs.reports, Draft.tokensAll ds, kind, Draft.trees text ds,
    rest, isForm, fun none => ?_, runs.addsTree_iff lies⟩
  obtain ⟨isError, t, isCloser, rfl⟩ := stray none
  exact ⟨isError, t, isCloser, by simp, rfl⟩

theorem contributes_form (stands : p.StandsIn text r) (going : p.atSequenceEnd = false) (budget : Nat) :
    Contributes text p (Grammar.form budget p) := by
  have ready := stands.ready
  have forms := derivesForms_form budget
  have fewer := forms.rest_lt ready going
  cases counted : (Grammar.form budget p).1 with
  | none =>
    obtain ⟨d, rs, walks, -, derives, -⟩ := forms.derives p ready going
    rw [counted] at derives
    obtain ⟨t, isCloser, node⟩ := derives.eq_stray
    rw [node] at walks
    exact contributes_of_runs stands walks.toRuns fewer rfl fun _ => ⟨rfl, t, isCloser, rfl⟩
  | some c =>
    obtain ⟨ds, runs, shape⟩ := forms.reads p ready going
    -- What is reported does not matter for the kind of the node, so nothing is assumed about it.
    obtain ⟨-, d, rfl, kind, children, rfl, isForm⟩ := shape False False.elim
    exact contributes_of_runs stands runs fewer isForm fun none => by simp [counted] at none

/-- Every call of the rule for a form, from every state in the tokens of a text, makes progress. At the end of a
sequence it does nothing. Anywhere else it takes at least one token, keeps the open sequences and what was
reported before, and makes exactly one node, which is a form; none is returned only for the error of a closing
delimiter that closes nothing. The node is added to what was logged before just if all starts have slots. And none of
the loops it uses is stopped by the bound on its turns. -/
theorem form_progress (stands : p.StandsIn text r) (budget : Nat) :
    (p.atSequenceEnd = true → Grammar.form budget p = (none, p)) ∧
    (p.atSequenceEnd = false → (Grammar.form budget p).2.StandsIn text r ∧
      p.position < (Grammar.form budget p).2.position ∧ Contributes text p (Grammar.form budget p)) ∧
    LoopsEnd (Grammar.form budget) p := by
  have ready := stands.ready
  have forms := derivesForms_form budget
  refine ⟨forms.atEnd p, fun going => ?_, loopsEnd forms.toStepsForms ready⟩
  obtain ⟨d, rs, walks, -⟩ := forms.derives p ready going
  have fewer := forms.rest_lt ready going
  have total := walks.total
  exact ⟨stands.walks walks, by omega, contributes_form stands going budget⟩

/-- The state before a closing parenthesis, inside a vector. -/
def strayState (init : List Token) (last : Token) : Parser :=
  { startOf .empty init last with frames := [⟨.rightBracket, "vector"⟩] }

/-- The parenthesis is taken, as an error that does not count. -/
theorem form_progress_stray :
    ∃ init last, (strayState init last).StandsIn ") é]".toList .empty ∧
      (strayState init last).atSequenceEnd = false ∧
      (Grammar.form 3 (strayState init last)).1 = none ∧
      ((Grammar.form 3 (strayState init last)).2.StandsIn ") é]".toList .empty ∧
        Contributes ") é]".toList (strayState init last) (Grammar.form 3 (strayState init last))) ∧
      LoopsEnd (Grammar.form 3) (strayState init last) := by
  obtain ⟨init, last, tokens, -⟩ := Token.exists_init_tokensFrom .empty 0 ") é]".toList
  have stands : (strayState init last).StandsIn ") é]".toList .empty := ⟨[], tokens, rfl, rfl⟩
  have head : (Token.tokenize ") é]".toList .empty).1.head?.map Token.kind = some .rightParen := by
    decide +kernel
  have kindEq : (strayState init last).kind = .rightParen := by
    rw [show (Token.tokenize ") é]".toList .empty).1 = init ++ [last] from tokens] at head
    cases init with
    | nil => exact Option.some.inj head
    | cons t init => exact Option.some.inj head
  have going : (strayState init last).atSequenceEnd = false := by
    rw [atSequenceEnd, isAt, kindEq]
    rfl
  have uncounted : (Grammar.form 3 (strayState init last)).1 = none := by
    rw [form_of_going 2 going, formAt, kindEq]
  obtain ⟨-, progress, loops⟩ := form_progress stands 3
  exact ⟨init, last, stands, going, uncounted, ⟨(progress going).1, (progress going).2.2⟩, loops⟩

/-! ## A form without a slot -/

/-- Behind all slots no tree is added. -/
theorem not_addsTree_form (ready : p.Ready) (going : p.atSequenceEnd = false) (budget : Nat)
    (full : sizeLimit ≤ p.events.size) (taken : List Token) (t : Tree) :
    ¬ AddsTree text p taken t (Grammar.form budget p).2 := by
  intro added
  obtain ⟨ds, runs, shape⟩ := (derivesForms_form budget).reads p ready going
  obtain ⟨-, d, rfl, kind, children, rfl, -⟩ := shape False False.elim
  have below := runs.size_lt_of_addressed (runs.addressed_of_addsTree added).2
  exact Nat.not_le_of_lt below full

theorem standsIn_form (stands : p.StandsIn text r) (budget : Nat) : (Grammar.form budget p).2.StandsIn text r := by
  have forms := derivesForms_form budget
  cases going : p.atSequenceEnd with
  | true =>
    rw [forms.atEnd p going]
    exact stands
  | false =>
    obtain ⟨d, rs, walks, -⟩ := forms.derives p stands.ready going
    exact stands.walks walks

end Grammar

namespace Writing

open LispSyntax.Parser Grammar

variable {text : Text} {r : Registry} {p : Parser}

theorem standsIn_afterForms (stands : p.StandsIn text r) (n : Nat) : (afterForms n p).StandsIn text r := by
  induction n generalizing p with
  | zero => exact stands
  | succ n ih => exact ih (standsIn_form stands maxDepth)

theorem itemsAll_divisions_concat (n : Nat) :
    Form.itemsAll (divisions (n + 1)) = Form.itemsAll (divisions n) ++ [.one .slash] := by
  induction n with
  | zero => rfl
  | succ n ih =>
    rw [itemsAll_divisions_succ] at ih
    rw [itemsAll_divisions_succ, itemsAll_divisions_succ, List.cons_append, ← ih]

/-- The parser before the last of the division signs, with the log that it has then. -/
theorem exists_before_division (r : Registry) {n : Nat} (few : 3 * n + 1 ≤ sizeLimit) :
    ∃ start, Parser.ofTokens (Token.tokenize (writeOut (divisions (n + 1))) r).1 (Scan.symbolKind r ['/']) = .ok start ∧
      (afterForms n start.begun).StandsIn (writeOut (divisions (n + 1))) r ∧
      (afterForms n start.begun).atSequenceEnd = false ∧ (afterForms n start.begun).fault = none ∧
      (afterForms n start.begun).events.size = 3 * n + 1 := by
  obtain ⟨ts, last, tokens, spelled, lastEnd, -⟩ := exists_spelled r 0 (Form.itemsAll (divisions (n + 1)))
  change Token.tokenize (writeOut (divisions (n + 1))) r = (ts ++ [last], []) at tokens
  have ahead : Ahead r (Form.itemsAll (divisions (n + 1))) (startOf r ts last).begun := ⟨spelled, lastEnd, rfl⟩
  rw [itemsAll_divisions_concat] at ahead
  have yields := yields_afterForms (divisions n) (shallow_divisions n) ahead
  rw [divisions, List.length_replicate, ← divisions] at yields
  obtain ⟨lastAhead, ds, runs, -, sketches⟩ := yields
  have entries : Outline.entries ds = 3 * n := by
    rw [← Draft.entries_sketch, sketches, entries_divisions]
  have begun : (startOf r ts last).begun.events.size = 1 := rfl
  have addressed : (afterForms n (startOf r ts last).begun).Addressed := by
    refine Parser.addressed_of_size_le (Nat.le_trans runs.grows.size ?_)
    rw [entries, begun]
    omega
  refine ⟨startOf r ts last, ?_, standsIn_afterForms ⟨[], by rw [tokens]; rfl, rfl, rfl⟩ n, ?_, ?_, ?_⟩
  · simp [Parser.ofTokens, tokens, lastEnd, startOf]
  · exact lastAhead.going (Form.starts (.other .division) [])
  · exact (runs.appends addressed).1
  · rw [runs.size_eq addressed, entries, begun, Nat.add_comm]

/-- Where the log is as long as there are slots, the rule for a form does not add the tree of the division sign, nor
any other. -/
theorem form_division_not_addsTree :
    Text.size (writeOut (divisions 1431655766)) < sizeLimit ∧
    ∃ start p,
      Parser.ofTokens (Token.tokenize (writeOut (divisions 1431655766)) .empty).1 (Scan.symbolKind .empty ['/']) =
        .ok start ∧
      p = afterForms 1431655765 start.begun ∧
      p.StandsIn (writeOut (divisions 1431655766)) .empty ∧ p.atSequenceEnd = false ∧ p.fault = none ∧
      p.events.size = sizeLimit ∧
      ∀ taken t, ¬ AddsTree (writeOut (divisions 1431655766)) p taken t (Grammar.form maxDepth p).2 := by
  obtain ⟨start, started, stands, going, noFault, size⟩ :=
    exists_before_division .empty (show 3 * 1431655765 + 1 ≤ sizeLimit by decide)
  have full : 3 * 1431655765 + 1 = sizeLimit := by decide
  refine ⟨?_, start, _, started, rfl, stands, going, noFault, size.trans full, fun taken t => ?_⟩
  · rw [size_writeOut_divisions]
    decide
  · exact not_addsTree_form stands.ready going maxDepth (Nat.le_of_eq (size.trans full).symm) taken t

end Writing

end LispSyntax
