import LispSyntax.Proofs.Concatenation
import LispSyntax.Proofs.Lexical.Copied
import LispSyntax.Proofs.Nesting.Form
import LispSyntax.Proofs.Typed.Parts

/-! # Texts of one form

`OneForm` says that a text is one form, read to a draft without a report. It goes both ways: a result without
diagnostics that has one form comes from such a draft (`exists_oneForm`), and such a draft is parsed to such a result
(`OneForm.exists_parse`).

Where the tokens of such a text stand in a larger one, the rule for a form reads them in the same way, with a level less
of nesting allowed (`OneForm.exists_copy`). Three differences come one after the other: the budget, the places of the
tokens, and what stands around them.
-/

namespace LispSyntax

open LispSyntax.Parser Grammar

structure OneForm (r : Registry) (text : Text) (init : List Token) (last : Token) (d : Draft) : Prop where
  tokens : Token.tokenize text r = (init ++ [last], [])
  going : init ≠ []
  runs : Runs (startOf r init last).begun [d] (Grammar.form maxDepth (startOf r init last).begun).2
  quiet : (Grammar.form maxDepth (startOf r init last).begun).2.reports = []
  rest : (Grammar.form maxDepth (startOf r init last).begun).2.rest = []
  isForm : d.IsForm

variable {r : Registry} {text : Text} {init : List Token} {last : Token} {d : Draft}

/-! ## Results -/

def leafKind? : Sketch → Option Kind
  | .leaf value => some value.1
  | .node .. => none

@[simp] theorem leafKind?_leaf (value : Kind × Text) : leafKind? (.leaf value) = some value.1 := rfl

@[simp] theorem leafKind?_node (kind : Kind) (os : List Sketch) : leafKind? (.node kind os) = none := rfl

namespace View

variable {v : View}

/-- Child nodes that look like forms are the forms among the children. -/
theorem nodes_eq_forms (forms : ∀ o ∈ v.sketches, o.IsForm) : v.nodes = v.forms.map Form.view := by
  have each : ∀ w : View, w.tree.sketch.IsForm → ∃ f : Form, w = f.view := by
    rintro w ⟨kind, os, sketch, accepted⟩
    obtain ⟨isNode, kindEq, -⟩ := Views.node_of_sketch sketch
    exact Form.exists_of_accepts isNode (by rw [kindEq]; exact accepted)
  have follow : Views.Follow (.many Outline.IsForm) v.nodes := forms
  obtain ⟨fs, nodes⟩ := follow.many Form.view each
  rw [View.forms, nodes, Form.filterMap_cast?_map]

/-- The tokens among the children, by their kinds. -/
theorem kinds_tokens {kind : Kind} {os : List Sketch} (sketch : v.tree.sketch = .node kind os) :
    v.tokens.map LeafView.kind = os.filterMap leafKind? := by
  obtain ⟨-, -, rfl⟩ := Views.node_of_sketch sketch
  rw [View.tokens, List.map_filterMap, List.filterMap_map]
  congr 1
  funext w
  obtain ⟨tree, offset⟩ := w
  cases tree <;> rfl

/-- One child node that looks like a form is the one form among the children. -/
theorem exists_form_of_sketches {o : Sketch} (sketches : v.sketches = [o]) (isForm : o.IsForm) :
    ∃ f, v.forms = [f] ∧ f.view.tree.sketch = o := by
  have nodes : v.nodes = v.forms.map Form.view := by
    apply nodes_eq_forms
    rw [sketches]
    simpa using isForm
  rw [View.sketches, nodes, List.map_map] at sketches
  obtain ⟨f, forms, sketch⟩ := List.map_eq_singleton_iff.mp sketches
  exact ⟨f, forms, sketch⟩

end View

theorem Draft.isForm_sketch (isForm : d.IsForm) : d.sketch.IsForm := by
  obtain ⟨kind, ds, rfl, accepted⟩ := isForm
  exact ⟨kind, _, Draft.sketch_node kind ds, accepted⟩

/-- The nodes of the result are the forms that the loop over the text makes. -/
theorem Drafted.sketches_eq {result : Parse} {start : Parser} {ds : List Draft}
    (drafted : Drafted text r start (.node .source (ds ++ [Draft.token .eof last])))
    (parsed : parse text r = .ok result) (forms : ∀ d ∈ ds, d.IsForm) :
    result.root.sketches = ds.map Draft.sketch := by
  have sketch := Draft.sketch_tree _ drafted.lies
  have nodes : (ds.map Draft.sketch).filter Outline.isNode = ds.map Draft.sketch := by
    rw [List.filter_eq_self, List.forall_mem_map]
    intro d member
    obtain ⟨kind, os, sketch, -⟩ := Draft.isForm_sketch (forms d member)
    rw [sketch]
    rfl
  rw [Draft.sketch_node] at sketch
  rw [drafted.eq_of_parse_eq_ok parsed, Parse.root, View.sketches_of_node sketch, List.map_append,
    List.filter_append, nodes]
  simp [Outline.isNode]

/-- What the loop over a text makes are the forms of the result. -/
theorem exists_single_of_runs {result : Parse} {f : Form} (parsed : parse text r = .ok result)
    (one : result.root.forms = [f]) (tokens : (Token.tokenize text r).1 = init ++ [last]) {ds : List Draft}
    (runs : Runs (startOf r init last).begun ds (topLevel init.length (startOf r init last).begun))
    (all : ∀ d ∈ ds, d.IsForm) : ∃ d, ds = [d] ∧ d.sketch = f.view.tree.sketch := by
  have ready := ready_startOf tokens
  have sketches := (drafted_of_runs tokens ready runs (rest_topLevel ready rfl)).sketches_eq parsed all
  have nodes : result.root.nodes = [f].map Form.view := by
    rw [← one]
    apply View.nodes_eq_forms
    rw [sketches, List.forall_mem_map]
    exact fun d member => Draft.isForm_sketch (all d member)
  rw [View.sketches, nodes, List.map_map, List.map_singleton] at sketches
  obtain ⟨d, rfl, same⟩ := List.map_eq_singleton_iff.mp sketches.symm
  exact ⟨d, rfl, same⟩

/-- A result without diagnostics that has one form. -/
theorem exists_oneForm {result : Parse} {f : Form} (parsed : parse text r = .ok result) (ok : result.isOk = true)
    (one : result.root.forms = [f]) : ∃ init last d, OneForm r text init last d ∧ d.sketch = f.view.tree.sketch := by
  obtain ⟨start, d₀, drafted₀, -⟩ := exists_drafted text r
  have silent : Drafted.diagnostics text r start = [] := by
    rw [drafted₀.eq_of_parse_eq_ok parsed] at ok
    exact List.isEmpty_iff.mp ok
  obtain ⟨clean, structural⟩ := List.append_eq_nil_iff.mp (Diagnostic.sortByStart_eq_nil silent)
  obtain ⟨init, last, tokens, -⟩ := Token.exists_init_tokensFrom r 0 text
  have tokens : (Token.tokenize text r).1 = init ++ [last] := tokens
  have ready := ready_startOf tokens
  have quiet : (topLevel init.length (startOf r init last).begun).reports = [] := by
    rw [drafted₀.start_eq tokens] at structural
    exact (reports_source _).symm.trans (List.map_eq_nil_iff.mp structural)
  cases init with
  | nil =>
    obtain ⟨d, none, -⟩ := exists_single_of_runs parsed one tokens (Runs.refl _) (by simp)
    contradiction
  | cons t ts =>
    let p := (startOf r (t :: ts) last).begun
    have notEnd : p.isAt .eof = false := by
      rw [isAt, kind_of_rest (p := p) rfl]
      simpa using ready.rest_ne_eof t (by simp [startOf])
    have going : p.atSequenceEnd = false := Setting.going_of_no_frames rfl notEnd
    have first := (readsForms_form maxDepth).reads p ready.begun going
    have shorter := rest_lt_of_reads first
    have unfolded : topLevel (t :: ts).length p = topLevel ts.length (Grammar.form maxDepth p).2 := by
      rw [List.length_cons, topLevel, notEnd]
      rfl
    obtain ⟨ds, runs, shape⟩ := first
    obtain ⟨⟨es, others, shape'⟩, ending⟩ := reads_topLevel ts.length (runs.ready ready.begun) (runs.frames.trans rfl)
      (Nat.le_of_lt_succ shorter)
    have whole := runs.trans others
    have silent : Quiet p (topLevel ts.length (Grammar.form maxDepth p).2) := by
      rw [Quiet, ← unfolded, quiet]
      rfl
    obtain ⟨-, d, rfl, isForm⟩ := shape True fun _ => runs.quiet_left others silent
    obtain ⟨-, forms⟩ := shape' True fun _ => runs.quiet_right others silent
    rw [← unfolded] at whole
    -- The turns after the first make nothing.
    obtain ⟨e, single, sketch⟩ :=
      exists_single_of_runs parsed one tokens whole (List.forall_mem_cons.mpr ⟨isForm, forms⟩)
    obtain ⟨rfl, rfl⟩ := List.cons.inj single
    refine ⟨_, last, d, ⟨Prod.ext tokens clean, List.cons_ne_nil t ts, runs, ?_, ?_, isForm⟩, sketch⟩
    · exact (runs.quiet_left others silent).trans rfl
    · rw [others.rest, ending]
      rfl

namespace OneForm

variable {after init' : List Token} {n : Nat} {p : Parser}

theorem ready (one : OneForm r text init last d) : (startOf r init last).begun.Ready :=
  (ready_startOf (congrArg Prod.fst one.tokens)).begun

theorem tokens_eq (one : OneForm r text init last d) : init = d.tokens := by
  have rest := one.runs.rest
  rw [one.rest, List.append_nil, Draft.tokensAll_cons, Draft.tokensAll_nil, List.append_nil] at rest
  exact rest

theorem notEnd (one : OneForm r text init last d) : (startOf r init last).begun.isAt .eof = false := by
  obtain ⟨t, ts, rfl⟩ := List.exists_cons_of_ne_nil one.going
  rw [isAt, kind_of_rest (p := (startOf r (t :: ts) last).begun) rfl]
  simpa using one.ready.rest_ne_eof t (by simp [startOf, begun, start])

theorem atSequenceEnd_eq (one : OneForm r text init last d) :
    (startOf r init last).begun.atSequenceEnd = false :=
  Setting.going_of_no_frames rfl one.notEnd

/-- The loop over the text has one turn. -/
theorem topLevel_eq (one : OneForm r text init last d) :
    topLevel init.length (startOf r init last).begun = (Grammar.form maxDepth (startOf r init last).begun).2 := by
  have notEnd := one.notEnd
  obtain ⟨t, ts, rfl⟩ := List.exists_cons_of_ne_nil one.going
  have atEnd : (Grammar.form maxDepth (startOf r (t :: ts) last).begun).2.isAt .eof = true := by
    rw [isAt, (one.runs.ready one.ready).kind_eq_eof one.rest]
    rfl
  rw [List.length_cons, topLevel, notEnd]
  exact Setting.topLevel_of_end ts.length atEnd

theorem drafted (one : OneForm r text init last d) :
    Drafted text r (startOf r init last) (.node .source ([d] ++ [Draft.token .eof last])) := by
  have tokens := congrArg Prod.fst one.tokens
  have ready := ready_startOf tokens
  have runs : Runs (startOf r init last).begun [d] (topLevel init.length (startOf r init last).begun) := by
    rw [one.topLevel_eq]
    exact one.runs
  exact drafted_of_runs tokens ready runs (rest_topLevel ready rfl)

theorem logFits_iff (one : OneForm r text init last d) :
    LogFits text r ↔ (Grammar.form maxDepth (startOf r init last).begun).2.Addressed := by
  rw [one.drafted.logFits_iff, addressed_source_iff, ← one.topLevel_eq]
  rfl

/-- The text is parsed to its form. -/
theorem exists_parse (one : OneForm r text init last d) (small : Text.size text < sizeLimit)
    (fits : LogFits text r) :
    ∃ result, parse text r = .ok result ∧ result.isOk = true ∧ result.root.sketches = [d.sketch] := by
  obtain ⟨result, parsed⟩ := LispSyntax.exists_parse small fits
  have silent : (source (startOf r init last)).reports = [] := by
    rw [reports_source]
    exact (congrArg Parser.reports one.topLevel_eq).trans one.quiet
  refine ⟨result, parsed, ?_, one.drafted.sketches_eq parsed (by simpa using one.isForm)⟩
  rw [one.drafted.eq_of_parse_eq_ok parsed, Parse.isOk, Drafted.diagnostics, one.tokens, silent]
  rfl

/-- Drafts that the rule makes of the text are the draft. -/
theorem unique (one : OneForm r text init last d) (fits : LogFits text r) {ds : List Draft}
    (runs : Runs (startOf r init last).begun ds (Grammar.form maxDepth (startOf r init last).begun).2) : ds = [d] :=
  runs.unique one.runs (one.logFits_iff.mp fits)

/-- A form that nests less deeply than allowed is read in the same way with a level less. -/
theorem form_pred (one : OneForm r text init last d) (fits : LogFits text r)
    (levels : d.levels < maxDepth) :
    Grammar.form 127 (startOf r init last).begun = Grammar.form maxDepth (startOf r init last).begun := by
  refine (sameUpTo_form 127).same _ one.ready one.atSequenceEnd_eq ⟨one.quiet, fun ds runs => ?_⟩
  rw [one.unique fits runs]
  simpa using Nat.le_of_lt_succ levels

/-- Where its tokens stand elsewhere, as a source of their own, the form is read in the same way. -/
theorem exists_moved (one : OneForm r text init last d) (fits : LogFits text r)
    (levels : d.levels < maxDepth) (copied : Token.Copied n init p.rest) (atEnd : p.last = last.shift n)
    (frames : p.frames = []) (silent : p.reports = []) (slash : p.slashKind = Scan.symbolKind r ['/']) :
    p.Ready ∧ p.atSequenceEnd = false ∧ ∃ e, Runs p [e] (Grammar.form 127 p).2 ∧ e.sketch = d.sketch ∧
      (Grammar.form 127 p).2.rest = [] ∧ (Grammar.form 127 p).2.reports = [] := by
  have alike : Alike (Likeness.moved n) (startOf r init last).begun p :=
    alike_start (ready_startOf (congrArg Prod.fst one.tokens)) copied.related (atEnd ▸ ⟨rfl, rfl, rfl⟩)
      copied.touching frames slash
  have same := one.form_pred fits levels
  have twin := ((twinForms_form (Likeness.moved n) 127).twin _ _ alike one.atSequenceEnd_eq).1
  obtain ⟨ds, es, walks, walks', looks⟩ := twin.walks
  have lengths := Draft.length_tokensAll looks
  have first := walks.toRuns
  rw [same] at first
  obtain rfl := one.unique fits first
  rw [List.map_singleton] at looks
  obtain ⟨e, rfl, sketch⟩ := List.map_eq_singleton_iff.mp looks.symm
  -- Both drafts have as many tokens, so nothing is left of the copy either.
  have ending : (Grammar.form 127 p).2.rest = [] := by
    have whole := congrArg List.length walks'.rest
    rw [Draft.tokensAll_cons, Draft.tokensAll_nil, List.append_nil, ← one.tokens_eq] at lengths
    rw [List.length_append, ← lengths, copied.related.length_eq] at whole
    exact List.length_eq_zero_iff.mp (by omega)
  refine ⟨alike.ready', by rw [alike.atSequenceEnd, one.atSequenceEnd_eq], e, walks'.toRuns, sketch, ending, ?_⟩
  exact (twin.quiet_iff rfl silent).mp (by rw [same]; exact one.quiet)

/-- A source of one form without a report closes all it opens. -/
theorem closes_of_quiet {budget : Nat} (ready : p.Ready) (going : p.atSequenceEnd = false) (silent : p.reports = [])
    (quiet : (Grammar.form budget p).2.reports = []) (ending : (Grammar.form budget p).2.rest = []) :
    Token.Closes [] p.rest := by
  obtain ⟨es, runs, shape⟩ := (readsForms_form budget).reads _ ready going
  obtain ⟨flawless, form⟩ := shape True fun _ => quiet.trans silent.symm
  have rest := runs.rest
  rw [ending, List.append_nil] at rest
  rw [rest]
  exact Draft.closes_of_forms (Pattern.many_of_single form) flawless

/-- Where its tokens stand in a larger text, the form is read in the same way, inside another. -/
theorem exists_copy (one : OneForm r text init last d) (fits : LogFits text r)
    (levels : d.levels < maxDepth) (copied : Token.Copied n init init') (ready : p.Ready)
    (rest : p.rest = init' ++ after) (apart : ∀ t ts, after = t :: ts → t.leading ≠ []) (silent : p.reports = [])
    (slash : p.slashKind = Scan.symbolKind r ['/']) :
    ∃ e, Runs p [e] (Grammar.form 127 p).2 ∧ (Grammar.form 127 p).2.rest = after ∧
      (Grammar.form 127 p).2.reports = [] ∧ e.sketch = d.sketch ∧ p.atSequenceEnd = false := by
  -- The tokens as a source of their own, which starts where the larger text has come to.
  let x : Parser := { p with rest := init', frames := [] }
  let alone : Setting := ⟨[], last.shift n, []⟩
  let inside : Setting := ⟨after, p.last, p.frames⟩
  have here : inside.around x = p := by
    simp only [inside, x, Setting.around, List.nil_append, ← rest]
  have aloneRest : (alone.around x).rest = init' := List.append_nil init'
  obtain ⟨aloneReady, going, e, runs, sketch, ending, quiet⟩ :=
    one.exists_moved fits levels (p := alone.around x) (aloneRest.symm ▸ copied) rfl rfl silent slash
  -- They close all they open, so what stands around them cannot be seen from inside.
  have closes := closes_of_quiet aloneReady going silent quiet ending
  rw [aloneRest] at closes
  have fits : alone.Fits x := ⟨aloneReady, closes⟩
  obtain ⟨t, ts, first⟩ : ∃ t ts, x.rest = t :: ts := by
    apply List.exists_cons_of_length_pos
    rw [← copied.related.length_eq]
    exact List.length_pos_iff.mpr one.going
  have noCloser := fits.noCloser rfl first
  have apart' : inside.Apart := ⟨ready.last_eof, apart⟩
  have holds : alone.Holds (Grammar.form 127 (alone.around x)).2 := ⟨quiet, Nat.zero_le _⟩
  obtain ⟨v, y, left, right, fits', frames⟩ :=
    (Setting.carriesForms_form apart' 127 127 (Nat.le_refl _)).carries x t ts fits first noCloser holds
  rw [left] at runs ending quiet
  have runs := Setting.runs_around (b := inside) runs
  have none : y.rest = [] := by simpa [alone, Setting.around] using ending
  rw [here] at right runs
  rw [right]
  refine ⟨e, runs, ?_, quiet, sketch, ?_⟩
  · simp [inside, Setting.around, none]
  · rw [← here, fits.atSequenceEnd_eq first, noCloser]

end OneForm

end LispSyntax
