import LispSyntax.Proofs.Balance
import LispSyntax.Proofs.Completeness
import LispSyntax.Proofs.Lexical.Seam
import LispSyntax.Proofs.Soundness

/-! # Sources one after the other

A source without diagnostics can be put before any other, on lines of its own: the result has the forms of the first and
then those of the second, and the diagnostics of the second at their new places, just when the log of both fits
(`sources_concatenate_iff`). Two sources whose own logs fit need not have one together.

Three sources are compared. The tokens of the first are found again before the line feed, up to trivia, so they are
read alike. Nothing is wrong with them, so they close all they open and are read alike where others follow. There the
loop over the source is where it is at the start of the second, but for what it has taken, which nobody asks for behind
a line feed.
-/

namespace LispSyntax

open LispSyntax.Parser Grammar

/-! ## Parts -/

theorem Drafted.start_eq {text : Text} {r : Registry} {start : Parser} {d : Draft} {init : List Token} {last : Token}
    (drafted : Drafted text r start d) (tokens : (Token.tokenize text r).1 = init ++ [last]) :
    start = startOf r init last := by
  have isEnd : last.kind = .eof := (ready_startOf tokens).last_eof
  have started := drafted.started
  rw [tokens] at started
  simpa [Parser.ofTokens, isEnd, startOf] using started.symm

/-- A source that is read without a report closes all it opens. -/
theorem closes_of_quiet {r : Registry} {init : List Token} {last : Token} (ready : (startOf r init last).Ready)
    (quiet : (source (startOf r init last)).reports = []) : Token.Closes [] init := by
  obtain ⟨⟨ds, runs, shape⟩, ending⟩ :=
    reads_topLevel (startOf r init last).begun.rest.length ready.begun rfl (Nat.le_refl _)
  obtain ⟨flawless, forms⟩ := shape True fun _ => by
    rw [Quiet, ← reports_source, quiet]
    rfl
  have rest := runs.rest
  rw [ending, List.append_nil] at rest
  have all : init = Draft.tokensAll ds := rest
  rw [all]
  exact Draft.closes_of_forms forms flawless

/-- The reports of a moved source are those of the first, moved. -/
theorem diagnostics_of_moved {n : Nat} {before after : List Report}
    (related : List.Forall₂ (Likeness.moved n).reports before after) :
    after.map Report.diagnostic = (before.map Report.diagnostic).map (Diagnostic.shift n) := by
  induction related with
  | nil => rfl
  | @cons a b _ _ head _ inductionHypothesis =>
    obtain ⟨problem, span, context⟩ := head
    have spanEq : b.span = a.span.shift n := span
    simp only [List.map_cons, inductionHypothesis, Report.diagnostic, Diagnostic.shift, ← problem, ← context, spanEq]

theorem Diagnostic.sortByStart_shift (n : Nat) (ds : List Diagnostic) :
    sortByStart (ds.map (shift n)) = (sortByStart ds).map (shift n) := by
  have related : List.Forall₂ (fun d e => shift n d = e) ds (ds.map (shift n)) := by
    rw [List.forall₂_map_right_iff, List.forall₂_same]
    exact fun _ _ => rfl
  have sorted := forall₂_sortByStart (R := fun d e => shift n d = e) (by
    rintro d _ d' _ rfl rfl
    exact (Nat.add_le_add_iff_left).symm) related
  rw [← List.forall₂_map_left_iff, List.forall₂_eq_eq_eq] at sorted
  exact sorted.symm

/-! ## Child nodes -/

/-- The children of a view that are nodes, without trivia and places. -/
def View.sketches (v : View) : List Sketch :=
  v.nodes.map fun child => child.tree.sketch

theorem View.sketches_placeAll (cs : List Tree) (offset : Nat) :
    ((placeAll offset cs).filter isNode).map (fun child => child.tree.sketch) =
      (Forest.sketch cs).filter Outline.isNode := by
  induction cs generalizing offset with
  | nil => rfl
  | cons c cs inductionHypothesis =>
    cases c with
    | node kind children =>
      rw [placeAll, List.filter_cons_of_pos rfl, List.map_cons, inductionHypothesis, Forest.sketch, Tree.sketch,
        List.filter_cons_of_pos rfl]
    | leaf l =>
      rw [placeAll, List.filter_cons_of_neg Bool.false_ne_true, inductionHypothesis, Forest.sketch, Tree.sketch,
        List.filter_cons_of_neg Bool.false_ne_true]

theorem View.sketches_of_node {v : View} {kind : Kind} {os : List Sketch} (sketch : v.tree.sketch = .node kind os) :
    v.sketches = os.filter Outline.isNode := by
  rcases v with ⟨⟨kind', cs⟩ | l, offset⟩
  · obtain ⟨-, rfl⟩ := Outline.node.inj sketch
    exact View.sketches_placeAll cs offset
  · contradiction

/-! ## Drafts -/

section

variable {r : Registry} {a b : Text} {n : Nat} {init initB init' initB' : List Token} {last lastB lastB' : Token}

/-- A source that is read without a report is read in the same way where tokens follow that do not touch it, and then
the loop goes on with these. -/
theorem exists_runs_before {ds : List Draft} (ready : (startOf r init last).Ready)
    (ready' : (startOf r (init ++ initB) lastB).Ready) (apart : ∀ t ts, initB = t :: ts → t.leading ≠ [])
    (runs : Runs (startOf r init last).begun ds (topLevel init.length (startOf r init last).begun))
    (quiet : (topLevel init.length (startOf r init last).begun).reports = []) :
    ∃ q, Runs (startOf r (init ++ initB) lastB).begun ds q ∧ q.rest = initB ∧ q.frames = [] ∧ q.reports = [] ∧
      topLevel (init ++ initB).length (startOf r (init ++ initB) lastB).begun = topLevel initB.length q := by
  let x := (startOf r init last).begun
  let before : Setting := ⟨[], last, []⟩
  let behind : Setting := ⟨initB, lastB, []⟩
  have here : before.around x = x := by simp [before, x, Setting.around, startOf, begun, start]
  have whole : behind.around x = (startOf r (init ++ initB) lastB).begun := rfl
  have closes : Token.Closes [] init := closes_of_quiet ready (by rw [reports_source]; exact quiet)
  have fits : before.Fits x := ⟨by rw [here]; exact ready.begun, closes⟩
  have apart' : behind.Apart := ⟨ready'.last_eof, apart⟩
  obtain ⟨y, ends, none, noFrame, goes⟩ := Setting.exists_topLevel_around rfl rfl rfl apart' fits ready'.begun rfl
    (Nat.le_refl _) (by rw [here]; exact quiet)
  have left : (behind.around y).rest = initB := by simp [Setting.around, none, behind]
  rw [here] at ends
  refine ⟨behind.around y, ?_, left, ?_, ?_, ?_⟩
  · rw [← whole]
    apply Setting.runs_around (a := before)
    rw [← ends, here]
    exact runs
  · simp [Setting.around, noFrame, behind]
  · exact (congrArg Parser.reports ends).symm.trans quiet
  · have through := goes (init ++ initB).length (Nat.le_refl _)
    rw [left] at through
    exact through

/-- The three sources are read to drafts that fit together. -/
theorem exists_drafted_of_lines (tokens : (Token.tokenize a r).1 = init ++ [last])
    (tokensB : (Token.tokenize b r).1 = initB ++ [lastB])
    (tokens' : (Token.tokenize (a ++ '\n' :: b) r).1 = init' ++ initB' ++ [lastB'])
    (lines : Token.Lines n init initB lastB init' initB' lastB')
    (quiet : (source (startOf r init last)).reports = []) :
    ∃ ds ds' es es', Drafted a r (startOf r init last) (.node .source (ds ++ [Draft.token .eof last])) ∧
      Drafted b r (startOf r initB lastB) (.node .source (es ++ [Draft.token .eof lastB])) ∧
      Drafted (a ++ '\n' :: b) r (startOf r (init' ++ initB') lastB')
        (.node .source (ds' ++ es' ++ [Draft.token .eof lastB'])) ∧
      ds.map Draft.sketch = ds'.map Draft.sketch ∧ es.map Draft.sketch = es'.map Draft.sketch ∧
      List.Forall₂ (Likeness.moved n).reports (source (startOf r initB lastB)).reports
        (source (startOf r (init' ++ initB') lastB')).reports ∧
      (LogFits (a ++ '\n' :: b) r → LogFits b r) := by
  have ready := ready_startOf tokens
  have readyB := ready_startOf tokensB
  have ready' := ready_startOf tokens'
  -- The tokens before the line feed, as a source of their own, are read as the first source.
  have alike : Alike (Likeness.moved 0) (startOf r init last).begun (startOf r init' last).begun := by
    refine alike_start ready lines.before ⟨rfl, rfl, ?_⟩ lines.touching rfl rfl
    simp [Span.shift, startOf, begun, start]
  have twin := twin_topLevel init.length alike
  obtain ⟨ds, ds', walks, walks', same⟩ := twin.walks
  rw [reports_source] at quiet
  have silent := (twin.quiet_iff rfl rfl).mp quiet
  rw [lines.before.length_eq] at silent walks'
  have ready₀ : (startOf r init' last).Ready := ⟨alike.ready'.last_eof, alike.ready'.rest_ne_eof⟩
  obtain ⟨q, first, left, noFrame, silent', goes⟩ :=
    exists_runs_before ready₀ ready' lines.apart walks'.toRuns silent
  -- What is left is read as the second source.
  have alikeB : Alike (Likeness.moved n) (startOf r initB lastB).begun q := by
    refine alike_start readyB (left ▸ lines.behind) ?_ (left ▸ lines.touchingBehind) noFrame first.slash
    rw [first.last]
    exact lines.ends
  obtain ⟨⟨es, es', walksB, walksB', sameB⟩, ⟨newB, newB', reportedB, reportedB', relatedB⟩, addressed⟩ :=
    twin_topLevel initB.length alikeB
  rw [← lines.behind.length_eq] at goes
  rw [← goes] at walksB' reportedB' addressed
  have draftedB := drafted_of_runs tokensB readyB walksB.toRuns (rest_topLevel readyB rfl)
  have drafted' := drafted_of_runs tokens' ready' (first.trans walksB'.toRuns) (rest_topLevel ready' rfl)
  have behind : LogFits (a ++ '\n' :: b) r → LogFits b r := by
    intro fits
    rw [drafted'.logFits_iff, addressed_source_iff] at fits
    rw [draftedB.logFits_iff, addressed_source_iff]
    -- The second source starts further up when it is alone.
    refine addressed first.grows.size_ge (addressed_of_size_le ?_) fits
    exact show 1 ≤ sizeLimit by decide
  have reportsB : (source (startOf r initB lastB)).reports = newB := by
    rw [reports_source]
    exact reportedB
  have reports' : (source (startOf r (init' ++ initB') lastB')).reports = newB' := by
    rw [reports_source]
    rw [silent'] at reportedB'
    exact reportedB'
  refine ⟨ds, ds', es, es', drafted_of_runs tokens ready walks.toRuns (rest_topLevel ready rfl), draftedB, drafted',
    same, sameB, ?_, behind⟩
  rw [reportsB, reports']
  exact relatedB

end

/-! ## Parsing -/

/-- A source without diagnostics, another one, and both put together are read to drafts that fit together. -/
theorem exists_drafted_of_isOk {a : Text} {r : Registry} {first : Parse} (parsed : parse a r = .ok first)
    (ok : first.isOk = true) (b : Text) :
    ∃ ds ds' es es' end₁ end₂ end₃ start startB start',
      Drafted a r start (.node .source (ds ++ [Draft.token .eof end₁])) ∧
      Drafted b r startB (.node .source (es ++ [Draft.token .eof end₂])) ∧
      Drafted (a ++ '\n' :: b) r start' (.node .source (ds' ++ es' ++ [Draft.token .eof end₃])) ∧
      ds.map Draft.sketch = ds'.map Draft.sketch ∧ es.map Draft.sketch = es'.map Draft.sketch ∧
      Drafted.diagnostics (a ++ '\n' :: b) r start' =
        (Drafted.diagnostics b r startB).map (Diagnostic.shift (Text.size a + 1)) ∧
      (LogFits (a ++ '\n' :: b) r → LogFits b r) := by
  obtain ⟨start, d, drafted, -⟩ := exists_drafted a r
  have silent : Drafted.diagnostics a r start = [] := by
    rw [drafted.eq_of_parse_eq_ok parsed] at ok
    exact List.isEmpty_iff.mp ok
  obtain ⟨clean, structural⟩ := List.append_eq_nil_iff.mp (Diagnostic.sortByStart_eq_nil silent)
  obtain ⟨init, last, initB, lastB, init', initB', lastB', tokens, tokensB, tokens', lines⟩ :=
    Token.exists_tokens_of_lines clean b
  have quiet : (source (startOf r init last)).reports = [] := by
    rw [← drafted.start_eq tokens]
    exact List.map_eq_nil_iff.mp structural
  obtain ⟨ds, ds', es, es', draftedA, draftedB, drafted', same, sameB, reports, behind⟩ :=
    exists_drafted_of_lines tokens tokensB tokens' lines quiet
  refine ⟨ds, ds', es, es', last, lastB, lastB', _, _, _, draftedA, draftedB, drafted', same, sameB, ?_, behind⟩
  simp only [Drafted.diagnostics]
  rw [Token.lexical_of_lines clean tokens tokensB tokens' lines, diagnostics_of_moved reports, ← List.map_append,
    Diagnostic.sortByStart_shift]

/-- A source without diagnostics, put before any other with a line feed between them: if the log of both fits then the
child nodes are those of the one and then those of the other, up to trivia and places, and the diagnostics are those of
the other, moved; and otherwise there is no result. -/
theorem sources_concatenate_iff {a : Text} {r : Registry} {first : Parse} (parsed : parse a r = .ok first)
    (ok : first.isOk = true) (b : Text) (small : Text.size (a ++ '\n' :: b) < sizeLimit) :
    (∃ second whole, parse b r = .ok second ∧ parse (a ++ '\n' :: b) r = .ok whole ∧
      whole.root.sketches = first.root.sketches ++ second.root.sketches ∧
      whole.diagnostics = second.diagnostics.map (Diagnostic.shift (Text.size a + 1))) ↔
    LogFits (a ++ '\n' :: b) r := by
  constructor
  · rintro ⟨-, whole, -, parsed', -⟩
    exact logFits_of_parse parsed'
  · intro fits
    have smallB : Text.size b < sizeLimit := by
      rw [Text.size_append, Text.size_cons] at small
      omega
    obtain ⟨ds, ds', es, es', _, _, _, _, _, _, draftedA, draftedB, drafted', same, sameB, diagnostics, behind⟩ :=
      exists_drafted_of_isOk parsed ok b
    refine ⟨_, _, draftedB.parse_eq smallB (behind fits), drafted'.parse_eq small fits, ?_, diagnostics⟩
    have sketchA := Draft.sketch_tree _ draftedA.lies
    have sketchB := Draft.sketch_tree _ draftedB.lies
    have sketch' := Draft.sketch_tree _ drafted'.lies
    rw [Draft.sketch_node] at sketchA sketchB sketch'
    rw [draftedA.eq_of_parse_eq_ok parsed, Parse.root, View.sketches_of_node sketch', Parse.root,
      View.sketches_of_node sketchA, Parse.root, View.sketches_of_node sketchB]
    simp [same, sameB, Outline.isNode]

/-- A form with a comment behind it. -/
def soundSample : Text :=
  "(f a/b) ; c".toList

/-- A closing parenthesis without an opening one, and a form that is not closed. -/
def brokenSample : Text :=
  "/x) (g".toList

/-- Put together, the samples have what is wrong with the second one, further down. -/
theorem sources_concatenate_iff_samples :
    ∃ first second whole, parse soundSample .empty = .ok first ∧ first.isOk = true ∧
      Text.size (soundSample ++ '\n' :: brokenSample) < sizeLimit ∧ parse brokenSample .empty = .ok second ∧
      parse (soundSample ++ '\n' :: brokenSample) .empty = .ok whole ∧ second.diagnostics.length = 2 ∧
      whole.root.sketches = first.root.sketches ++ second.root.sketches ∧
      whole.diagnostics = second.diagnostics.map (Diagnostic.shift 12) := by
  have small : Text.size (soundSample ++ '\n' :: brokenSample) < sizeLimit := by decide
  have both : (parse (soundSample ++ '\n' :: brokenSample) .empty).toOption.any (fun _ => true) = true := by
    decide +kernel
  obtain ⟨_, together, -⟩ := exists_parse_of_any both
  have sound : (parse soundSample .empty).toOption.any Parse.isOk = true := by decide +kernel
  have broken : (parse brokenSample .empty).toOption.any (fun p => p.diagnostics.length == 2) = true := by
    decide +kernel
  obtain ⟨first, parsed, sound⟩ := exists_parse_of_any sound
  obtain ⟨second, whole, parsedB, parsed', sketches, diagnostics⟩ :=
    (sources_concatenate_iff parsed sound brokenSample small).mpr (logFits_of_parse together)
  rw [parsedB] at broken
  exact ⟨first, second, whole, parsed, sound, small, parsedB, parsed', beq_iff_eq.mp broken, sketches, diagnostics⟩

/-! ## Two logs that do not fit together -/

namespace Writing

variable {r : Registry} {m n : Nat}

/-- The drafts of division signs that are written out. -/
theorem sketches_divisions {start : Parser} {ds : List Draft} {last : Token} (few : 3 * n + 3 ≤ sizeLimit)
    (drafted : Drafted (writeOut (divisions n)) r start (.node .source (ds ++ [Draft.token .eof last]))) :
    ds.map Draft.sketch = (divisions n).map (Form.sketch r) := by
  obtain ⟨start', d, drafted', -, sketch⟩ := exists_drafted_writeOut r _ (shallow_divisions n)
  obtain rfl := drafted.unique drafted' (logFits_divisions r few)
  rw [Draft.sketch_node, List.map_append] at sketch
  exact (List.append_inj' (Outline.node.inj sketch).2 rfl).1

theorem exists_parse_divisions (few : 3 * (n + 1) + 3 ≤ sizeLimit) :
    ∃ result, parse (writeOut (divisions (n + 1))) r = .ok result ∧ result.isOk = true := by
  have small : Text.size (writeOut (divisions (n + 1))) < sizeLimit := by
    rw [size_writeOut_divisions]
    omega
  obtain ⟨result, parsed, ok, -⟩ :=
    exists_parse_writeOut (shallow_divisions (n + 1)) small (logFits_divisions r few)
  exact ⟨result, parsed, ok⟩

/-- The log of division signs on two lines is as long as both together. -/
theorem not_logFits_lines (few : 3 * (m + 1) + 3 ≤ sizeLimit) (few' : 3 * (n + 1) + 3 ≤ sizeLimit)
    (many : sizeLimit ≤ 3 * (m + 1 + n) + 1) :
    ¬ LogFits (writeOut (divisions (m + 1)) ++ '\n' :: writeOut (divisions (n + 1))) r := by
  intro fits
  obtain ⟨first, parsed, ok⟩ := exists_parse_divisions (r := r) few
  obtain ⟨ds, ds', es, es', _, _, last, _, _, _, draftedA, draftedB, drafted', same, sameB, -⟩ :=
    exists_drafted_of_isOk parsed ok (writeOut (divisions (n + 1)))
  rw [sketches_divisions few draftedA] at same
  rw [sketches_divisions few' draftedB, sketch_divisions_succ] at sameB
  have sketch : Draft.sketch (.node .source (ds' ++ es' ++ [Draft.token .eof last])) = .node .source
      ((divisions (m + 1)).map (Form.sketch r) ++ (divisions n).map (Form.sketch r) ++
        (Other.division).sketch r :: [.leaf (.eof, last.text)]) := by
    rw [Draft.sketch_node, List.map_append, List.map_append, ← same, ← sameB]
    simp
  have bound := drafted'.entries_lt_of_logFits sketch fits
  rw [Outline.entries_append, entries_divisions, entries_divisions] at bound
  omega

/-- There are slots for the starts of either line, but not of both. -/
theorem parse_lines_ne_ok :
    (∃ result, parse (writeOut (divisions 800000000)) .empty = .ok result ∧ result.isOk = true) ∧
      Text.size (writeOut (divisions 800000000) ++ '\n' :: writeOut (divisions 800000000)) < sizeLimit ∧
      ∀ whole, parse (writeOut (divisions 800000000) ++ '\n' :: writeOut (divisions 800000000)) .empty ≠ .ok whole := by
  refine ⟨exists_parse_divisions (by decide), ?_, fun whole parsed => ?_⟩
  · rw [Text.size_append, Text.size_cons, size_writeOut_divisions]
    decide
  · exact not_logFits_lines (by decide) (by decide) (by decide) (logFits_of_parse parsed)

end Writing

end LispSyntax
