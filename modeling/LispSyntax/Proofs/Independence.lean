import LispSyntax.Proofs.Balance
import LispSyntax.Proofs.Correspondence
import LispSyntax.Proofs.Moved
import LispSyntax.Proofs.Placement
import LispSyntax.Proofs.Soundness

/-! # Forms are independent of their context

Any form of a text without diagnostics can be cut out, with the trivia of its first and its last token, and parsed on
its own: the result is the form, and nothing is wrong with it (`form_stands_alone`).

Forms come about in several ways. The name of a definition is read as a symbol and a map of metadata as a map, where a
source would read a form, and inside other forms there is less nesting left. In each case the state in which the form
was begun is put into the setting of a source of its own (`Setting.exists_outermost`): what was read there is read
again, by the rule for a form at the outermost level.
-/

namespace LispSyntax

open LispSyntax.Parser Grammar

/-! ## From its setting to a source of its own -/

def Setting.alone (last : Token) : Setting :=
  ⟨[], last, []⟩

theorem Setting.apart_alone {last : Token} (isEnd : last.kind = .eof) : (Setting.alone last).Apart :=
  ⟨isEnd, fun _ _ none => by contradiction⟩

/-- The stretch of the tokens of the drafts, without what surrounds it. -/
def Parser.excerpt (p : Parser) (ds : List Draft) : Parser :=
  { p with rest := Draft.tokensAll ds, frames := [] }

theorem Draft.tokensAll_ne_nil {alone kind : Kind} {ds : List Draft} (flawless : Draft.Flawless alone (.node kind ds)) :
    Draft.tokensAll ds ≠ [] := by
  have someLeaf : Outline.leaves (.node kind ds : Draft) ≠ [] := by
    apply Outline.leaves_ne_nil
    intro n member
    exact children_ne_nil (flawless n member)
  rw [← Draft.tokens_node kind]
  simpa [Draft.tokens] using someLeaf

namespace Setting

variable {a b : Setting} {x y : Parser} {t : Token} {ts : List Token} {kind : Kind} {ds : List Draft}
  {r : Completed × Parser}

theorem rest_eq_nil (all : (a.around y).rest = a.after) : y.rest = [] := by
  simpa [around] using all

/-- Where nothing is left of the stretch, an account is a form of its own. -/
theorem infixLookup_of_end (apart : b.Apart) (empty : y.rest = []) (c : Completed) :
    infixLookup (c, b.around y) = (c, b.around y) := by
  rw [infixLookup_eq, apart.lookupNext_eq (by simp [empty])]
  rfl

/-- What a production made of the whole stretch, the rule for a form makes of it at the outermost level. -/
theorem exists_outermost (apart : b.Apart) (fits : a.Fits x) (rest : x.rest = t :: ts)
    (origin : Origin (a.around x) kind ds r) (noError : kind ≠ .error) (holds : a.Holds r.2)
    (all : r.2.rest = a.after) :
    ∃ c y, r = (c, a.around y) ∧ y.rest = [] ∧ formAt (Grammar.form 127) (b.around x) = (some c, b.around y) := by
  have carried : ∀ {result : Completed × Parser}, CarriesResult a b x r result →
      ∃ c y, r = (c, a.around y) ∧ y.rest = [] ∧ result = (c, b.around y) := by
    intro result carries
    obtain ⟨c, y, left, right, -⟩ := carries holds
    rw [left] at all
    exact ⟨c, y, left, rest_eq_nil all, right⟩
  have kindEq : ∀ s : Setting, (s.around x).kind = t.kind := fun s => kind_around rest
  -- In the whole text a symbol or a literal may have been read by a rule of its own. The rule for a form reads the
  -- same and then looks for a lookup, but finds the end.
  cases origin with
  | symbol isSymbol =>
    rw [atSymbol_around rest] at isSymbol
    obtain ⟨c, y, left, empty, right⟩ := carried (carriesResult_symbol fits rest isSymbol)
    refine ⟨c, y, left, empty, ?_⟩
    rw [formAt_symbol _ (by rw [atSymbol_around rest]; exact isSymbol), right,
      infixLookup_of_end apart empty]
    rfl
  | literal isLiteral =>
    rw [kindEq] at isLiteral
    obtain ⟨c, y, left, empty, right⟩ := carried (carriesResult_literal fits rest isLiteral)
    refine ⟨c, y, left, empty, ?_⟩
    rw [formAt_literal _ (by rw [kindEq]; exact isLiteral), right, infixLookup_of_end apart empty, ite_self]
    rfl
  | @map budget _ below isBrace =>
    have isBrace' : t.kind = .leftBrace := (isAt_around_iff rest a).mp isBrace
    obtain ⟨c, y, left, empty, right⟩ := carried
      (carriesResult_map (carriesForms_form apart budget 127 (Nat.le_of_lt_succ below)) fits rest isBrace')
    refine ⟨c, y, left, empty, ?_⟩
    simp only [formAt, kindEq, isBrace', right]
    rfl
  | @form q c budget _ _ below going formEq =>
    have noCloser : t.kind.isCloser = false := by
      cases isCloser : t.kind.isCloser with
      | false => rfl
      | true =>
        have none := formAt_closer (p := a.around x) (Grammar.form budget) (by rw [kindEq, isCloser])
        rw [formEq] at none
        contradiction
    have carries := carriesResult_formAt (b := b) (carriesForms_form apart budget 127 (Nat.le_of_lt_succ below)) apart
      fits rest noCloser
    rw [formEq] at carries
    obtain ⟨v, y, left, right, -⟩ := carries holds
    obtain ⟨rfl, rfl⟩ := Prod.mk.inj left
    exact ⟨c, y, rfl, rest_eq_nil all, right⟩
  | stray | givenUp | tooDeep => contradiction

end Setting

/-! ## A source of one form -/

/-- A source that the rule for a form takes as a whole is done after one turn. -/
theorem topLevel_alone {x y : Parser} {t : Token} {ts : List Token} {last : Token} {c : Completed}
    (ready : ((Setting.alone last).around x).Ready) (rest : x.rest = t :: ts) (frames : x.frames = [])
    (formEq : formAt (form 127) ((Setting.alone last).around x) = (some c, (Setting.alone last).around y))
    (empty : y.rest = []) :
    topLevel x.rest.length ((Setting.alone last).around x) = (Setting.alone last).around y := by
  have notEnd : ((Setting.alone last).around x).isAt .eof = false := by
    rw [Setting.isAt_around rest]
    simpa using ready.rest_ne_eof t (by simp [Setting.around, rest])
  have going : ((Setting.alone last).around x).atSequenceEnd = false := by
    rw [atSequenceEnd_of_no_frames (by simp [Setting.around, frames, Setting.alone]), notEnd]
  have unfolded : (form maxDepth ((Setting.alone last).around x)).2 = (Setting.alone last).around y := by
    have outermost : form maxDepth ((Setting.alone last).around x) =
        if ((Setting.alone last).around x).atSequenceEnd then (none, (Setting.alone last).around x)
        else formAt (form 127) ((Setting.alone last).around x) := rfl
    rw [outermost, going]
    exact congrArg Prod.snd formEq
  have atEnd : ((Setting.alone last).around y).isAt .eof = true := by
    have isEnd : last.kind = .eof := ready.last_eof
    simp [isAt, Parser.kind, current, Parser.token, Setting.around, Setting.alone, empty, isEnd]
  rw [rest, List.length_cons, topLevel, notEnd, unfolded]
  exact Setting.topLevel_of_end _ atEnd

mutual

/-- The tokens of a node stand in one piece. -/
theorem Draft.exists_split {n : Kind × List Draft} : (d : Draft) → n ∈ d.nodes →
    ∃ before after, d.tokens = before ++ Draft.tokensAll n.2 ++ after
  | .node kind ds, member => by
    rw [Outline.nodes_node, List.mem_cons] at member
    cases member with
    | inl isRoot =>
      subst isRoot
      exact ⟨[], [], by simp⟩
    | inr below => exact Draft.exists_split_of_mem ds below
  | .leaf _, member => by simp at member

theorem Draft.exists_split_of_mem {n : Kind × List Draft} : (ds : List Draft) → n ∈ Outline.nodesAll ds →
    ∃ before after, Draft.tokensAll ds = before ++ Draft.tokensAll n.2 ++ after
  | [], member => by simp [Outline.nodesAll] at member
  | d :: ds, member => by
    rw [Outline.nodesAll, List.mem_append] at member
    cases member with
    | inl inFirst =>
      obtain ⟨before, after, tokens⟩ := Draft.exists_split d inFirst
      exact ⟨before, after ++ Draft.tokensAll ds, by rw [Draft.tokensAll_cons, tokens, List.append_assoc]⟩
    | inr inRest =>
      obtain ⟨before, after, tokens⟩ := Draft.exists_split_of_mem ds inRest
      exact ⟨Draft.tokens d ++ before, after, by
        rw [Draft.tokensAll_cons, tokens, List.append_assoc, List.append_assoc, List.append_assoc]⟩

end

theorem Token.leaf_endAt {w : Text} (lies : (Token.endAt (Text.size w)).LiesIn w) :
    (Token.endAt (Text.size w)).leaf w .eof = ⟨[], .eof, [], [], Token.nothing_fits⟩ := by
  have size := lies.size_leaf .eof
  rw [lies.leaf_eq] at size ⊢
  have empty : (Token.endAt (Text.size w)).cover w = [] := by
    apply Text.size_eq_zero.mp
    simpa [Leaf.size, Token.fullSpan, Token.endAt, Span.ofSize] using size
  simp only [empty]
  rfl

section

variable {r : Registry} {text left w right : Text} {p : Parser} {kind alone : Kind} {ds : List Draft}
  {made : Completed × Parser} {init : List Token} {last : Token}

theorem ready_alone (ready : p.Ready) (makes : Makes p (.node kind ds) made) (isEnd : last.kind = .eof) :
    ((Setting.alone last).around (p.excerpt ds)).Ready := by
  refine ⟨isEnd, fun t member => ready.rest_ne_eof t ?_⟩
  have inside : t ∈ Draft.tokensAll ds := by simpa [Setting.around, Setting.alone, excerpt] using member
  rw [makes.runs.rest]
  simp [inside]

/-- The form is all that is made of its tokens when they stand alone. -/
theorem exists_run_alone (last : Token) (ready : p.Ready) (makes : Makes p (.node kind ds) made)
    (origin : Origin p kind ds made) (noError : kind ≠ .error) (quiet : made.2.reports = [])
    (flawless : Draft.Flawless alone (.node kind ds)) (isEnd : last.kind = .eof) :
    ∃ y, topLevel (Draft.tokensAll ds).length ((Setting.alone last).around (p.excerpt ds)) =
        (Setting.alone last).around y ∧
      Runs ((Setting.alone last).around (p.excerpt ds)) [.node kind ds] ((Setting.alone last).around y) ∧
      y.events = made.2.events ∧ y.reports = [] := by
  -- The state is the stretch in its setting: the tokens after it, and the sequences around it.
  obtain ⟨a, here, all⟩ : ∃ a : Setting, a.around (p.excerpt ds) = p ∧ made.2.rest = a.after := by
    refine ⟨⟨made.2.rest, p.last, p.frames⟩, ?_, rfl⟩
    have rest := makes.runs.rest
    simp only [Draft.tokensAll_cons, Draft.tokensAll_nil, Draft.tokens_node, List.append_nil] at rest
    simp only [Setting.around, excerpt, ← rest, List.nil_append]
  have closes := Draft.closes_of_flawless alone kind ds flawless
  rw [Draft.tokens_node] at closes
  obtain ⟨t, ts, rest⟩ := List.exists_cons_of_ne_nil (Draft.tokensAll_ne_nil flawless)
  have fits : a.Fits (p.excerpt ds) := ⟨by rw [here]; exact ready, closes⟩
  rw [← here] at origin
  obtain ⟨c, y, rfl, empty, formEq⟩ := Setting.exists_outermost (Setting.apart_alone isEnd) fits rest origin
    noError ⟨quiet, Nat.le_of_eq (by rw [all])⟩ all
  refine ⟨y, topLevel_alone (ready_alone ready makes isEnd) rest rfl formEq empty, ?_, rfl, quiet⟩
  apply Setting.runs_around (a := a)
  rw [here]
  exact makes.runs

/-- The tokens of the form, in a source of their own, are those of its own text, moved. -/
theorem alike_alone (tokens : (Token.tokenize w r).1 = init ++ [Token.endAt (Text.size w)])
    (moved : Draft.tokensAll ds = init.map (Token.shift (Text.size left)))
    (slash : p.slashKind = Scan.symbolKind r ['/']) :
    Alike (Likeness.moved (Text.size left)) (startOf r init (Token.endAt (Text.size w))).begun
      ((Setting.alone ((Token.endAt (Text.size w)).shift (Text.size left))).around (p.excerpt ds)) := by
  have rest : ((Setting.alone ((Token.endAt (Text.size w)).shift (Text.size left))).around (p.excerpt ds)).rest =
      init.map (Token.shift (Text.size left)) := by
    simp only [Setting.around, Setting.alone, excerpt, List.append_nil, moved]
  apply alike_start (ready_startOf tokens)
  · rw [rest]
    exact Token.moved_shift _ init
  · exact ⟨rfl, rfl, rfl⟩
  · rw [rest]
    exact Token.agreeAtSlashes_shift _ init
  · rfl
  · exact slash

/-- What is cut out of the part of the text is what is cut out of the text. -/
theorem tree_alone {d : Draft} (whole : text = left ++ w ++ right) (lies : ∀ t ∈ d.tokens, t.LiesIn w)
    (moved : Draft.tokensAll ds = d.tokens.map (Token.shift (Text.size left)))
    (same : d.sketch = Draft.sketch (.node kind ds)) : d.tree w = Draft.tree text (.node kind ds) := by
  apply Draft.tree_congr d _ same
  rw [Draft.tokens_node, moved, List.forall₂_map_right_iff, List.forall₂_same]
  intro t member kind
  rw [whole, (lies t member).leaf_shift]

/-- A form that was made in a text without a report is all that is made of its own text. -/
theorem exists_drafted_alone (whole : text = left ++ w ++ right)
    (tokens : (Token.tokenize w r).1 = init ++ [Token.endAt (Text.size w)])
    (moved : Draft.tokensAll ds = init.map (Token.shift (Text.size left)))
    (ready : p.Ready) (slash : p.slashKind = Scan.symbolKind r ['/']) (makes : Makes p (.node kind ds) made)
    (origin : Origin p kind ds made) (noError : kind ≠ .error) (quiet : made.2.reports = [])
    (flawless : Draft.Flawless alone (.node kind ds)) (started : 1 ≤ p.events.size) (addressed : made.2.Addressed) :
    ∃ start e, Drafted w r start e ∧ LogFits w r ∧ (source start).reports = [] ∧
      e.tree w = .node .source [Draft.tree text (.node kind ds), .leaf ⟨[], .eof, [], [], Token.nothing_fits⟩] := by
  obtain ⟨lies, -⟩ := (Token.tiles_tokenize w r).liesIn [] rfl
  simp only [tokens, List.nil_append, List.mem_append, List.mem_singleton] at lies
  obtain ⟨y, topEq, runs, events, silent⟩ :=
    exists_run_alone ((Token.endAt (Text.size w)).shift (Text.size left)) ready makes origin noError quiet flawless rfl
  have ready' := ready_startOf tokens
  have twin := twin_topLevel (startOf r init (Token.endAt (Text.size w))).begun.rest.length
    (alike_alone tokens moved slash)
  have lengths : (startOf r init (Token.endAt (Text.size w))).begun.rest.length = (Draft.tokensAll ds).length := by
    rw [moved, List.length_map]
    rfl
  rw [lengths, topEq, ← lengths] at twin
  obtain ⟨os, es, walks, walks', same⟩ := twin.walks
  have ending := rest_topLevel ready' rfl
  have fits : ((Setting.alone ((Token.endAt (Text.size w)).shift (Text.size left))).around y).Addressed := by
    rw [Addressed, beyond, Setting.around, events]
    exact addressed
  -- The two runs have the same log, so what the twin makes is the form.
  obtain rfl := runs.unique walks'.toRuns fits
  obtain ⟨d, rfl⟩ : ∃ d, os = [d] := by
    have one : os.length = 1 := by simpa using congrArg List.length same
    exact List.length_eq_one_iff.mp one
  have drafted := drafted_of_runs tokens ready' walks.toRuns ending
  refine ⟨_, _, drafted, ?_, ?_, ?_⟩
  · rw [drafted.logFits_iff, addressed_source_iff]
    exact twin.addressed started (addressed_of_size_le (show 1 ≤ sizeLimit by decide)) fits
  · have silent' : p.reports = [] := List.prefix_nil.mp (quiet ▸ makes.runs.reports)
    rw [reports_source]
    exact (twin.quiet_iff rfl silent').mpr silent
  · have tokensEq : init = Draft.tokens d := by
      have rest := walks.rest
      rw [ending, List.append_nil, Draft.tokensAll_cons, Draft.tokensAll_nil, List.append_nil] at rest
      exact rest
    have treeEq := tree_alone whole (fun t member => lies t (.inl (tokensEq ▸ member))) (tokensEq ▸ moved)
      (List.singleton_inj.mp same)
    have endEq : Draft.tree w (Draft.token .eof (Token.endAt (Text.size w))) =
        .leaf ⟨[], .eof, [], [], Token.nothing_fits⟩ :=
      congrArg Tree.leaf (Token.leaf_endAt (lies _ (.inr rfl)))
    rw [List.singleton_append, Draft.tree, Draft.trees_cons, Draft.trees_cons, treeEq, endEq, Draft.trees_nil]

/-- Nothing is wrong with the lexemes of a part of a text if nothing is wrong with those of the text. -/
theorem lexical_alone (clean : (Token.tokenize text r).2 = [])
    (tokens : (Token.tokenize w r).1 = init ++ [Token.endAt (Text.size w)])
    (inside : ∀ t ∈ init, t.shift (Text.size left) ∈ (Token.tokenize text r).1) : (Token.tokenize w r).2 = [] := by
  rw [Token.tokenize, Token.diagnostics_tokensFrom, List.flatMap_eq_nil_iff] at clean ⊢
  intro t member
  rw [Token.tokenize] at tokens inside
  rw [tokens] at member
  cases List.mem_append.mp member with
  | inl inInit =>
    have none := clean _ (inside t inInit)
    rw [Token.diagnostics_shift] at none
    exact List.map_eq_nil_iff.mp none
  | inr isEnd =>
    rw [List.mem_singleton.mp isEnd]
    rfl

end

/-! ## Any form -/

theorem Draft.flawless_of_mem {p q : Parser} {d : Draft} {n : Kind × List Draft} (table : FollowsTable p q d)
    (quiet : Quiet p q) (member : n ∈ d.nodes) : Draft.Flawless p.slashKind (.node n.1 n.2) := by
  intro m below
  rw [Outline.nodes_node, List.mem_cons] at below
  rcases below with rfl | below
  · exact table True (fun _ => quiet) _ member
  · obtain ⟨e, child, inE⟩ := Outline.mem_nodesAll.mp below
    exact table True (fun _ => quiet) m (Outline.mem_nodes_of_mem child inE d member)

/-- A form stands below the source, and its tokens in one piece before the end of the text. -/
theorem Drafted.exists_split {text : Text} {r : Registry} {start : Parser} {d : Draft} {n : Kind × List Draft}
    (drafted : Drafted text r start d) (table : FollowsTable start (source start) d) (member : n ∈ d.nodes)
    (isForm : Shape.form.accepts n.1 = true) :
    ∃ before after, (Token.tokenize text r).1 = before ++ Draft.tokensAll n.2 ++ after ∧ after ≠ [] := by
  obtain ⟨ds, rfl⟩ := drafted.reads.isSource
  obtain ⟨fs, _, rfl, -, _, rfl, last, rfl, -⟩ := table False False.elim (.source, ds) (by simp)
  rw [Outline.nodes_node, List.mem_cons] at member
  cases member with
  | inl isRoot =>
    have accepted : Shape.form.accepts .source = true := by rwa [isRoot] at isForm
    contradiction
  | inr below =>
    have inForms : n ∈ Outline.nodesAll fs := by
      obtain ⟨e, inside, inE⟩ := Outline.mem_nodesAll.mp below
      cases List.mem_append.mp inside with
      | inl isForm => exact Outline.mem_nodesAll.mpr ⟨e, isForm, inE⟩
      | inr isEnd =>
        rw [List.mem_singleton.mp isEnd] at inE
        contradiction
    obtain ⟨before, after, tokens⟩ := Draft.exists_split_of_mem fs inForms
    refine ⟨before, after ++ [last], ?_, by simp⟩
    rw [← drafted.tokens, Draft.tokens_node, Draft.tokensAll_append, tokens]
    simp

/-- A form of a text without diagnostics stands alone: its own text, with the trivia around it, is parsed without
diagnostics to a source that has this form and an end without trivia. -/
theorem form_stands_alone {text : Text} {r : Registry} {result : Parse} (parsed : parse text r = .ok result)
    (ok : result.isOk = true) (f : Typed .form) (member : f.view ∈ result.root.descendants) :
    ∃ alone last, parse f.view.text r = .ok alone ∧ alone.isOk = true ∧
      alone.tree = .node .source [f.view.tree, .leaf last] ∧
      last.kind = .eof ∧ last.text = [] ∧ last.leading = [] ∧ last.trailing = [] := by
  obtain ⟨start, d, drafted, -, table, traced⟩ := exists_origins parsed
  obtain ⟨small, fits⟩ := drafted.bounds_of_parse parsed
  obtain rfl := drafted.eq_of_parse_eq_ok parsed
  obtain ⟨quiet, readable⟩ := drafted.silent_of_isOk (List.isEmpty_iff.mp ok)
  have clean := Drafted.clean table quiet readable
  obtain ⟨n, inside, views, -⟩ := Draft.exists_node_of_walk d drafted.placed f.view (View.mem_descendants.mp member)
  have isForm : Shape.form.accepts n.1 = true := by
    have accepted := f.accepted
    rwa [View.kind, views] at accepted
  obtain ⟨p, made, ready, slash, makes, since, upTo, origin⟩ := traced n (by simpa using inside) isForm
  obtain ⟨before, after, tokens, more⟩ := drafted.exists_split table inside isForm
  obtain ⟨left, w, right, init, whole, tokens', moved⟩ := Token.exists_excerpt tokens more
  have there : ∀ t ∈ init, t.shift (Text.size left) ∈ (Token.tokenize text r).1 := by
    intro t inInit
    rw [tokens, moved]
    simp [List.mem_map_of_mem inInit]
  have silent : made.2.reports = [] := by
    have reports := upTo.reports
    rw [quiet, drafted.silent] at reports
    exact List.prefix_nil.mp reports
  have started : 1 ≤ p.events.size := by
    have begun : 1 ≤ start.begun.events.size := by simp [Parser.begun, Parser.start]
    exact Nat.le_trans begun since.size
  obtain ⟨start', e, drafted', fits', silent', treeEq⟩ := exists_drafted_alone whole tokens' moved ready
    (slash.trans drafted.slash) makes origin (clean n inside) silent (Draft.flawless_of_mem table quiet inside)
    started (upTo.addressed (drafted.logFits_iff.mp fits))
  have textEq : f.view.text = w := by
    have covered := Draft.text_tree e drafted'.lies
    rw [drafted'.whole, treeEq] at covered
    rw [View.text, views]
    simpa [Tree.text, Forest.text, Draft.tree] using covered
  have lexical : (Token.tokenize text r).2 = [] :=
    (List.append_eq_nil_iff.mp (Diagnostic.sortByStart_eq_nil (List.isEmpty_iff.mp ok))).1
  refine ⟨⟨e.tree w, Drafted.diagnostics w r start'⟩, ⟨[], .eof, [], [], Token.nothing_fits⟩, ?_, ?_, ?_, rfl, rfl, rfl,
    rfl⟩
  · have smaller : Text.size w < sizeLimit := by
      rw [whole, Text.size_append, Text.size_append] at small
      omega
    rw [textEq]
    exact drafted'.parse_eq smaller fits'
  · simp [Parse.isOk, Drafted.diagnostics, lexical_alone lexical tokens' there, silent', Diagnostic.sortByStart]
  · rw [treeEq, views, Draft.tree]

def nameSample : Text :=
  "(def a 1)".toList

/-- The name of the sample stands alone, with the blank after it, although a definition does not read it as a form. -/
theorem form_stands_alone_sample :
    ∃ result alone last, ∃ f : Typed .form,
      parse nameSample .empty = .ok result ∧ result.isOk = true ∧ f.view ∈ result.root.descendants ∧
        f.view.text = ['a', ' '] ∧ parse ['a', ' '] .empty = .ok alone ∧ alone.isOk = true ∧
        alone.tree = .node .source [f.view.tree, .leaf last] ∧ last.kind = .eof := by
  have found : (parse nameSample .empty).toOption.any (fun result =>
      result.isOk && result.root.descendants.any fun v =>
        v.isNode && Shape.form.accepts v.kind && v.text == ['a', ' ']) = true := by
    decide +kernel
  obtain ⟨result, parsed, found⟩ := exists_parse_of_any found
  simp only [Bool.and_eq_true, List.any_eq_true, beq_iff_eq] at found
  obtain ⟨ok, v, member, ⟨isNode, accepted⟩, text⟩ := found
  obtain ⟨alone, last, parsed', ok', tree, isEnd, -⟩ := form_stands_alone parsed ok ⟨v, isNode, accepted⟩ member
  exact ⟨result, alone, last, ⟨v, isNode, accepted⟩, parsed, ok, member, text, text ▸ parsed', ok', tree, isEnd⟩

end LispSyntax
