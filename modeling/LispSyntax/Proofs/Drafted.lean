import LispSyntax.Parse
import LispSyntax.Proofs.Reading.Form

/-! # The draft of a text

Whatever the text, the parser makes a draft of all its tokens (`Drafted`), and the result of `parse` is the tree of that
draft, with two exceptions: positions cannot express all of a text of `sizeLimit` bytes, and slots not all of a longer
log. A text below that size can have such a log, and then the log is not that of the draft, and finishing it is a fault
(`parse_eq_ok_iff`).
-/

namespace LispSyntax

open Grammar

namespace Token

theorem LiesIn.stop_le {text : Text} {t : Token} (lies : t.LiesIn text) :
    t.fullSpan.stop ≤ Text.size text := by
  obtain ⟨left, before, after, stretch, right, rfl, covers⟩ := lies
  have whole := congrArg Text.size covers.parts
  have stopEq := covers.stop_eq
  have afterSize := covers.after_size
  simp only [Text.size_append] at whole ⊢
  simp only [fullSpan]
  omega

/-- The lexeme of a token stands in the text at the token's span. -/
theorem LiesIn.slice?_eq_text {text : Text} {t : Token} (lies : t.LiesIn text) :
    Text.slice? text t.span.start t.span.stop = some t.text := by
  obtain ⟨left, before, after, stretch, right, rfl, covers⟩ := lies
  have sliced := Text.slice?_append (left ++ before) t.text (after ++ right)
  rw [covers.start_eq, covers.stop_eq, covers.parts]
  simpa [Nat.add_assoc] using sliced

theorem LiesIn.not_tooLong {text : Text} {t : Token} (lies : t.LiesIn text)
    (small : Text.size text < sizeLimit) : ¬ t.TooLong := by
  have fits := lies.fits
  obtain ⟨left, before, after, stretch, right, rfl, covers⟩ := lies
  rw [cover_of_covers covers] at fits
  simp only [Text.size_append] at small
  simp only [TooLong]
  omega

end Token

/-- A log of one node, whose tokens make up the text, is finished to the tree of the node, unless one of the tokens
has too much trivia. -/
theorem Parser.finish_of_spine {p : Parser} {text : Text} {before after : List Event} {kind : Kind}
    {d : Draft} (fault : p.fault = none)
    (eventsEq : p.events.toList = before ++ .start kind none :: after)
    (spine : Event.Spine before kind after d) (lies : ∀ t ∈ d.tokens, t.LiesIn text)
    (whole : d.tokens.flatMap (Token.cover text) = text) :
    p.finish text d.tokens = .ok (d.tree text) ∨
      (∃ t ∈ d.tokens, t.TooLong) ∧ ∃ fault, p.finish text d.tokens = .error fault := by
  have events : p.events = (before ++ .start kind none :: after).toArray := by
    rw [← eventsEq, Array.toArray_toList]
  simp only [finish, fault, events]
  exact Event.replay_eq_tree spine lies whole

/-- If a log that starts with nothing is finished then all its starts have slots. -/
theorem Parser.Grows.addressed_of_finish {p q : Parser} {text : Text} {tokens : List Token} {t : Tree}
    {nodes entries : Nat} (grows : Grows p nodes nodes entries q) (noEvents : p.events = #[])
    (finished : q.finish text tokens = .ok t) : q.Addressed := by
  obtain ⟨-, starts, ends⟩ := grows.counts (finish_eq_ok_iff.mp finished).1
  have filled := isTombstone_of_finish finished (by rw [starts, ends, noEvents]; rfl)
  obtain ⟨es, beyond, unfilled⟩ := grows.beyond
  intro e member
  refine Bool.eq_false_iff.mpr fun isStart => ?_
  have isTombstone := filled e (List.mem_of_mem_drop member)
  rw [beyond, Parser.beyond, noEvents] at member
  rw [unfilled e (by simpa using member) isStart] at isTombstone
  contradiction

/-- How a text was read: from which state, and to which draft of its tokens. -/
structure Drafted (text : Text) (r : Registry) (start : Parser) (d : Draft) : Prop where
  started : Parser.ofTokens (Token.tokenize text r).1 (Scan.symbolKind r ['/']) = .ok start
  silent : start.reports = []
  slash : start.slashKind = Scan.symbolKind r ['/']
  reads : ReadsSource start (source start) d
  tokens : d.tokens = (Token.tokenize text r).1
  lies : ∀ t ∈ d.tokens, t.LiesIn text
  whole : d.tokens.flatMap (Token.cover text) = text

/-- The state before the first token. -/
def startOf (r : Registry) (init : List Token) (last : Token) : Parser :=
  ⟨init, last, none, 0, #[], [], [], Scan.symbolKind r ['/'], none⟩

/-- A run over all the tokens of a text, whatever it makes of them, is how the text was read. -/
theorem drafted_of_runs {text : Text} {r : Registry} {init : List Token} {last : Token}
    (tokensEq : (Token.tokenize text r).1 = init ++ [last]) (ready : (startOf r init last).Ready)
    {ds : List Draft}
    (runs : Parser.Runs (startOf r init last).begun ds
      (topLevel (startOf r init last).begun.rest.length (startOf r init last).begun))
    (ending : (topLevel (startOf r init last).begun.rest.length (startOf r init last).begun).rest = []) :
    Drafted text r (startOf r init last) (.node .source (ds ++ [Draft.token .eof last])) := by
  obtain ⟨lies, whole⟩ := (Token.tiles_tokenize text r).liesIn [] rfl
  have reads := readsSource_of_runs ready rfl rfl runs ending
  have tokens : Draft.tokens (.node .source (ds ++ [Draft.token .eof last])) =
      (Token.tokenize text r).1 := by
    rw [tokensEq]
    exact reads.tokens
  refine ⟨?_, rfl, rfl, reads, tokens, ?_, ?_⟩
  · have lastEnd : last.kind = .eof := ready.last_eof
    simp [Parser.ofTokens, tokensEq, lastEnd, startOf]
  · rw [tokens]
    exact lies
  · rw [tokens]
    exact whole

/-- Every text is read to some draft, whose nodes follow the table. -/
theorem exists_drafted (text : Text) (r : Registry) :
    ∃ start d, Drafted text r start d ∧ FollowsTable start (source start) d := by
  obtain ⟨init, last, tokensEq, lastEnd, initNotEnd⟩ := Token.exists_init_tokensFrom r 0 text
  have ready : (startOf r init last).Ready := ⟨lastEnd, initNotEnd⟩
  obtain ⟨ds, runs, ending, follows⟩ := reads_source ready rfl
  exact ⟨_, _, drafted_of_runs tokensEq ready runs ending, follows⟩

/-- Every start in the log of the text has a slot. -/
def LogFits (text : Text) (r : Registry) : Prop :=
  ∀ start, Parser.ofTokens (Token.tokenize text r).1 (Scan.symbolKind r ['/']) = .ok start → (source start).Addressed

/-- Nothing is logged when the parser starts. -/
theorem Parser.events_ofTokens {tokens : List Token} {slashKind : Kind} {p : Parser}
    (started : ofTokens tokens slashKind = .ok p) : p.events = #[] := by
  unfold ofTokens at started
  split at started
  · contradiction
  · split at started
    · cases started
      rfl
    · contradiction

namespace Drafted

variable {text : Text} {r : Registry} {start : Parser} {d : Draft}

theorem logFits_iff (drafted : Drafted text r start d) : LogFits text r ↔ (source start).Addressed := by
  refine ⟨fun fits => fits start drafted.started, fun addressed other started => ?_⟩
  rw [drafted.started] at started
  cases started
  exact addressed

/-- A log with no more entries than there are slots fits. -/
theorem logFits_of_entries_le (drafted : Drafted text r start d) (few : Outline.entries [d] ≤ sizeLimit) :
    LogFits text r := by
  rw [drafted.logFits_iff]
  have size := drafted.reads.grows.size
  rw [Parser.events_ofTokens drafted.started] at size
  exact Parser.addressed_of_size_le (by simpa using Nat.le_trans size (by simpa using few))

/-- If the log fits then every node below the source starts at one of the slots. -/
theorem entries_lt_of_logFits {before children after : List Sketch} {kind : Kind} (drafted : Drafted text r start d)
    (sketch : d.sketch = .node .source (before ++ .node kind children :: after)) (fits : LogFits text r) :
    Outline.entries before + 1 < sizeLimit := by
  obtain ⟨ds, rfl⟩ := drafted.reads.isSource
  rw [Draft.sketch_node] at sketch
  obtain ⟨ds, es, rfl, rfl, below⟩ := List.map_eq_append_iff.mp (Outline.node.inj sketch).2
  obtain ⟨e, fs, rfl, isNode, -⟩ := List.map_eq_cons_iff.mp below
  obtain ⟨es, rfl⟩ := Draft.exists_eq_node isNode
  rw [drafted.logFits_iff] at fits
  obtain ⟨-, rest, eventsEq, spine⟩ := drafted.reads.logged fits
  obtain ⟨es, rfl, logs⟩ := spine.exists_logs rfl
  obtain ⟨e, member, isStart⟩ := logs.exists_isStart
  rw [Draft.entries_sketch]
  refine Nat.lt_of_not_le fun behind => ?_
  have found : e ∈ (source start).beyond := by
    rw [Parser.beyond, eventsEq]
    apply List.mem_of_mem_drop (i := Outline.entries ds + 1 - sizeLimit)
    rw [List.drop_drop, Nat.add_sub_cancel' behind, List.drop_succ_cons, List.drop_append]
    exact List.mem_append_left _ member
  rw [fits e found] at isStart
  contradiction

theorem isTombstone_eq_false (drafted : Drafted text r start d) (fits : LogFits text r) :
    ∀ e ∈ (source start).events.toList, e.isTombstone = false := by
  obtain ⟨-, after, eventsEq, spine⟩ := drafted.reads.logged (drafted.logFits_iff.mp fits)
  rw [eventsEq]
  exact spine.isTombstone_eq_false none

theorem finish_eq (drafted : Drafted text r start d) (small : Text.size text < sizeLimit) (fits : LogFits text r) :
    (source start).finish text (Token.tokenize text r).1 = .ok (d.tree text) := by
  obtain ⟨fault, after, eventsEq, spine⟩ := drafted.reads.logged (drafted.logFits_iff.mp fits)
  rw [← drafted.tokens]
  refine (Parser.finish_of_spine fault eventsEq spine drafted.lies drafted.whole).resolve_right ?_
  rintro ⟨⟨t, member, long⟩, -⟩
  exact (drafted.lies t member).not_tooLong small long

/-- A text whose log fits is read to one draft. -/
theorem unique {start' : Parser} {d' : Draft} (drafted : Drafted text r start d) (drafted' : Drafted text r start' d')
    (fits : LogFits text r) : d = d' := by
  obtain rfl : start = start' := Except.ok.inj (drafted.started.symm.trans drafted'.started)
  obtain ⟨-, after, eventsEq, spine⟩ := drafted.reads.logged (drafted.logFits_iff.mp fits)
  obtain ⟨-, after', eventsEq', spine'⟩ := drafted'.reads.logged (drafted.logFits_iff.mp fits)
  obtain rfl : after = after' := List.tail_eq_of_cons_eq (eventsEq.symm.trans eventsEq')
  have tokens : Draft.tokensAll [d] = Draft.tokensAll [d'] := by simp [drafted.tokens, drafted'.tokens]
  exact List.singleton_inj.mp (spine.logs.unique spine'.logs tokens)

theorem logFits_of_finish (drafted : Drafted text r start d) {t : Tree}
    (finished : (source start).finish text (Token.tokenize text r).1 = .ok t) : LogFits text r :=
  drafted.logFits_iff.mpr
    (drafted.reads.grows.addressed_of_finish (Parser.events_ofTokens drafted.started) finished)

def diagnostics (text : Text) (r : Registry) (start : Parser) : List Diagnostic :=
  Diagnostic.sortByStart
    ((Token.tokenize text r).2 ++ (source start).reports.map Report.diagnostic)

/-- The result of parsing is the tree of the draft. -/
theorem parse_eq (drafted : Drafted text r start d) (small : Text.size text < sizeLimit) (fits : LogFits text r) :
    parse text r = .ok ⟨d.tree text, diagnostics text r start⟩ := by
  rw [parse, if_neg (Nat.not_le.mpr small)]
  simp only [drafted.started, bind, Except.bind, drafted.finish_eq small fits]
  rfl

theorem bounds_of_parse (drafted : Drafted text r start d) {result : Parse} (parsed : parse text r = .ok result) :
    Text.size text < sizeLimit ∧ LogFits text r := by
  unfold parse at parsed
  split at parsed
  · contradiction
  · rename_i small
    obtain ⟨_, started, parsed⟩ := exists_of_bind_eq_ok parsed
    cases drafted.started.symm.trans started
    obtain ⟨tree, finished, -⟩ := exists_of_bind_eq_ok parsed
    exact ⟨Nat.lt_of_not_le small, drafted.logFits_of_finish finished⟩

theorem eq_of_parse_eq_ok (drafted : Drafted text r start d) {result : Parse}
    (parsed : parse text r = .ok result) : result = ⟨d.tree text, diagnostics text r start⟩ := by
  obtain ⟨small, fits⟩ := drafted.bounds_of_parse parsed
  rw [drafted.parse_eq small fits] at parsed
  exact (Except.ok.inj parsed).symm

end Drafted

/-- A text is parsed just when positions can express its size and slots all starts of its log. -/
theorem parse_eq_ok_iff (text : Text) (r : Registry) :
    (∃ result, parse text r = .ok result) ↔ Text.size text < sizeLimit ∧ LogFits text r := by
  obtain ⟨start, d, drafted, -⟩ := exists_drafted text r
  constructor
  · rintro ⟨result, parsed⟩
    exact drafted.bounds_of_parse parsed
  · rintro ⟨small, fits⟩
    exact ⟨_, drafted.parse_eq small fits⟩

theorem exists_parse {text : Text} {r : Registry} (small : Text.size text < sizeLimit) (fits : LogFits text r) :
    ∃ result, parse text r = .ok result :=
  (parse_eq_ok_iff text r).mpr ⟨small, fits⟩

theorem logFits_of_parse {text : Text} {r : Registry} {result : Parse} (parsed : parse text r = .ok result) :
    LogFits text r :=
  ((parse_eq_ok_iff text r).mp ⟨result, parsed⟩).2

/-- A text whose result passes a check is parsed, to a result that passes it. -/
theorem exists_parse_of_any {text : Text} {r : Registry} {check : Parse → Bool}
    (checked : (parse text r).toOption.any check = true) :
    ∃ result, parse text r = .ok result ∧ check result = true := by
  cases parsed : parse text r with
  | error fault =>
    rw [parsed] at checked
    contradiction
  | ok result =>
    rw [parsed] at checked
    exact ⟨result, rfl, checked⟩

end LispSyntax
