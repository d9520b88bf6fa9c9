import LispSyntax.Proofs.Lexical.Malformed

/-! # Where diagnostics are

A diagnostic of the scanner is about a part of a lexeme, at a place computed from the sizes of characters. One of the
parser is about a token, a stretch of tokens or a node, and the first token of a node can be older than its marker. In
the end a report of the parser runs from the start of a token to the end of the same or a later one (`Span.RunsOver`),
and every diagnostic stands in the text and cuts no character (`Span.StandsIn`).

The parser is not run again for this. A source is like itself, so what was proved of two layouts of the same tokens is
true of one layout taken twice, and then it says which tokens a report is about.
-/

namespace LispSyntax

/-! ## Places in the text -/

namespace Span

/-- The span ends within the text, and neither of its ends is inside a character. -/
structure StandsIn (text : Text) (span : Span) : Prop where
  stop_le : span.stop ≤ Text.size text
  start_boundary : text.isBoundary span.start = true
  stop_boundary : text.isBoundary span.stop = true

/-- The span runs from the start of a token to the end of the same token or a later one. -/
def RunsOver (ts : List Token) (span : Span) : Prop :=
  ∃ (i j : Nat) (t u : Token), i ≤ j ∧ ts[i]? = some t ∧ ts[j]? = some u ∧
    span.start = t.span.start ∧ span.stop = u.span.stop

/-- The span is that of a part of the token's lexeme. -/
def PartOf (t : Token) (span : Span) : Prop :=
  ∃ before part after, t.text = before ++ part ++ after ∧
    span = .ofSize (t.span.start + Text.size before) (Text.size part)

theorem standsIn_of_isBoundary {text : Text} {span : Span} (start : text.isBoundary span.start = true)
    (stop : text.isBoundary span.stop = true) : span.StandsIn text :=
  ⟨Text.le_size_of_isBoundary stop, start, stop⟩

end Span

namespace Token

variable {text : Text} {r : Registry} {t : Token}

/-- A place between two characters of the lexeme is one between two characters of the text. -/
theorem LiesIn.isBoundary {before after : Text} (lies : t.LiesIn text) (split : t.text = before ++ after) :
    text.isBoundary (t.span.start + Text.size before) = true := by
  obtain ⟨left, leading, trailing, stretch, right, rfl, covers⟩ := lies
  refine Text.isBoundary_iff.mpr ⟨left ++ leading ++ before, after ++ trailing ++ right, ?_, ?_⟩
  · simp [covers.parts, split]
  · simp [covers.start_eq, Nat.add_assoc]

theorem LiesIn.standsIn_of_partOf {span : Span} (lies : t.LiesIn text) (partOf : span.PartOf t) :
    span.StandsIn text := by
  obtain ⟨before, part, after, split, rfl⟩ := partOf
  refine Span.standsIn_of_isBoundary ?_ ?_
  · exact lies.isBoundary (split.trans (List.append_assoc ..))
  · have stop := lies.isBoundary split
    rwa [Text.size_append, ← Nat.add_assoc] at stop

theorem partOf_span (member : t ∈ (tokenize text r).1) : t.span.PartOf t := by
  refine ⟨[], t.text, [], by simp, ?_⟩
  have whole := shift_whole member
  simp only [Span.shift, Span.ofSize, Nat.add_zero, Nat.zero_add] at whole
  exact whole.symm

/-! ## What the scanner reports -/

theorem HasShortCode.partOf {span : Span} (short : t.HasShortCode span) : span.PartOf t := by
  obtain ⟨body, textEq, before, digits, after, -, rfl, -, digital, -, rfl⟩ := short
  refine ⟨'"' :: before, '\\' :: 'u' :: digits, after, ?_, ?_⟩
  · rw [textEq]
    simp
  · have quote : '"'.utf8Size = 1 := rfl
    have backslash : '\\'.utf8Size = 1 := rfl
    have letter : 'u'.utf8Size = 1 := rfl
    simp only [Text.size_cons, quote, backslash, letter, Literal.size_of_digital digital, ← Nat.add_assoc]

theorem partOf_of_mem_diagnostics {d : Diagnostic} (member : t ∈ (tokenize text r).1) (own : d ∈ t.diagnostics) :
    d.span.PartOf t := by
  by_cases isString : t.kind = .string
  · obtain ⟨codes, unclosed, -, complete, closing, found⟩ := diagnostics_of_string member isString
    rw [found] at own
    rcases List.mem_append.mp own with own | own
    · obtain ⟨span, isCode, rfl⟩ := List.mem_map.mp own
      exact ((complete span).mp isCode).partOf
    · rcases closing with ⟨-, rfl⟩ | ⟨-, rfl⟩
      · contradiction
      · rw [List.mem_singleton.mp own]
        exact partOf_span member
  · rcases diagnostics_cases member isString with ⟨-, message, one⟩ | ⟨-, none⟩
    · rw [one] at own
      rw [List.mem_singleton.mp own]
      exact partOf_span member
    · rw [none] at own
      contradiction

/-- What the scanner reports stands in the text. -/
theorem standsIn_of_mem_tokenize {d : Diagnostic} (reported : d ∈ (tokenize text r).2) : d.span.StandsIn text := by
  rw [tokenize, diagnostics_tokensFrom] at reported
  obtain ⟨t, member, own⟩ := List.mem_flatMap.mp reported
  exact (liesIn_of_mem_tokenize member).standsIn_of_partOf (partOf_of_mem_diagnostics member own)

/-! ## What the parser reports -/

theorem AgreeAtSlashes.refl (ts : List Token) : AgreeAtSlashes ts ts := by
  intro i t t' u u' first next first' next' _
  rw [first] at first'
  rw [next] at next'
  cases first'
  cases next'
  rfl

end Token

/-- What the parser reports runs over tokens. -/
theorem runsOver_of_mem_reports {text : Text} {r : Registry} {start : Parser}
    (started : Parser.ofTokens (Token.tokenize text r).1 (Scan.symbolKind r ['/']) = .ok start) {report : Report}
    (reported : report ∈ (Grammar.source start).reports) : report.span.RunsOver (Token.tokenize text r).1 := by
  have placed : Token.Placed (Token.tokenize text r).1 := (Token.placed_tokensFrom r 0 text).1
  obtain ⟨start₁, start₂, d, e, drafted, drafted', -, reports, -⟩ :=
    exists_twin_drafts (L := Likeness.upToLayout placed placed) (Token.same_of_map_eq rfl)
      (Token.AgreeAtSlashes.refl _) rfl
  -- Both sides are the same source, so each report is compared with itself.
  obtain rfl : start₁ = start := Except.ok.inj (drafted.started.symm.trans started)
  obtain rfl : start₂ = start₁ := Except.ok.inj (drafted'.started.symm.trans started)
  obtain ⟨-, ⟨i, j, t, u, -, -, inOrder, first, last, -, -, ends, -⟩, -⟩ := List.forall₂_same.mp reports report reported
  exact ⟨i, j, t, u, inOrder, first, last, ends⟩

theorem Span.RunsOver.standsIn {text : Text} {r : Registry} {span : Span}
    (runs : span.RunsOver (Token.tokenize text r).1) : span.StandsIn text := by
  obtain ⟨i, j, t, u, -, first, last, start, stop⟩ := runs
  have member := List.mem_of_getElem? first
  have member' := List.mem_of_getElem? last
  have firstStands := (Token.liesIn_of_mem_tokenize member).standsIn_of_partOf (Token.partOf_span member)
  have lastStands := (Token.liesIn_of_mem_tokenize member').standsIn_of_partOf (Token.partOf_span member')
  refine standsIn_of_isBoundary ?_ ?_
  · rw [start]
    exact firstStands.start_boundary
  · rw [stop]
    exact lastStands.stop_boundary

/-! ## Parsing -/

/-- The diagnostics of a text are those of the scanner as it met them and those of the parser as it raised them, sorted
by start so that those which start together keep this order, however often the latter were sorted before. So they are in
order, with the scanner's first where both start together. Each stands in the text, and the parser's run over tokens. -/
theorem diagnostics_sorted_and_located (text : Text) (r : Registry) :
    (Text.size text < sizeLimit → LogFits text r → ∃ result, parse text r = .ok result) ∧
    ∀ result, parse text r = .ok result →
      ∃ start, Parser.ofTokens (Token.tokenize text r).1 (Scan.symbolKind r ['/']) = .ok start ∧
        Diagnostic.IsStableSort
          ((Token.tokenize text r).2 ++ (Grammar.source start).reports.map Report.diagnostic) result.diagnostics ∧
        result.diagnostics = Diagnostic.sortByStart ((Token.tokenize text r).2 ++
          Diagnostic.sortByStart ((Grammar.source start).reports.map Report.diagnostic)) ∧
        result.diagnostics.Pairwise (fun d e => d.span.start ≤ e.span.start ∧
          (d.span.start = e.span.start → d.kind = .structural → e.kind = .structural)) ∧
        ∀ d ∈ result.diagnostics, d.span.start ≤ d.span.stop ∧ d.span.StandsIn text ∧
          (d.kind = .structural → d.span.RunsOver (Token.tokenize text r).1) := by
  refine ⟨exists_parse, fun result parsed => ?_⟩
  obtain ⟨start, d, drafted, -⟩ := exists_drafted text r
  rw [drafted.eq_of_parse_eq_ok parsed, Drafted.diagnostics]
  have isSort := Diagnostic.isStableSort_sortByStart
    ((Token.tokenize text r).2 ++ (Grammar.source start).reports.map Report.diagnostic)
  refine ⟨start, drafted.started, isSort, (Diagnostic.sortByStart_append_sortByStart _ _).symm, ?_, fun d member => ?_⟩
  · -- Before the sort no report of the parser was in front of one of the scanner.
    refine List.Pairwise.and isSort.inOrder (isSort.pairwise ?_)
    refine List.pairwise_append.mpr ⟨?_, ?_, ?_⟩
    · refine List.pairwise_of_forall_mem_list fun d lexical _ _ structural => ?_
      rw [Delimiters.kind_of_mem_tokenize lexical] at structural
      contradiction
    · refine List.pairwise_of_forall_mem_list fun _ _ e raised _ => ?_
      obtain ⟨report, -, rfl⟩ := List.mem_map.mp raised
      rfl
    · intro d lexical e raised _
      obtain ⟨report, -, rfl⟩ := List.mem_map.mp raised
      rfl
  · refine ⟨d.span.start_le_stop, ?_⟩
    rcases List.mem_append.mp (Diagnostic.mem_sortByStart.mp member) with lexical | raised
    · refine ⟨Token.standsIn_of_mem_tokenize lexical, fun structural => ?_⟩
      rw [Delimiters.kind_of_mem_tokenize lexical] at structural
      contradiction
    · obtain ⟨report, reported, rfl⟩ := List.mem_map.mp raised
      have runs : report.span.RunsOver _ := runsOver_of_mem_reports drafted.started reported
      exact ⟨runs.standsIn, fun _ => runs⟩

/-- A token that the scanner cannot read where the parser wants a map, behind a character of two bytes. -/
def clashSample : Text :=
  "é ^ #".toList

theorem diagnostics_sorted_and_located_clash :
    ∃ result, parse clashSample .empty = .ok result ∧
      result.diagnostics.map (fun d => (d.kind, d.span.start, d.span.stop)) =
        [(.lexical, 5, 6), (.structural, 5, 6)] ∧
      ∀ d ∈ result.diagnostics, d.span.StandsIn clashSample ∧
        (d.kind = .structural → d.span.RunsOver (Token.tokenize clashSample .empty).1) := by
  have checked : (parse clashSample .empty).toOption.any (fun result =>
      decide (result.diagnostics.map (fun d => (d.kind, d.span.start, d.span.stop)) =
        [(.lexical, 5, 6), (.structural, 5, 6)])) = true := by
    decide +kernel
  obtain ⟨result, parsed, checked⟩ := exists_parse_of_any checked
  obtain ⟨-, -, -, -, -, places⟩ := (diagnostics_sorted_and_located clashSample .empty).2 result parsed
  exact ⟨result, parsed, of_decide_eq_true checked, fun d member => (places d member).2⟩

end LispSyntax
