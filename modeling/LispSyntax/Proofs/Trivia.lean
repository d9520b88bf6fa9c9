import LispSyntax.Proofs.Tiling

/-! # What trivia is made of

Every character between two lexemes belongs to exactly one piece of trivia, and the characters of a piece
say which kind it is. `PieceKind.Fits` states this piece by piece, with what stands before and after it,
since a run of commas is maximal and a comment ends where a line does. `Trivia.Describes` follows the
pieces through a gap, and `Token.LaidOut` puts the two gaps of a token around its lexeme.

Gaps are divided by line: trivia after a token never crosses a line break, so trivia before a token, unless
it is the first one, starts with the line break where the trivia of the token before it stopped.
-/

namespace LispSyntax

def Text.AtLineBreak (text : Text) : Prop :=
  ∃ rest, text = '\n' :: rest ∨ text = '\r' :: '\n' :: rest

/-- The characters of a piece are those of its kind, given what stands before it in the same gap and what
follows it. -/
def PieceKind.Fits (before body after : Text) : PieceKind → Prop
  | newline => body = ['\n'] ∨ body = ['\r', '\n']
  | comma =>
    body ≠ [] ∧ (∀ c ∈ body, c = ',') ∧ before.getLast? ≠ some ',' ∧ after.head? ≠ some ','
  | comment =>
    body.head? = some ';' ∧ (after = [] ∨ after.AtLineBreak) ∧
      ∀ first rest, body = first ++ rest → rest ≠ [] → ¬ Text.AtLineBreak (rest ++ after)
  | whitespace => body ≠ [] ∧ ∀ c ∈ body, Text.isBlank c = true ∧ c ≠ '\n'

namespace Trivia

/-- The pieces, one after the other, make up the gap; `before` is what stands in front of it. -/
def Describes : Trivia → (before gap after : Text) → Prop
  | [], _, gap, _ => gap = []
  | p :: ps, before, gap, after => ∃ body rest, gap = body ++ rest ∧ p.size = body.size ∧
      p.kind.Fits before body (rest ++ after) ∧ Describes ps (before ++ body) rest after

theorem Describes.size_eq {t : Trivia} {before gap after : Text} (described : t.Describes before gap after) :
    size t = gap.size := by
  induction t generalizing before gap with
  | nil =>
    obtain rfl := described
    rfl
  | cons p ps inductionHypothesis =>
    obtain ⟨body, rest, rfl, sized, -, described⟩ := described
    rw [size_cons, sized, inductionHypothesis described, Text.size_append]

/-! ## One piece -/

theorem lineBreak?_eq_none_iff {text : Text} : lineBreak? text = none ↔ ¬ text.AtLineBreak := by
  unfold lineBreak? Text.AtLineBreak
  split
  · simp
  · simp
  · rename_i notFeed notReturn
    simp only [true_iff, not_exists, not_or]
    exact fun rest => ⟨notFeed rest, notReturn rest⟩

theorem fits_of_lineBreak? {text taken rest : Text} (found : lineBreak? text = some (taken, rest))
    (before after : Text) : PieceKind.newline.Fits before taken after := by
  unfold lineBreak? at found
  split at found
  · obtain ⟨rfl, rfl⟩ := Prod.mk.inj (Option.some.inj found)
    exact .inl rfl
  · obtain ⟨rfl, rfl⟩ := Prod.mk.inj (Option.some.inj found)
    exact .inr rfl
  · cases found

theorem splitLine_rest (text : Text) :
    (splitLine text).2 = [] ∨ (splitLine text).2.AtLineBreak := by
  induction text with
  | nil => exact .inl rfl
  | cons c cs inductionHypothesis =>
    rw [splitLine]
    split
    · rename_i broken
      right
      apply Classical.byContradiction
      intro unbroken
      rw [lineBreak?_eq_none_iff.mpr unbroken] at broken
      contradiction
    · exact inductionHypothesis

/-- The first line break is not inside the line: whatever the line ends with, none starts there. -/
theorem splitLine_unbroken (text : Text) {first rest : Text} (split : (splitLine text).1 = first ++ rest)
    (nonempty : rest ≠ []) : ¬ Text.AtLineBreak (rest ++ (splitLine text).2) := by
  induction text generalizing first with
  | nil =>
    obtain ⟨-, rfl⟩ := List.append_eq_nil_iff.mp split.symm
    contradiction
  | cons c cs inductionHypothesis =>
    rw [splitLine] at split ⊢
    split at split
    · obtain ⟨-, rfl⟩ := List.append_eq_nil_iff.mp split.symm
      contradiction
    · rename_i unbroken
      rw [if_neg unbroken]
      cases first with
      | nil =>
        rw [List.nil_append] at split
        rw [← split, List.cons_append, splitLine_append, ← lineBreak?_eq_none_iff]
        simpa using unbroken
      | cons d first => exact inductionHypothesis (List.cons.inj split).2

/-- A comment, after its semicolon, is the line up to its break; the semicolon starts no break either. -/
theorem fits_comment (before cs : Text) :
    PieceKind.comment.Fits before (';' :: (splitLine cs).1) (splitLine cs).2 := by
  refine ⟨rfl, splitLine_rest cs, ?_⟩
  intro first rest split nonempty
  cases first with
  | nil =>
    rw [List.nil_append] at split
    rw [← split]
    simp [Text.AtLineBreak]
  | cons d first => exact splitLine_unbroken cs (List.cons.inj split).2 nonempty

theorem head?_dropWhile_ne {p : Char → Bool} {c : Char} (taken : p c = true) (cs : Text) :
    (cs.dropWhile p).head? ≠ some c := by
  intro head
  have stops := List.head?_dropWhile_not p cs
  rw [head] at stops
  simp [taken] at stops

theorem fits_comma {before cs : Text} (apart : before.getLast? ≠ some ',') :
    PieceKind.comma.Fits before (',' :: cs.takeWhile (· == ',')) (cs.dropWhile (· == ',')) := by
  refine ⟨List.cons_ne_nil _ _, ?_, apart, head?_dropWhile_ne (by decide) cs⟩
  intro c member
  rcases List.mem_cons.mp member with rfl | member
  · rfl
  · simpa using List.all_eq_true.mp List.all_takeWhile c member

theorem fits_whitespace {c : Char} (blank : Text.isBlank c = true) (notFeed : c ≠ '\n')
    (before cs after : Text) :
    PieceKind.whitespace.Fits before (c :: cs.takeWhile continuesBlank) after := by
  refine ⟨List.cons_ne_nil _ _, ?_⟩
  intro d member
  rcases List.mem_cons.mp member with rfl | member
  · exact ⟨blank, notFeed⟩
  · have continues := List.all_eq_true.mp List.all_takeWhile d member
    simp only [continuesBlank, Bool.and_eq_true, bne_iff_ne] at continues
    exact continues.1

theorem fits_of_inlinePiece? {before text : Text} {cut : Cut} (found : inlinePiece? text = some cut)
    (unbroken : lineBreak? text = none)
    (apart : text.head? = some ',' → before.getLast? ≠ some ',') :
    cut.kind.Fits before cut.text cut.rest := by
  cases text with
  | nil => simp [inlinePiece?] at found
  | cons c cs =>
    rw [inlinePiece?] at found
    split at found
    · rename_i isComma
      subst isComma
      obtain rfl := Option.some.inj found
      exact fits_comma (apart rfl)
    split at found
    · rename_i isSemicolon
      subst isSemicolon
      obtain rfl := Option.some.inj found
      exact fits_comment before cs
    split at found
    · rename_i blank
      obtain rfl := Option.some.inj found
      refine fits_whitespace blank ?_ before cs _
      rintro rfl
      contradiction
    · cases found

theorem fits_of_piece? {side : Side} {before text : Text} {cut : Cut} (found : piece? side text = some cut)
    (apart : text.head? = some ',' → before.getLast? ≠ some ',') :
    cut.kind.Fits before cut.text cut.rest := by
  unfold piece? at found
  split at found
  · rename_i taken rest broken
    cases side with
    | leading =>
      obtain rfl := Option.some.inj found
      exact fits_of_lineBreak? broken before rest
    | trailing => cases found
  · rename_i unbroken
    exact fits_of_inlinePiece? found unbroken apart

/-- A comma right after a piece stands apart from the commas before it. -/
theorem apart_of_fits {kind : PieceKind} {before body after : Text} (fits : kind.Fits before body after)
    (comma : after.head? = some ',') : (before ++ body).getLast? ≠ some ',' := by
  cases kind with
  | newline => rcases fits with rfl | rfl <;> simp
  | comma => exact absurd comma fits.2.2.2
  | comment =>
    rcases fits.2.1 with rfl | ⟨rest, rfl | rfl⟩
    all_goals simp at comma
  | whitespace =>
    obtain ⟨nonempty, blanks⟩ := fits
    intro isComma
    rw [List.getLast?_append, List.getLast?_eq_some_getLast nonempty, Option.some_or] at isComma
    rw [← List.getLast?_eq_some_getLast nonempty] at isComma
    have blank := (blanks ',' (List.mem_of_getLast? isComma)).1
    contradiction

/-! ## All the pieces of a gap -/

def gap (side : Side) (text : Text) : Text :=
  ((cuts side text).1.map Prod.snd).flatten

theorem gap_append_skip (side : Side) (text : Text) : gap side text ++ skip side text = text :=
  flatten_cuts_append side text

theorem describes_read (side : Side) (before text : Text)
    (apart : text.head? = some ',' → before.getLast? ≠ some ',') :
    (read side text).Describes before (gap side text) (skip side text) := by
  unfold read gap skip
  fun_induction cuts side text generalizing before with
  | case1 => rfl
  | case2 text cut found next inductionHypothesis =>
    have fits := fits_of_piece? found apart
    have whole : (next.1.map Prod.snd).flatten ++ next.2 = cut.rest := flatten_cuts_append side cut.rest
    refine ⟨cut.text, (next.1.map Prod.snd).flatten, rfl, rfl, ?_, ?_⟩
    · rw [whole]
      exact fits
    · exact inductionHypothesis (before ++ cut.text) (apart_of_fits fits)

theorem kind_ne_newline_of_inlinePiece? {text : Text} {cut : Cut} (found : inlinePiece? text = some cut) :
    cut.kind ≠ .newline := by
  cases text with
  | nil => simp [inlinePiece?] at found
  | cons c cs =>
    rw [inlinePiece?] at found
    split at found
    · cases found; exact PieceKind.noConfusion
    split at found
    · cases found; exact PieceKind.noConfusion
    split at found
    · cases found; exact PieceKind.noConfusion
    · cases found

theorem piece?_trailing_eq_some {text : Text} {cut : Cut} (found : piece? .trailing text = some cut) :
    inlinePiece? text = some cut := by
  unfold piece? at found
  split at found
  · cases found
  · exact found

theorem kind_ne_newline_of_mem_read (text : Text) :
    ∀ p ∈ read .trailing text, p.kind ≠ .newline := by
  suffices ∀ cut ∈ (cuts .trailing text).1, cut.1 ≠ .newline by
    intro p member
    obtain ⟨cut, cutMember, rfl⟩ := List.mem_map.mp member
    exact this cut cutMember
  fun_induction cuts .trailing text with
  | case1 => simp
  | case2 text cut found next inductionHypothesis =>
    intro other member
    rcases List.mem_cons.mp member with rfl | member
    · exact kind_ne_newline_of_inlinePiece? (piece?_trailing_eq_some found)
    · exact inductionHypothesis other member

theorem piece?_skip (side : Side) (text : Text) : piece? side (skip side text) = none := by
  unfold skip
  fun_induction cuts side text with
  | case1 text found => exact found
  | case2 text cut found next inductionHypothesis => exact inductionHypothesis

/-- The trivia starts with a line break, or there is none. -/
def StartsLine (t : Trivia) : Prop :=
  t = [] ∨ (t.head?.map Piece.kind) = some .newline

/-- Where trivia after a token stops, the next piece, if there is one, is a line break. -/
theorem startsLine_read {text : Text} (stopped : piece? .trailing text = none) :
    StartsLine (read .leading text) := by
  unfold read
  rw [cuts]
  unfold piece? at stopped ⊢
  split
  · exact .inl rfl
  · rename_i cut found
    split at found
    · cases found
      exact .inr rfl
    · rename_i unbroken
      rw [unbroken, found] at stopped
      cases stopped

end Trivia

namespace Token

/-- The token stands in the text with its two gaps around it, and its trivia describes them. -/
def LaidOut (text : Text) (t : Token) : Prop :=
  ∃ left before after right,
    text = left ++ before ++ t.text ++ after ++ right ∧
    t.fullSpan.start = Text.size left ∧
    t.span.start = Text.size (left ++ before) ∧
    t.span.stop = Text.size (left ++ before ++ t.text) ∧
    t.fullSpan.stop = Text.size (left ++ before ++ t.text ++ after) ∧
    t.leading.Describes [] before (t.text ++ after ++ right) ∧
    t.trailing.Describes [] after right

/-- The full spans of the tokens follow one another from the one offset to the other. -/
def Contiguous : Nat → List Token → Nat → Prop
  | start, [], stop => start = stop
  | start, t :: ts, stop => t.fullSpan.start = start ∧ Contiguous t.fullSpan.stop ts stop

theorem laidOut_read (r : Registry) (left text : Text) :
    (read r (Text.size left) text).token.LaidOut (left ++ text) ∧
      (read r (Text.size left) text).token.fullSpan.start = Text.size left ∧
      (read r (Text.size left) text).token.fullSpan.stop = (read r (Text.size left) text).offset ∧
      ∃ stretch, text = stretch ++ (read r (Text.size left) text).rest ∧
        (read r (Text.size left) text).offset = Text.size (left ++ stretch) := by
  have described := Trivia.describes_read .leading [] text (by simp)
  have before := Trivia.gap_append_skip .leading text
  have whole := lexemeOf_append r (Trivia.skip .leading text)
  generalize scanned : lexemeOf r (Trivia.skip .leading text) = scan at whole
  have described' := Trivia.describes_read .trailing [] scan.rest (by simp)
  have after := Trivia.gap_append_skip .trailing scan.rest
  have leadingSize := described.size_eq
  have trailingSize := described'.size_eq
  simp only [read, scanned, fullSpan, Span.ofSize]
  refine ⟨⟨left, Trivia.gap .leading text, Trivia.gap .trailing scan.rest,
    Trivia.skip .trailing scan.rest, ?_, ?_, ?_, ?_, ?_, ?_, described'⟩, ?_, trivial,
    Trivia.gap .leading text ++ scan.lexeme.text ++ Trivia.gap .trailing scan.rest, ?_, ?_⟩
  · simp only [List.append_assoc, after, whole, before]
  · simp only [fullSpan]; omega
  · simp only [leadingSize, Text.size_append]
  · simp only [leadingSize, Text.size_append]
  · simp only [fullSpan, leadingSize, trailingSize, Text.size_append]
  · rw [List.append_assoc, after, whole]
    exact described
  · simp only [leadingSize]; omega
  · simp only [List.append_assoc, after, whole, before]
  · simp only [leadingSize, trailingSize, Text.size_append]; omega

theorem laidOut_tokensFrom (r : Registry) (offset : Nat) (rest : Text) :
    ∀ left : Text, Text.size left = offset →
      Contiguous offset (tokensFrom r offset rest).1 (Text.size (left ++ rest)) ∧
        ∀ t ∈ (tokensFrom r offset rest).1, t.LaidOut (left ++ rest) := by
  fun_induction tokensFrom r offset rest with
  | case1 offset rest reading isEnd =>
    rintro left rfl
    obtain ⟨laidOut, startEq, stopEq, stretch, whole, offsetEq⟩ := laidOut_read r left rest
    rw [rest_read_of_eof isEnd, List.append_nil] at whole
    refine ⟨⟨startEq, ?_⟩, ?_⟩
    · rw [Contiguous, stopEq, offsetEq, ← whole]
    · intro t member
      rw [List.mem_singleton.mp member]
      exact laidOut
  | case2 offset rest reading notEnd next inductionHypothesis =>
    rintro left rfl
    obtain ⟨laidOut, startEq, stopEq, stretch, whole, offsetEq⟩ := laidOut_read r left rest
    obtain ⟨contiguous, others⟩ := inductionHypothesis (left ++ stretch) offsetEq.symm
    rw [List.append_assoc, ← whole] at contiguous others
    refine ⟨⟨startEq, ?_⟩, ?_⟩
    · rw [stopEq]
      exact contiguous
    · intro t member
      rcases List.mem_cons.mp member with rfl | member
      · exact laidOut
      · exact others t member

/-! ## Gaps are divided by line -/

theorem trailing_tokensFrom (r : Registry) (offset : Nat) (text : Text) :
    ∀ t ∈ (tokensFrom r offset text).1, ∀ p ∈ t.trailing, p.kind ≠ .newline := by
  fun_induction tokensFrom r offset text with
  | case1 offset text reading isEnd =>
    intro t member
    rw [List.mem_singleton.mp member]
    exact Trivia.kind_ne_newline_of_mem_read _
  | case2 offset text reading notEnd next inductionHypothesis =>
    intro t member
    rcases List.mem_cons.mp member with rfl | member
    · exact Trivia.kind_ne_newline_of_mem_read _
    · exact inductionHypothesis t member

theorem leading_tokensFrom (r : Registry) (offset : Nat) (text : Text) :
    (Trivia.piece? .trailing text = none →
      ∀ t ∈ (tokensFrom r offset text).1, t.leading.StartsLine) ∧
    ∀ t ∈ (tokensFrom r offset text).1.tail, t.leading.StartsLine := by
  fun_induction tokensFrom r offset text with
  | case1 offset text reading isEnd =>
    refine ⟨?_, by simp⟩
    intro stopped t member
    rw [List.mem_singleton.mp member]
    exact Trivia.startsLine_read stopped
  | case2 offset text reading notEnd next inductionHypothesis =>
    -- Reading stops where trivia after the token stops, so the rest is as the first part asks.
    have others := inductionHypothesis.1 (Trivia.piece?_skip .trailing _)
    refine ⟨?_, others⟩
    intro stopped t member
    rcases List.mem_cons.mp member with rfl | member
    · exact Trivia.startsLine_read stopped
    · exact others t member

/-! ## The end and the others -/

/-- The end has no text and nothing after it. -/
theorem text_read_of_eof {r : Registry} {offset : Nat} {text : Text}
    (isEnd : (read r offset text).token.kind = .eof) :
    (read r offset text).token.text = [] ∧ (read r offset text).token.trailing = [] := by
  simp only [read] at isEnd ⊢
  cases skipped : Trivia.skip .leading text with
  | nil =>
    refine ⟨rfl, ?_⟩
    simp [lexemeOf, Trivia.read, Trivia.cuts, Trivia.piece?, Trivia.lineBreak?, Trivia.inlinePiece?]
  | cons c cs =>
    rw [skipped] at isEnd
    exact absurd isEnd (Scan.regular_scan r c cs).1

theorem ends_tokensFrom (r : Registry) (offset : Nat) (text : Text) :
    ∃ init last, (tokensFrom r offset text).1 = init ++ [last] ∧
      last.kind = .eof ∧ last.text = [] ∧ last.trailing = [] ∧
      ∀ t ∈ init, t.kind ≠ .eof ∧ t.text ≠ [] := by
  fun_induction tokensFrom r offset text with
  | case1 offset text reading isEnd =>
    obtain ⟨textEq, trailingEq⟩ := text_read_of_eof isEnd
    exact ⟨[], reading.token, rfl, isEnd, textEq, trailingEq, by simp⟩
  | case2 offset text reading notEnd next inductionHypothesis =>
    obtain ⟨init, last, tokensEq, isEnd, textEq, trailingEq, others⟩ := inductionHypothesis
    refine ⟨reading.token :: init, last, ?_, isEnd, textEq, trailingEq, ?_⟩
    · simp only [next, tokensEq, List.cons_append]
    · intro t member
      rcases List.mem_cons.mp member with rfl | member
      · exact ⟨notEnd, text_lexemeOf_ne_nil notEnd⟩
      · exact others t member

theorem Contiguous.stop_eq {start stop : Nat} {init : List Token} {last : Token}
    (contiguous : Contiguous start (init ++ [last]) stop) : last.fullSpan.stop = stop := by
  induction init generalizing start with
  | nil => exact contiguous.2
  | cons t ts inductionHypothesis => exact inductionHypothesis contiguous.2

theorem LaidOut.span_lt {text : Text} {t : Token} (laidOut : t.LaidOut text) (nonempty : t.text ≠ []) :
    t.span.start < t.span.stop := by
  obtain ⟨left, before, after, right, -, -, startEq, stopEq, -⟩ := laidOut
  have positive : Text.size t.text ≠ 0 := fun zero => nonempty (Text.size_eq_zero.mp zero)
  simp only [Text.size_append] at startEq stopEq
  omega

theorem LaidOut.span_eq_empty {text : Text} {t : Token} (laidOut : t.LaidOut text) (empty : t.text = [])
    (bare : t.trailing = []) : t.span = Span.empty t.fullSpan.stop := by
  obtain ⟨left, before, after, right, -, -, startEq, stopEq, fullEq, -, described⟩ := laidOut
  rw [bare] at described
  obtain rfl : after = [] := described
  rw [empty] at stopEq fullEq
  simp only [List.append_nil] at stopEq fullEq
  have same : t.span.start = t.fullSpan.stop := startEq.trans fullEq.symm
  have same' : t.span.stop = t.fullSpan.stop := stopEq.trans fullEq.symm
  cases spanEq : t.span
  simp only [spanEq] at same same'
  simp only [Span.empty, same, same']

end Token

/-- The tokens of a text tile it. Their full spans follow one another from its start to its end; the last
one and no other is the end, which is empty; each token's trivia describes the gaps around its lexeme, after
it up to the line break at most and before it, but for the first token, from a line break on. -/
theorem tokenize_tiles_text (text : Text) (r : Registry) :
    Token.Contiguous 0 (Token.tokenize text r).1 (Text.size text) ∧
    (∃ init last, (Token.tokenize text r).1 = init ++ [last] ∧
      (last.kind = .eof ∧ last.text = [] ∧ last.span = Span.empty (Text.size text) ∧
        last.trailing = []) ∧
      ∀ t ∈ init, t.kind ≠ .eof ∧ t.span.start < t.span.stop) ∧
    (∀ t ∈ (Token.tokenize text r).1, t.LaidOut text) ∧
    (∀ t ∈ (Token.tokenize text r).1, ∀ p ∈ t.trailing, p.kind ≠ .newline) ∧
    ∀ t ∈ (Token.tokenize text r).1.tail, t.leading.StartsLine := by
  obtain ⟨contiguous, laidOut⟩ := Token.laidOut_tokensFrom r 0 text [] rfl
  obtain ⟨init, last, tokensEq, isEnd, textEq, trailingEq, others⟩ := Token.ends_tokensFrom r 0 text
  refine ⟨contiguous, ⟨init, last, tokensEq, ⟨isEnd, textEq, ?_, trailingEq⟩, ?_⟩, laidOut,
    Token.trailing_tokensFrom r 0 text, (Token.leading_tokensFrom r 0 text).2⟩
  · rw [tokensEq] at contiguous
    rw [(laidOut last (by simp [tokensEq])).span_eq_empty textEq trailingEq, contiguous.stop_eq,
      List.nil_append]
  · intro t member
    obtain ⟨notEnd, nonempty⟩ := others t member
    exact ⟨notEnd, (laidOut t (by simp [tokensEq, member])).span_lt nonempty⟩

end LispSyntax
