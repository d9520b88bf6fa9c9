import LispSyntax.Proofs.Moved

/-! # Tokens on both sides of a line feed

If nothing is wrong with the lexemes of a text, a line feed behind it ends them all. The text that follows cannot reach
back: the tokens before the line feed are those of the first text, those behind it are those of the second, moved
(`exists_tokens_of_lines`).

Trivia at the seam is divided anew. The end of the first text is gone, and its trivia goes to the first token of the
second, together with the line feed. So that token never touches the one before it, and elsewhere tokens touch where
they did (`joined_read_iff`).
-/

namespace LispSyntax

namespace Trivia

variable {side : Side} {x b : Text} {cut : Cut}

/-! ## Trivia -/

theorem feed_not_mem_of_piece? (found : piece? .trailing x = some cut) : '\n' ∉ cut.text := by
  have fits := @fits_of_piece? .trailing [] x cut found (by simp)
  have inline := kind_ne_newline_of_inlinePiece? (piece?_trailing_eq_some found)
  intro member
  cases kind : cut.kind with
  | newline => contradiction
  | comma =>
    rw [kind] at fits
    have isComma := fits.2.1 _ member
    contradiction
  | comment =>
    rw [kind] at fits
    obtain ⟨first, more, parts⟩ := List.append_of_mem member
    exact fits.2.2 first _ parts (List.cons_ne_nil _ _) ⟨more ++ cut.rest, .inl rfl⟩
  | whitespace =>
    rw [kind] at fits
    exact (fits.2 _ member).2 rfl

theorem feed_not_mem_gap (x : Text) : '\n' ∉ gap .trailing x := by
  unfold gap
  fun_induction cuts .trailing x with
  | case1 => simp
  | case2 x cut found next inductionHypothesis =>
    rw [List.map_cons, List.flatten_cons, List.mem_append]
    exact not_or.mpr ⟨feed_not_mem_of_piece? found, inductionHypothesis⟩

/-- Trivia after a token stops before a line feed. -/
theorem exists_skip_trailing_append_feed (x b : Text) : ∃ z, skip .trailing (x ++ '\n' :: b) = z ++ '\n' :: b := by
  have whole := gap_append_skip .trailing (x ++ '\n' :: b)
  obtain ⟨z, parts⟩ := Lexical.prefix_of_not_mem ⟨_, whole⟩ (feed_not_mem_gap (x ++ '\n' :: b))
  refine ⟨z, List.append_cancel_left (whole.trans ?_)⟩
  rw [← List.append_assoc, parts]

theorem read_eq_nil_iff (side : Side) (x : Text) : read side x = [] ↔ skip side x = x := by
  cases found : piece? side x with
  | none => simp [read, skip, cuts_of_stopped found]
  | some cut =>
    have shorter : (skip side x).length < x.length := by
      rw [skip_of_piece? found]
      exact Nat.lt_of_le_of_lt (length_skip_le side cut.rest) (length_of_piece? found)
    constructor
    · intro none
      simp [read, cuts_of_piece? found] at none
    · intro same
      rw [same] at shorter
      exact absurd shorter (Nat.lt_irrefl _)

/-- A text starts with no trivia of either side if it starts with none that can stand before a token. -/
theorem skip_both_iff (x : Text) :
    skip .trailing x = x ∧ skip .leading (skip .trailing x) = skip .trailing x ↔ skip .leading x = x := by
  constructor
  · rintro ⟨after, before⟩
    rw [after] at before
    exact before
  · intro same
    have longer := length_skip_le .leading (skip .trailing x)
    rw [skip_skip_trailing, same] at longer
    have all : skip .trailing x = x :=
      List.IsSuffix.eq_of_length_le ⟨_, gap_append_skip .trailing x⟩ longer
    rw [all]
    exact ⟨rfl, same⟩

/-- Before a line feed the same lexeme comes first, if any does. -/
theorem skip_lines (going : skip .leading x ≠ []) (b : Text) :
    skip .leading (x ++ '\n' :: b) = skip .leading x ++ '\n' :: b := by
  have solid := Token.solid_skip x
  obtain ⟨c, cs, first⟩ := List.exists_cons_of_ne_nil going
  have solid' : Writing.Solid (skip .leading x ++ '\n' :: b) := by
    intro d ds same
    rw [first] at same
    obtain ⟨rfl, -⟩ := List.cons.inj same
    exact solid c cs first
  rw [skip_append_feed, skip, Writing.cuts_of_solid solid']

end Trivia

namespace Token

variable {r : Registry} {offset offset' : Nat} {x x' b : Text} {t : Token} {ts us : List Token}

/-! ## One token -/

theorem skip_ne_nil (notEnd : (read r offset x).token.kind ≠ .eof) : Trivia.skip .leading x ≠ [] := by
  intro none
  simp [read, none, lexemeOf, Lexeme.clean] at notEnd

theorem skip_eq_nil (isEnd : (read r offset x).token.kind = .eof) : Trivia.skip .leading x = [] := by
  cases skipped : Trivia.skip .leading x with
  | nil => rfl
  | cons c cs =>
    have notEnd := (Scan.regular_scan r c cs).1
    simp only [read, skipped, lexemeOf] at isEnd
    contradiction

/-- The text after the lexeme of the first token. -/
def behind (r : Registry) (x : Text) : Text :=
  (lexemeOf r (Trivia.skip .leading x)).rest

/-- Neighbours touch exactly if no trivia follows the lexeme of the first. -/
theorem joined_read_iff (r : Registry) (offset offset' : Nat) (x : Text) :
    (read r offset x).token.joined (read r offset' (read r offset x).rest).token = true ↔
      Trivia.skip .leading (behind r x) = behind r x := by
  rw [joined, Bool.and_eq_true, List.isEmpty_iff, List.isEmpty_iff, ← Trivia.skip_both_iff]
  exact and_congr (Trivia.read_eq_nil_iff ..) (Trivia.read_eq_nil_iff ..)

/-- Where the same lexeme comes first at the same distance from the end, only the trivia before it can differ. -/
theorem read_of_skip_eq (same : Trivia.skip .leading x' = Trivia.skip .leading x)
    (total : offset' + Text.size x' = offset + Text.size x) :
    read r offset' x' = { read r offset x with
      token := { (read r offset x).token with leading := Trivia.read .leading x' } } := by
  have size := Trivia.size_read_add .leading x
  have size' := Trivia.size_read_add .leading x'
  rw [same] at size'
  have start : offset' + Trivia.size (Trivia.read .leading x') = offset + Trivia.size (Trivia.read .leading x) := by
    omega
  simp only [read, same, start]

theorem tokensFrom_of_skip_eq (same : Trivia.skip .leading x' = Trivia.skip .leading x)
    (total : offset' + Text.size x' = offset + Text.size x) (tokens : (tokensFrom r offset x).1 = t :: ts) :
    (tokensFrom r offset' x').1 = { t with leading := Trivia.read .leading x' } :: ts := by
  have again := @read_of_skip_eq r offset offset' x x' same total
  cases Classical.em ((read r offset x).token.kind = .eof) with
  | inl isEnd =>
    have isEnd' : (read r offset' x').token.kind = .eof := by rw [again]; exact isEnd
    rw [tokensFrom_of_end isEnd] at tokens
    obtain ⟨rfl, rfl⟩ := List.cons.inj tokens
    rw [tokensFrom_of_end isEnd', again]
  | inr notEnd =>
    have notEnd' : (read r offset' x').token.kind ≠ .eof := by rw [again]; exact notEnd
    rw [tokensFrom_of_going notEnd] at tokens
    obtain ⟨rfl, rfl⟩ := List.cons.inj tokens
    rw [tokensFrom_of_going notEnd', again]

theorem head_tokensFrom (tokens : (tokensFrom r offset x).1 = t :: ts) : t = (read r offset x).token := by
  cases Classical.em ((read r offset x).token.kind = .eof) with
  | inl isEnd =>
    rw [tokensFrom_of_end isEnd] at tokens
    exact (List.cons.inj tokens).1.symm
  | inr notEnd =>
    rw [tokensFrom_of_going notEnd] at tokens
    exact (List.cons.inj tokens).1.symm

/-- The token before a line feed, and the text after its lexeme. -/
theorem read_before_feed (going : Trivia.skip .leading x ≠ []) (clean : (read r offset x).diagnostics = [])
    (same : Trivia.skip .leading x' = Trivia.skip .leading (x ++ '\n' :: b))
    (total : offset' + Text.size x' = offset + Text.size (x ++ '\n' :: b)) :
    (Likeness.moved 0).tokens (read r offset x).token (read r offset' x').token ∧
      behind r x' = behind r x ++ '\n' :: b := by
  have first : Trivia.skip .leading x' = Trivia.skip .leading x ++ '\n' :: b := same.trans (Trivia.skip_lines going b)
  have sound : (lexemeOf r (Trivia.skip .leading x)).lexeme.problems = [] := List.map_eq_nil_iff.mp clean
  have lexeme := lexemeOf_append_feed (solid_skip x) going sound b
  have size := Trivia.size_read_add .leading x
  have size' := Trivia.size_read_add .leading x'
  rw [first] at size'
  have start : offset' + Trivia.size (Trivia.read .leading x') = offset + Trivia.size (Trivia.read .leading x) := by
    simp only [Text.size_append] at size' total
    omega
  refine ⟨⟨?_, ?_, ?_⟩, ?_⟩
  · simp only [read, first, lexeme]
  · simp only [read, first, lexeme]
  · simp only [read, first, lexeme, start, shift_ofSize, Nat.zero_add]
  · simp only [behind, first, lexeme]

/-! ## All tokens -/

/-- What a list of tokens has at slashes is what its neighbours have. -/
theorem AgreeAtSlashes.cons {u : Token} (agree : AgreeAtSlashes ts us)
    (first : ∀ t' ts' u' us', ts = t' :: ts' → us = u' :: us' → t.joined t' = u.joined u') :
    AgreeAtSlashes (t :: ts) (u :: us) := by
  intro i v v' w w' here next here' next' beside
  cases i with
  | zero =>
    cases here
    cases here'
    cases ts with
    | nil => contradiction
    | cons t' ts' =>
      cases us with
      | nil => contradiction
      | cons u' us' =>
        obtain rfl := Option.some.inj next
        obtain rfl := Option.some.inj next'
        exact first _ _ _ _ rfl rfl
  | succ i => exact agree i v v' w w' here next here' next' beside

/-- The tokens of a text without lexical problems are also those up to a line feed behind it. The text may start with
other trivia, which is where the second text takes over from the trivia after the last token. -/
theorem exists_tokensFrom_of_lines (r : Registry) (offset : Nat) (x b : Text) :
    (tokensFrom r offset x).2 = [] → ∀ offset' x',
    Trivia.skip .leading x' = Trivia.skip .leading (x ++ '\n' :: b) →
    offset' + Text.size x' = offset + Text.size (x ++ '\n' :: b) → (∃ z, x' = z ++ '\n' :: b) →
    ∃ init last init' start y, (tokensFrom r offset x).1 = init ++ [last] ∧
      (tokensFrom r offset' x').1 = init' ++ (tokensFrom r start y).1 ∧
      List.Forall₂ (Likeness.moved 0).tokens init init' ∧ AgreeAtSlashes init init' ∧
      Trivia.skip .leading y = Trivia.skip .leading b ∧
      start + Text.size y = offset + Text.size (x ++ '\n' :: b) ∧ ∃ z, y = z ++ '\n' :: b := by
  -- Along the induction the two texts agree only behind the trivia before the next token.
  fun_induction tokensFrom r offset x with
  | case1 offset x reading isEnd =>
    intro _ offset' x' same total feed
    have skipped : Trivia.skip .leading x' = Trivia.skip .leading b := by
      rw [same, Trivia.skip_append_feed, skip_eq_nil isEnd, List.nil_append, Trivia.skip_feed]
    exact ⟨[], reading.token, [], offset', x', rfl, rfl, .nil, by intro i; simp, skipped, total, feed⟩
  | case2 offset x reading notEnd next inductionHypothesis =>
    intro clean offset' x' same total feed
    obtain ⟨soundFirst, soundOthers⟩ := List.append_eq_nil_iff.mp clean
    obtain ⟨first, behindEq⟩ := read_before_feed (skip_ne_nil notEnd) soundFirst same total
    have rest : reading.rest = Trivia.skip .trailing (behind r x) := rfl
    have rest' : (read r offset' x').rest = Trivia.skip .trailing (behind r x ++ '\n' :: b) := by
      rw [← behindEq]
      rfl
    have same' : Trivia.skip .leading (read r offset' x').rest = Trivia.skip .leading (reading.rest ++ '\n' :: b) := by
      rw [rest, rest', Trivia.skip_skip_trailing, Trivia.skip_append_feed (behind r x),
        Trivia.skip_append_feed (Trivia.skip .trailing (behind r x)), Trivia.skip_skip_trailing]
    have total' : (read r offset' x').offset + Text.size (read r offset' x').rest =
        reading.offset + Text.size (reading.rest ++ '\n' :: b) := by
      have whole := size_rest_read r offset x
      rw [size_rest_read, total, Text.size_append, Text.size_append, ← Nat.add_assoc, ← Nat.add_assoc, ← whole]
    have feed' : ∃ z, (read r offset' x').rest = z ++ '\n' :: b := by
      rw [rest']
      exact Trivia.exists_skip_trailing_append_feed ..
    obtain ⟨init, last, init', start, y, tokens, tokens', related, agree, skipped, size, feedBefore⟩ :=
      inductionHypothesis soundOthers _ _ same' total' feed'
    have notEnd' : (read r offset' x').token.kind ≠ .eof := by
      rw [← first.1]
      exact notEnd
    refine ⟨reading.token :: init, last, (read r offset' x').token :: init', start, y, ?_, ?_, .cons first related, ?_,
      skipped, ?_, feedBefore⟩
    · rw [List.cons_append, ← tokens]
    · rw [tokensFrom_of_going notEnd', tokens', List.cons_append]
    · apply agree.cons
      rintro t ts u us rfl rfl
      have going : Trivia.skip .leading (behind r x) ≠ [] := by
        rw [← Trivia.skip_skip_trailing, ← rest]
        exact skip_ne_nil (going_of_cons tokens (List.cons_ne_nil last []))
      rw [head_tokensFrom tokens, head_tokensFrom tokens', Bool.eq_iff_iff, joined_read_iff, joined_read_iff, behindEq,
        Trivia.skip_lines going, List.append_left_inj]
    · rw [size, Text.size_append, ← Nat.add_assoc, size_rest_read, Text.size_append, Nat.add_assoc]

/-- Other trivia before the first token does not show in what touches what. -/
theorem agreeAtSlashes_first (n : Nat) (leading : Trivia) (t : Token) (ts : List Token) :
    AgreeAtSlashes (t :: ts) (({ t with leading := leading } :: ts).map (shift n)) := by
  rw [List.map_cons]
  apply (agreeAtSlashes_shift n ts).cons
  rintro t' ts' u' us' rfl moved
  obtain ⟨rfl, -⟩ := List.cons.inj moved
  rfl

/-- The tokens of two texts with a line feed between them. -/
structure Lines (n : Nat) (init initB : List Token) (lastB : Token) (init' initB' : List Token) (lastB' : Token) :
    Prop where
  before : List.Forall₂ (Likeness.moved 0).tokens init init'
  behind : List.Forall₂ (Likeness.moved n).tokens initB initB'
  ends : (Likeness.moved n).tokens lastB lastB'
  touching : AgreeAtSlashes init init'
  touchingBehind : AgreeAtSlashes initB initB'
  apart : ∀ t ts, initB' = t :: ts → t.leading ≠ []

/-- The tokens of a text without lexical problems and, on lines of their own behind it, those of any other. -/
theorem exists_tokens_of_lines {a : Text} (clean : (tokenize a r).2 = []) (b : Text) :
    ∃ init last initB lastB init' initB' lastB', (tokenize a r).1 = init ++ [last] ∧
      (tokenize b r).1 = initB ++ [lastB] ∧ (tokenize (a ++ '\n' :: b) r).1 = init' ++ initB' ++ [lastB'] ∧
      Lines (Text.size a + 1) init initB lastB init' initB' lastB' := by
  obtain ⟨init, last, init', start, y, tokens, tokens', related, agree, skipped, size, z, feed⟩ :=
    exists_tokensFrom_of_lines r 0 a b clean 0 (a ++ '\n' :: b) rfl rfl ⟨a, rfl⟩
  obtain ⟨initB, lastB, tokensB, -⟩ := exists_init_tokensFrom r 0 b
  obtain ⟨t, ts, first⟩ : ∃ t ts, (tokensFrom r 0 b).1 = t :: ts := by
    rw [tokensB]
    exact List.exists_cons_of_ne_nil (by simp)
  -- The end of the first text gives its trivia to the token behind the line feed.
  have later : (tokensFrom r start y).1 = ({ t with leading := Trivia.read .leading y } :: ts).map
      (shift (Text.size a + 1)) := by
    have moved := tokensFrom_shift r (Text.size a + 1) 0 b
    rw [first, List.map_cons] at moved
    have total : start + Text.size y = Text.size a + 1 + 0 + Text.size b := by
      have feedSize : Char.utf8Size '\n' = 1 := by decide
      rw [size, Text.size_append, Text.size_cons, feedSize]
      omega
    rw [tokensFrom_of_skip_eq skipped total moved]
    rfl
  have spread : Trivia.read .leading y ≠ [] := by
    rw [Ne, Trivia.read_eq_nil_iff, skipped, feed]
    intro same
    have shorter := Trivia.length_skip_le .leading b
    rw [same] at shorter
    simp only [List.length_append, List.length_cons] at shorter
    omega
  have related' : List.Forall₂ (Likeness.moved (Text.size a + 1)).tokens (t :: ts)
      (({ t with leading := Trivia.read .leading y } :: ts).map (shift (Text.size a + 1))) :=
    .cons ⟨rfl, rfl, rfl⟩ (moved_shift _ ts)
  have agree' := agreeAtSlashes_first (Text.size a + 1) (Trivia.read .leading y) t ts
  generalize arrived : ({ t with leading := Trivia.read .leading y } :: ts).map (shift (Text.size a + 1)) = all
    at later related' agree'
  rw [← first, tokensB] at related' agree'
  obtain ⟨initB', lastB', rfl⟩ : ∃ initB' lastB', all = initB' ++ [lastB'] := by
    rw [← arrived]
    exact ⟨_, _, (List.dropLast_append_getLast (by simp)).symm⟩
  obtain ⟨relatedInit, relatedEnd⟩ := forall₂_of_concat related'
  refine ⟨init, last, initB, lastB, init', initB', lastB', tokens, tokensB, ?_,
    ⟨related, relatedInit, relatedEnd, agree, agree'.left, ?_⟩⟩
  · rw [tokenize, tokens', later, List.append_assoc]
  · rintro u us rfl
    rw [List.map_cons, List.cons_append] at arrived
    rw [← (List.cons.inj arrived).1]
    exact spread

/-- What is wrong with the lexemes of the lines is what is wrong with those of the second text. -/
theorem lexical_of_lines {a : Text} {n : Nat} {init initB init' initB' : List Token} {last lastB lastB' : Token}
    (clean : (tokenize a r).2 = []) (tokens : (tokenize a r).1 = init ++ [last])
    (tokensB : (tokenize b r).1 = initB ++ [lastB])
    (tokens' : (tokenize (a ++ '\n' :: b) r).1 = init' ++ initB' ++ [lastB'])
    (lines : Lines n init initB lastB init' initB' lastB') :
    (tokenize (a ++ '\n' :: b) r).2 = (tokenize b r).2.map (Diagnostic.shift n) := by
  have ofTokens : ∀ text, (tokenize text r).2 = (tokenize text r).1.flatMap diagnostics := diagnostics_tokensFrom r 0
  rw [ofTokens, tokens, List.flatMap_append, List.append_eq_nil_iff] at clean
  rw [ofTokens, ofTokens, tokens', tokensB, List.append_assoc, List.flatMap_append,
    flatMap_diagnostics_of_moved lines.before,
    flatMap_diagnostics_of_moved (List.rel_append lines.behind (.cons lines.ends .nil)), clean.1]
  rfl

end Token

end LispSyntax
