import LispSyntax.Proofs.Lexical.Context
import LispSyntax.Proofs.Likeness

/-! # Tokens of a part of a text

Tokens do not depend on what stands before them but for their places, so a part of a text that starts where a token
starts has the tokens of the text from there on, moved (`tokensFrom_shift`). If it ends where a token ends, it has just
the tokens up to there, with all their trivia, and then its own end (`exists_excerpt`).
-/

namespace LispSyntax

def Diagnostic.shift (n : Nat) (d : Diagnostic) : Diagnostic :=
  { d with span := d.span.shift n }

namespace Token

def shift (n : Nat) (t : Token) : Token :=
  { t with span := t.span.shift n }

variable {r : Registry} {offset n : Nat} {x s v : Text} {ts us : List Token}

/-! ## Places -/

theorem shift_ofSize (n start size : Nat) : (Span.ofSize start size).shift n = Span.ofSize (n + start) size := by
  simp [Span.shift, Span.ofSize, Nat.add_assoc]

theorem diagnostics_shift (n : Nat) (t : Token) : (t.shift n).diagnostics = t.diagnostics.map (Diagnostic.shift n) := by
  simp [diagnostics, shift, Diagnostic.shift, Diagnostic.lexical, Span.shift, Nat.add_assoc]

theorem token_read_shift (r : Registry) (n offset : Nat) (text : Text) :
    (read r (n + offset) text).token = (read r offset text).token.shift n := by
  simp [read, shift, shift_ofSize, Nat.add_assoc]

theorem tokensFrom_of_end (isEnd : (read r offset x).token.kind = .eof) :
    (tokensFrom r offset x).1 = [(read r offset x).token] := by
  rw [tokensFrom, if_pos isEnd]

theorem tokensFrom_of_going (notEnd : (read r offset x).token.kind ≠ .eof) :
    (tokensFrom r offset x).1 =
      (read r offset x).token :: (tokensFrom r (read r offset x).offset (read r offset x).rest).1 := by
  rw [tokensFrom, if_neg notEnd]

theorem tokensFrom_shift (r : Registry) (n offset : Nat) (text : Text) :
    (tokensFrom r (n + offset) text).1 = (tokensFrom r offset text).1.map (shift n) := by
  fun_induction tokensFrom r offset text with
  | case1 offset text reading isEnd =>
    have isEnd' : (read r (n + offset) text).token.kind = .eof := by rw [token_read_shift]; exact isEnd
    rw [tokensFrom_of_end isEnd', token_read_shift]
    rfl
  | case2 offset text reading notEnd next inductionHypothesis =>
    have notEnd' : (read r (n + offset) text).token.kind ≠ .eof := by rw [token_read_shift]; exact notEnd
    have offsetEq : (read r (n + offset) text).offset = n + reading.offset := by
      simp [read, reading, Span.ofSize, Nat.add_assoc]
    have restEq : (read r (n + offset) text).rest = reading.rest := rfl
    rw [tokensFrom_of_going notEnd', token_read_shift, offsetEq, restEq, inductionHypothesis]
    rfl

/-- A list of tokens with more to come does not start with the end. -/
theorem going_of_cons {t : Token} (tokens : (tokensFrom r offset x).1 = t :: (ts ++ us)) (more : us ≠ []) :
    (read r offset x).token.kind ≠ .eof := by
  intro isEnd
  rw [tokensFrom_of_end isEnd] at tokens
  obtain ⟨-, rfl⟩ := List.append_eq_nil_iff.mp (List.cons.inj tokens).2.symm
  contradiction

/-- The tokens from the `n`th on are those of the text from there on. -/
theorem exists_tokensFrom_suffix (tokens : (tokensFrom r offset x).1 = ts ++ us) (more : us ≠ []) :
    ∃ left y, x = left ++ y ∧ (tokensFrom r (offset + Text.size left) y).1 = us := by
  induction ts generalizing offset x with
  | nil => exact ⟨[], x, rfl, tokens⟩
  | cons t ts inductionHypothesis =>
    rw [tokensFrom_of_going (going_of_cons tokens more)] at tokens
    obtain ⟨-, -, stretch, whole, offsetEq, -⟩ := covers_read r offset x
    obtain ⟨left, y, rest, tokens'⟩ := inductionHypothesis (List.cons.inj tokens).2
    refine ⟨stretch ++ left, y, by rw [List.append_assoc, ← rest, ← whole], ?_⟩
    rw [Text.size_append, ← Nat.add_assoc, ← offsetEq, tokens']

/-! ## Cutting off what follows -/

/-- Without some of what follows it, the same token is read. -/
theorem read_truncate {w : Text} (split : x = w ++ v) (left : (read r offset x).rest = s ++ v)
    (whole : ¬ Trivia.Severed s v) : read r offset w = { read r offset x with rest := s } := by
  have solid := solid_skip x
  have before := Trivia.gap_append_skip .leading x
  have lexeme := lexemeOf_append r (Trivia.skip .leading x)
  have after := Trivia.gap_append_skip .trailing (lexemeOf r (Trivia.skip .leading x)).rest
  have left' : Trivia.skip .trailing (lexemeOf r (Trivia.skip .leading x)).rest = s ++ v := left
  rw [left', ← List.append_assoc] at after
  have core : Trivia.skip .leading x = (lexemeOf r (Trivia.skip .leading x)).lexeme.text ++
      (Trivia.gap .trailing (lexemeOf r (Trivia.skip .leading x)).rest ++ s) ++ v := by
    rw [List.append_assoc, after, lexeme]
  -- The lexeme starts with no blank, so no line break is cut there.
  have starts : ¬ Trivia.Severed ((lexemeOf r (Trivia.skip .leading x)).lexeme.text ++
      (Trivia.gap .trailing (lexemeOf r (Trivia.skip .leading x)).rest ++ s)) v := by
    rintro ⟨isReturn, -⟩
    rw [isReturn] at core
    have notBlank := (solid '\r' v core).1
    contradiction
  have leading := Trivia.cuts_truncate core starts
  have scanned := lexemeOf_truncate solid after.symm
  have trailing := Trivia.cuts_truncate left' whole
  have wEq : Trivia.gap .leading x ++ ((lexemeOf r (Trivia.skip .leading x)).lexeme.text ++
      (Trivia.gap .trailing (lexemeOf r (Trivia.skip .leading x)).rest ++ s)) = w := by
    refine (List.append_left_inj v).mp ?_
    rw [← split, List.append_assoc, ← core, before]
  rw [wEq] at leading
  have leadingRead : Trivia.read .leading w = Trivia.read .leading x := by
    rw [Trivia.read, leading, Trivia.read]
  have leadingSkip : Trivia.skip .leading w = (lexemeOf r (Trivia.skip .leading x)).lexeme.text ++
      (Trivia.gap .trailing (lexemeOf r (Trivia.skip .leading x)).rest ++ s) := by
    rw [Trivia.skip, leading]
  have trailingRead : Trivia.read .trailing
      (Trivia.gap .trailing (lexemeOf r (Trivia.skip .leading x)).rest ++ s) =
        Trivia.read .trailing (lexemeOf r (Trivia.skip .leading x)).rest := by
    rw [Trivia.read, trailing, Trivia.read]
  have trailingSkip : Trivia.skip .trailing
      (Trivia.gap .trailing (lexemeOf r (Trivia.skip .leading x)).rest ++ s) = s := by
    rw [Trivia.skip, trailing]
  simp only [read, leadingRead, leadingSkip, scanned, trailingRead, trailingSkip]

/-- The end of a text that stops at the offset. -/
def endAt (offset : Nat) : Token :=
  ⟨[], .eof, [], Span.ofSize offset 0, []⟩

theorem tokensFrom_nil (r : Registry) (offset : Nat) : (tokensFrom r offset []).1 = [endAt offset] := by
  have solid : Writing.Solid [] := fun _ _ same => by contradiction
  rw [tokensFrom]
  simp [read, Trivia.skip, Trivia.read, Writing.cuts_of_solid solid, lexemeOf, endAt, Lexeme.clean]

theorem length_tokensFrom_return (r : Registry) (offset : Nat) : (tokensFrom r offset ['\r']).1.length = 1 := by
  have skipped : Trivia.skip .leading ['\r'] = [] := by
    rw [@Trivia.skip_of_piece? .leading _ ⟨.whitespace, ['\r'], []⟩ rfl]
    exact List.eq_nil_of_length_eq_zero (Nat.le_zero.mp (Trivia.length_skip_le .leading []))
  rw [tokensFrom]
  simp [read, skipped, lexemeOf, Lexeme.clean]

/-- A text that is cut off where a token ends has the tokens up to there. -/
theorem exists_tokensFrom_prefix (tokens : (tokensFrom r offset x).1 = ts ++ us) (more : us ≠ []) :
    ∃ w v, x = w ++ v ∧ (ts = [] → w = []) ∧
      (tokensFrom r offset w).1 = ts ++ [endAt (offset + Text.size w)] := by
  induction ts generalizing offset x with
  | nil => exact ⟨[], x, rfl, fun _ => rfl, tokensFrom_nil r offset⟩
  | cons t ts inductionHypothesis =>
    have notEnd := going_of_cons tokens more
    rw [tokensFrom_of_going notEnd] at tokens
    obtain ⟨isFirst, others⟩ := List.cons.inj tokens
    obtain ⟨-, -, stretch, whole, offsetEq, -⟩ := covers_read r offset x
    obtain ⟨s, v, rest, empty, tokens'⟩ := inductionHypothesis others
    have uncut : ¬ Trivia.Severed s v := by
      rintro ⟨rfl, -⟩
      have one := length_tokensFrom_return r (read r offset x).offset
      rw [tokens'] at one
      cases ts with
      | nil => exact absurd (empty rfl) (List.cons_ne_nil _ _)
      | cons => simp at one
    have split : x = stretch ++ s ++ v := by rw [List.append_assoc, ← rest, ← whole]
    have again := read_truncate split rest uncut
    refine ⟨stretch ++ s, v, split, fun none => by contradiction, ?_⟩
    rw [tokensFrom_of_going (by rw [again]; exact notEnd), again]
    simp only
    rw [tokens', offsetEq, Text.size_append, Nat.add_assoc, isFirst, List.cons_append]

theorem shift_injective (n : Nat) : Function.Injective (shift n) := by
  rintro ⟨leading, kind, text, ⟨start, stop, _⟩, trailing⟩ ⟨leading', kind', text', ⟨start', stop', _⟩, trailing'⟩ same
  simpa [shift, Span.shift] using same

/-- A part of a text that starts where a token starts and ends where a token ends has the tokens in between, and then
its end. -/
theorem exists_excerpt {text : Text} {before : List Token}
    (tokens : (tokenize text r).1 = before ++ ts ++ us) (more : us ≠ []) :
    ∃ left w right init, text = left ++ w ++ right ∧ (tokenize w r).1 = init ++ [endAt (Text.size w)] ∧
      ts = init.map (shift (Text.size left)) := by
  rw [List.append_assoc] at tokens
  obtain ⟨left, y, whole, tokens'⟩ := exists_tokensFrom_suffix tokens (by simp [more])
  obtain ⟨w, right, split, -, excerpt⟩ := exists_tokensFrom_prefix tokens' more
  have moved : (tokenize w r).1.map (shift (Text.size left)) =
      ts ++ [endAt (Text.size w)].map (shift (Text.size left)) := by
    rw [tokenize, ← tokensFrom_shift, Nat.add_zero, ← Nat.zero_add (Text.size left), excerpt, List.map_singleton,
      endAt, endAt, shift, shift_ofSize, Nat.zero_add]
  obtain ⟨init, ends, splitTokens, rfl, endsEq⟩ := List.map_eq_append_iff.mp moved
  rw [(List.map_injective_iff.mpr (shift_injective _)) endsEq] at splitTokens
  exact ⟨left, w, right, init, by rw [whole, split, List.append_assoc], splitTokens, rfl⟩

end Token

end LispSyntax
