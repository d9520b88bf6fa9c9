import LispSyntax.Proofs.Replay
import LispSyntax.Proofs.Writing.Scan

/-! # The tokens of what is written

`exists_spelled`: the tokens of written items are their words, one by one, with the one space between two
items as the trailing trivia of the first. `Spelled` says just what the parser can see of this: kinds,
texts, and which tokens touch. Inside a lookup they do, anywhere else they do not.
-/

namespace LispSyntax

namespace Writing

open Scan

/-! ## Blanks -/

/-- No trivia stands at the front of the text. -/
def Solid (text : Text) : Prop :=
  ∀ c cs, text = c :: cs → Text.isBlank c = false ∧ c ≠ ',' ∧ c ≠ ';'

theorem isDigit_of_isBlank {c : Char} (blank : Text.isBlank c = true) : Text.isDigit c = false := by
  cases isDigit : Text.isDigit c with
  | false => rfl
  | true =>
    have low : 48 ≤ c.toNat := by
      simp only [Text.isDigit, Bool.and_eq_true, decide_eq_true_eq] at isDigit
      exact isDigit.1
    have high : c.toNat ≤ 57 := by
      simp only [Text.isDigit, Bool.and_eq_true, decide_eq_true_eq] at isDigit
      exact isDigit.2
    simp [Text.isBlank] at blank
    omega

/-- What the scanner can read does not start with trivia. -/
theorem solid_of_lexemeOf {r : Registry} {text : Text}
    (readable : (Token.lexemeOf r text).lexeme.kind ≠ .unknown) : Solid text := by
  rintro c cs rfl
  refine ⟨?_, ?_, ?_⟩
  · cases blank : Text.isBlank c with
    | false => rfl
    | true =>
      have notMark := mark?_of_class blank (by decide)
      have notDigit := isDigit_of_isBlank blank
      have notNumber : opensNumber c cs = false := by
        simp [opensNumber, ne_of_class blank (d := '+') rfl, ne_of_class blank (d := '-') rfl,
          ne_of_class blank (d := '.') rfl]
      have notSymbol : Text.isSymbolChar c = false := by simp [Text.isSymbolChar, blank]
      refine absurd ?_ readable
      simp [Token.lexemeOf, scan, notMark, notDigit, notNumber, notSymbol,
        ne_of_class blank (d := '"') rfl, ne_of_class blank (d := '\\') rfl,
        ne_of_class blank (d := '#') rfl, ne_of_class blank (d := ':') rfl, Lexeme.flawed]
  · rintro rfl
    exact readable rfl
  · rintro rfl
    exact readable rfl

theorem piece?_of_solid {text : Text} (solid : Solid text) (side : Side) :
    Trivia.piece? side text = none := by
  cases text with
  | nil => rfl
  | cons c cs =>
    obtain ⟨notBlank, notComma, notSemicolon⟩ := solid c cs rfl
    have noBreak : Trivia.lineBreak? (c :: cs) = none := by
      unfold Trivia.lineBreak?
      split
      · rename_i same
        cases same
        contradiction
      · rename_i same
        cases same
        contradiction
      · rfl
    simp [Trivia.piece?, noBreak, Trivia.inlinePiece?, notBlank, notComma, notSemicolon]

theorem cuts_of_solid {text : Text} (solid : Solid text) (side : Side) :
    Trivia.cuts side text = ([], text) := by
  rw [Trivia.cuts]
  split
  · rfl
  · rename_i cut
    rw [piece?_of_solid solid side] at cut
    contradiction

theorem cuts_space {text : Text} (solid : Solid text) :
    Trivia.cuts .trailing (' ' :: text) = ([(.whitespace, [' '])], text) := by
  have taken : text.takeWhile Trivia.continuesBlank = [] ∧
      text.dropWhile Trivia.continuesBlank = text := by
    cases text with
    | nil => simp
    | cons c cs => simp [Trivia.continuesBlank, (solid c cs rfl).1]
  have cut : Trivia.piece? .trailing (' ' :: text) = some ⟨.whitespace, [' '], text⟩ := by
    have inline : Trivia.piece? .trailing (' ' :: text) = Trivia.inlinePiece? (' ' :: text) := rfl
    have blank : Text.isBlank ' ' = true := by decide
    rw [inline, Trivia.inlinePiece?, if_neg (by decide), if_neg (by decide), if_pos blank, taken.1,
      taken.2]
  rw [Trivia.cuts]
  split
  · rename_i none
    rw [cut] at none
    contradiction
  · rename_i found
    rw [cut] at found
    cases found
    simp only [cuts_of_solid solid]

/-! ## One word -/

structure Spells (r : Registry) (t : Token) (w : Word) : Prop where
  kind : t.kind = w.kind r
  text : t.text = w.text
  leading : t.leading = []

theorem Word.kind_ne {r : Registry} (w : Word) : w.kind r ≠ .eof ∧ w.kind r ≠ .unknown := by
  cases w with
  | mark kind isMark =>
    have apart : ∀ kind ∈ markKinds, kind ≠ .eof ∧ kind ≠ .unknown := by decide
    exact apart kind isMark
  | name n =>
    change symbolKind r n.text ≠ .eof ∧ symbolKind r n.text ≠ .unknown
    unfold symbolKind
    split <;> decide
  | literal l =>
    have isLiteral := l.isLiteralToken_kind
    constructor
    · intro isEnd
      rw [show l.kind = .eof from isEnd] at isLiteral
      contradiction
    · intro unknown
      rw [show l.kind = .unknown from unknown] at isLiteral
      contradiction

/-- A word that is scanned as written is the next token, and reading goes on after its trivia, at its place. -/
theorem tokensFrom_word {r : Registry} {w : Word} {rest : Text}
    (scanned : Token.lexemeOf r (w.text ++ rest) = ⟨.clean (w.kind r) w.text, rest⟩) (offset : Nat) :
    ∃ t next, Spells r t w ∧ t.trailing = Trivia.read .trailing rest ∧
      Token.tokensFrom r offset (w.text ++ rest) =
        (t :: (Token.tokensFrom r next (Trivia.skip .trailing rest)).1,
          (Token.tokensFrom r next (Trivia.skip .trailing rest)).2) ∧
      next + Text.size (Trivia.skip .trailing rest) = offset + Text.size (w.text ++ rest) := by
  obtain ⟨notEnd, readable⟩ := w.kind_ne (r := r)
  have solid : Solid (w.text ++ rest) := by
    apply solid_of_lexemeOf (r := r)
    rw [scanned]
    exact readable
  have noTrivia := cuts_of_solid solid .leading
  have leading : Trivia.read .leading (w.text ++ rest) = [] := by simp [Trivia.read, noTrivia]
  have skipped : Trivia.skip .leading (w.text ++ rest) = w.text ++ rest := by
    simp [Trivia.skip, noTrivia]
  have token : (Token.read r offset (w.text ++ rest)).token.kind = w.kind r := by
    simp only [Token.read, skipped, scanned]
    rfl
  have silent : (Token.read r offset (w.text ++ rest)).diagnostics = [] := by
    simp only [Token.read, skipped, scanned]
    rfl
  have after : (Token.read r offset (w.text ++ rest)).rest = Trivia.skip .trailing rest := by
    simp only [Token.read, skipped, scanned]
  refine ⟨(Token.read r offset (w.text ++ rest)).token,
    (Token.read r offset (w.text ++ rest)).offset, ⟨token, ?_, ?_⟩, ?_, ?_, ?_⟩
  · simp only [Token.read, skipped, scanned]
    rfl
  · exact leading
  · simp only [Token.read, skipped, scanned]
  · rw [Token.tokensFrom]
    simp only [token, if_neg notEnd, silent, after, List.nil_append]
  · rw [← after]
    exact Token.size_rest_read r offset (w.text ++ rest)

/-! ## Items -/

/-- The tokens are the words of the items. Tokens of one item touch, tokens of two items do not. -/
inductive Spelled (r : Registry) : List Item → List Token → Prop where
  | nil : Spelled r [] []
  | one {w : Word} {t : Token} {is : List Item} {ts : List Token} :
      Spells r t w → (is ≠ [] → t.trailing ≠ []) → Spelled r is ts →
      Spelled r (.one w :: is) (t :: ts)
  | lookup {account : Account} {n : Name} {t slash u : Token} {is : List Item} {ts : List Token} :
      Spells r t account.word → t.trailing = [] → Spells r slash .slash → slash.trailing = [] →
      Spells r u (.name n) → (is ≠ [] → u.trailing ≠ []) → Spelled r is ts →
      Spelled r (.lookup account n :: is) (t :: slash :: u :: ts)

/-- What follows an item: nothing, or a space and the items after it. -/
def following : List Item → Text
  | [] => []
  | is => ' ' :: write is

theorem write_cons (i : Item) (is : List Item) : write (i :: is) = i.text ++ following is := by
  cases is with
  | nil => simp [write, following]
  | cons j is => simp [write, following]

theorem breaks_following (is : List Item) : Breaks (following is) := by
  intro c cs same
  cases is with
  | nil => contradiction
  | cons i is =>
    cases same
    exact .inl rfl

theorem breaks_slash (cs : Text) : Breaks ('/' :: cs) := by
  intro c ds same
  cases same
  exact .inr rfl

theorem solid_of_breaks (r : Registry) (w : Word) {rest : Text} (breaks : Breaks rest) :
    Solid (w.text ++ rest) := by
  apply solid_of_lexemeOf (r := r)
  rw [lexemeOf_word r w breaks]
  exact w.kind_ne.2

theorem text_lookup (account : Account) (n : Name) :
    (Item.lookup account n).text = account.word.text ++ '/' :: n.text := by
  simp only [Item.text, Item.words, List.flatMap_cons, List.flatMap_nil, List.append_nil]
  rfl

theorem solid_write (is : List Item) : Solid (write is) := by
  cases is with
  | nil =>
    intro c cs same
    contradiction
  | cons i is =>
    rw [write_cons]
    cases i with
    | one w => simpa [Item.text, Item.words] using solid_of_breaks .empty w (breaks_following is)
    | lookup account n =>
      rw [text_lookup, List.append_assoc]
      exact solid_of_breaks .empty account.word (breaks_slash _)

/-- The trivia after an item is the space before the next one. -/
theorem cuts_following (is : List Item) :
    Trivia.skip .trailing (following is) = write is ∧
      (is ≠ [] → Trivia.read .trailing (following is) ≠ []) := by
  cases is with
  | nil =>
    have none : Trivia.cuts .trailing [] = ([], []) := cuts_of_solid (solid_write []) .trailing
    simp [following, write, Trivia.skip, Trivia.read, none]
  | cons i is =>
    have space := cuts_space (solid_write (i :: is))
    simp [following, Trivia.skip, Trivia.read, space]

theorem scan_slash (r : Registry) (rest : Text) :
    Token.lexemeOf r (Word.slash.text ++ rest) =
      ⟨.clean (Word.slash.kind r) Word.slash.text, rest⟩ :=
  rfl

theorem solid_slash (r : Registry) (rest : Text) : Solid ('/' :: rest) := by
  apply solid_of_lexemeOf (r := r)
  have scanned : Token.lexemeOf r ('/' :: rest) = _ := scan_slash r rest
  rw [scanned]
  exact (Word.kind_ne (r := r) .slash).2

theorem touches {text : Text} (solid : Solid text) :
    Trivia.read .trailing text = [] ∧ Trivia.skip .trailing text = text := by
  simp [Trivia.read, Trivia.skip, cuts_of_solid solid]

theorem tokensFrom_nil (r : Registry) (offset : Nat) :
    ∃ last, Token.tokensFrom r offset [] = ([last], []) ∧ last.kind = .eof ∧ last.text = [] := by
  have none : ∀ side, Trivia.cuts side [] = ([], []) := cuts_of_solid (solid_write [])
  have skipped : ∀ side, Trivia.skip side [] = [] := fun side => by simp [Trivia.skip, none]
  have noTrivia : ∀ side, Trivia.read side [] = [] := fun side => by simp [Trivia.read, none]
  refine ⟨(Token.read r offset []).token, ?_, ?_, ?_⟩
  · rw [Token.tokensFrom]
    simp [Token.read, skipped, noTrivia, Token.lexemeOf, Lexeme.clean, Token.diagnosticsAt]
  · simp [Token.read, skipped, Token.lexemeOf, Lexeme.clean]
  · simp [Token.read, skipped, Token.lexemeOf, Lexeme.clean]

/-- The three words of a lookup touch, so only the last one has the space behind it. -/
theorem tokensFrom_lookup (r : Registry) (account : Account) (n : Name) (is : List Item)
    (offset : Nat) :
    ∃ t slash u next, Spells r t account.word ∧ t.trailing = [] ∧ Spells r slash .slash ∧
      slash.trailing = [] ∧ Spells r u (.name n) ∧ u.trailing = Trivia.read .trailing (following is) ∧
      Token.tokensFrom r offset ((Item.lookup account n).text ++ following is) =
        (t :: slash :: u :: (Token.tokensFrom r next (write is)).1,
          (Token.tokensFrom r next (write is)).2) := by
  obtain ⟨skipped, -⟩ := cuts_following is
  have slashTouches := touches (solid_slash r ((Word.name n).text ++ following is))
  have nameTouches := touches (solid_of_breaks r (.name n) (breaks_following is))
  obtain ⟨t, next, spellsAccount, trailing, tokens, -⟩ := tokensFrom_word
    (lexemeOf_word r account.word (breaks_slash ((Word.name n).text ++ following is))) offset
  obtain ⟨slash, next', spellsSlash, trailing', tokens', -⟩ :=
    tokensFrom_word (scan_slash r ((Word.name n).text ++ following is)) next
  obtain ⟨u, next'', spellsName, trailing'', tokens'', -⟩ :=
    tokensFrom_word (lexemeOf_word r (.name n) (breaks_following is)) next'
  rw [slashTouches.1] at trailing
  rw [nameTouches.1] at trailing'
  rw [nameTouches.2, tokens'', skipped] at tokens'
  have slashNext : Token.tokensFrom r next ('/' :: ((Word.name n).text ++ following is)) = _ :=
    tokens'
  rw [slashTouches.2, slashNext] at tokens
  refine ⟨t, slash, u, next'', spellsAccount, trailing, spellsSlash, trailing', spellsName,
    trailing'', ?_⟩
  rw [text_lookup, List.append_assoc]
  exact tokens

/-- The tokens of written items are the words of the items and the end, and nothing is wrong with them. -/
theorem exists_spelled (r : Registry) (offset : Nat) (is : List Item) :
    ∃ ts last, Token.tokensFrom r offset (write is) = (ts ++ [last], []) ∧ Spelled r is ts ∧
      last.kind = .eof ∧ last.text = [] := by
  -- The offset moves with the text, and nothing that is said about the tokens depends on it.
  induction is generalizing offset with
  | nil =>
    obtain ⟨last, tokens, isEnd, empty⟩ := tokensFrom_nil r offset
    exact ⟨[], last, tokens, .nil, isEnd, empty⟩
  | cons i is ih =>
    obtain ⟨skipped, apart⟩ := cuts_following is
    rw [write_cons]
    cases i with
    | one w =>
      obtain ⟨t, next, spells, trailing, tokens, -⟩ :=
        tokensFrom_word (lexemeOf_word r w (breaks_following is)) offset
      obtain ⟨ts, last, rest, spelled, isEnd, empty⟩ := ih next
      rw [skipped, rest] at tokens
      refine ⟨t :: ts, last, ?_, .one spells (by rw [trailing]; exact apart) spelled, isEnd, empty⟩
      simpa [Item.text, Item.words] using tokens
    | lookup account n =>
      obtain ⟨t, slash, u, next, spells, touches, spellsSlash, slashTouches, spellsName, trailing,
        tokens⟩ := tokensFrom_lookup r account n is offset
      obtain ⟨ts, last, rest, spelled, isEnd, empty⟩ := ih next
      rw [rest] at tokens
      exact ⟨t :: slash :: u :: ts, last, tokens, .lookup spells touches spellsSlash slashTouches
        spellsName (by rw [trailing]; exact apart) spelled, isEnd, empty⟩

end Writing

end LispSyntax
