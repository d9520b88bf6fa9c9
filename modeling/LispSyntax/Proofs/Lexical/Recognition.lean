import LispSyntax.Proofs.Lexical.Number
import LispSyntax.Proofs.Trivia
import LispSyntax.Proofs.Writing.Tokens

/-! # The scanner recognises the lexical grammar

`recognises_scan` and `scan_of_recognises`: what the scanner takes off the front of a text is what the grammar
puts there, and nothing else is. `tokenize_recognises` says the same of every token of a text, with what the text
has from the token's lexeme on.
-/

namespace LispSyntax

namespace Lexical

open Writing
open Scan hiding hash

/-! ## What is scanned is in the grammar -/

section

variable {r : Registry}

theorem kind_symbolLexeme_of_free {text : Text} (free : text ∉ reservedWords.map Prod.fst) :
    (symbolLexeme r text).kind = symbolKind r text := by
  simp only [reservedWords, List.map_cons, List.map_nil, List.mem_cons, List.not_mem_nil, or_false,
    not_or] at free
  obtain ⟨notNil, notTrue, notFalse, notCaret⟩ := free
  rw [symbolLexeme, if_neg notNil, if_neg notTrue, if_neg notFalse, if_neg notCaret, Lexeme.named]
  split <;> rfl

theorem kind_symbolLexeme_of_reserved {text : Text} {kind : Kind}
    (isReserved : (text, kind) ∈ reservedWords) : (symbolLexeme r text).kind = kind := by
  simp only [reservedWords, List.mem_cons, Prod.mk.injEq, List.not_mem_nil, or_false] at isReserved
  rcases isReserved with ⟨rfl, rfl⟩ | ⟨rfl, rfl⟩ | ⟨rfl, rfl⟩ | ⟨rfl, rfl⟩ <;> rfl

theorem kind_bytes (cs : Text) : (bytes cs).lexeme.kind = .bytes := by
  simp only [bytes]
  split
  · rfl
  · split <;> rfl

theorem text_bytes (cs : Text) :
    (bytes cs).lexeme.text = ['0', 'x'] ++ cs.takeWhile Text.isHexDigit := by
  simp only [bytes]
  split
  · rfl
  · split <;> rfl

theorem recognises_digit {first : Char} {cs : Text} (isDigit : Text.isDigit first = true) :
    Recognises r (first :: cs) (digit first cs).lexeme.kind (digit first cs).lexeme.text := by
  unfold digit
  split
  · rename_i rest
    rw [kind_bytes, text_bytes]
    exact .bytes (longest_run _ (Nat.zero_le _))
  · rename_i notBytes
    refine .number ?_ (longest_number (.inl isDigit)) (isNumber_number (.inl isDigit))
    rintro ⟨after, whole⟩
    obtain ⟨rfl, rfl⟩ := List.cons.inj whole
    exact notBytes after rfl rfl

theorem recognises_number {first : Char} {cs : Text} (notDigit : Text.isDigit first = false)
    (opens : opensNumber first cs = true) :
    Recognises r (first :: cs) (number first cs).lexeme.kind (number first cs).lexeme.text := by
  refine .number ?_ (longest_number (.inr opens)) (isNumber_number (.inr opens))
  rintro ⟨after, whole⟩
  obtain ⟨rfl, -⟩ := List.cons.inj whole
  contradiction

theorem recognises_symbol {first : Char} {cs : Text} (notDigit : Text.isDigit first = false)
    (noNumber : opensNumber first cs = false) (isSymbol : Text.isSymbolChar first = true) :
    Recognises r (first :: cs) (symbol r first cs).lexeme.kind (symbol r first cs).lexeme.text := by
  have taken : first :: cs.takeWhile Text.isSymbolChar = (first :: cs).takeWhile Text.isSymbolChar := by
    simp [isSymbol]
  have longest : Longest IsSymbol (first :: cs) (first :: cs.takeWhile Text.isSymbolChar) := by
    rw [taken]
    apply longest_run []
    rw [← taken]
    simp
  have absent := absent_number notDigit noNumber
  simp only [symbol, text_symbolLexeme]
  by_cases free : first :: cs.takeWhile Text.isSymbolChar ∈ reservedWords.map Prod.fst
  · obtain ⟨⟨word, kind⟩, member, same⟩ := List.mem_map.mp free
    simp only at same
    rw [same] at member
    rw [kind_symbolLexeme_of_reserved member]
    exact .reserved absent longest member
  · rw [kind_symbolLexeme_of_free free]
    exact .symbol absent longest free

theorem recognises_keyword (cs : Text) :
    Recognises r (':' :: cs) (keyword cs).lexeme.kind (keyword cs).lexeme.text := by
  unfold keyword
  split
  · rename_i none
    exact .colon (List.prefix_append [':'] cs) (absent_run (by simp [none]))
  · rename_i nonempty
    have taken := List.length_pos_iff.mpr nonempty
    rw [text_named]
    have kindEq : ∀ text name, (Lexeme.named .keyword text name).kind = .keyword := by
      intro text name
      unfold Lexeme.named
      split <;> rfl
    rw [kindEq]
    exact .keyword (longest_run _ taken)

/-- After a backslash the line ends, or a character is read. -/
theorem character_cases (cs : Text) :
    (Absent IsCharacter ('\\' :: cs) ∧ character cs = ⟨.flawed .unknown ['\\'] .noCharacter, cs⟩) ∨
    (Longest IsCharacter ('\\' :: cs) (character cs).lexeme.text ∧
      (character cs).lexeme.kind = .char) := by
  by_cases ends : ∀ c rest, cs = c :: rest → c = '\n' ∨ c = '\r'
  · refine .inl ⟨absent_character ends, ?_⟩
    cases cs with
    | nil => rfl
    | cons c rest => simp [character, ends c rest rfl]
  · obtain ⟨c, rest, rfl, notFeed, notReturn⟩ : ∃ c rest, cs = c :: rest ∧ c ≠ '\n' ∧ c ≠ '\r' := by
      simpa using ends
    refine .inr ⟨longest_character notFeed notReturn, ?_⟩
    have inLine : (c = '\n' || c = '\r') = false := by simp [notFeed, notReturn]
    simp only [character, inLine]
    split
    · contradiction
    · split
      · rfl
      · split <;> rfl

theorem recognises_character (cs : Text) :
    Recognises r ('\\' :: cs) (character cs).lexeme.kind (character cs).lexeme.text := by
  cases character_cases cs with
  | inl ended =>
    rw [ended.2]
    exact .backslash (List.prefix_append ['\\'] cs) ended.1
  | inr read =>
    rw [read.2]
    exact .character read.1

theorem recognises_string (cs : Text) :
    Recognises r ('"' :: cs) (string cs).lexeme.kind (string cs).lexeme.text := by
  have kindEq : (string cs).lexeme.kind = .string := rfl
  rw [kindEq]
  cases string_cases cs with
  | inl closed => exact .string closed.1 closed.2
  | inr unclosed =>
    rw [unclosed.2]
    exact .unterminated (List.prefix_append ['"'] cs) unclosed.1

/-! ### Marks with a hash -/

theorem specialFloat_mem_fixedLexemes {word : Text} (isSpecial : word ∈ specialFloats) :
    ('#' :: '#' :: word, Kind.float) ∈ fixedLexemes := by
  simp only [specialFloats, List.mem_cons, List.not_mem_nil, or_false] at isSpecial
  rcases isSpecial with rfl | rfl | rfl <;> decide

/-- The fixed lexemes that start with a hash. -/
theorem isFixed_hash {cs : Text} (isFixed : IsFixed ('#' :: cs)) :
    cs = ['\x7b'] ∨ ∃ word ∈ specialFloats, cs = '#' :: word := by
  simp [IsFixed, fixedLexemes] at isFixed
  rcases isFixed with rfl | rfl | rfl | rfl <;> simp [specialFloats]

theorem absent_fixed_hash {cs : Text} (notSet : ¬ ['\x7b'] <+: cs)
    (noWord : ∀ word ∈ specialFloats, ¬ '#' :: word <+: cs) : Absent IsFixed ('#' :: cs) := by
  rintro lexeme isFixed starts
  cases lexeme with
  | nil => simp [IsFixed, fixedLexemes] at isFixed
  | cons c rest =>
    obtain ⟨rfl, startsRest⟩ := List.cons_prefix_cons.mp starts
    cases isFixed_hash isFixed with
    | inl isSet => exact notSet (isSet ▸ startsRest)
    | inr special =>
      obtain ⟨word, member, rfl⟩ := special
      exact noWord word member startsRest

theorem recognises_hash (cs : Text) :
    Recognises r ('#' :: cs) (Scan.hash cs).lexeme.kind (Scan.hash cs).lexeme.text := by
  unfold Scan.hash
  split
  · rename_i rest
    exact .fixed (by decide : (['#', '\x7b'], Kind.hashLeftBrace) ∈ fixedLexemes)
      (List.prefix_append ['#', '\x7b'] rest)
  · rename_i rest
    split
    · rename_i word after found
      obtain ⟨member, rfl⟩ := firstWord?_eq_some found
      exact .fixed (specialFloat_mem_fixedLexemes member) (List.prefix_append ('#' :: '#' :: word) after)
    · rename_i none
      have noWord := firstWord?_eq_none_iff.mp none
      refine .hashHash (List.prefix_append ['#', '#'] rest) (absent_fixed_hash ?_ ?_)
      · exact not_prefix_of_head (by decide)
      · intro word member starts
        exact noWord word member (List.cons_prefix_cons.mp starts).2
  · rename_i notSet notHash
    have notSet : ¬ ['\x7b'] <+: cs := by
      rintro ⟨after, rfl⟩
      exact notSet after rfl
    have notHash : ∀ rest, ¬ '#' :: rest <+: cs := by
      rintro rest ⟨after, rfl⟩
      exact notHash (rest ++ after) rfl
    split
    · rename_i starts
      exact .address (longest_run _ (List.length_pos_iff.mpr (isDigits_takeWhile starts).1))
    · rename_i ends
      refine .hash (List.prefix_append ['#'] cs) (absent_fixed_hash notSet fun word _ => notHash word) ?_ ?_
      · apply absent_run
        cases cs with
        | nil => simp
        | cons c rest =>
          have notDigit : Text.isDigit c = false := Bool.eq_false_iff.mpr ends
          simp [notDigit]
      · intro starts
        exact notHash [] (List.cons_prefix_cons.mp starts).2

theorem recognises_mark {first : Char} {kind : Kind} (isMark : mark? first = some kind) (cs : Text) :
    Recognises r (first :: cs) kind [first] := by
  refine .fixed ?_ (List.prefix_append [first] cs)
  unfold mark? at isMark
  split at isMark <;> cases isMark <;> decide

/-- What starts no lexeme and no trivia is a control character. -/
theorem isControl_of_unexpected {c : Char} {cs : Text} (solid : Solid (c :: cs)) (notMark : mark? c = none)
    (notQuote : c ≠ '"') (notBackslash : c ≠ '\\') (notHash : c ≠ '#') (notColon : c ≠ ':')
    (notDigit : Text.isDigit c = false) (notSymbol : Text.isSymbolChar c = false) :
    Text.isControl c = true := by
  obtain ⟨notBlank, notComma, notSemicolon⟩ := solid c cs rfl
  simp only [Text.isSymbolChar, notBlank, notDigit, Bool.false_or, Bool.or_false, Bool.not_eq_false',
    Bool.or_eq_true, List.contains_iff_mem] at notSymbol
  cases notSymbol with
  | inl isControl => exact isControl
  | inr isPunctuation =>
    simp only [Text.punctuation, List.mem_cons, List.not_mem_nil, or_false, notQuote, notBackslash,
      notHash, notColon, notComma, notSemicolon, or_false, false_or] at isPunctuation
    rcases isPunctuation with rfl | rfl | rfl | rfl | rfl | rfl | rfl | rfl | rfl | rfl <;>
      simp [mark?] at notMark

/-- What the scanner takes off a text without trivia in front is what the grammar puts there. -/
theorem recognises_scan {first : Char} {cs : Text} (solid : Solid (first :: cs)) :
    Recognises r (first :: cs) (scan r first cs).lexeme.kind (scan r first cs).lexeme.text := by
  unfold scan
  split
  · rename_i isMark
    exact recognises_mark isMark cs
  · rename_i notMark
    split
    · rename_i isQuote; rw [isQuote]; exact recognises_string cs
    rename_i notQuote
    split
    · rename_i isBackslash; rw [isBackslash]; exact recognises_character cs
    rename_i notBackslash
    split
    · rename_i isHash; rw [isHash]; exact recognises_hash cs
    rename_i notHash
    split
    · rename_i isColon; rw [isColon]; exact recognises_keyword cs
    rename_i notColon
    split
    · rename_i isDigit; exact recognises_digit isDigit
    rename_i notDigit
    have notDigit := Bool.eq_false_iff.mpr notDigit
    split
    · rename_i opens; exact recognises_number notDigit opens
    rename_i noNumber
    split
    · rename_i isSymbol; exact recognises_symbol notDigit (Bool.eq_false_iff.mpr noNumber) isSymbol
    · rename_i notSymbol
      refine .control ?_ (List.prefix_append [first] cs)
      exact isControl_of_unexpected solid notMark notQuote notBackslash notHash notColon notDigit
        (Bool.eq_false_iff.mpr notSymbol)

end

/-! ## What is in the grammar is scanned -/

section

variable {r : Registry} {first : Char} {cs lexeme : Text} {kind : Kind}

def Gives (r : Registry) (first : Char) (cs : Text) (kind : Kind) (lexeme : Text) : Prop :=
  (scan r first cs).lexeme.kind = kind ∧ (scan r first cs).lexeme.text = lexeme

theorem gives_number (notBytes : ¬ ['0', 'x'] <+: first :: cs)
    (longest : Longest IsNumeral (first :: cs) lexeme) (isNumber : IsNumber kind lexeme) :
    Gives r first cs kind lexeme := by
  have opens := opens_of_isNumber isNumber longest.starts
  have same := longest.unique (longest_number opens)
  have scanned : scan r first cs = number first cs := by
    by_cases isDigit : Text.isDigit first = true
    · rw [scan_of_isDigit r isDigit, digit]
      rintro rest rfl rfl
      exact notBytes (List.prefix_append ['0', 'x'] rest)
    · have opens := opens.resolve_left isDigit
      have signOrPoint : (first = '+' ∨ first = '-') ∧ startsNumber cs = true ∨
          first = '.' ∧ startsWithDigit cs = true := by
        simpa [opensNumber] using opens
      rcases signOrPoint with ⟨rfl | rfl, starts⟩ | ⟨rfl, starts⟩
      · exact scan_sign r .plus starts
      · exact scan_sign r .minus starts
      · exact scan_point r starts
  refine ⟨?_, by rw [scanned, same]⟩
  rw [scanned]
  have isNumber' := isNumber_number opens
  rw [← same] at isNumber'
  exact isNumber'.kind_eq isNumber

theorem scan_eq_symbol (absent : Absent IsNumeral (first :: cs))
    (longest : Longest IsSymbol (first :: cs) lexeme) :
    scan r first cs = symbol r first cs ∧ lexeme = first :: cs.takeWhile Text.isSymbolChar := by
  obtain ⟨_, noNumber⟩ := absent.not_opens
  obtain ⟨rest, rfl, rfl, taken⟩ := longest.run_eq
  rw [List.nil_append] at *
  have isSymbol : Text.isSymbolChar first = true := by
    by_cases isSymbol : Text.isSymbolChar first = true
    · exact isSymbol
    · simp [isSymbol] at taken
  exact ⟨scan_of_isSymbolChar r isSymbol noNumber, by simp [isSymbol]⟩

theorem gives_fixed (member : (lexeme, kind) ∈ fixedLexemes) (starts : lexeme <+: first :: cs) :
    Gives r first cs kind lexeme := by
  obtain ⟨after, whole⟩ := starts
  simp only [fixedLexemes, List.mem_cons, Prod.mk.injEq, List.not_mem_nil, or_false] at member
  rcases member with ⟨rfl, rfl⟩ | ⟨rfl, rfl⟩ | ⟨rfl, rfl⟩ | ⟨rfl, rfl⟩ | ⟨rfl, rfl⟩ | ⟨rfl, rfl⟩ |
    ⟨rfl, rfl⟩ | ⟨rfl, rfl⟩ | ⟨rfl, rfl⟩ | ⟨rfl, rfl⟩ | ⟨rfl, rfl⟩ | ⟨rfl, rfl⟩ | ⟨rfl, rfl⟩ | ⟨rfl, rfl⟩ <;>
  · cases whole
    exact ⟨rfl, rfl⟩

theorem gives_hashHash (starts : ['#', '#'] <+: first :: cs) (absent : Absent IsFixed (first :: cs)) :
    Gives r first cs .unknown ['#', '#'] := by
  obtain ⟨rest, rfl, rfl⟩ : ∃ rest, first = '#' ∧ cs = '#' :: rest := by
    obtain ⟨rest, whole⟩ := starts
    exact ⟨rest, by simpa using whole.symm⟩
  have none : firstWord? specialFloats rest = none := by
    refine firstWord?_eq_none_iff.mpr fun word member startsWord => ?_
    refine absent _ (List.mem_map_of_mem (specialFloat_mem_fixedLexemes member)) ?_
    exact List.cons_prefix_cons.mpr ⟨rfl, List.cons_prefix_cons.mpr ⟨rfl, startsWord⟩⟩
  simp [Gives, scan, mark?, Scan.hash, none, Lexeme.flawed]

theorem gives_hash (starts : ['#'] <+: first :: cs) (absent : Absent IsFixed (first :: cs))
    (noAddress : Absent IsAddress (first :: cs)) (notHashHash : ¬ ['#', '#'] <+: first :: cs) :
    Gives r first cs .unknown ['#'] := by
  obtain ⟨rfl, -⟩ := List.cons_prefix_cons.mp starts
  have scanned : Scan.hash cs = ⟨.flawed .unknown ['#'] .loneHash, cs⟩ := by
    unfold Scan.hash
    split
    · rename_i rest
      exact absurd (List.prefix_append ['#', '\x7b'] rest) (absent _ (by simp [IsFixed, fixedLexemes]))
    · rename_i rest
      exact absurd (List.prefix_append ['#', '#'] rest) notHashHash
    · rw [if_neg]
      intro starts
      have short := Absent.short ['#'] noAddress
      exact (isDigits_takeWhile starts).1 (List.eq_nil_of_length_eq_zero (by omega))
  simp [Gives, scan, mark?, scanned, Lexeme.flawed]

theorem isDigit_of_isControl {c : Char} (isControl : Text.isControl c = true) :
    Text.isDigit c = false := by
  cases isDigit : Text.isDigit c with
  | false => rfl
  | true =>
    simp only [Text.isDigit, Bool.and_eq_true, decide_eq_true_eq] at isDigit
    have low : 48 ≤ c.toNat := isDigit.1
    have high : c.toNat ≤ 57 := isDigit.2
    simp [Text.isControl] at isControl
    omega

theorem gives_control {c : Char} (isControl : Text.isControl c = true) (starts : [c] <+: first :: cs) :
    Gives r first cs .unknown [c] := by
  obtain ⟨rfl, -⟩ := List.cons_prefix_cons.mp starts
  have notMark := mark?_of_class isControl (by decide)
  have notDigit := isDigit_of_isControl isControl
  have notNumber : opensNumber c cs = false := by
    simp [opensNumber, ne_of_class isControl (d := '+') rfl, ne_of_class isControl (d := '-') rfl,
      ne_of_class isControl (d := '.') rfl]
  have notSymbol : Text.isSymbolChar c = false := by simp [Text.isSymbolChar, isControl]
  simp [Gives, scan, notMark, notDigit, notNumber, notSymbol, ne_of_class isControl (d := '"') rfl,
    ne_of_class isControl (d := '\\') rfl, ne_of_class isControl (d := '#') rfl,
    ne_of_class isControl (d := ':') rfl, Lexeme.flawed]

/-- What the grammar puts at the front of a text is what the scanner takes. -/
theorem scan_of_recognises (recognised : Recognises r (first :: cs) kind lexeme) :
    Gives r first cs kind lexeme := by
  -- What the grammar calls longest fixes the lexeme; what it calls absent rules out the branches that the scanner
  -- tries before.
  cases recognised with
  | bytes longest =>
    obtain ⟨rest, whole, rfl, -⟩ := longest.run_eq
    obtain ⟨rfl, rfl⟩ := List.cons.inj whole
    exact ⟨kind_bytes rest, text_bytes rest⟩
  | number notBytes longest isNumber => exact gives_number notBytes longest isNumber
  | address longest =>
    obtain ⟨rest, whole, rfl, taken⟩ := longest.run_eq
    obtain ⟨rfl, rfl⟩ := List.cons.inj whole
    cases cs with
    | nil => simp at taken
    | cons c rest =>
      have isDigit : Text.isDigit c = true := by
        by_cases isDigit : Text.isDigit c = true
        · exact isDigit
        · simp [isDigit] at taken
      have notSet : c ≠ '\x7b' := ne_of_class isDigit rfl
      have notHash : c ≠ '#' := ne_of_class isDigit rfl
      simp [Gives, scan, mark?, Scan.hash, startsWithDigit, isDigit, notSet, notHash, Lexeme.clean]
  | keyword longest =>
    obtain ⟨rest, whole, rfl, taken⟩ := longest.run_eq
    obtain ⟨rfl, rfl⟩ := List.cons.inj whole
    have scanned : scan r ':' cs = keyword cs := rfl
    rw [Gives, scanned, keyword]
    split
    · rename_i none
      simp [none] at taken
    · refine ⟨?_, text_named ..⟩
      unfold Lexeme.named
      split <;> rfl
  | reserved absent longest isReserved =>
    obtain ⟨scanned, rfl⟩ := scan_eq_symbol (r := r) absent longest
    rw [Gives, scanned]
    exact ⟨kind_symbolLexeme_of_reserved isReserved, text_symbolLexeme ..⟩
  | symbol absent longest free =>
    obtain ⟨scanned, rfl⟩ := scan_eq_symbol (r := r) absent longest
    rw [Gives, scanned]
    exact ⟨kind_symbolLexeme_of_free free, text_symbolLexeme ..⟩
  | character longest =>
    obtain rfl : first = '\\' := by
      obtain ⟨after, whole⟩ := longest.starts
      cases longest.spelled <;> exact (List.cons.inj whole).1.symm
    have scanned : scan r '\\' cs = character cs := rfl
    rw [Gives, scanned]
    cases character_cases cs with
    | inl ended => exact absurd ended.1 longest.not_absent
    | inr read => exact ⟨read.2, read.1.unique longest⟩
  | string isString starts =>
    obtain rfl : first = '"' := by
      obtain ⟨body, -, rfl⟩ := isString
      exact (List.cons_prefix_cons.mp starts).1.symm
    exact ⟨rfl, (string_of_isString isString starts).1⟩
  | unterminated starts absent =>
    obtain ⟨rfl, -⟩ := List.cons_prefix_cons.mp starts
    refine ⟨rfl, ?_⟩
    cases string_cases cs with
    | inl closed => exact absurd closed.2 (absent _ closed.1)
    | inr unclosed => exact unclosed.2
  | fixed member starts => exact gives_fixed member starts
  | colon starts absent =>
    obtain ⟨rfl, -⟩ := List.cons_prefix_cons.mp starts
    have short := Absent.short [':'] absent
    have none : cs.takeWhile Text.isSymbolChar = [] := List.eq_nil_of_length_eq_zero (by omega)
    simp [Gives, scan, mark?, keyword, none, Lexeme.clean]
  | backslash starts absent =>
    obtain ⟨rfl, -⟩ := List.cons_prefix_cons.mp starts
    have scanned : scan r '\\' cs = character cs := rfl
    rw [Gives, scanned]
    cases character_cases cs with
    | inl ended => rw [ended.2]; exact ⟨rfl, rfl⟩
    | inr read => exact absurd absent read.1.not_absent
  | hashHash starts absent => exact gives_hashHash starts absent
  | hash starts absent noAddress notHashHash => exact gives_hash starts absent noAddress notHashHash
  | control isControl starts => exact gives_control isControl starts

end

/-- The grammar puts exactly one lexeme at the front of a text without trivia there. -/
theorem recognises_iff {r : Registry} {first : Char} {cs : Text} (solid : Solid (first :: cs))
    (kind : Kind) (lexeme : Text) :
    Recognises r (first :: cs) kind lexeme ↔
      kind = (scan r first cs).lexeme.kind ∧ lexeme = (scan r first cs).lexeme.text := by
  constructor
  · intro recognised
    obtain ⟨kindEq, textEq⟩ := scan_of_recognises recognised
    exact ⟨kindEq.symm, textEq.symm⟩
  · rintro ⟨rfl, rfl⟩
    exact recognises_scan solid

end Lexical

/-! ## Tokens -/

namespace Token

open Lexical

/-- No trivia is left in front of a lexeme. -/
theorem solid_skip (text : Text) : Writing.Solid (Trivia.skip .leading text) := by
  have stopped := Trivia.piece?_skip .leading text
  intro c cs skipped
  rw [skipped] at stopped
  unfold Trivia.piece? at stopped
  split at stopped
  · contradiction
  · simp only [Trivia.inlinePiece?] at stopped
    by_cases isComma : c = ','
    · simp [isComma] at stopped
    · by_cases isSemicolon : c = ';'
      · simp [isSemicolon] at stopped
      · refine ⟨?_, isComma, isSemicolon⟩
        simpa [isComma, isSemicolon] using stopped

/-- The grammar puts the token, and no other, at the front of what the text has from its lexeme on. -/
def Recognised (r : Registry) (text : Text) (t : Token) : Prop :=
  ∃ rest, Text.drop? text t.span.start = some rest ∧
    t.span = Span.ofSize t.span.start (Text.size t.text) ∧
    ∀ kind lexeme, Recognises r rest kind lexeme ↔ kind = t.kind ∧ lexeme = t.text

theorem recognised_read (r : Registry) (left text : Text)
    (notEnd : (read r (Text.size left) text).token.kind ≠ .eof) :
    (read r (Text.size left) text).token.Recognised r (left ++ text) := by
  have before := Trivia.gap_append_skip .leading text
  have beforeSize := (Trivia.describes_read .leading [] text (by simp)).size_eq
  have solid := solid_skip text
  refine ⟨Trivia.skip .leading text, ?_, rfl, ?_⟩
  · have dropped := Text.drop?_append (left ++ Trivia.gap .leading text) (Trivia.skip .leading text)
    rwa [List.append_assoc, before, Text.size_append, ← beforeSize] at dropped
  · simp only [read] at notEnd ⊢
    cases skipped : Trivia.skip .leading text with
    | nil =>
      rw [skipped] at notEnd
      exact absurd rfl notEnd
    | cons first cs =>
      rw [skipped] at solid
      exact recognises_iff solid

theorem recognised_tokensFrom (r : Registry) (offset : Nat) (rest : Text) :
    ∀ left : Text, Text.size left = offset →
      ∀ t ∈ (tokensFrom r offset rest).1, t.kind ≠ .eof → t.Recognised r (left ++ rest) := by
  fun_induction tokensFrom r offset rest with
  | case1 offset rest reading isEnd =>
    intro left _ t member notEnd
    rw [List.mem_singleton.mp member] at notEnd
    exact absurd isEnd notEnd
  | case2 offset rest reading notEnd next inductionHypothesis =>
    rintro left rfl t member notEnd'
    cases List.mem_cons.mp member with
    | inl isFirst =>
      rw [isFirst]
      exact recognised_read r left rest notEnd
    | inr member =>
      obtain ⟨-, -, -, stretch, whole, offsetEq⟩ := laidOut_read r left rest
      have recognised := inductionHypothesis (left ++ stretch) offsetEq.symm t member notEnd'
      rwa [List.append_assoc, ← whole] at recognised

end Token

/-- The tokenizer recognises exactly the lexical grammar: of what the text has from a token's start on, the
grammar takes the token's kind and text, and no other. -/
theorem tokenize_recognises (text : Text) (r : Registry) (t : Token)
    (member : t ∈ (Token.tokenize text r).1) (notEnd : t.kind ≠ .eof) :
    ∃ rest, Text.drop? text t.span.start = some rest ∧
      t.span = Span.ofSize t.span.start (Text.size t.text) ∧
      ∀ kind lexeme, Lexical.Recognises r rest kind lexeme ↔ kind = t.kind ∧ lexeme = t.text :=
  Token.recognised_tokensFrom r 0 text [] rfl t member notEnd

/-- A number that an exponent without digits would follow: the letter is left to the symbol after it. -/
theorem tokenize_recognises_number :
    let t : Token := ⟨[], .float, "-.5".toList, Span.ofSize 0 3, []⟩
    t ∈ (Token.tokenize "-.5e+x".toList .empty).1 ∧ t.kind ≠ .eof ∧
    ∃ rest, Text.drop? "-.5e+x".toList t.span.start = some rest ∧
      t.span = Span.ofSize t.span.start (Text.size t.text) ∧
      ∀ kind lexeme, Lexical.Recognises .empty rest kind lexeme ↔ kind = t.kind ∧ lexeme = t.text := by
  intro t
  have member : t ∈ (Token.tokenize "-.5e+x".toList .empty).1 := by decide +kernel
  exact ⟨member, by decide, tokenize_recognises "-.5e+x".toList .empty t member (by decide)⟩

end LispSyntax
