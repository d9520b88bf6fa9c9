import LispSyntax.Proofs.Delimiters.Form
import LispSyntax.Proofs.Literal.Plus

/-! # Malformed tokens

What a malformed token is, said without the scanner: `Lexeme.Malformed` is about a kind and a text, and
`Lexical.IsShortCode` about a code in a string that has fewer than four hex digits. The scanner raises its diagnostics
in the middle of a lexeme, with places counted from a moving offset. In the end each malformed token has one diagnostic
about all of it, and a string one for each short code and one more if it is not closed.
-/

namespace LispSyntax

namespace Lexical

open Scan

/-! ## Short codes -/

/-- What follows the opening quote of a string, from the offset on, has a backslash that escapes the letter of a code,
and fewer than four hex digits behind it. The span is that of the backslash, the letter and the digits. -/
def IsShortCode (offset : Nat) (body : Text) (span : Span) : Prop :=
  ∃ before digits after, IsQuoted before ∧ body = before ++ '\\' :: 'u' :: (digits ++ after) ∧ digits.length < 4 ∧
    (∀ c ∈ digits, Text.isHexDigit c = true) ∧ (∀ c ∈ after.head?, Text.isHexDigit c = false) ∧
    span = Span.ofSize (offset + Text.size before) (2 + digits.length)

namespace IsShortCode

variable {offset : Nat} {c : Char} {body : Text} {span : Span}

theorem plain (notQuote : c ≠ '"') (notEscape : c ≠ '\\') (short : IsShortCode (offset + c.utf8Size) body span) :
    IsShortCode offset (c :: body) span := by
  obtain ⟨before, digits, after, quoted, rfl, few, digital, stops, rfl⟩ := short
  refine ⟨c :: before, digits, after, .plain notQuote notEscape quoted, rfl, few, digital, stops, ?_⟩
  rw [Text.size_cons, Nat.add_assoc]

theorem escape (short : IsShortCode (offset + 1 + c.utf8Size) body span) :
    IsShortCode offset ('\\' :: c :: body) span := by
  obtain ⟨before, digits, after, quoted, rfl, few, digital, stops, rfl⟩ := short
  refine ⟨'\\' :: c :: before, digits, after, .escape quoted, rfl, few, digital, stops, ?_⟩
  have backslash : '\\'.utf8Size = 1 := rfl
  rw [Text.size_cons, Text.size_cons, backslash, Nat.add_assoc, Nat.add_assoc]

theorem of_plain (notEscape : c ≠ '\\') (short : IsShortCode offset (c :: body) span) :
    c ≠ '"' ∧ IsShortCode (offset + c.utf8Size) body span := by
  obtain ⟨before, digits, after, quoted, bodyEq, few, digital, stops, rfl⟩ := short
  cases quoted with
  | nil => exact absurd (List.cons.inj bodyEq).1 notEscape
  | plain notQuote _ quoted =>
    obtain ⟨rfl, rfl⟩ := List.cons.inj bodyEq
    refine ⟨notQuote, _, digits, after, quoted, rfl, few, digital, stops, ?_⟩
    rw [Text.size_cons, Nat.add_assoc]
  | escape quoted => exact absurd (List.cons.inj bodyEq).1 notEscape

/-- An escape is itself the short code, or it stands in front of it. -/
theorem of_escape (short : IsShortCode offset ('\\' :: c :: body) span) :
    (c = 'u' ∧ ∃ digits after, body = digits ++ after ∧ digits.length < 4 ∧
      (∀ c ∈ digits, Text.isHexDigit c = true) ∧ (∀ c ∈ after.head?, Text.isHexDigit c = false) ∧
      span = Span.ofSize offset (2 + digits.length)) ∨ IsShortCode (offset + 1 + c.utf8Size) body span := by
  obtain ⟨before, digits, after, quoted, bodyEq, few, digital, stops, rfl⟩ := short
  cases quoted with
  | nil =>
    obtain ⟨rfl, rfl⟩ := List.cons.inj (List.cons.inj bodyEq).2
    exact .inl ⟨rfl, digits, after, rfl, few, digital, stops, rfl⟩
  | plain _ notEscape _ => exact absurd (List.cons.inj bodyEq).1.symm notEscape
  | escape quoted =>
    obtain ⟨rfl, rfl⟩ := List.cons.inj (List.cons.inj bodyEq).2
    refine .inr ⟨_, digits, after, quoted, rfl, few, digital, stops, ?_⟩
    have backslash : '\\'.utf8Size = 1 := rfl
    rw [Text.size_cons, Text.size_cons, backslash, Nat.add_assoc, Nat.add_assoc]

theorem le_start (short : IsShortCode offset body span) : offset ≤ span.start := by
  obtain ⟨before, digits, after, -, -, -, -, -, rfl⟩ := short
  exact Nat.le_add_right ..

theorem shift {n : Nat} : IsShortCode (n + offset) body span ↔
    ∃ inner, IsShortCode offset body inner ∧ inner.shift n = span := by
  have moved (start size : Nat) : (Span.ofSize start size).shift n = Span.ofSize (n + start) size := by
    simp [Span.shift, Span.ofSize, Nat.add_assoc]
  constructor
  · rintro ⟨before, digits, after, quoted, bodyEq, few, digital, stops, rfl⟩
    refine ⟨_, ⟨before, digits, after, quoted, bodyEq, few, digital, stops, rfl⟩, ?_⟩
    rw [moved, Nat.add_assoc]
  · rintro ⟨_, ⟨before, digits, after, quoted, bodyEq, few, digital, stops, rfl⟩, rfl⟩
    refine ⟨before, digits, after, quoted, bodyEq, few, digital, stops, ?_⟩
    rw [moved, Nat.add_assoc]

end IsShortCode

/-! ## What the scanner finds in a string -/

theorem hexRun_of_short {digits after : Text} (few : digits.length < 4)
    (digital : ∀ c ∈ digits, Text.isHexDigit c = true) (stops : ∀ c ∈ after.head?, Text.isHexDigit c = false) :
    hexRun (digits ++ after) = digits := by
  have taken : (digits ++ after).take 4 = digits ++ after.take (4 - digits.length) := by
    rw [List.take_append, List.take_of_length_le (Nat.le_of_lt few)]
  rw [hexRun, taken, List.takeWhile_append_of_pos digital]
  cases after with
  | nil => simp
  | cons c after =>
    obtain ⟨n, room⟩ : ∃ n, 4 - digits.length = n + 1 := ⟨3 - digits.length, by omega⟩
    simp [room, stops c rfl]

/-- Where fewer than four digits are taken, what follows them is no digit. -/
theorem exists_after_hexRun {cs : Text} (few : (hexRun cs).length < 4) :
    ∃ after, cs = hexRun cs ++ after ∧ ∀ c ∈ after.head?, Text.isHexDigit c = false := by
  obtain ⟨rest, split⟩ := List.takeWhile_prefix (p := Text.isHexDigit) (l := cs.take 4)
  refine ⟨rest ++ cs.drop 4, ?_, ?_⟩
  · rw [← List.append_assoc, hexRun, split, List.take_append_drop]
  · intro c isHead
    have dropped : rest = (cs.take 4).dropWhile Text.isHexDigit := by
      refine List.append_cancel_left (split.trans ?_)
      exact List.takeWhile_append_dropWhile.symm
    cases rest with
    | nil =>
      -- The text itself ends there, as it has fewer than four characters.
      rw [List.append_nil] at split
      have all := congrArg List.length split
      rw [List.length_take] at all
      have short : cs.length < 4 := by
        rw [hexRun] at few
        omega
      rw [List.nil_append, List.drop_of_length_le (Nat.le_of_lt short)] at isHead
      contradiction
    | cons d rest =>
      obtain rfl : d = c := by simpa using isHead
      have head := List.head_dropWhile_not Text.isHexDigit (l := cs.take 4) (by rw [← dropped]; simp)
      simpa [← dropped] using head

/-- What the scanner flags in a string is a short code. -/
theorem isShortCode_of_mem (offset : Nat) (cs : Text) {span : Span}
    (member : span ∈ (stringBody offset cs).badEscapes) : IsShortCode offset (stringBody offset cs).text span := by
  fun_induction stringBody offset cs with
  | case1 | case2 => simp at member
  | case3 offset cs body inductionHypothesis =>
    rcases List.mem_append.mp member with own | later
    · rw [badEscape?] at own
      split at own
      · rename_i few
        rw [List.mem_singleton.mp own]
        rw [← hexRun_stringBody (offset + 1 + 'u'.utf8Size)] at few ⊢
        obtain ⟨after, split, stops⟩ := exists_after_hexRun few
        exact ⟨[], _, after, .nil, congrArg ('\\' :: 'u' :: ·) split, few, inside_takeWhile _ _, stops, rfl⟩
      · contradiction
    · exact (inductionHypothesis later).escape
  | case4 offset c cs body notU inductionHypothesis => exact (inductionHypothesis member).escape
  | case5 offset c cs notQuote notEscape inductionHypothesis =>
    by_cases escape : c = '\\'
    · cases cs with
      | nil => simp [StringBody.cons, stringBody] at member
      | cons d ds => exact (notEscape d ds escape rfl).elim
    · exact (inductionHypothesis member).plain notQuote escape

/-- Every short code of a string is flagged. -/
theorem mem_of_isShortCode (offset : Nat) (cs : Text) {span : Span}
    (short : IsShortCode offset (stringBody offset cs).text span) : span ∈ (stringBody offset cs).badEscapes := by
  fun_induction stringBody offset cs with
  | case1 =>
    obtain ⟨before, digits, after, -, bodyEq, -⟩ := short
    simp at bodyEq
  | case2 => exact absurd rfl (short.of_plain (by decide)).1
  | case3 offset cs body inductionHypothesis =>
    refine List.mem_append.mpr ?_
    rcases short.of_escape with ⟨-, digits, after, split, few, digital, stops, rfl⟩ | later
    · left
      have run : hexRun cs = digits := by
        rw [← hexRun_stringBody (offset + 1 + 'u'.utf8Size), split]
        exact hexRun_of_short few digital stops
      rw [badEscape?, run, if_pos few]
      exact List.mem_singleton_self _
    · exact .inr (inductionHypothesis later)
  | case4 offset c cs body notU inductionHypothesis =>
    rcases short.of_escape with ⟨isU, -⟩ | later
    · exact absurd isU notU
    · exact inductionHypothesis later
  | case5 offset c cs notQuote notEscape inductionHypothesis =>
    by_cases escape : c = '\\'
    · cases cs with
      | nil =>
        obtain ⟨before, digits, after, quoted, bodyEq, -⟩ := short
        have length := congrArg List.length bodyEq
        simp [StringBody.cons, stringBody] at length
        omega
      | cons d ds => exact (notEscape d ds escape rfl).elim
    · exact inductionHypothesis (short.of_plain escape).2

/-- The scanner flags the short codes from left to right, each once. -/
theorem pairwise_badEscapes (offset : Nat) (cs : Text) :
    (stringBody offset cs).badEscapes.Pairwise fun a b => a.start < b.start := by
  fun_induction stringBody offset cs with
  | case1 | case2 => exact .nil
  | case3 offset cs body inductionHypothesis =>
    refine List.pairwise_append.mpr ⟨?_, inductionHypothesis, ?_⟩
    · rw [badEscape?]
      split
      · exact List.pairwise_singleton _ _
      · exact .nil
    · intro own isOwn later isLater
      have behind := (isShortCode_of_mem _ _ isLater).le_start
      rw [badEscape?] at isOwn
      split at isOwn
      · rw [List.mem_singleton.mp isOwn]
        simp only [Span.ofSize]
        omega
      · contradiction
  | case4 offset c cs body notU inductionHypothesis => exact inductionHypothesis
  | case5 offset c cs notQuote notEscape inductionHypothesis => exact inductionHypothesis

theorem closed_iff_isString {body : Text} (uncut : (stringBody 1 body).text = body) :
    (stringBody 1 body).closed = true ↔ IsString ('"' :: body) := by
  constructor
  · intro closed
    obtain ⟨inner, quoted, textEq⟩ := (stringBody_parts 1 body).1 closed
    exact ⟨inner, quoted, by rw [← textEq, uncut]⟩
  · intro isString
    exact (string_of_isString isString (List.prefix_refl _)).2

end Lexical

/-! ## Malformed lexemes -/

open Lexical

/-- A lexeme of the kind with the text is not as it should be. -/
inductive Lexeme.Malformed : Kind → Text → Prop where
  | unknown {text : Text} : Malformed .unknown text
  | unclosed {text : Text} : ¬ IsString text → Malformed .string text
  | shortCode {body : Text} {span : Span} : IsShortCode 1 body span → Malformed .string ('"' :: body)
  | bytes {digits : Text} : digits.length = 0 ∨ digits.length % 2 = 1 → Malformed .bytes ('0' :: 'x' :: digits)
  | symbol {kind : Kind} {name : Text} : kind.isSymbolToken = true → name.length > nameLimit → Malformed kind name
  | keyword {name : Text} : name.length > nameLimit → Malformed .keyword (':' :: name)

namespace Token

variable {text : Text} {r : Registry} {t : Token}

/-- The token is not as it should be. -/
def IsMalformed (t : Token) : Prop :=
  Lexeme.Malformed t.kind t.text

/-- The token is a string, and at the place there is a code with fewer than four hex digits. -/
def HasShortCode (t : Token) (span : Span) : Prop :=
  ∃ body, t.text = '"' :: body ∧ IsShortCode (t.span.start + 1) body span

end Token

/-! ## What the scanner finds in a lexeme -/

/-- How byte strings, keywords and unknown lexemes are written. -/
theorem Lexical.Recognises.spelling {r : Registry} {rest lexeme : Text} {kind : Kind}
    (recognised : Recognises r rest kind lexeme) :
    (kind = .bytes → IsBytes lexeme) ∧ (kind = .keyword → IsKeyword lexeme) ∧ (kind = .unknown → lexeme ≠ []) := by
  cases recognised with
  | bytes longest => exact ⟨fun _ => longest.spelled, nofun, nofun⟩
  | keyword longest => exact ⟨nofun, fun _ => longest.spelled, nofun⟩
  | number _ _ isNumber => cases isNumber <;> exact ⟨nofun, nofun, nofun⟩
  | reserved _ _ member =>
    have kinds : ∀ word ∈ reservedWords, word.2 ≠ .bytes ∧ word.2 ≠ .keyword ∧ word.2 ≠ .unknown := by decide
    have kinds := kinds _ member
    exact ⟨fun is => absurd is kinds.1, fun is => absurd is kinds.2.1, fun is => absurd is kinds.2.2⟩
  | symbol _ _ _ =>
    unfold Scan.symbolKind
    split <;> exact ⟨nofun, nofun, nofun⟩
  | fixed member _ =>
    have kinds : ∀ word ∈ fixedLexemes, word.2 ≠ .bytes ∧ word.2 ≠ .keyword ∧ word.2 ≠ .unknown := by decide
    have kinds := kinds _ member
    exact ⟨fun is => absurd is kinds.1, fun is => absurd is kinds.2.1, fun is => absurd is kinds.2.2⟩
  | backslash | hashHash | hash | control => exact ⟨nofun, nofun, fun _ => List.cons_ne_nil _ _⟩
  | address | character | string | unterminated | colon => exact ⟨nofun, nofun, nofun⟩

namespace Lexeme

/-- Only a string has problems that do not concern all of it. -/
theorem problemsOf_cases {kind : Kind} (text : Text) (notString : kind ≠ .string) :
    problemsOf kind text = [] ∨ ∃ problem, problemsOf kind text = [(problem, Span.ofSize 0 (Text.size text))] := by
  unfold problemsOf
  split <;> (try contradiction) <;> (repeat' split) <;> simp

/-- A lexeme that is no string has a problem if it is malformed, and only then. -/
theorem problemsOf_ne_nil_iff {r : Registry} {rest text : Text} {kind : Kind} (recognised : Recognises r rest kind text)
    (notString : kind ≠ .string) : problemsOf kind text ≠ [] ↔ Malformed kind text := by
  obtain ⟨isBytes, isKeyword, nonempty⟩ := recognised.spelling
  constructor
  · intro someProblem
    unfold problemsOf at someProblem
    split at someProblem
    · obtain ⟨digits, textEq, -⟩ := isBytes rfl
      obtain rfl : text = '0' :: 'x' :: digits := textEq
      refine .bytes ?_
      by_contra whole
      simp only [List.length_cons] at someProblem
      rw [if_neg (by omega), if_neg (by omega)] at someProblem
      contradiction
    · contradiction
    · obtain ⟨name, textEq, -⟩ := isKeyword rfl
      obtain rfl : text = ':' :: name := textEq
      refine .keyword ?_
      by_contra short
      simp only [List.length_cons] at someProblem
      rw [if_neg (by omega)] at someProblem
      contradiction
    · exact .symbol rfl (by by_contra short; rw [if_neg short] at someProblem; contradiction)
    · exact .symbol rfl (by by_contra short; rw [if_neg short] at someProblem; contradiction)
    · exact .symbol rfl (by by_contra short; rw [if_neg short] at someProblem; contradiction)
    · exact .unknown
    · contradiction
  · intro malformed
    cases malformed with
    | unknown =>
      cases text with
      | nil => exact absurd rfl (nonempty rfl)
      | cons c cs =>
        simp only [problemsOf]
        split <;> simp_all
    | unclosed | shortCode => contradiction
    | bytes odd =>
      simp only [problemsOf, List.length_cons]
      split
      · simp
      · rw [if_pos (by omega)]
        simp
    | symbol isSymbol long =>
      cases kind <;> first | contradiction | simp [problemsOf, long]
    | keyword long => simp [problemsOf, long]

end Lexeme

namespace Token

variable {text : Text} {r : Registry} {t : Token}

theorem shift_whole (member : t ∈ (tokenize text r).1) :
    (Span.ofSize 0 (Text.size t.text)).shift t.span.start = t.span := by
  have size := (placed_tokensFrom r 0 text).1.size t member
  simp only [Span.shift, Span.ofSize, Nat.add_zero, Nat.zero_add, ← size]

/-- A malformed token that is no string has one diagnostic, about all of it; a token that is not malformed has none. -/
theorem diagnostics_cases (member : t ∈ (tokenize text r).1) (notString : t.kind ≠ .string) :
    t.IsMalformed ∧ (∃ message, t.diagnostics = [.lexical message t.span]) ∨ ¬ t.IsMalformed ∧ t.diagnostics = [] := by
  by_cases isEnd : t.kind = .eof
  · refine .inr ⟨?_, by rw [diagnostics, isEnd]; rfl⟩
    rw [IsMalformed, isEnd]
    rintro (_ | _ | _ | _ | isSymbol | _)
    contradiction
  · obtain ⟨rest, -, -, recognised⟩ := recognised_tokensFrom r 0 text [] rfl t member isEnd
    have iff := Lexeme.problemsOf_ne_nil_iff ((recognised t.kind t.text).mpr ⟨rfl, rfl⟩) notString
    rcases Lexeme.problemsOf_cases t.text notString with none | ⟨problem, one⟩
    · exact .inr ⟨fun malformed => iff.mpr malformed none, by rw [diagnostics, none]; rfl⟩
    · refine .inl ⟨iff.mp (by rw [one]; exact List.cons_ne_nil _ _), problem.message, ?_⟩
      rw [diagnostics, one, List.map_singleton, shift_whole member]

/-- A string has a diagnostic for each of its short codes, and one about all of it if it is not closed. -/
theorem diagnostics_of_string (member : t ∈ (tokenize text r).1) (isString : t.kind = .string) :
    ∃ (codes : List Span) (unclosed : List Diagnostic), codes.Pairwise (fun a b => a.start < b.start) ∧
      (∀ span, span ∈ codes ↔ t.HasShortCode span) ∧
      (IsString t.text ∧ unclosed = [] ∨
        ¬ IsString t.text ∧ unclosed = [.lexical LexicalProblem.unterminatedString.message t.span]) ∧
      t.diagnostics = codes.map (.lexical LexicalProblem.badUnicodeEscape.message) ++ unclosed := by
  obtain ⟨rest, -, -, recognised⟩ := recognised_tokensFrom r 0 text [] rfl t member (by rw [isString]; decide)
  have own := (recognised t.kind t.text).mpr ⟨rfl, rfl⟩
  rw [isString] at own
  obtain ⟨body, textEq, uncut⟩ := own.exists_uncut
  have closed := closed_iff_isString uncut
  rw [← textEq] at closed
  have found : t.diagnostics =
      ((Scan.stringBody 1 body).badEscapes.map (Span.shift t.span.start)).map
          (.lexical LexicalProblem.badUnicodeEscape.message) ++
        if (Scan.stringBody 1 body).closed then []
        else [.lexical LexicalProblem.unterminatedString.message t.span] := by
    have whole := shift_whole member
    rw [textEq] at whole
    rw [diagnostics, isString, textEq]
    simp only [Lexeme.problemsOf, List.tail_cons, Scan.string, uncut, List.map_append, List.map_map]
    congr 1
    split
    · rfl
    · rw [List.map_singleton, whole]
  refine ⟨_, _, ?_, ?_, ?_, found⟩
  · rw [List.pairwise_map]
    exact (pairwise_badEscapes 1 body).imp fun before => Nat.add_lt_add_left before _
  · intro span
    rw [List.mem_map, HasShortCode, textEq]
    constructor
    · rintro ⟨inner, flagged, rfl⟩
      have short := isShortCode_of_mem 1 body flagged
      rw [uncut] at short
      exact ⟨body, rfl, IsShortCode.shift.mpr ⟨inner, short, rfl⟩⟩
    · rintro ⟨other, same, short⟩
      obtain rfl : other = body := (List.cons.inj same).2.symm
      obtain ⟨inner, unshifted, rfl⟩ := IsShortCode.shift.mp short
      exact ⟨inner, mem_of_isShortCode 1 other (by rw [uncut]; exact unshifted), rfl⟩
  · cases isClosed : (Scan.stringBody 1 body).closed with
    | true => exact .inl ⟨closed.mp isClosed, rfl⟩
    | false =>
      refine .inr ⟨fun isString => ?_, rfl⟩
      rw [closed.mpr isString] at isClosed
      contradiction

theorem isMalformed_string_iff (isString : t.kind = .string) :
    t.IsMalformed ↔ ¬ IsString t.text ∨ ∃ span, t.HasShortCode span := by
  rw [IsMalformed, isString]
  constructor
  · intro malformed
    generalize textEq : t.text = lexeme at malformed
    cases malformed with
    | unclosed unclosed => exact .inl unclosed
    | @shortCode body span short =>
      exact .inr ⟨span.shift t.span.start, body, textEq, IsShortCode.shift.mpr ⟨span, short, rfl⟩⟩
    | symbol isSymbol => contradiction
  · rintro (unclosed | ⟨span, body, textEq, short⟩)
    · exact .unclosed unclosed
    · obtain ⟨inner, short, -⟩ := IsShortCode.shift.mp short
      rw [textEq]
      exact .shortCode short

theorem context_of_mem_tokenize {d : Diagnostic} (reported : d ∈ (tokenize text r).2) : d.context = none := by
  rw [tokenize, diagnostics_tokensFrom] at reported
  obtain ⟨t, -, own⟩ := List.mem_flatMap.mp reported
  obtain ⟨problem, -, rfl⟩ := List.mem_map.mp own
  rfl

/-- A diagnostic of the scanner lies in one token only. -/
theorem existsUnique_holds {d : Diagnostic} (reported : d ∈ (tokenize text r).2) :
    ∃! i : Nat, ∃ t, (tokenize text r).1[i]? = some t ∧ t.Holds d := by
  rw [tokenize, diagnostics_tokensFrom] at reported
  obtain ⟨t, member, own⟩ := List.mem_flatMap.mp reported
  obtain ⟨inside, nonempty⟩ := holds_of_mem_diagnostics member own
  obtain ⟨i, found⟩ := List.mem_iff_getElem?.mp member
  refine ⟨i, ⟨t, found, inside⟩, ?_⟩
  rintro j ⟨u, found', inside'⟩
  have placed := (placed_tokensFrom r 0 text).1
  rcases Nat.lt_trichotomy i j with before | same | after
  · have apart := (placed.stop_le_start before found found').2
    simp only [Holds] at inside inside'
    omega
  · exact same.symm
  · have apart := (placed.stop_le_start after found' found).2
    simp only [Holds] at inside inside'
    omega

end Token

/-- Lexical diagnostics mark exactly the malformed tokens: each lies in one token, and the diagnostics in a token are
one about all of it if it is malformed and no string, one for each short code of a string and one about all of it if
it is not closed, and no others. -/
theorem lexical_diagnostics_mark_malformed (text : Text) (r : Registry) :
    (∀ d ∈ (Token.tokenize text r).2, d.kind = .lexical ∧ d.context = none ∧
      ∃! i : Nat, ∃ t, (Token.tokenize text r).1[i]? = some t ∧ t.Holds d) ∧
    ∀ t ∈ (Token.tokenize text r).1,
      ((∃ d ∈ (Token.tokenize text r).2, t.Holds d) ↔ t.IsMalformed) ∧
      (t.kind ≠ .string → t.IsMalformed →
        ∃ message, (Token.tokenize text r).2.filter (fun d => t.Holds d) = [.lexical message t.span]) ∧
      (t.kind = .string →
        (t.IsMalformed ↔ ¬ IsString t.text ∨ ∃ span, t.HasShortCode span) ∧
        ∃ (codes : List Span) (unclosed : List Diagnostic), codes.Pairwise (fun a b => a.start < b.start) ∧
          (∀ span, span ∈ codes ↔ t.HasShortCode span) ∧
          (IsString t.text ∧ unclosed = [] ∨
            ¬ IsString t.text ∧ unclosed = [.lexical LexicalProblem.unterminatedString.message t.span]) ∧
          (Token.tokenize text r).2.filter (fun d => t.Holds d) =
            codes.map (.lexical LexicalProblem.badUnicodeEscape.message) ++ unclosed) := by
  refine ⟨fun d reported => ?_, fun t member => ?_⟩
  · exact ⟨Delimiters.kind_of_mem_tokenize reported, Token.context_of_mem_tokenize reported,
      Token.existsUnique_holds reported⟩
  have own := Token.filter_holds_tokenize member
  have someOwn : (∃ d ∈ (Token.tokenize text r).2, t.Holds d) ↔ t.diagnostics ≠ [] := by
    rw [← own, ne_eq, List.filter_eq_nil_iff]
    simp
  rw [someOwn, own]
  by_cases isString : t.kind = .string
  · obtain ⟨codes, unclosed, inOrder, complete, closing, found⟩ := Token.diagnostics_of_string member isString
    have malformed := Token.isMalformed_string_iff isString
    refine ⟨?_, fun notString => absurd isString notString, fun _ => ⟨malformed, codes, unclosed, inOrder, complete,
      closing, found⟩⟩
    rw [malformed, found, ne_eq, List.append_eq_nil_iff, List.map_eq_nil_iff, List.eq_nil_iff_forall_not_mem]
    rcases closing with ⟨closed, rfl⟩ | ⟨notClosed, rfl⟩
    · simp [closed, complete]
    · simp [notClosed]
  · rcases Token.diagnostics_cases member isString with ⟨malformed, message, one⟩ | ⟨wellFormed, none⟩
    · refine ⟨?_, fun _ _ => ⟨message, one⟩, fun is => absurd is isString⟩
      simp [malformed, one]
    · refine ⟨?_, fun _ malformed => absurd malformed wellFormed, fun is => absurd is isString⟩
      simp [wellFormed, none]

/-- In a string that is not closed, a code with two digits and one with none, around a good one. -/
example : (Token.tokenize "\"\\u1f\\u0041\\u".toList .empty).2.map (fun d => (d.span.start, d.span.stop)) =
    [(1, 5), (11, 13), (0, 13)] := by
  decide +kernel

end LispSyntax
