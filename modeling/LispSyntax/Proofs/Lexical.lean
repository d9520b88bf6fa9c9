import LispSyntax.Proofs.Writing.Scan

/-! # The lexical grammar

What the lexemes are, said without reference to how they are scanned. A class of lexemes is a predicate on
texts; `Longest` picks the longest member of a class that a text starts with, and `Absent` says that there is
none. `Recognises r rest kind lexeme` puts the classes in order: this is the lexeme that the grammar puts at the
front of `rest`. The lemmas here are about one class at a time; numbers have a module of their own.
-/

namespace LispSyntax

namespace Lexical

/-! ## Longest members -/

/-- The lexeme is the longest member of the class that the text starts with. -/
structure Longest (spelling : Text → Prop) (rest lexeme : Text) : Prop where
  spelled : spelling lexeme
  starts : lexeme <+: rest
  longest : ∀ other, spelling other → other <+: rest → other.length ≤ lexeme.length

/-- The text starts with no member of the class. -/
def Absent (spelling : Text → Prop) (rest : Text) : Prop :=
  ∀ lexeme, spelling lexeme → ¬ lexeme <+: rest

theorem Longest.unique {spelling : Text → Prop} {rest a b : Text} (first : Longest spelling rest a)
    (second : Longest spelling rest b) : a = b := by
  have shorter := second.longest a first.spelled first.starts
  have longer := first.longest b second.spelled second.starts
  exact (List.prefix_of_prefix_length_le first.starts second.starts shorter).eq_of_length_le longer

theorem Longest.not_absent {spelling : Text → Prop} {rest lexeme : Text}
    (longest : Longest spelling rest lexeme) : ¬ Absent spelling rest :=
  fun absent => absent lexeme longest.spelled longest.starts

/-! ## Classes -/

/-- Some opening and then a run of characters of one class, of which a least number is asked. -/
def IsRun (opening : Text) (within : Char → Bool) (least : Nat) (text : Text) : Prop :=
  ∃ run, text = opening ++ run ∧ least ≤ run.length ∧ ∀ c ∈ run, within c = true

/-- A byte string: `0x` and hex digits, possibly none. -/
def IsBytes : Text → Prop :=
  IsRun ['0', 'x'] Text.isHexDigit 0

/-- An address: a hash and digits. -/
def IsAddress : Text → Prop :=
  IsRun ['#'] Text.isDigit 1

/-- A keyword: a colon and symbol characters. -/
def IsKeyword : Text → Prop :=
  IsRun [':'] Text.isSymbolChar 1

/-- A symbol: symbol characters. -/
def IsSymbol : Text → Prop :=
  IsRun [] Text.isSymbolChar 1

/-- Digits, at least one. -/
def IsDigits (text : Text) : Prop :=
  text ≠ [] ∧ ∀ c ∈ text, Text.isDigit c = true

/-- An optional sign. -/
def IsSign (text : Text) : Prop :=
  text = [] ∨ text = ['+'] ∨ text = ['-']

/-- An exponent: a mark, an optional sign and digits. -/
inductive IsExponent : Text → Prop where
  | intro {mark : Char} {sign digits : Text} : mark = 'e' ∨ mark = 'E' → IsSign sign → IsDigits digits →
      IsExponent (mark :: (sign ++ digits))

/-- A number of the given kind. Without fraction and exponent it is an integer, which may end in a point. -/
inductive IsNumber : Kind → Text → Prop where
  | whole {sign digits : Text} : IsSign sign → IsDigits digits → IsNumber .int (sign ++ digits)
  | pointed {sign digits : Text} : IsSign sign → IsDigits digits →
      IsNumber .int (sign ++ (digits ++ ['.']))
  | fraction {sign digits fraction exponent : Text} : IsSign sign → (digits = [] ∨ IsDigits digits) →
      IsDigits fraction → (exponent = [] ∨ IsExponent exponent) →
      IsNumber .float (sign ++ (digits ++ '.' :: (fraction ++ exponent)))
  | scientific {sign digits exponent : Text} : IsSign sign → IsDigits digits → IsExponent exponent →
      IsNumber .float (sign ++ (digits ++ exponent))

def IsNumeral (text : Text) : Prop :=
  ∃ kind, IsNumber kind text

/-- A character: a backslash with a name, with `u` and four hex digits, or with any character that does not
end the line. -/
inductive IsCharacter : Text → Prop where
  | named {word : Text} : word ∈ Scan.namedCharacters → IsCharacter ('\\' :: word)
  | code {digits : Text} : digits.length = 4 → (∀ c ∈ digits, Text.isHexDigit c = true) →
      IsCharacter ('\\' :: 'u' :: digits)
  | plain {c : Char} : c ≠ '\n' → c ≠ '\r' → IsCharacter ['\\', c]

/-- What may stand between two quotes: no quote and no backslash, but for pairs of a backslash and a
character. -/
inductive IsQuoted : Text → Prop where
  | nil : IsQuoted []
  | plain {c : Char} {cs : Text} : c ≠ '"' → c ≠ '\\' → IsQuoted cs → IsQuoted (c :: cs)
  | escape {c : Char} {cs : Text} : IsQuoted cs → IsQuoted ('\\' :: c :: cs)

def IsString (text : Text) : Prop :=
  ∃ body, IsQuoted body ∧ text = '"' :: (body ++ ['"'])

/-- The words that are no symbols although they are made of symbol characters. -/
def reservedWords : List (Text × Kind) :=
  [("nil".toList, .nilWord), ("true".toList, .trueWord), ("false".toList, .falseWord), (['^'], .caret)]

def fixedLexemes : List (Text × Kind) :=
  [(['('], .leftParen), ([')'], .rightParen), (['['], .leftBracket), ([']'], .rightBracket),
    (['\x7b'], .leftBrace), (['\x7d'], .rightBrace), (['#', '\x7b'], .hashLeftBrace),
    (['\x27'], .quoteMark), (['\x60'], .backtick), (['~'], .tilde), (['/'], .slash),
    ("##NaN".toList, .float), ("##Inf".toList, .float), ("##-Inf".toList, .float)]

def IsFixed (text : Text) : Prop :=
  text ∈ fixedLexemes.map Prod.fst

/-! ## The order of the classes -/

/-- The grammar puts the lexeme, with the kind, at the front of the text. -/
inductive Recognises (r : Registry) (rest : Text) : Kind → Text → Prop where
  | bytes {lexeme : Text} : Longest IsBytes rest lexeme → Recognises r rest .bytes lexeme
  | number {kind : Kind} {lexeme : Text} : ¬ ['0', 'x'] <+: rest → Longest IsNumeral rest lexeme →
      IsNumber kind lexeme → Recognises r rest kind lexeme
  | address {lexeme : Text} : Longest IsAddress rest lexeme → Recognises r rest .address lexeme
  | keyword {lexeme : Text} : Longest IsKeyword rest lexeme → Recognises r rest .keyword lexeme
  | reserved {kind : Kind} {lexeme : Text} : Absent IsNumeral rest → Longest IsSymbol rest lexeme →
      (lexeme, kind) ∈ reservedWords → Recognises r rest kind lexeme
  | symbol {lexeme : Text} : Absent IsNumeral rest → Longest IsSymbol rest lexeme →
      lexeme ∉ reservedWords.map Prod.fst → Recognises r rest (Scan.symbolKind r lexeme) lexeme
  | character {lexeme : Text} : Longest IsCharacter rest lexeme → Recognises r rest .char lexeme
  | string {lexeme : Text} : IsString lexeme → lexeme <+: rest → Recognises r rest .string lexeme
  /-- A string that is never closed takes the whole text. -/
  | unterminated : ['"'] <+: rest → Absent IsString rest → Recognises r rest .string rest
  | fixed {kind : Kind} {lexeme : Text} : (lexeme, kind) ∈ fixedLexemes → lexeme <+: rest →
      Recognises r rest kind lexeme
  | colon : [':'] <+: rest → Absent IsKeyword rest → Recognises r rest .colon [':']
  | backslash : ['\\'] <+: rest → Absent IsCharacter rest → Recognises r rest .unknown ['\\']
  | hashHash : ['#', '#'] <+: rest → Absent IsFixed rest → Recognises r rest .unknown ['#', '#']
  | hash : ['#'] <+: rest → Absent IsFixed rest → Absent IsAddress rest → ¬ ['#', '#'] <+: rest →
      Recognises r rest .unknown ['#']
  | control {c : Char} : Text.isControl c = true → [c] <+: rest → Recognises r rest .unknown [c]

/-! ## Runs -/

open Writing Scan

theorem length_le_takeWhile {within : Char → Bool} {run cs : Text}
    (inside : ∀ c ∈ run, within c = true) (starts : run <+: cs) :
    run.length ≤ (cs.takeWhile within).length := by
  obtain ⟨after, rfl⟩ := starts
  rw [List.takeWhile_append_of_pos inside]
  simp

theorem inside_takeWhile (within : Char → Bool) (cs : Text) :
    ∀ c ∈ cs.takeWhile within, within c = true :=
  List.all_eq_true.mp List.all_takeWhile

section

variable {opening cs rest lexeme : Text} {within : Char → Bool} {least : Nat}

theorem longest_run (opening : Text) (enough : least ≤ (cs.takeWhile within).length) :
    Longest (IsRun opening within least) (opening ++ cs) (opening ++ cs.takeWhile within) where
  spelled := ⟨_, rfl, enough, inside_takeWhile within cs⟩
  starts := (List.prefix_append_right_inj opening).mpr (List.takeWhile_prefix within)
  longest := by
    rintro other ⟨run, rfl, -, inside⟩ starts
    have bounded := length_le_takeWhile inside ((List.prefix_append_right_inj opening).mp starts)
    simpa using bounded

/-- The longest run is what the scanner takes. -/
theorem Longest.run_eq (longest : Longest (IsRun opening within least) rest lexeme) :
    ∃ cs, rest = opening ++ cs ∧ lexeme = opening ++ cs.takeWhile within ∧
      least ≤ (cs.takeWhile within).length := by
  obtain ⟨run, rfl, enough, inside⟩ := longest.spelled
  obtain ⟨after, rfl⟩ := longest.starts
  have bounded : run.length ≤ ((run ++ after).takeWhile within).length :=
    length_le_takeWhile inside (List.prefix_append run after)
  have taken : least ≤ ((run ++ after).takeWhile within).length := by omega
  refine ⟨run ++ after, List.append_assoc .., ?_, taken⟩
  rw [List.append_assoc] at longest
  exact longest.unique (longest_run _ taken)

theorem absent_run (short : (cs.takeWhile within).length < least) :
    Absent (IsRun opening within least) (opening ++ cs) := by
  rintro other ⟨run, rfl, enough, inside⟩ starts
  have bounded := length_le_takeWhile inside ((List.prefix_append_right_inj opening).mp starts)
  omega

/-- Where no run is long enough, the scanner takes fewer characters than are asked. -/
theorem Absent.short (opening : Text) (absent : Absent (IsRun opening within least) (opening ++ cs)) :
    (cs.takeWhile within).length < least := by
  by_cases enough : least ≤ (cs.takeWhile within).length
  · exact absurd absent (longest_run opening enough).not_absent
  · omega

end

/-! ## Words from a list -/

theorem firstWord?_eq_some {words : List Text} {cs word rest : Text}
    (found : firstWord? words cs = some (word, rest)) : word ∈ words ∧ word ++ rest = cs := by
  obtain ⟨other, member, matched⟩ := List.exists_of_findSome?_eq_some found
  simp only [Option.map_eq_some_iff, Prod.mk.injEq] at matched
  obtain ⟨after, same, rfl, rfl⟩ := matched
  exact ⟨member, Text.after?_eq_some_iff.mp same⟩

theorem firstWord?_eq_none_iff {words : List Text} {cs : Text} :
    firstWord? words cs = none ↔ ∀ word ∈ words, ¬ word <+: cs := by
  rw [firstWord?, List.findSome?_eq_none_iff]
  refine forall_congr' fun word => imp_congr_right fun _ => ?_
  rw [Option.map_eq_none_iff, Option.eq_none_iff_forall_ne_some]
  simp only [ne_eq, Text.after?_eq_some_iff, List.IsPrefix, not_exists]

/-- Where no word starts with another, at most one of them is at the front of a text. -/
theorem eq_of_words (words : List Text) (apart : ∀ a ∈ words, ∀ b ∈ words, a <+: b → a = b)
    {a b cs : Text} (ofA : a ∈ words) (ofB : b ∈ words) (startsA : a <+: cs) (startsB : b <+: cs) :
    a = b := by
  cases List.prefix_or_prefix_of_prefix startsA startsB with
  | inl shorter => exact apart a ofA b ofB shorter
  | inr longer => exact (apart b ofB a ofA longer).symm

/-! ## Strings -/

/-- What stands between the quotes is read up to the closing one. -/
theorem IsQuoted.stringBody_eq {body : Text} (quoted : IsQuoted body) (offset : Nat) (after : Text) :
    (stringBody offset (body ++ '"' :: after)).text = body ++ ['"'] ∧
      (stringBody offset (body ++ '"' :: after)).closed = true := by
  induction quoted generalizing offset with
  | nil => exact ⟨rfl, rfl⟩
  | @plain c cs notQuote notEscape _ inductionHypothesis =>
    obtain ⟨textEq, closedEq⟩ := inductionHypothesis (offset + c.utf8Size)
    rw [List.cons_append, stringBody_plain offset ⟨notQuote, notEscape⟩]
    exact ⟨congrArg (c :: ·) textEq, closedEq⟩
  | @escape c cs _ inductionHypothesis =>
    obtain ⟨textEq, closedEq⟩ := inductionHypothesis (offset + 1 + c.utf8Size)
    have parts : ∀ body : StringBody, body.text = cs ++ ['"'] → body.closed = true → ∀ spans,
        (((body.cons c).cons '\\').flag spans).text = '\\' :: c :: (cs ++ ['"']) ∧
          (((body.cons c).cons '\\').flag spans).closed = true := by
      intro body sameText isClosed spans
      exact ⟨congrArg (fun text => '\\' :: c :: text) sameText, isClosed⟩
    simp only [List.cons_append, stringBody]
    split
    · exact parts _ textEq closedEq _
    · exact parts _ textEq closedEq []

/-- A string that is closed ends at its first quote, and one that is not takes everything. -/
theorem stringBody_parts (offset : Nat) (cs : Text) :
    ((stringBody offset cs).closed = true →
      ∃ body, IsQuoted body ∧ (stringBody offset cs).text = body ++ ['"']) ∧
    ((stringBody offset cs).closed = false → (stringBody offset cs).text = cs) := by
  fun_induction stringBody offset cs with
  | case1 offset => simp
  | case2 offset cs => exact ⟨fun _ => ⟨[], .nil, rfl⟩, by simp⟩
  | case3 offset cs body inductionHypothesis =>
    simp only [body, StringBody.flag, StringBody.cons]
    refine ⟨?_, fun unclosed => by rw [inductionHypothesis.2 unclosed]⟩
    intro closed
    obtain ⟨inner, quoted, textEq⟩ := inductionHypothesis.1 closed
    exact ⟨'\\' :: 'u' :: inner, quoted.escape, by rw [textEq]; rfl⟩
  | case4 offset c cs body notU inductionHypothesis =>
    simp only [body, StringBody.cons]
    refine ⟨?_, fun unclosed => by rw [inductionHypothesis.2 unclosed]⟩
    intro closed
    obtain ⟨inner, quoted, textEq⟩ := inductionHypothesis.1 closed
    exact ⟨'\\' :: c :: inner, quoted.escape, by rw [textEq]; rfl⟩
  | case5 offset c cs notQuote notEscape inductionHypothesis =>
    simp only [StringBody.cons]
    refine ⟨?_, fun unclosed => by rw [inductionHypothesis.2 unclosed]⟩
    intro closed
    obtain ⟨inner, quoted, textEq⟩ := inductionHypothesis.1 closed
    by_cases escape : c = '\\'
    · -- A backslash that escapes nothing is the last character, and the string stays open.
      cases cs with
      | nil => simp [stringBody] at closed
      | cons d ds => exact (notEscape d ds escape rfl).elim
    · exact ⟨c :: inner, .plain notQuote escape quoted, by rw [textEq]; rfl⟩

theorem string_of_isString {lexeme cs : Text} (isString : IsString lexeme)
    (starts : lexeme <+: '"' :: cs) :
    (string cs).lexeme.text = lexeme ∧ (stringBody 1 cs).closed = true := by
  obtain ⟨body, quoted, rfl⟩ := isString
  obtain ⟨after, whole⟩ := starts
  obtain rfl : body ++ '"' :: after = cs := by simpa using whole
  obtain ⟨textEq, closedEq⟩ := quoted.stringBody_eq 1 after
  exact ⟨by simp [string, textEq], closedEq⟩

/-- Reading a string gives the closed one at the front, or the whole text if there is none. -/
theorem string_cases (cs : Text) :
    (IsString (string cs).lexeme.text ∧ (string cs).lexeme.text <+: '"' :: cs) ∨
    (Absent IsString ('"' :: cs) ∧ (string cs).lexeme.text = '"' :: cs) := by
  obtain ⟨ifClosed, ifOpen⟩ := stringBody_parts 1 cs
  cases closed : (stringBody 1 cs).closed with
  | true =>
    obtain ⟨body, quoted, textEq⟩ := ifClosed closed
    refine .inl ⟨⟨body, quoted, by simp [string, textEq]⟩, (string cs).rest, ?_⟩
    exact whole_string cs
  | false =>
    refine .inr ⟨?_, by simp [string, ifOpen closed]⟩
    intro lexeme isString starts
    have isClosed := (string_of_isString isString starts).2
    rw [closed] at isClosed
    contradiction

/-! ## Characters -/

theorem hexRun_of_code {digits rest : Text} (four : digits.length = 4)
    (digital : ∀ c ∈ digits, Text.isHexDigit c = true) (starts : digits <+: rest) :
    hexRun rest = digits := by
  obtain ⟨after, rfl⟩ := starts
  exact hexRun_code ⟨digits, four, digital⟩ after

theorem not_prefix_of_head {c d : Char} {cs ds : Text} (apart : c ≠ d) : ¬ c :: cs <+: d :: ds := by
  intro starts
  exact apart (List.cons_prefix_cons.mp starts).1

theorem longest_character {c : Char} {rest : Text} (notFeed : c ≠ '\n') (notReturn : c ≠ '\r') :
    Longest IsCharacter ('\\' :: c :: rest) (character (c :: rest)).lexeme.text := by
  have starts : (character (c :: rest)).lexeme.text <+: '\\' :: c :: rest :=
    ⟨_, whole_character (c :: rest)⟩
  have inLine : (c = '\n' || c = '\r') = false := by simp [notFeed, notReturn]
  cases found : firstWord? namedCharacters (c :: rest) with
  | some pair =>
    obtain ⟨word, after⟩ := pair
    obtain ⟨member, whole⟩ := firstWord?_eq_some found
    have textEq : (character (c :: rest)).lexeme.text = '\\' :: word := by
      simp [character, notFeed, notReturn, found]
    rw [textEq] at starts ⊢
    refine ⟨.named member, starts, ?_⟩
    rintro other isCharacter startsOther
    have long : ∀ word ∈ namedCharacters, 1 ≤ word.length := by decide
    cases isCharacter with
    | named member' =>
      have same := eq_of_words namedCharacters (by decide) member' member
        (List.cons_prefix_cons.mp startsOther).2 ⟨after, whole⟩
      exact Nat.le_of_eq (by rw [same])
    | code four digital =>
      -- No name starts with the letter that marks a code.
      have isU := (List.cons_prefix_cons.mp (List.cons_prefix_cons.mp startsOther).2).1
      have noName : ∀ word ∈ namedCharacters, word.head? ≠ some 'u' ∧ word ≠ [] := by decide
      cases word with
      | nil => exact absurd rfl (noName [] member).2
      | cons d ds =>
        obtain ⟨rfl, -⟩ := List.cons.inj whole
        exact absurd (congrArg some isU.symm) (noName (d :: ds) member).1
    | plain _ _ => simpa using long word member
  | none =>
    have noName := firstWord?_eq_none_iff.mp found
    have notNamed : ∀ word ∈ namedCharacters, ¬ '\\' :: word <+: '\\' :: c :: rest := by
      intro word member startsWord
      exact noName word member (List.cons_prefix_cons.mp startsWord).2
    by_cases isCode : c = 'u' ∧ (hexRun rest).length = 4
    · obtain ⟨rfl, four⟩ := isCode
      have textEq : (character ('u' :: rest)).lexeme.text = '\\' :: 'u' :: hexRun rest := by
        simp [character, found, four]
      rw [textEq] at starts ⊢
      refine ⟨.code four (inside_takeWhile _ _), starts, ?_⟩
      rintro other isCharacter startsOther
      cases isCharacter with
      | named member => exact absurd startsOther (notNamed _ member)
      | code four' digital => simp [four, four']
      | plain _ _ => simp
    · have textEq : (character (c :: rest)).lexeme.text = ['\\', c] := by
        simp only [character, inLine, found]
        split
        · contradiction
        · split
          · rename_i code
            simp only [Bool.and_eq_true, decide_eq_true_eq, beq_iff_eq] at code
            exact absurd code isCode
          · rfl
      rw [textEq] at starts ⊢
      refine ⟨.plain notFeed notReturn, starts, ?_⟩
      rintro other isCharacter startsOther
      cases isCharacter with
      | named member => exact absurd startsOther (notNamed _ member)
      | code four digital =>
        obtain ⟨isU, startsDigits⟩ :=
          List.cons_prefix_cons.mp (List.cons_prefix_cons.mp startsOther).2
        refine absurd ⟨isU.symm, ?_⟩ isCode
        rw [hexRun_of_code four digital startsDigits, four]
      | plain _ _ => simp

/-- At the end of the line no character can be written. -/
theorem absent_character {cs : Text} (ends : ∀ c rest, cs = c :: rest → c = '\n' ∨ c = '\r') :
    Absent IsCharacter ('\\' :: cs) := by
  have head : ∀ c rest, ¬ (c ≠ '\n' ∧ c ≠ '\r' ∧ c :: rest <+: cs) := by
    rintro c rest ⟨notFeed, notReturn, after, whole⟩
    cases ends c (rest ++ after) whole.symm with
    | inl isFeed => exact notFeed isFeed
    | inr isReturn => exact notReturn isReturn
  rintro lexeme isCharacter starts
  cases isCharacter with
  | @named word member =>
    have proper : ∀ word ∈ namedCharacters, ∃ c rest, word = c :: rest ∧ c ≠ '\n' ∧ c ≠ '\r' := by
      simp [namedCharacters]
    obtain ⟨c, rest, rfl, notFeed, notReturn⟩ := proper word member
    exact head c rest ⟨notFeed, notReturn, (List.cons_prefix_cons.mp starts).2⟩
  | @code digits four digital =>
    exact head 'u' digits ⟨by decide, by decide, (List.cons_prefix_cons.mp starts).2⟩
  | @plain c notFeed notReturn =>
    exact head c [] ⟨notFeed, notReturn, (List.cons_prefix_cons.mp starts).2⟩

end Lexical

end LispSyntax
