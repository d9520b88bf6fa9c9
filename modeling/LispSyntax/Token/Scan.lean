import LispSyntax.Registry
import LispSyntax.Text.Classes
import LispSyntax.Token.Lexeme

/-! # Scanning

One scanner per family of lexemes, chosen by the first character. Runs are `takeWhile` and `dropWhile`,
so each lexeme is as long as its class allows. A scanner returns the lexeme and the text after it, and
`Scan.scan_append` says that the two make up the input: no character is dropped or read twice.
-/

namespace LispSyntax

structure Scan where
  lexeme : Lexeme
  rest : Text
deriving DecidableEq, Repr

namespace Scan

def exponent? : Text → Option (Text × Text)
  | [] => none
  | e :: cs =>
    if e = 'e' || e = 'E' then
      let sign := cs.take 1 |>.filter fun c => c == '+' || c == '-'
      let digits := cs.drop sign.length
      match digits.takeWhile Text.isDigit with
      | [] => none
      | run => some (e :: sign ++ run, digits.dropWhile Text.isDigit)
    else none

/-- Ends a number with its exponent, if one follows. A fraction or an exponent makes it a float. -/
def endNumber (hasFraction : Bool) (text rest : Text) : Scan :=
  match exponent? rest with
  | some (exponent, rest) => ⟨.clean .float (text ++ exponent), rest⟩
  | none => ⟨.clean (if hasFraction then .float else .int) text, rest⟩

def startsWithDigit : Text → Bool
  | [] => false
  | c :: _ => Text.isDigit c

def startsNumber : Text → Bool
  | '.' :: cs => startsWithDigit cs
  | cs => startsWithDigit cs

/-- A number whose first character is a digit, a sign or a point. A point that no digit follows ends an
integer. -/
def number (first : Char) (cs : Text) : Scan :=
  let digits := cs.takeWhile Text.isDigit
  let rest := cs.dropWhile Text.isDigit
  if first = '.' then endNumber true (first :: digits) rest
  else
    match rest with
    | '.' :: fraction =>
      if startsWithDigit fraction then
        endNumber true (first :: digits ++ '.' :: fraction.takeWhile Text.isDigit)
          (fraction.dropWhile Text.isDigit)
      else ⟨.clean .int (first :: digits ++ ['.']), fraction⟩
    | _ => endNumber false (first :: digits) rest

def bytes (cs : Text) : Scan :=
  let digits := cs.takeWhile Text.isHexDigit
  let text := '0' :: 'x' :: digits
  let lexeme :=
    if digits.isEmpty then Lexeme.flawed .bytes text .noHexDigits
    else if digits.length % 2 ≠ 0 then Lexeme.flawed .bytes text .oddHexDigits
    else Lexeme.clean .bytes text
  ⟨lexeme, cs.dropWhile Text.isHexDigit⟩

def firstWord? (words : List Text) (cs : Text) : Option (Text × Text) :=
  words.findSome? fun word => (Text.after? word cs).map (word, ·)

def specialFloats : List Text :=
  ["NaN".toList, "Inf".toList, "-Inf".toList]

def hash (cs : Text) : Scan :=
  match cs with
  | '\x7b' :: rest => ⟨.clean .hashLeftBrace ['#', '\x7b'], rest⟩
  | '#' :: rest =>
    match firstWord? specialFloats rest with
    | some (word, rest) => ⟨.clean .float ('#' :: '#' :: word), rest⟩
    | none => ⟨.flawed .unknown ['#', '#'] .unknownHashHash, rest⟩
  | _ =>
    if startsWithDigit cs then
      ⟨.clean .address ('#' :: cs.takeWhile Text.isDigit), cs.dropWhile Text.isDigit⟩
    else ⟨.flawed .unknown ['#'] .loneHash, cs⟩

/-- A keyword, after its colon; a colon that no name follows stands alone. -/
def keyword (cs : Text) : Scan :=
  match cs.takeWhile Text.isSymbolChar with
  | [] => ⟨.clean .colon [':'], cs⟩
  | name => ⟨.named .keyword (':' :: name) name, cs.dropWhile Text.isSymbolChar⟩

def symbolKind (r : Registry) (name : Text) : Kind :=
  match r.classify name with
  | some .function => .builtinFunction
  | some .symbol => .builtinSymbol
  | none => .name

def symbolLexeme (r : Registry) (text : Text) : Lexeme :=
  if text = "nil".toList then .clean .nilWord text
  else if text = "true".toList then .clean .trueWord text
  else if text = "false".toList then .clean .falseWord text
  else if text = ['^'] then .clean .caret text
  else .named (symbolKind r text) text text

def symbol (r : Registry) (first : Char) (cs : Text) : Scan :=
  ⟨symbolLexeme r (first :: cs.takeWhile Text.isSymbolChar), cs.dropWhile Text.isSymbolChar⟩

def namedCharacters : List Text :=
  ["backspace".toList, "formfeed".toList, "newline".toList, "return".toList, "space".toList,
    "tab".toList]

def hexRun (cs : Text) : Text :=
  (cs.take 4).takeWhile Text.isHexDigit

/-- A character, after its backslash: a name, `u` and four hex digits, or any character that does not
end the line. -/
def character (cs : Text) : Scan :=
  match cs with
  | [] => ⟨.flawed .unknown ['\\'] .noCharacter, cs⟩
  | c :: rest =>
    if c = '\n' || c = '\r' then ⟨.flawed .unknown ['\\'] .noCharacter, cs⟩
    else
      match firstWord? namedCharacters cs with
      | some (word, rest) => ⟨.clean .char ('\\' :: word), rest⟩
      | none =>
        if c = 'u' && (hexRun rest).length == 4 then
          ⟨.clean .char ('\\' :: 'u' :: hexRun rest), rest.drop 4⟩
        else ⟨.clean .char ['\\', c], rest⟩

/-- What was read of a string after its opening quote: the text up to and with the closing quote if there
is one, and the places of bad escapes. -/
structure StringBody where
  text : Text
  rest : Text
  closed : Bool
  badEscapes : List Span
deriving DecidableEq, Repr

def StringBody.cons (c : Char) (b : StringBody) : StringBody :=
  { b with text := c :: b.text }

def StringBody.flag (spans : List Span) (b : StringBody) : StringBody :=
  { b with badEscapes := spans ++ b.badEscapes }

/-- The place of an escape with fewer than four hex digits, whose backslash is at the offset and whose
digits would start the text. -/
def badEscape? (offset : Nat) (cs : Text) : List Span :=
  if (hexRun cs).length < 4 then [Span.ofSize offset (2 + (hexRun cs).length)] else []

/-- Reads a string from the given offset on. A backslash takes the next character with it, so that a
quote after it does not close the string; the digits of an escape are ordinary characters. -/
def stringBody (offset : Nat) : Text → StringBody
  | [] => ⟨[], [], false, []⟩
  | '"' :: cs => ⟨['"'], cs, true, []⟩
  | '\\' :: c :: cs =>
    let body := (stringBody (offset + 1 + c.utf8Size) cs).cons c |>.cons '\\'
    if c = 'u' then body.flag (badEscape? offset cs) else body
  | c :: cs => (stringBody (offset + c.utf8Size) cs).cons c

def string (cs : Text) : Scan :=
  let body := stringBody 1 cs
  let text := '"' :: body.text
  let problems := body.badEscapes.map (LexicalProblem.badUnicodeEscape, ·)
  let unclosed :=
    if body.closed then [] else [(LexicalProblem.unterminatedString, Span.ofSize 0 (Text.size text))]
  ⟨⟨.string, text, problems ++ unclosed⟩, body.rest⟩

def mark? : Char → Option Kind
  | '(' => some .leftParen
  | ')' => some .rightParen
  | '[' => some .leftBracket
  | ']' => some .rightBracket
  | '\x7b' => some .leftBrace
  | '\x7d' => some .rightBrace
  | '\x27' => some .quoteMark
  | '\x60' => some .backtick
  | '~' => some .tilde
  | '/' => some .slash
  | _ => none

/-- A lexeme that starts with a digit: a byte string if `0x` opens it, else a number. -/
def digit (first : Char) (cs : Text) : Scan :=
  match first, cs with
  | '0', 'x' :: rest => bytes rest
  | _, _ => number first cs

/-- Whether the first character opens a number although it is no digit. -/
def opensNumber (first : Char) (cs : Text) : Bool :=
  ((first == '+' || first == '-') && startsNumber cs) || (first == '.' && startsWithDigit cs)

def scan (r : Registry) (first : Char) (cs : Text) : Scan :=
  match mark? first with
  | some kind => ⟨.clean kind [first], cs⟩
  | none =>
    if first = '"' then string cs
    else if first = '\\' then character cs
    else if first = '#' then hash cs
    else if first = ':' then keyword cs
    else if Text.isDigit first then digit first cs
    else if opensNumber first cs then number first cs
    else if Text.isSymbolChar first then symbol r first cs
    else ⟨.flawed .unknown [first] (.unexpectedCharacter first), cs⟩

/-! ## Nothing is lost -/

def whole (s : Scan) : Text :=
  s.lexeme.text ++ s.rest

@[simp] theorem text_clean (k : Kind) (t : Text) : (Lexeme.clean k t).text = t := rfl

@[simp] theorem text_flawed (k : Kind) (t : Text) (p : LexicalProblem) :
    (Lexeme.flawed k t p).text = t := rfl

@[simp] theorem text_named (k : Kind) (t n : Text) : (Lexeme.named k t n).text = t := by
  unfold Lexeme.named
  split <;> rfl

@[simp] theorem text_symbolLexeme (r : Registry) (t : Text) : (symbolLexeme r t).text = t := by
  unfold symbolLexeme
  repeat' split
  all_goals simp

theorem exponent?_append {cs taken rest : Text} (h : exponent? cs = some (taken, rest)) :
    taken ++ rest = cs := by
  cases cs with
  | nil => simp [exponent?] at h
  | cons e cs =>
    simp only [exponent?] at h
    split at h
    · split at h
      · simp at h
      · simp only [Option.some.injEq, Prod.mk.injEq] at h
        obtain ⟨rfl, rfl⟩ := h
        cases cs with
        | nil => simp
        | cons s cs =>
          by_cases sign : s = '+' ∨ s = '-'
          · simp [sign]
          · simp [sign]
    · simp at h

theorem whole_endNumber (f : Bool) (text rest : Text) :
    (endNumber f text rest).whole = text ++ rest := by
  unfold endNumber
  split
  · rename_i taken after h
    simp [whole, ← exponent?_append h]
  · rfl

theorem whole_number (first : Char) (cs : Text) : (number first cs).whole = first :: cs := by
  have run := List.takeWhile_append_dropWhile (p := Text.isDigit) (l := cs)
  simp only [number]
  split
  · simp [whole_endNumber]
  · split
    · rename_i fraction h
      rw [h] at run
      split
      · rw [whole_endNumber]
        simpa using run
      · simpa [whole] using run
    · simp [whole_endNumber]

theorem whole_bytes (cs : Text) : (bytes cs).whole = '0' :: 'x' :: cs := by
  simp only [bytes, whole]
  split
  · simp
  · split <;> simp

theorem firstWord?_append {words : List Text} {cs word rest : Text}
    (h : firstWord? words cs = some (word, rest)) : word ++ rest = cs := by
  obtain ⟨w, -, found⟩ := List.exists_of_findSome?_eq_some h
  simp only [Option.map_eq_some_iff, Prod.mk.injEq] at found
  obtain ⟨_, matched, rfl, rfl⟩ := found
  exact Text.after?_eq_some_iff.mp matched

theorem whole_hash (cs : Text) : (hash cs).whole = '#' :: cs := by
  unfold hash
  split
  · rfl
  · split
    · rename_i h
      simp [whole, firstWord?_append h]
    · rfl
  · split
    · simp [whole]
    · rfl

theorem whole_keyword (cs : Text) : (keyword cs).whole = ':' :: cs := by
  unfold keyword
  split
  · rfl
  · simp [whole]

theorem whole_symbol (r : Registry) (first : Char) (cs : Text) :
    (symbol r first cs).whole = first :: cs := by
  simp [symbol, whole]

theorem hexRun_append_drop {cs : Text} (h : (hexRun cs).length = 4) : hexRun cs ++ cs.drop 4 = cs := by
  have full : hexRun cs = cs.take 4 := by
    apply (List.takeWhile_prefix _).eq_of_length_le
    simp only [hexRun] at h
    simp only [h, List.length_take]
    omega
  rw [full, List.take_append_drop]

theorem whole_character (cs : Text) : (character cs).whole = '\\' :: cs := by
  unfold character
  split
  · rfl
  · split
    · rfl
    · split
      · rename_i h
        simp [whole, firstWord?_append h]
      · split
        · rename_i unicode
          simp only [Bool.and_eq_true, decide_eq_true_eq, beq_iff_eq] at unicode
          simp [whole, unicode.1, hexRun_append_drop unicode.2]
        · rfl

theorem stringBody_append (offset : Nat) (cs : Text) :
    (stringBody offset cs).text ++ (stringBody offset cs).rest = cs := by
  fun_induction stringBody offset cs with
  | case1 => rfl
  | case2 => rfl
  | case3 offset cs body ih => simpa [body, StringBody.flag, StringBody.cons] using ih
  | case4 offset c cs body notU ih => simpa [body, StringBody.cons] using ih
  | case5 offset c cs _ _ ih => simpa [StringBody.cons] using ih

theorem whole_string (cs : Text) : (string cs).whole = '"' :: cs := by
  simp [string, whole, stringBody_append]

theorem whole_digit (first : Char) (cs : Text) : (digit first cs).whole = first :: cs := by
  unfold digit
  split
  · exact whole_bytes _
  · exact whole_number first cs

/-- The lexeme and the text after it make up the input. -/
theorem scan_append (r : Registry) (first : Char) (cs : Text) :
    (scan r first cs).lexeme.text ++ (scan r first cs).rest = first :: cs := by
  change (scan r first cs).whole = first :: cs
  unfold scan
  split
  · rfl
  · split
    · rename_i h; rw [h, whole_string]
    split
    · rename_i h; rw [h, whole_character]
    split
    · rename_i h; rw [h, whole_hash]
    split
    · rename_i h; rw [h, whole_keyword]
    split
    · exact whole_digit first cs
    split
    · exact whole_number first cs
    split
    · exact whole_symbol r first cs
    · rfl

/-! ## Something is taken -/

theorem text_endNumber_ne_nil (f : Bool) {text : Text} (h : text ≠ []) (rest : Text) :
    (endNumber f text rest).lexeme.text ≠ [] := by
  unfold endNumber
  split <;> simp [h]

theorem text_number_ne_nil (first : Char) (cs : Text) : (number first cs).lexeme.text ≠ [] := by
  simp only [number]
  split
  · exact text_endNumber_ne_nil _ (by simp) _
  · split
    · split
      · exact text_endNumber_ne_nil _ (by simp) _
      · simp
    · exact text_endNumber_ne_nil _ (by simp) _

theorem text_bytes_ne_nil (cs : Text) : (bytes cs).lexeme.text ≠ [] := by
  simp only [bytes]
  split
  · simp
  · split <;> simp

theorem text_hash_ne_nil (cs : Text) : (hash cs).lexeme.text ≠ [] := by
  unfold hash
  split
  · simp
  · split <;> simp
  · split <;> simp

theorem text_keyword_ne_nil (cs : Text) : (keyword cs).lexeme.text ≠ [] := by
  unfold keyword
  split <;> simp

theorem text_character_ne_nil (cs : Text) : (character cs).lexeme.text ≠ [] := by
  unfold character
  split
  · simp
  · split
    · simp
    · split
      · simp
      · split <;> simp

theorem text_digit_ne_nil (first : Char) (cs : Text) : (digit first cs).lexeme.text ≠ [] := by
  unfold digit
  split
  · exact text_bytes_ne_nil _
  · exact text_number_ne_nil first cs

/-- A lexeme takes at least one character. -/
theorem text_scan_ne_nil (r : Registry) (first : Char) (cs : Text) :
    (scan r first cs).lexeme.text ≠ [] := by
  unfold scan
  split
  · simp
  · split
    · simp [string]
    split
    · exact text_character_ne_nil cs
    split
    · exact text_hash_ne_nil cs
    split
    · exact text_keyword_ne_nil cs
    split
    · exact text_digit_ne_nil first cs
    split
    · exact text_number_ne_nil first cs
    split
    · simp [symbol]
    · simp

end Scan

end LispSyntax
