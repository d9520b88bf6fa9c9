import LispSyntax.Proofs.Writing.Word
import LispSyntax.Token.Read

/-! # Words are scanned as they were written

`lexemeOf_word`: in front of a blank, a slash or the end of the text, the scanner reads each word back, with
its kind and nothing wrong. The scanner takes runs of characters, so the argument is the same for each
class: the run is all of the class, and neither a blank nor a slash is in it.
-/

namespace LispSyntax

namespace Writing

/-! ## Where runs end -/

/-- The text is at its end, or goes on with a blank or a slash. -/
def Breaks (rest : Text) : Prop :=
  ∀ c cs, rest = c :: cs → c = ' ' ∨ c = '/'

/-- The text does not go on with a character of the class. -/
def Stops (within : Char → Bool) (rest : Text) : Prop :=
  ∀ c cs, rest = c :: cs → within c = false

theorem Breaks.stops {rest : Text} (breaks : Breaks rest) {within : Char → Bool}
    (blank : within ' ' = false) (slash : within '/' = false) : Stops within rest := by
  intro c cs same
  cases breaks c cs same with
  | inl isBlank => rw [isBlank, blank]
  | inr isSlash => rw [isSlash, slash]

theorem stops_cons {within : Char → Bool} {c : Char} (outside : within c = false) (cs : Text) :
    Stops within (c :: cs) := by
  intro d ds same
  cases same
  exact outside

theorem stops_nil (within : Char → Bool) : Stops within [] := by
  intro c cs same
  contradiction

section

variable {within : Char → Bool} {run rest : Text}

theorem takeWhile_run (inside : ∀ c ∈ run, within c = true) (stops : Stops within rest) :
    (run ++ rest).takeWhile within = run := by
  rw [List.takeWhile_append_of_pos inside]
  cases rest with
  | nil => simp
  | cons c cs => simp [stops c cs rfl]

theorem dropWhile_run (inside : ∀ c ∈ run, within c = true) (stops : Stops within rest) :
    (run ++ rest).dropWhile within = rest := by
  rw [List.dropWhile_append_of_pos inside]
  cases rest with
  | nil => simp
  | cons c cs => simp [stops c cs rfl]

end

/-! ## Numbers -/

open Scan

theorem exponent?_of_breaks {rest : Text} (breaks : Breaks rest) : exponent? rest = none := by
  cases rest with
  | nil => rfl
  | cons c cs =>
    cases breaks c cs rfl with
    | inl isBlank => simp [exponent?, isBlank]
    | inr isSlash => simp [exponent?, isSlash]

theorem not_sign_of_isDigit {c : Char} (isDigit : Text.isDigit c = true) :
    (c == '+' || c == '-') = false := by
  by_cases plus : c = '+'
  · rw [plus] at isDigit
    contradiction
  · by_cases minus : c = '-'
    · rw [minus] at isDigit
      contradiction
    · simp [plus, minus]

theorem exponent?_text (e : Exponent) {rest : Text} (stops : Stops Text.isDigit rest) :
    exponent? (e.text ++ rest) = some (e.text, rest) := by
  obtain ⟨capital, sign, ⟨digits, nonempty, digital⟩⟩ := e
  have taken := takeWhile_run digital stops
  have left := dropWhile_run digital stops
  cases digits with
  | nil => exact absurd rfl nonempty
  | cons d ds =>
    have notSign := not_sign_of_isDigit (digital d (by simp))
    cases capital <;> cases sign with
    | none =>
      simp only [List.cons_append] at taken left
      simp [Exponent.text, exponent?, notSign, taken, left]
    | some sign =>
      simp only [List.cons_append] at taken left
      cases sign <;> simp [Exponent.text, exponent?, Sign.char, taken, left]

theorem endNumber_of_breaks {rest : Text} (breaks : Breaks rest) (fraction : Bool) (text : Text) :
    endNumber fraction text rest = ⟨.clean (if fraction then .float else .int) text, rest⟩ := by
  simp [endNumber, exponent?_of_breaks breaks]

theorem endNumber_exponent (e : Exponent) {rest : Text} (breaks : Breaks rest) (fraction : Bool)
    (text : Text) :
    endNumber fraction text (e.text ++ rest) = ⟨.clean .float (text ++ e.text), rest⟩ := by
  simp [endNumber, exponent?_text e (breaks.stops rfl rfl)]

theorem endNumber_optional (e : Option Exponent) {rest : Text} (breaks : Breaks rest) (text : Text) :
    endNumber true text ((e.map Exponent.text).getD [] ++ rest) =
      ⟨.clean .float (text ++ (e.map Exponent.text).getD []), rest⟩ := by
  cases e with
  | none => simpa using endNumber_of_breaks breaks true text
  | some e => exact endNumber_exponent e breaks true text

theorem stops_exponent (e : Exponent) (rest : Text) : Stops Text.isDigit (e.text ++ rest) := by
  obtain ⟨capital, sign, digits⟩ := e
  cases capital <;> exact stops_cons rfl _

theorem stops_optional (e : Option Exponent) {rest : Text} (breaks : Breaks rest) :
    Stops Text.isDigit ((e.map Exponent.text).getD [] ++ rest) := by
  cases e with
  | none => exact breaks.stops rfl rfl
  | some e => exact stops_exponent e rest

theorem startsWithDigit_text (d : Digits) (rest : Text) : startsWithDigit (d.text ++ rest) = true := by
  obtain ⟨digits, nonempty, digital⟩ := d
  cases digits with
  | nil => exact absurd rfl nonempty
  | cons c cs => exact digital c (by simp)

theorem startsWithDigit_of_stops {rest : Text} (stops : Stops Text.isDigit rest) : startsWithDigit rest = false := by
  cases rest with
  | nil => rfl
  | cons c cs => exact stops c cs rfl

section

variable {first : Char} {whole rest : Text}

/-- The number after its first character, when no point follows the digits. -/
theorem number_whole (notPoint : first ≠ '.') (digital : ∀ c ∈ whole, Text.isDigit c = true)
    (stops : Stops Text.isDigit rest) (noPoint : ∀ cs, rest ≠ '.' :: cs) :
    number first (whole ++ rest) = endNumber false (first :: whole) rest := by
  simp only [number, takeWhile_run digital stops, dropWhile_run digital stops, if_neg notPoint]

theorem number_point (notPoint : first ≠ '.') (digital : ∀ c ∈ whole, Text.isDigit c = true)
    (breaks : Breaks rest) :
    number first (whole ++ '.' :: rest) = ⟨.clean .int (first :: whole ++ ['.']), rest⟩ := by
  have stops : Stops Text.isDigit ('.' :: rest) := stops_cons rfl rest
  simp [number, takeWhile_run digital stops, dropWhile_run digital stops, notPoint,
    startsWithDigit_of_stops (breaks.stops rfl rfl)]

theorem number_fraction (notPoint : first ≠ '.') (digital : ∀ c ∈ whole, Text.isDigit c = true)
    (fraction : Digits) (stops : Stops Text.isDigit rest) :
    number first (whole ++ '.' :: (fraction.text ++ rest)) =
      endNumber true (first :: whole ++ '.' :: fraction.text) rest := by
  have pointStops : Stops Text.isDigit ('.' :: (fraction.text ++ rest)) := stops_cons rfl _
  simp [number, takeWhile_run digital pointStops, dropWhile_run digital pointStops, notPoint,
    startsWithDigit_text, takeWhile_run fraction.digital stops, dropWhile_run fraction.digital stops]

end

/-! ## Which scanner is chosen -/

/-- The characters that make up a token by themselves. -/
theorem mem_of_mark? {c : Char} {k : Kind} (isMark : mark? c = some k) :
    c ∈ ['(', ')', '[', ']', '\x7b', '\x7d', '\x27', '\x60', '~', '/'] := by
  unfold mark? at isMark
  split at isMark <;> first | contradiction | decide

theorem mark?_of_class {within : Char → Bool} {c : Char} (inside : within c = true)
    (apart : ['(', ')', '[', ']', '\x7b', '\x7d', '\x27', '\x60', '~', '/'].any within = false) :
    mark? c = none := by
  cases isMark : mark? c with
  | none => rfl
  | some k => exact absurd inside (List.any_eq_false.mp apart c (mem_of_mark? isMark))

theorem ne_of_class {within : Char → Bool} {c d : Char} (inside : within c = true)
    (outside : within d = false) : c ≠ d := by
  rintro rfl
  rw [inside] at outside
  contradiction

theorem scan_of_isDigit (r : Registry) {first : Char} (isDigit : Text.isDigit first = true)
    (cs : Text) : scan r first cs = digit first cs := by
  have notMark := mark?_of_class isDigit (by decide)
  simp [scan, notMark, isDigit, ne_of_class isDigit (d := '"') rfl,
    ne_of_class isDigit (d := '\\') rfl, ne_of_class isDigit (d := '#') rfl,
    ne_of_class isDigit (d := ':') rfl]

theorem scan_sign (r : Registry) (sign : Sign) {cs : Text} (isNumber : startsNumber cs = true) :
    scan r sign.char cs = number sign.char cs := by
  cases sign <;> simp [scan, mark?, Sign.char, opensNumber, isNumber, Text.isDigit]

theorem scan_point (r : Registry) {cs : Text} (isNumber : startsWithDigit cs = true) :
    scan r '.' cs = number '.' cs := by
  simp [scan, mark?, opensNumber, isNumber, Text.isDigit]

/-! ## Names -/

theorem isDigit_of_isSymbolChar {c : Char} (isSymbol : Text.isSymbolChar c = true) :
    Text.isDigit c = false := by
  cases isDigit : Text.isDigit c with
  | false => rfl
  | true => simp [Text.isSymbolChar, isDigit] at isSymbol

theorem scan_of_isSymbolChar (r : Registry) {first : Char} {cs : Text}
    (isSymbol : Text.isSymbolChar first = true) (noNumber : opensNumber first cs = false) :
    scan r first cs = symbol r first cs := by
  have notMark := mark?_of_class isSymbol (by decide)
  have notDigit := isDigit_of_isSymbolChar isSymbol
  simp [scan, notMark, notDigit, noNumber, isSymbol, ne_of_class isSymbol (d := '"') rfl,
    ne_of_class isSymbol (d := '\\') rfl, ne_of_class isSymbol (d := '#') rfl,
    ne_of_class isSymbol (d := ':') rfl]

/-- Symbol characters do not open a number, if what follows is neither one of them nor a digit. -/
theorem startsWithDigit_of_symbolic {cs rest : Text}
    (symbolic : ∀ c ∈ cs, Text.isSymbolChar c = true) (noDigit : Stops Text.isDigit rest) :
    startsWithDigit (cs ++ rest) = false := by
  cases cs with
  | nil => exact startsWithDigit_of_stops noDigit
  | cons c cs => exact isDigit_of_isSymbolChar (symbolic c (by simp))

theorem opensNumber_of_symbolic (first : Char) {cs rest : Text}
    (symbolic : ∀ c ∈ cs, Text.isSymbolChar c = true) (stops : Stops Text.isSymbolChar rest)
    (noDigit : Stops Text.isDigit rest) : opensNumber first (cs ++ rest) = false := by
  have notStarted := startsWithDigit_of_symbolic symbolic noDigit
  have noNumber : startsNumber (cs ++ rest) = false := by
    unfold startsNumber
    split
    · rename_i after same
      -- The point is a symbol character too, so what comes after it is looked at in the same way.
      cases cs with
      | nil =>
        have inside : Text.isSymbolChar '.' = true := rfl
        rw [stops '.' after same] at inside
        exact absurd inside Bool.false_ne_true
      | cons c cs =>
        obtain ⟨-, rfl⟩ := List.cons.inj same
        exact startsWithDigit_of_symbolic (fun c member => symbolic c (by simp [member])) noDigit
    · exact notStarted
  simp [opensNumber, notStarted, noNumber]

theorem symbol_text (r : Registry) {first : Char} {cs rest : Text}
    (symbolic : ∀ c ∈ cs, Text.isSymbolChar c = true) (stops : Stops Text.isSymbolChar rest) :
    symbol r first (cs ++ rest) = ⟨symbolLexeme r (first :: cs), rest⟩ := by
  rw [symbol, takeWhile_run symbolic stops, dropWhile_run symbolic stops]

theorem lexemeOf_symbolic (r : Registry) {run rest : Text} (nonempty : run ≠ [])
    (symbolic : ∀ c ∈ run, Text.isSymbolChar c = true) (stops : Stops Text.isSymbolChar rest)
    (noDigit : Stops Text.isDigit rest) : Token.lexemeOf r (run ++ rest) = ⟨symbolLexeme r run, rest⟩ := by
  cases run with
  | nil => exact absurd rfl nonempty
  | cons first cs =>
    have inside : ∀ c ∈ cs, Text.isSymbolChar c = true := fun c member => symbolic c (by simp [member])
    rw [List.cons_append, Token.lexemeOf,
      scan_of_isSymbolChar r (symbolic first (by simp)) (opensNumber_of_symbolic first inside stops noDigit),
      symbol_text r inside stops]

theorem lexemeOf_reserved (r : Registry) {run rest : Text} (isReserved : run ∈ reserved) (breaks : Breaks rest) :
    Token.lexemeOf r (run ++ rest) = ⟨symbolLexeme r run, rest⟩ := by
  have nonempty : ∀ run ∈ reserved, run ≠ [] := by decide
  have symbolic : ∀ run ∈ reserved, run.all Text.isSymbolChar = true := List.all_eq_true.mp (by decide)
  exact lexemeOf_symbolic r (nonempty run isReserved) (List.all_eq_true.mp (symbolic run isReserved))
    (breaks.stops rfl rfl) (breaks.stops rfl rfl)

theorem named_of_bounded (kind : Kind) (text : Text) {name : Text}
    (bounded : name.length ≤ nameLimit) : Lexeme.named kind text name = .clean kind text := by
  rw [Lexeme.named, if_neg (by omega)]

theorem symbolLexeme_name (r : Registry) (n : Name) :
    symbolLexeme r n.text = .clean (symbolKind r n.text) n.text := by
  have free := n.free
  simp only [reserved, List.mem_cons, List.not_mem_nil, or_false, not_or] at free
  obtain ⟨notNil, notTrue, notFalse, notCaret⟩ := free
  rw [symbolLexeme, if_neg notNil, if_neg notTrue, if_neg notFalse, if_neg notCaret,
    named_of_bounded _ _ n.bounded]

theorem lexemeOf_name (r : Registry) (n : Name) {rest : Text} (stops : Stops Text.isSymbolChar rest)
    (noDigit : Stops Text.isDigit rest) :
    Token.lexemeOf r (n.text ++ rest) = ⟨.clean (symbolKind r n.text) n.text, rest⟩ := by
  rw [lexemeOf_symbolic r n.nonempty n.symbolic stops noDigit, symbolLexeme_name]

/-! ## Characters and strings -/

theorem lexemeOf_char (r : Registry) {c : Char} (inLine : c ≠ '\n' ∧ c ≠ '\r') {rest : Text}
    (breaks : Breaks rest) :
    Token.lexemeOf r ('\\' :: c :: rest) = ⟨.clean .char ['\\', c], rest⟩ := by
  have noWord : firstWord? namedCharacters (c :: rest) = none := by
    cases rest with
    | nil => simp [firstWord?, namedCharacters, Text.after?]
    | cons d ds =>
      cases breaks d ds rfl with
      | inl isBlank => simp [firstWord?, namedCharacters, Text.after?, isBlank]
      | inr isSlash => simp [firstWord?, namedCharacters, Text.after?, isSlash]
  have noCode : (hexRun rest).length ≠ 4 := by
    cases rest with
    | nil => simp [hexRun]
    | cons d ds =>
      have stops : Stops Text.isHexDigit (d :: ds) := breaks.stops rfl rfl
      simp [hexRun, stops d ds rfl]
  simp [Token.lexemeOf, scan, mark?, character, inLine.1, inLine.2, noWord, noCode]

theorem lexemeOf_namedChar (r : Registry) {word : Text} (isName : word ∈ namedCharacters)
    (rest : Text) :
    Token.lexemeOf r ('\\' :: word ++ rest) = ⟨.clean .char ('\\' :: word), rest⟩ := by
  simp only [namedCharacters, List.mem_cons, List.not_mem_nil, or_false] at isName
  rcases isName with rfl | rfl | rfl | rfl | rfl | rfl <;>
    simp [Token.lexemeOf, scan, mark?, character, firstWord?, namedCharacters, Text.after?]

theorem hexRun_code (d : CodeDigits) (rest : Text) : hexRun (d.text ++ rest) = d.text := by
  obtain ⟨digits, four, digital⟩ := d
  have first : (digits ++ rest).take 4 = digits := by simp [← four]
  simp only [hexRun, first]
  simpa using takeWhile_run digital (stops_nil Text.isHexDigit)

theorem lexemeOf_codeChar (r : Registry) (d : CodeDigits) (rest : Text) :
    Token.lexemeOf r ('\\' :: 'u' :: (d.text ++ rest)) =
      ⟨.clean .char ('\\' :: 'u' :: d.text), rest⟩ := by
  have noWord : firstWord? namedCharacters ('u' :: (d.text ++ rest)) = none := by
    simp [firstWord?, namedCharacters, Text.after?]
  have skipped : (d.text ++ rest).drop 4 = rest := by simp [← d.four]
  simp [Token.lexemeOf, scan, mark?, character, noWord, hexRun_code, d.four, skipped]

/-- An escape in a string takes two characters, and a code four more that are looked at again. -/
theorem stringBody_plain (offset : Nat) {c : Char} (ordinary : c ≠ '"' ∧ c ≠ '\\') (cs : Text) :
    stringBody offset (c :: cs) = (stringBody (offset + c.utf8Size) cs).cons c := by
  rw [stringBody.eq_def]
  split <;> simp_all

/-- Characters other than quotes and backslashes are read one by one. -/
theorem stringBody_ordinary (offset : Nat) {run : Text} (ordinary : ∀ c ∈ run, c ≠ '"' ∧ c ≠ '\\') (cs : Text) :
    stringBody offset (run ++ cs) =
      { stringBody (offset + Text.size run) cs with
        text := run ++ (stringBody (offset + Text.size run) cs).text } := by
  induction run generalizing offset with
  | nil => rfl
  | cons c run ih =>
    obtain ⟨first, others⟩ := List.forall_mem_cons.mp ordinary
    rw [List.cons_append, stringBody_plain offset first, ih _ others, Text.size_cons, Nat.add_assoc]
    rfl

theorem stringBody_digits (offset : Nat) {digits : Text}
    (digital : ∀ c ∈ digits, Text.isHexDigit c = true) (cs : Text) :
    ∃ offset', stringBody offset (digits ++ cs) =
      { stringBody offset' cs with text := digits ++ (stringBody offset' cs).text } :=
  ⟨_, stringBody_ordinary offset
    (fun c member => ⟨ne_of_class (digital c member) rfl, ne_of_class (digital c member) rfl⟩) cs⟩

theorem stringBody_items (items : List StringItem) (offset : Nat) (rest : Text) :
    stringBody offset (items.flatMap StringItem.text ++ '"' :: rest) =
      ⟨items.flatMap StringItem.text ++ ['"'], rest, true, []⟩ := by
  induction items generalizing offset with
  | nil => simp [stringBody]
  | cons item items ih =>
    cases item with
    | plain c ordinary =>
      simp [StringItem.text, stringBody_plain offset ordinary, ih, StringBody.cons]
    | escape c notCode =>
      simp [StringItem.text, stringBody, notCode, ih, StringBody.cons]
    | code digits =>
      obtain ⟨offset', body⟩ := stringBody_digits (offset + 1 + 'u'.utf8Size) digits.digital
        (items.flatMap StringItem.text ++ '"' :: rest)
      have good : badEscape? offset
          (digits.text ++ (items.flatMap StringItem.text ++ '"' :: rest)) = [] := by
        simp [badEscape?, hexRun_code, digits.four]
      simp [StringItem.text, stringBody, good, body, ih, StringBody.cons, StringBody.flag]

theorem lexemeOf_string (r : Registry) (items : List StringItem) (rest : Text) :
    Token.lexemeOf r ('"' :: (items.flatMap StringItem.text ++ '"' :: rest)) =
      ⟨.clean .string ('"' :: (items.flatMap StringItem.text ++ ['"'])), rest⟩ := by
  simp [Token.lexemeOf, scan, mark?, Scan.string, stringBody_items, Lexeme.clean]

/-! ## Literals -/

theorem lexemeOf_address (r : Registry) (d : Digits) {rest : Text} (breaks : Breaks rest) :
    Token.lexemeOf r ('#' :: (d.text ++ rest)) = ⟨.clean .address ('#' :: d.text), rest⟩ := by
  have stops : Stops Text.isDigit rest := breaks.stops rfl rfl
  have taken := takeWhile_run d.digital stops
  have left := dropWhile_run d.digital stops
  have starts := startsWithDigit_text d rest
  have chosen : Token.lexemeOf r ('#' :: (d.text ++ rest)) = Scan.hash (d.text ++ rest) := by
    simp [Token.lexemeOf, scan, mark?]
  rw [chosen, Scan.hash]
  · rw [if_pos starts, taken, left]
  -- A digit is neither a brace nor a second hash.
  · intro cs same
    rw [same] at starts
    contradiction
  · intro cs same
    rw [same] at starts
    contradiction

theorem lexemeOf_bytes (r : Registry) (d : HexPairs) {rest : Text} (breaks : Breaks rest) :
    Token.lexemeOf r ('0' :: 'x' :: (d.text ++ rest)) =
      ⟨.clean .bytes ('0' :: 'x' :: d.text), rest⟩ := by
  have stops : Stops Text.isHexDigit rest := breaks.stops rfl rfl
  have taken := takeWhile_run d.digital stops
  have left := dropWhile_run d.digital stops
  have chosen : Token.lexemeOf r ('0' :: 'x' :: (d.text ++ rest)) = bytes (d.text ++ rest) := by
    rw [Token.lexemeOf, scan_of_isDigit r rfl, digit]
  simp [chosen, bytes, taken, left, d.nonempty, d.paired]

theorem lexemeOf_specialFloat (r : Registry) {word : Text} (isSpecial : word ∈ specialFloats)
    (rest : Text) :
    Token.lexemeOf r ('#' :: '#' :: (word ++ rest)) =
      ⟨.clean .float ('#' :: '#' :: word), rest⟩ := by
  simp only [specialFloats, List.mem_cons, List.not_mem_nil, or_false] at isSpecial
  rcases isSpecial with rfl | rfl | rfl <;>
    simp [Token.lexemeOf, scan, mark?, Scan.hash, firstWord?, specialFloats, Text.after?]

theorem lexemeOf_keyword (r : Registry) (k : Keyword) {rest : Text} (breaks : Breaks rest) :
    Token.lexemeOf r (':' :: (k.text ++ rest)) = ⟨.clean .keyword (':' :: k.text), rest⟩ := by
  have stops : Stops Text.isSymbolChar rest := breaks.stops rfl rfl
  have taken := takeWhile_run k.symbolic stops
  have left := dropWhile_run k.symbolic stops
  have chosen : Token.lexemeOf r (':' :: (k.text ++ rest)) = keyword (k.text ++ rest) := by
    simp [Token.lexemeOf, scan, mark?]
  rw [chosen, keyword, taken, left]
  split
  · rename_i empty
    exact absurd empty k.nonempty
  · rw [named_of_bounded _ _ k.bounded]

/-- A number that starts with a digit is not a byte string unless an `x` comes next. -/
theorem digit_eq_number {first : Char} {cs : Text} (noHex : ∀ rest, cs ≠ 'x' :: rest) :
    digit first cs = number first cs := by
  unfold digit
  split
  · rename_i rest
    exact absurd rfl (noHex rest)
  · rfl

/-- A number is read from its first character on, whether that is a sign or a digit. -/
theorem lexemeOf_number (r : Registry) (sign : Option Sign) (finish : Text → Scan) {whole tail : Text}
    (digital : ∀ c ∈ whole, Text.isDigit c = true) (started : sign.isSome = true ∨ whole ≠ [])
    (opens : startsNumber (whole ++ tail) = true) (noHex : ∀ cs, tail ≠ 'x' :: cs)
    (reads : ∀ first run, first ≠ '.' → (∀ c ∈ run, Text.isDigit c = true) →
      number first (run ++ tail) = finish (first :: run)) :
    Token.lexemeOf r (Literal.signText sign ++ (whole ++ tail)) =
      finish (Literal.signText sign ++ whole) := by
  cases sign with
  | some sign =>
    have notPoint : sign.char ≠ '.' := by cases sign <;> decide
    change scan r sign.char (whole ++ tail) = finish (sign.char :: whole)
    rw [scan_sign r sign opens, reads sign.char whole notPoint digital]
  | none =>
    cases whole with
    | nil => simp at started
    | cons c cs =>
      have isDigit := digital c (by simp)
      have inside : ∀ d ∈ cs, Text.isDigit d = true := fun d member => digital d (by simp [member])
      have notHex : ∀ rest, cs ++ tail ≠ 'x' :: rest := by
        intro rest same
        cases cs with
        | nil => exact noHex rest same
        | cons d ds => exact ne_of_class (inside d (by simp)) rfl (List.cons.inj same).1
      change scan r c (cs ++ tail) = finish (c :: cs)
      rw [scan_of_isDigit r isDigit, digit_eq_number notHex,
        reads c cs (ne_of_class isDigit rfl) inside]

theorem startsNumber_of_digit {cs : Text} (starts : startsWithDigit cs = true) :
    startsNumber cs = true := by
  unfold startsNumber
  split
  · contradiction
  · exact starts

theorem Breaks.ne_cons {rest : Text} (breaks : Breaks rest) {c : Char} (notBlank : c ≠ ' ')
    (notSlash : c ≠ '/') (cs : Text) : rest ≠ c :: cs := by
  intro same
  cases breaks c cs same with
  | inl isBlank => exact notBlank isBlank
  | inr isSlash => exact notSlash isSlash

theorem lexemeOf_int (r : Registry) (sign : Option Sign) (d : Digits) (point : Bool) {rest : Text}
    (breaks : Breaks rest) :
    Token.lexemeOf r ((Literal.int sign d point).text ++ rest) =
      ⟨.clean .int (Literal.int sign d point).text, rest⟩ := by
  have opens : ∀ tail, startsNumber (d.text ++ tail) = true := fun tail =>
    startsNumber_of_digit (startsWithDigit_text d tail)
  cases point with
  | false =>
    have read := lexemeOf_number r sign (fun text => ⟨.clean .int text, rest⟩) d.digital
      (.inr d.nonempty) (opens rest) (breaks.ne_cons (by decide) (by decide))
      (by
        intro first run notPoint inside
        rw [number_whole notPoint inside (breaks.stops rfl rfl)
          (breaks.ne_cons (by decide) (by decide)), endNumber_of_breaks breaks]
        rfl)
    have text : (Literal.int sign d false).text = Literal.signText sign ++ d.text :=
      List.append_nil _
    rw [text]
    simpa using read
  | true =>
    have read := lexemeOf_number r sign (fun text => ⟨.clean .int (text ++ ['.']), rest⟩)
      d.digital (.inr d.nonempty) (opens ('.' :: rest)) (by simp)
      (fun first run notPoint inside => number_point notPoint inside breaks)
    have text : (Literal.int sign d true).text = Literal.signText sign ++ d.text ++ ['.'] := rfl
    rw [text]
    simpa using read

theorem lexemeOf_scientific (r : Registry) (sign : Option Sign) (d : Digits) (e : Exponent)
    {rest : Text} (breaks : Breaks rest) :
    Token.lexemeOf r ((Literal.scientific sign d e).text ++ rest) =
      ⟨.clean .float (Literal.scientific sign d e).text, rest⟩ := by
  have marked : ∃ cs, e.text ++ rest = (if e.capital then 'E' else 'e') :: cs := ⟨_, rfl⟩
  obtain ⟨cs, marked⟩ := marked
  have apart : ∀ c, c ≠ 'E' → c ≠ 'e' → ∀ ds, e.text ++ rest ≠ c :: ds := by
    intro c notCapital notSmall ds same
    rw [marked] at same
    have same := (List.cons.inj same).1
    by_cases capital : e.capital = true
    · rw [if_pos capital] at same
      exact notCapital same.symm
    · rw [if_neg capital] at same
      exact notSmall same.symm
  have read := lexemeOf_number r sign (fun text => ⟨.clean .float (text ++ e.text), rest⟩) d.digital
    (.inr d.nonempty) (startsNumber_of_digit (startsWithDigit_text d (e.text ++ rest)))
    (apart 'x' (by decide) (by decide))
    (by
      intro first run notPoint inside
      rw [number_whole notPoint inside (stops_exponent e rest) (apart '.' (by decide) (by decide)),
        endNumber_exponent e breaks])
  simpa only [Literal.text, List.append_assoc] using read

theorem lexemeOf_decimal (r : Registry) (sign : Option Sign) (whole : Text)
    (digital : ∀ c ∈ whole, Text.isDigit c = true) (fraction : Digits) (e : Option Exponent)
    {rest : Text} (breaks : Breaks rest) :
    Token.lexemeOf r ((Literal.decimal sign whole digital fraction e).text ++ rest) =
      ⟨.clean .float (Literal.decimal sign whole digital fraction e).text, rest⟩ := by
  have stops := stops_optional e breaks
  have finish : ∀ text, endNumber true text ((e.map Exponent.text).getD [] ++ rest) =
      ⟨.clean .float (text ++ (e.map Exponent.text).getD []), rest⟩ :=
    endNumber_optional e breaks
  have opens : startsNumber (whole ++ '.' :: (fraction.text ++
      ((e.map Exponent.text).getD [] ++ rest))) = true := by
    cases whole with
    | nil => exact startsWithDigit_text fraction _
    | cons c cs => exact startsNumber_of_digit (digital c (by simp))
  by_cases started : sign.isSome = true ∨ whole ≠ []
  · have read := lexemeOf_number r sign
      (fun text => ⟨.clean .float
        (text ++ '.' :: (fraction.text ++ (e.map Exponent.text).getD [])), rest⟩)
      digital started opens (by simp)
      (by
        intro first run notPoint inside
        rw [number_fraction notPoint inside fraction stops, finish]
        simp)
    simpa [Literal.text] using read
  · -- Without a sign and without a digit in front, the point itself comes first.
    simp only [not_or, Bool.not_eq_true, Option.isSome_eq_false_iff, Option.isNone_iff_eq_none,
      ne_eq, Decidable.not_not] at started
    obtain ⟨rfl, rfl⟩ := started
    have starts := startsWithDigit_text fraction ((e.map Exponent.text).getD [] ++ rest)
    have taken := takeWhile_run fraction.digital stops
    have left := dropWhile_run fraction.digital stops
    have read : Token.lexemeOf r ('.' :: (fraction.text ++ ((e.map Exponent.text).getD [] ++ rest))) =
        ⟨.clean .float ('.' :: fraction.text ++ (e.map Exponent.text).getD []), rest⟩ := by
      rw [Token.lexemeOf, scan_point r starts, number, taken, left, if_pos rfl, finish]
    simpa [Literal.text, Literal.signText] using read

theorem lexemeOf_literal (r : Registry) (l : Literal) {rest : Text} (breaks : Breaks rest) :
    Token.lexemeOf r (l.text ++ rest) = ⟨.clean l.kind l.text, rest⟩ := by
  cases l with
  | nil => exact lexemeOf_reserved r (by decide) breaks
  | bool value =>
    cases value with
    | true => exact lexemeOf_reserved r (by decide) breaks
    | false => exact lexemeOf_reserved r (by decide) breaks
  | char c inLine => exact lexemeOf_char r inLine breaks
  | namedChar word isName => exact lexemeOf_namedChar r isName rest
  | codeChar digits => exact lexemeOf_codeChar r digits rest
  | string items => simpa [Literal.text, Literal.kind] using lexemeOf_string r items rest
  | address digits => exact lexemeOf_address r digits breaks
  | bytes digits => exact lexemeOf_bytes r digits breaks
  | int sign digits point => exact lexemeOf_int r sign digits point breaks
  | decimal sign whole digital fraction exponent =>
    exact lexemeOf_decimal r sign whole digital fraction exponent breaks
  | scientific sign whole exponent => exact lexemeOf_scientific r sign whole exponent breaks
  | specialFloat word isSpecial => exact lexemeOf_specialFloat r isSpecial rest
  | keyword name => exact lexemeOf_keyword r name breaks

/-! ## Words -/

theorem lexemeOf_mark (r : Registry) {kind : Kind} (isMark : kind ∈ markKinds) {rest : Text}
    (breaks : Breaks rest) :
    Token.lexemeOf r ((Word.mark kind isMark).text ++ rest) =
      ⟨.clean kind (Word.mark kind isMark).text, rest⟩ := by
  have caret : Token.lexemeOf r (['^'] ++ rest) = ⟨.clean .caret ['^'], rest⟩ :=
    lexemeOf_reserved r (by decide) breaks
  have member := isMark
  simp only [markKinds, List.mem_cons, List.not_mem_nil, or_false] at member
  rcases member with rfl | rfl | rfl | rfl | rfl | rfl | rfl | rfl | rfl | rfl | rfl | rfl
  -- The caret is a symbol character, so it is a mark only where the run ends after it.
  · exact caret
  all_goals rfl

/-- Words are scanned as they were written. -/
theorem lexemeOf_word (r : Registry) (w : Word) {rest : Text} (breaks : Breaks rest) :
    Token.lexemeOf r (w.text ++ rest) = ⟨.clean (w.kind r) w.text, rest⟩ := by
  cases w with
  | mark kind isMark => exact lexemeOf_mark r isMark breaks
  | name n => exact lexemeOf_name r n (breaks.stops rfl rfl) (breaks.stops rfl rfl)
  | literal l => exact lexemeOf_literal r l breaks

end Writing

end LispSyntax
