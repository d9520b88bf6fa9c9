import LispSyntax.Proofs.Lexical.Recognition
import LispSyntax.Proofs.Literal.Escape
import LispSyntax.Proofs.Typed

/-! # What the scanner accepts, the decoder decodes

The scanner and the accessors of literals read the same text twice, with code of their own. Where the scanner found
nothing wrong with the token of a literal, the accessor gives a value, but for the four ways in which a text is well
formed and stands for nothing (`Undecodable`): a whole number or an address that takes more than 64 bits, and the code
of a surrogate, as a character or in a string.
-/

namespace LispSyntax

open Lexical Writing

/-! ## Values -/

inductive Value where
  | nil
  | bool (value : Bool)
  | char (value : Char)
  | string (value : Text)
  | address (value : Nat)
  | bytes (value : List Nat)
  | long (value : Int)
  | float (value : Binary64)
  | keyword (value : Text)

/-- The value of the text of a token of the given kind. -/
def Value.decode? : Kind → Text → Option Value
  | .nilWord, _ => some .nil
  | .trueWord, _ => some (.bool true)
  | .falseWord, _ => some (.bool false)
  | .char, text => (Literal.readChar? text).map .char
  | .string, text => (Literal.readString? text).map .string
  | .address, text => (Literal.readAddress? text).map .address
  | .bytes, text => (Literal.readBytes? text).map .bytes
  | .int, text => (Literal.readLong? text).map .long
  | .float, text => (Literal.readFloat? text).map .float
  | .keyword, text => (Literal.readKeyword? text).map .keyword
  | _, _ => none

/-- What the accessor for the kind of the literal gives. -/
def Literal.value (l : Literal) : Except Fault (Option Value) :=
  match l.kind? with
  | none => .ok none
  | some .nil => .ok (some .nil)
  | some .bool => .ok (l.asBool.map .bool)
  | some .char => l.asChar.map (Option.map .char)
  | some .string => l.asString.map (Option.map .string)
  | some .address => l.asAddress.map (Option.map .address)
  | some .bytes => l.asBytes.map (Option.map .bytes)
  | some .long => l.asLong.map (Option.map .long)
  | some .float => l.asFloat.map (Option.map .float)
  | some .keyword => l.asKeyword.map (Option.map .keyword)

/-- The accessor of a literal reads the text of its only token. -/
theorem Literal.value_eq {l : Literal} {x : LeafView} {text : Text} (tokens : l.view.tokens = [x])
    (isLiteral : x.kind.isLiteralToken = true) (trimmed : x.leaf.trimmed = .ok text) :
    l.value = .ok (Value.decode? x.kind text) := by
  have token : l.token? = some x := by simp [Literal.token?, tokens, isLiteral]
  have kind : l.kind? = LiteralKind.ofToken? x.kind := by rw [Literal.kind?, token]; rfl
  have read : ∀ {α : Type} {wanted : LiteralKind} {decode : Text → Option α},
      LiteralKind.ofToken? x.kind = some wanted → l.readAs wanted decode = .ok (decode text) := by
    intro α wanted decode same
    simp only [Literal.readAs, token, same, if_true, trimmed]
    rfl
  cases kindEq : x.kind with
  | nilWord | trueWord | falseWord =>
    rw [kindEq] at kind
    simp only [Literal.value, kind, LiteralKind.ofToken?, Literal.asBool, token, Option.map_some, kindEq,
      Value.decode?]
  | char | string | address | bytes | int | float | keyword =>
    rw [kindEq] at kind read
    simp only [Literal.value, kind, LiteralKind.ofToken?, Literal.asChar, Literal.asString, Literal.asAddress,
      Literal.asBytes, Literal.asLong, Literal.asFloat, Literal.asKeyword, read rfl, Value.decode?]
    rfl
  | _ =>
    rw [kindEq] at isLiteral
    contradiction

/-! ## Texts without a value -/

/-- The text of a literal that is well formed and stands for nothing. -/
inductive Undecodable : Kind → Text → Prop where
  | long {sign digits point : Text} : IsSign sign → IsDigits digits → point = [] ∨ point = ['.'] →
      ¬ FitsLong (signed sign (decimal digits)) → Undecodable .int (sign ++ (digits ++ point))
  | address {digits : Text} : IsDigits digits → 2 ^ 64 ≤ decimal digits → Undecodable .address ('#' :: digits)
  | char {digits : Text} {n : Nat} : digits.length = 4 → Hexadecimal digits n → IsSurrogate n →
      Undecodable .char ('\\' :: 'u' :: digits)
  | string {items : List StringItem} {item : StringItem} : item ∈ items → item.HoldsSurrogate →
      Undecodable .string ('"' :: (items.flatMap StringItem.text ++ ['"']))

theorem Undecodable.decode?_eq {kind : Kind} {text : Text} (undecodable : Undecodable kind text) :
    Value.decode? kind text = none := by
  cases undecodable with
  | long isSign isDigits isPoint outOfRange =>
    rw [Value.decode?, Literal.readLong?_signed isSign isDigits isPoint, if_neg outOfRange, Option.map_none]
  | address isDigits outOfRange =>
    rw [Value.decode?, Literal.readAddress?_decimal isDigits, if_neg (by omega), Option.map_none]
  | char four hexadecimal isSurrogate =>
    rw [Value.decode?, Literal.readChar?_code four hexadecimal, Number.character?_of_surrogate isSurrogate,
      Option.map_none]
  | string member holds =>
    rw [Value.decode?, StringItem.readString?_items, StringItem.unescape?_of_surrogate ⟨_, member, holds⟩,
      Option.map_none]

/-! ## Texts that the scanner accepts -/

/-- The text has a value or is one of those without. -/
def Value.Settled (kind : Kind) (text : Text) : Prop :=
  (Value.decode? kind text).isSome = true ∨ Undecodable kind text

/-- Where there is no string at the front of a text, reading one finds no closing quote. -/
theorem Scan.closed_of_absent {cs : Text} (absent : Absent IsString ('"' :: cs)) :
    (stringBody 1 cs).closed = false := by
  by_contra closed
  obtain ⟨body, quoted, textEq⟩ := (stringBody_parts 1 cs).1 (by simpa using closed)
  refine absent ('"' :: (body ++ ['"'])) ⟨body, quoted, rfl⟩ ?_
  rw [← textEq]
  exact ⟨_, congrArg ('"' :: ·) (stringBody_append 1 cs)⟩

namespace Value

theorem settled_int {text : Text} (isInt : IsNumber .int text) : Settled .int text := by
  obtain ⟨sign, digits, point, rfl, isSign, isDigits, isPoint⟩ : ∃ sign digits point,
      text = sign ++ (digits ++ point) ∧ IsSign sign ∧ IsDigits digits ∧ (point = [] ∨ point = ['.']) := by
    cases isInt with
    | @whole sign digits isSign isDigits => exact ⟨sign, digits, [], by simp, isSign, isDigits, .inl rfl⟩
    | @pointed sign digits isSign isDigits => exact ⟨sign, digits, ['.'], rfl, isSign, isDigits, .inr rfl⟩
  by_cases fits : FitsLong (signed sign (decimal digits))
  · left
    rw [decode?, Literal.readLong?_signed isSign isDigits isPoint, if_pos fits]
    rfl
  · exact .inr (.long isSign isDigits isPoint fits)

theorem settled_float {text : Text} (isFloat : IsNumber .float text) : Settled .float text := by
  left
  rw [decode?, Option.isSome_map, Literal.readFloat?]
  iterate 3
    split
    · rfl
  exact Number.isSome_float? isFloat

theorem settled_address {text : Text} (isAddress : IsAddress text) : Settled .address text := by
  obtain ⟨digits, rfl, enough, inside⟩ := isAddress
  have isDigits : IsDigits digits := ⟨List.ne_nil_of_length_pos enough, inside⟩
  by_cases fits : decimal digits < 2 ^ 64
  · left
    rw [decode?, List.singleton_append, Literal.readAddress?_decimal isDigits, if_pos fits]
    rfl
  · exact .inr (.address isDigits (Nat.le_of_not_lt fits))

theorem settled_bytes {text : Text} (isBytes : IsBytes text) (clean : Lexeme.problemsOf .bytes text = []) :
    Settled .bytes text := by
  obtain ⟨digits, rfl, -, inside⟩ := isBytes
  -- An odd number of digits would have been reported, with the two characters before them or without.
  have paired : digits.length % 2 = 0 := by
    by_contra odd
    have odd' : (['0', 'x'] ++ digits).length % 2 ≠ 0 := by
      simp only [List.length_append, List.length_cons, List.length_nil]
      omega
    simp only [Lexeme.problemsOf, if_pos odd'] at clean
    split at clean <;> contradiction
  obtain ⟨bytes, hexBytes⟩ := HexBytes.exists_of_digital digits paired inside
  left
  rw [decode?, List.cons_append, List.singleton_append, hexBytes.readBytes?_eq]
  rfl

theorem settled_keyword {text : Text} (isKeyword : IsKeyword text) : Settled .keyword text := by
  obtain ⟨name, rfl, -, -⟩ := isKeyword
  left
  rw [decode?, List.singleton_append, Literal.readKeyword?_colon]
  rfl

theorem settled_char {text : Text} (isCharacter : IsCharacter text) : Settled .char text := by
  cases isCharacter with
  | named isName =>
    left
    rw [decode?, Option.isSome_map]
    exact Literal.isSome_readChar?_named isName
  | plain _ _ =>
    left
    rw [decode?, Literal.readChar?_plain]
    rfl
  | code four digital =>
    obtain ⟨n, hexadecimal⟩ := Hexadecimal.exists_of_digital digital
    by_cases isSurrogate : IsSurrogate n
    · exact .inr (.char four hexadecimal isSurrogate)
    · left
      have small := hexadecimal.lt
      rw [four] at small
      obtain ⟨c, rfl⟩ := Number.exists_character small isSurrogate
      rw [decode?, Literal.readChar?_code four hexadecimal, Number.character?_toNat]
      rfl

/-- Without problems a string is closed, and all its escapes are good. -/
theorem good_of_problemsOf {cs : Text} (clean : Lexeme.problemsOf .string ('"' :: cs) = []) :
    (Scan.stringBody 1 cs).closed = true ∧ (Scan.stringBody 1 cs).badEscapes = [] := by
  obtain ⟨good, closed⟩ := List.append_eq_nil_iff.mp clean
  constructor
  · by_contra unclosed
    simp [unclosed] at closed
  · exact List.map_eq_nil_iff.mp good

theorem settled_string {text : Text} (isString : IsString text) (clean : Lexeme.problemsOf .string text = []) :
    Settled .string text := by
  obtain ⟨body, quoted, rfl⟩ := isString
  obtain ⟨closed, good⟩ := good_of_problemsOf clean
  obtain ⟨items, same⟩ := Scan.exists_items 1 _ closed good
  rw [(quoted.stringBody_eq 1 []).1] at same
  rw [same]
  cases StringItem.means_or_surrogate items with
  | inl found =>
    obtain ⟨chars, means⟩ := found
    left
    rw [decode?, StringItem.readString?_items, StringItem.unescape?_of_means means]
    rfl
  | inr found =>
    obtain ⟨item, member, holds⟩ := found
    exact .inr (.string member holds)

/-- A string that is never closed is reported. -/
theorem not_unterminated {rest : Text} (opens : ['"'] <+: rest) (absent : Absent IsString rest)
    (clean : Lexeme.problemsOf .string rest = []) : False := by
  obtain ⟨cs, rfl⟩ := opens
  obtain ⟨closed, -⟩ := good_of_problemsOf clean
  rw [Scan.closed_of_absent absent] at closed
  contradiction

theorem settled_of_recognises {r : Registry} {rest lexeme : Text} {kind : Kind}
    (recognised : Recognises r rest kind lexeme) (isLiteral : kind.isLiteralToken = true)
    (clean : Lexeme.problemsOf kind lexeme = []) : Settled kind lexeme := by
  cases recognised with
  | bytes longest => exact settled_bytes longest.spelled clean
  | number _ _ isNumber =>
    cases isNumber with
    | whole isSign isDigits => exact settled_int (.whole isSign isDigits)
    | pointed isSign isDigits => exact settled_int (.pointed isSign isDigits)
    | fraction isSign whole isFraction exponential =>
      exact settled_float (.fraction isSign whole isFraction exponential)
    | scientific isSign isDigits isExponent => exact settled_float (.scientific isSign isDigits isExponent)
  | address longest => exact settled_address longest.spelled
  | keyword longest => exact settled_keyword longest.spelled
  | reserved _ _ member =>
    simp only [reservedWords, List.mem_cons, Prod.mk.injEq, List.not_mem_nil, or_false] at member
    rcases member with ⟨-, rfl⟩ | ⟨-, rfl⟩ | ⟨-, rfl⟩ | ⟨-, rfl⟩
    iterate 3 exact .inl rfl
    contradiction
  | symbol _ _ _ =>
    unfold Scan.symbolKind at isLiteral
    split at isLiteral <;> contradiction
  | character longest => exact settled_char longest.spelled
  | string isString _ => exact settled_string isString clean
  | unterminated opens absent => exact (not_unterminated opens absent clean).elim
  | fixed member _ =>
    have table : ∀ e ∈ fixedLexemes, e.2.isLiteralToken = true → (decode? e.2 e.1).isSome = true := by decide
    exact .inl (table _ member isLiteral)
  | colon _ _ | backslash _ _ | hashHash _ _ | hash _ _ _ _ | control _ _ => contradiction

end Value

/-! ## Tokens and their nodes -/

namespace Token

variable {text : Text} {r : Registry} {t : Token}

/-- A token inside which nothing was reported has no problems of its own. -/
theorem problemsOf_eq_nil (member : t ∈ (tokenize text r).1)
    (spanned : t.span = Span.ofSize t.span.start (Text.size t.text))
    (clean : ∀ d ∈ (tokenize text r).2, ¬ (t.span.start ≤ d.span.start ∧ d.span.stop ≤ t.span.stop)) :
    Lexeme.problemsOf t.kind t.text = [] := by
  rw [List.eq_nil_iff_forall_not_mem]
  intro problem own
  have reported : Diagnostic.lexical problem.1.message (problem.2.shift t.span.start) ∈ (tokenize text r).2 := by
    rw [tokenize, diagnostics_tokensFrom]
    exact List.mem_flatMap_of_mem member (List.mem_map_of_mem own)
  have within := part_of_mem_tokensFrom r 0 text t member problem own
  have stop := congrArg Span.stop spanned
  simp only [Span.ofSize] at stop
  apply clean _ reported
  simp only [Diagnostic.lexical, Span.shift]
  omega

theorem settled (member : t ∈ (tokenize text r).1) (isLiteral : t.kind.isLiteralToken = true)
    (clean : ∀ d ∈ (tokenize text r).2, ¬ (t.span.start ≤ d.span.start ∧ d.span.stop ≤ t.span.stop)) :
    Value.Settled t.kind t.text := by
  have notEnd : t.kind ≠ .eof := by
    intro isEnd
    rw [isEnd] at isLiteral
    contradiction
  obtain ⟨rest, -, spanned, recognised⟩ := recognised_tokensFrom r 0 text [] rfl t member notEnd
  exact Value.settled_of_recognises ((recognised _ _).mpr ⟨rfl, rfl⟩) isLiteral
    (problemsOf_eq_nil member spanned clean)

end Token

theorem View.tokens_of_leaf {v : View} {kind : Kind} {leaf : Leaf} (treeEq : v.tree = .node kind [.leaf leaf]) :
    v.tokens = [⟨leaf, v.offset⟩] := by
  have children : v.children = [⟨.leaf leaf, v.offset⟩] := by
    rw [View.children, treeEq]
    rfl
  simp [View.tokens, children, View.leaf?]

/-- The literal is the node of the token, and nothing else is in it. -/
def Literal.IsOf (text : Text) (t : Token) (l : Literal) : Prop :=
  l.view.tree = .node .literal [.leaf (t.leaf text t.kind)]

/-- A literal below a tree that shows the token is the node of the token. -/
theorem Literal.isOf_of_shows {text : Text} {r : Registry} {result : Parse} (parsed : parse text r = .ok result)
    {t : Token} (member : t ∈ (Token.tokenize text r).1) {l : Literal} (below : l.view ∈ result.root.descendants)
    {x : LeafView} (inside : x ∈ l.view.tokens) (shows : x.Shows t) : l.IsOf text t := by
  obtain ⟨start, d, drafted, table⟩ := exists_drafted text r
  obtain rfl := drafted.eq_of_parse_eq_ok parsed
  obtain ⟨⟨kind, ds⟩, found, treeEq, stop, placed⟩ := Draft.exists_node_of_walk d drafted.placed l.view below
  obtain rfl : kind = .literal := by
    rw [← l.kind_eq rfl, View.kind, treeEq]
    rfl
  obtain ⟨_, rfl, u, rfl, -⟩ := table False False.elim (.literal, ds) found
  have tokens : l.view.tokens = [Draft.leafView text (u.kind, u)] := by
    obtain ⟨-, startEq, -⟩ := placed.token u.kind
    rw [View.tokens_of_leaf treeEq, Draft.leafView, startEq]
  rw [tokens, List.mem_singleton] at inside
  subst inside
  obtain rfl := drafted.eq_of_shows found (List.mem_singleton_self _) member shows
  exact treeEq

/-- Where the scanner finds nothing wrong with the token of a literal, the accessor for its kind gives a value, but for
the texts without one. This holds of the node of the token wherever it stands; and a literal in the tree of the text
that shows the token is that node. -/
theorem literal_value_eq_none_iff {text : Text} {r : Registry} {t : Token} (member : t ∈ (Token.tokenize text r).1)
    (isLiteral : t.kind.isLiteralToken = true)
    (clean : ∀ d ∈ (Token.tokenize text r).2, ¬ (t.span.start ≤ d.span.start ∧ d.span.stop ≤ t.span.stop)) :
    (∀ l : Literal, l.IsOf text t →
      ∃ value?, l.value = .ok value? ∧ (value? = none ↔ Undecodable t.kind t.text)) ∧
    ∀ result, parse text r = .ok result → ∀ l : Literal, l.view ∈ result.root.descendants →
      ∀ x ∈ l.view.tokens, x.Shows t → l.IsOf text t := by
  constructor
  · intro l isOf
    have lies := (Token.tiles_tokenize text r).liesIn [] rfl
    have kind : (LeafView.mk (t.leaf text t.kind) l.view.offset).kind = t.kind := Token.kind_leaf text t.kind t
    have value := Literal.value_eq (View.tokens_of_leaf isOf) (by rw [kind]; exact isLiteral)
      ((lies.1 t member).trimmed_leaf t.kind)
    rw [kind] at value
    refine ⟨_, value, fun missing => ?_, Undecodable.decode?_eq⟩
    cases Token.settled member isLiteral clean with
    | inl found => simp [missing] at found
    | inr undecodable => exact undecodable
  · intro result parsed l below x inside shows
    exact Literal.isOf_of_shows parsed member below inside shows

/-- The least whole number of 64 bits, with a point behind it, after a string that is never closed. -/
theorem literal_value_eq_none_iff_least :
    let text := "(f -9223372036854775808.) \"\\u00".toList
    let t : Token := ⟨[], .int, "-9223372036854775808.".toList, Span.ofSize 3 21, []⟩
    t ∈ (Token.tokenize text .empty).1 ∧ t.kind.isLiteralToken = true ∧ (Token.tokenize text .empty).2 ≠ [] ∧
      (∀ d ∈ (Token.tokenize text .empty).2, ¬ (t.span.start ≤ d.span.start ∧ d.span.stop ≤ t.span.stop)) ∧
      (∀ l : Literal, l.IsOf text t →
        ∃ value?, l.value = .ok value? ∧ (value? = none ↔ Undecodable t.kind t.text)) ∧
      ∀ result, parse text .empty = .ok result → ∀ l : Literal, l.view ∈ result.root.descendants →
        ∀ x ∈ l.view.tokens, x.Shows t → l.IsOf text t := by
  intro text t
  have member : t ∈ (Token.tokenize text .empty).1 := by decide +kernel
  have apart : ∀ d ∈ (Token.tokenize text .empty).2,
      ¬ (t.span.start ≤ d.span.start ∧ d.span.stop ≤ t.span.stop) := by
    decide +kernel
  exact ⟨member, rfl, by decide +kernel, apart, literal_value_eq_none_iff member rfl apart⟩

end LispSyntax
