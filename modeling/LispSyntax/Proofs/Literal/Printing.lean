import LispSyntax.Proofs.Completeness
import LispSyntax.Proofs.Literal.Decoding

/-! # Printed values are read back

`Value.Printed` says how values are printed as literals. Each printed literal, parsed by itself, is one form without
diagnostics, and its accessor gives the value: the scanner ends the literal where it ends, and the decoder finds in it
what was printed.
-/

namespace LispSyntax

open Lexical Writing

/-! ## How values are printed -/

inductive Value.Printed : Value → Text → Prop where
  /-- In decimal, perhaps with a point behind it. -/
  | long (n : Int64) {point : Text} : point = [] ∨ point = ['.'] →
      Printed (.long n.toInt) ((toString n.toInt).toList ++ point)
  /-- With a plus before it, if it is not negative. -/
  | plus (n : Int64) {point : Text} : 0 ≤ n.toInt → point = [] ∨ point = ['.'] →
      Printed (.long n.toInt) ('+' :: ((toString n.toInt).toList ++ point))
  | address (n : UInt64) : Printed (.address n.toNat) ('#' :: (toString n.toNat).toList)
  | bytes {bytes : List UInt8} {digits : Text} : bytes ≠ [] → HexBytes digits (bytes.map UInt8.toNat) →
      Printed (.bytes (bytes.map UInt8.toNat)) ('0' :: 'x' :: digits)
  | keyword {name : Text} : 1 ≤ name.length → name.length ≤ 64 → (∀ c ∈ name, Text.isSymbolChar c = true) →
      Printed (.keyword name) (':' :: name)
  | char {c : Char} : c ≠ '\n' → c ≠ '\r' → Printed (.char c) ['\\', c]
  /-- A character of the basic plane by its code. -/
  | code {c : Char} {digits : Text} : digits.length = 4 → Hexadecimal digits c.toNat →
      Printed (.char c) ('\\' :: 'u' :: digits)
  | string {items : List StringItem} {chars : List Char} : List.Forall₂ StringItem.Means items chars →
      Printed (.string chars) ('"' :: (items.flatMap StringItem.text ++ ['"']))

/-! ## Digits of numbers -/

theorem isDigits_toString (n : Nat) : IsDigits (toString n).toList := by
  rw [Nat.toString_eq_ofList_toDigits, String.toList_ofList]
  refine ⟨Nat.toDigits_ne_nil, fun c member => ?_⟩
  have isDigit := Nat.isDigit_of_mem_toDigits (by decide) (Nat.le_refl 10) member
  simpa [Text.isDigit, Char.isDigit, Char.le_def] using isDigit

theorem decimal_toString (n : Nat) : decimal (toString n).toList = n := by
  rw [decimal, Nat.toString_eq_ofList_toDigits, String.toList_ofList, Nat.ofDigitChars_ten_toDigits]

/-- A whole number is printed as a sign, if it is negative, and digits. -/
theorem exists_digits (n : Int) : ∃ (sign : Option Sign) (digits : Digits), (0 ≤ n → sign = none) ∧
    (toString n).toList = Literal.signText sign ++ digits.text ∧
    signed (Literal.signText sign) (decimal digits.text) = n := by
  cases n with
  | ofNat n =>
    obtain ⟨nonempty, digital⟩ := isDigits_toString n
    exact ⟨none, ⟨_, nonempty, digital⟩, fun _ => rfl, rfl, congrArg Int.ofNat (decimal_toString n)⟩
  | negSucc n =>
    obtain ⟨nonempty, digital⟩ := isDigits_toString (n + 1)
    refine ⟨some .minus, ⟨_, nonempty, digital⟩, fun positive => ?_, ?_, ?_⟩
    · have negative := Int.negSucc_lt_zero n
      omega
    · have printed : toString (Int.negSucc n) = "-" ++ toString (n + 1) := rfl
      rw [printed, String.toList_append]
      rfl
    · have value : signed ['-'] (decimal (toString (n + 1)).toList) = -((n + 1 : Nat) : Int) := by
        rw [decimal_toString]
        rfl
      exact value

/-! ## Printed values are written literals -/

theorem Writing.Literal.isSign_signText (sign : Option Sign) : IsSign (Literal.signText sign) := by
  cases sign with
  | none => exact .inl rfl
  | some sign =>
    cases sign with
    | plus => exact .inr (.inl rfl)
    | minus => exact .inr (.inr rfl)

namespace Value

/-- The literal is written as the text, and is decoded to the value. -/
def WrittenAs (v : Value) (text : Text) (w : Writing.Literal) : Prop :=
  w.text = text ∧ decode? w.kind w.text = some v

theorem fitsLong_toInt (n : Int64) : FitsLong n.toInt :=
  ⟨n.le_toInt, n.toInt_lt⟩

theorem writtenAs_int {sign : Option Sign} {digits : Digits} {n : Int64} {point : Text}
    (value : signed (Literal.signText sign) (decimal digits.text) = n.toInt) (isPoint : point = [] ∨ point = ['.']) :
    ∃ pointed,
      WrittenAs (.long n.toInt) (Literal.signText sign ++ (digits.text ++ point)) (.int sign digits pointed) := by
  have decoded : decode? .int (Literal.signText sign ++ (digits.text ++ point)) = some (.long n.toInt) := by
    rw [decode?, Literal.readLong?_signed (Literal.isSign_signText sign) ⟨digits.nonempty, digits.digital⟩ isPoint,
      value, if_pos (fitsLong_toInt n), Option.map_some]
  cases isPoint with
  | inl absent =>
    have text : (Literal.int sign digits false).text = Literal.signText sign ++ (digits.text ++ point) := by
      simp [Literal.text, absent]
    exact ⟨false, text, by rw [text]; exact decoded⟩
  | inr present =>
    have text : (Literal.int sign digits true).text = Literal.signText sign ++ (digits.text ++ point) := by
      simp [Literal.text, present]
    exact ⟨true, text, by rw [text]; exact decoded⟩

/-- Each printed value is a literal of the grammar that the decoder reads as the value. -/
theorem Printed.exists_writtenAs {v : Value} {text : Text} (printed : v.Printed text) : ∃ w, WrittenAs v text w := by
  cases printed with
  | @long n point isPoint =>
    obtain ⟨sign, digits, -, same, value⟩ := exists_digits n.toInt
    obtain ⟨pointed, written⟩ := writtenAs_int value isPoint
    rw [same, List.append_assoc]
    exact ⟨_, written⟩
  | @plus n point positive isPoint =>
    obtain ⟨sign, digits, unsigned, same, value⟩ := exists_digits n.toInt
    rw [unsigned positive] at same value
    -- A plus changes nothing about the value.
    have withPlus : signed (Literal.signText (some .plus)) (decimal digits.text) = n.toInt := value
    obtain ⟨pointed, written⟩ := writtenAs_int withPlus isPoint
    rw [same]
    exact ⟨_, written⟩
  | address n =>
    obtain ⟨nonempty, digital⟩ := isDigits_toString n.toNat
    have decoded : decode? .address ('#' :: (toString n.toNat).toList) = some (.address n.toNat) := by
      rw [decode?, Literal.readAddress?_decimal ⟨nonempty, digital⟩, decimal_toString, if_pos n.toNat_lt,
        Option.map_some]
    exact ⟨.address ⟨_, nonempty, digital⟩, rfl, decoded⟩
  | @bytes bytes digits nonempty hexBytes =>
    -- Two digits for each byte, so there are some, and their number is even.
    have length := hexBytes.length_eq
    have digitsNonempty : digits ≠ [] := by
      have some : 0 < bytes.length := List.length_pos_iff.mpr nonempty
      rw [List.length_map] at length
      exact List.ne_nil_of_length_pos (by omega)
    have decoded : decode? .bytes ('0' :: 'x' :: digits) = some (.bytes (bytes.map UInt8.toNat)) := by
      rw [decode?, hexBytes.readBytes?_eq, Option.map_some]
    exact ⟨.bytes ⟨digits, digitsNonempty, by omega, hexBytes.digital⟩, rfl, decoded⟩
  | @keyword name least most symbolic =>
    have decoded : decode? .keyword (':' :: name) = some (.keyword name) := by
      rw [decode?, Literal.readKeyword?_colon, Option.map_some]
    exact ⟨.keyword ⟨name, List.ne_nil_of_length_pos least, most, symbolic⟩, rfl, decoded⟩
  | @char c notFeed notReturn =>
    have decoded : decode? .char ['\\', c] = some (.char c) := by
      rw [decode?, Literal.readChar?_plain, Option.map_some]
    exact ⟨.char c ⟨notFeed, notReturn⟩, rfl, decoded⟩
  | @code c digits four hexadecimal =>
    have decoded : decode? .char ('\\' :: 'u' :: digits) = some (.char c) := by
      rw [decode?, Literal.readChar?_code four hexadecimal, Number.character?_toNat, Option.map_some]
    exact ⟨.codeChar ⟨digits, four, hexadecimal.digital⟩, rfl, decoded⟩
  | @string items chars means =>
    have decoded : decode? .string ('"' :: (items.flatMap StringItem.text ++ ['"'])) = some (.string chars) := by
      rw [decode?, StringItem.readString?_items, StringItem.unescape?_of_means means, Option.map_some]
    exact ⟨.string items, rfl, decoded⟩

end Value

/-! ## A literal by itself -/

theorem Writing.Literal.text_ne_nil (w : Writing.Literal) : w.text ≠ [] := by
  cases w with
  | bool value => cases value <;> exact nofun
  | int sign digits point => simp [Literal.text, digits.nonempty]
  | decimal sign whole digital fraction exponent => simp [Literal.text]
  | scientific sign whole exponent => simp [Literal.text, whole.nonempty]
  | _ => simp [Literal.text]

/-- A lexeme that is not empty is the text without the trivia. -/
theorem Leaf.trimmed_of_lexeme {l : Leaf} (nonempty : l.lexeme ≠ []) : l.trimmed = .ok l.lexeme := by
  unfold Leaf.lexeme at nonempty ⊢
  split at nonempty
  · assumption
  · contradiction

/-- The accessor of a literal decodes the lexeme that its sketch shows. -/
theorem Literal.value_of_sketch {l : Literal} {kind : Kind} {lexeme : Text}
    (sketched : l.view.tree.sketch = .node .literal [.leaf (kind, lexeme)]) (isLiteral : kind.isLiteralToken = true)
    (nonempty : lexeme ≠ []) : l.value = .ok (Value.decode? kind lexeme) := by
  obtain ⟨-, -, inside⟩ := Views.node_of_sketch sketched
  obtain ⟨v, children, leaf⟩ := List.map_eq_singleton_iff.mp inside
  obtain ⟨x, rfl, rfl, rfl⟩ := Views.exists_leaf_of_sketch leaf
  have tokens : l.view.tokens = [x] := by simp [View.tokens, children]
  exact Literal.value_eq tokens isLiteral (Leaf.trimmed_of_lexeme nonempty)

/-- A literal, parsed by itself, is the only form, and its accessor decodes its text. -/
theorem parse_literal (r : Registry) (w : Writing.Literal) (small : Text.size w.text < sizeLimit) :
    ∃ result l, parse w.text r = .ok result ∧ result.isOk = true ∧ result.root.forms = [.literal l] ∧
      l.value = .ok (Value.decode? w.kind w.text) := by
  have alone : writeOut [.other (.literal w)] = w.text := by
    simp [writeOut, Form.itemsAll, Form.items, Other.items, write, Item.text, Item.words, Word.text]
  have shallow : ∀ f ∈ [Form.other (.literal w)], f.depth ≤ Grammar.maxDepth := by
    simp [Form.depth, Other.depth, Grammar.maxDepth]
  have fits : LogFits (writeOut [.other (.literal w)]) r := logFits_writeOut r shallow (show 6 ≤ sizeLimit by decide)
  obtain ⟨start, d, drafted, silent, sketch⟩ := exists_drafted_writeOut r _ shallow
  rw [alone] at drafted silent fits
  have root : (View.root (d.tree w.text)).tree.sketch =
      .node .source [.node .literal [.leaf (w.kind, w.text)], .leaf (.eof, [])] :=
    (Draft.sketch_tree d drafted.lies).trans sketch
  -- The children are views of the two sketches: a typed literal, and the leaf at the end.
  obtain ⟨-, -, inside⟩ := Views.node_of_sketch root
  obtain ⟨v, others, children, literal, rest⟩ := List.map_eq_cons_iff.mp inside
  obtain ⟨e, rfl, last⟩ := List.map_eq_singleton_iff.mp rest
  obtain ⟨l, rfl⟩ := Views.exists_typed_of_sketch (s := .literal) literal rfl
  obtain ⟨x, rfl, -, -⟩ := Views.exists_leaf_of_sketch last
  refine ⟨_, l, drafted.parse_eq small fits, ?_, ?_, ?_⟩
  · simp [Parse.isOk, silent]
  · have only : Form.cast? l.view = some (.literal l) := Form.cast?_view (.literal l)
    have nodes : (View.root (d.tree w.text)).nodes = [l.view] := by
      simp [View.nodes, children, l.isNode]
    simp [Parse.root, View.forms, nodes, only]
  · exact Literal.value_of_sketch literal w.isLiteralToken_kind w.text_ne_nil

/-! ## Values are read back -/

/-- A printed value, parsed by itself, is one literal without diagnostics, and its accessor gives the value. -/
theorem printed_value_reads_back {v : Value} {text : Text} (printed : v.Printed text)
    (small : Text.size text < sizeLimit) (r : Registry) :
    ∃ result l, parse text r = .ok result ∧ result.isOk = true ∧ result.root.forms = [.literal l] ∧
      l.value = .ok (some v) := by
  obtain ⟨w, same, decoded⟩ := printed.exists_writtenAs
  obtain ⟨result, l, parsed, ok, forms, value⟩ := parse_literal r w (same ▸ small)
  rw [same] at parsed
  rw [decoded] at value
  exact ⟨result, l, parsed, ok, forms, value⟩

/-- A plain character, an escape, a code, and the two characters that would end a string or begin an escape. -/
def sampleItems : List StringItem :=
  [.plain 'a' (by decide), .escape 'n' (by decide), .code ⟨"00E9".toList, by decide, List.all_eq_true.mp (by decide)⟩,
    .escape '"' (by decide), .escape '\\' (by decide)]

/-- The sample between quotes is read back. -/
theorem printed_value_reads_back_sample :
    let text := "\"a\\n\\u00E9\\\"\\\\\"".toList
    let v : Value := .string ['a', '\n', 'é', '"', '\\']
    v.Printed text ∧ Text.size text < sizeLimit ∧ ∃ result l, parse text .empty = .ok result ∧ result.isOk = true ∧
      result.root.forms = [.literal l] ∧ l.value = .ok (some v) := by
  intro text v
  have spelled : text = '"' :: (sampleItems.flatMap StringItem.text ++ ['"']) := by decide
  have code : Hexadecimal "00E9".toList 'é'.toNat := by decide
  have printed : v.Printed text := by
    rw [spelled]
    exact .string (.cons .plain (.cons .escape (.cons (.code code) (.cons .escape (.cons .escape .nil)))))
  have small : Text.size text < sizeLimit := by decide
  exact ⟨printed, small, printed_value_reads_back printed small .empty⟩

end LispSyntax
