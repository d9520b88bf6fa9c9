import Mathlib
import LispSyntax.Ast.Literal
import LispSyntax.Proofs.Lexical.Number

/-! # Digits as numbers

What the digits of literals stand for, said without the decoder: `decimal` is the value of decimal digits, `signed` puts
a sign before it, and `Hexadecimal` relates digits of either case to their value. For each class of numerals there is a
lemma that the decoder finds this value; a whole number or an address that takes more than 64 bits is not decoded.
-/

namespace LispSyntax

open Lexical Writing

/-! ## Decimal digits -/

def decimal (digits : Text) : Nat :=
  Nat.ofDigitChars 10 digits 0

def signed (sign : Text) (n : Nat) : Int :=
  if sign = ['-'] then -n else n

def FitsLong (n : Int) : Prop :=
  -2 ^ 63 ≤ n ∧ n < 2 ^ 63

instance (n : Int) : Decidable (FitsLong n) :=
  inferInstanceAs (Decidable (_ ∧ _))

theorem Lexical.IsDigits.ne_cons {digits : Text} (isDigits : IsDigits digits) {c : Char}
    (notDigit : Text.isDigit c = false) (rest : Text) : digits ≠ c :: rest := by
  rintro rfl
  have isDigit := isDigits.2 c (by simp)
  rw [notDigit] at isDigit
  contradiction

namespace Number

theorem digitsValue?_append (base : Nat) (digits : Text) (c : Char) :
    digitsValue? base (digits ++ [c]) =
      match digitsValue? base digits, Text.hexValue? c with
      | some v, some d => if d < base then some (v * base + d) else none
      | _, _ => none := by
  rw [digitsValue?, List.foldl_append]
  rfl

theorem toNat_of_isDigit {c : Char} (isDigit : Text.isDigit c = true) :
    '0'.toNat ≤ c.toNat ∧ c.toNat < '0'.toNat + 10 := by
  simp only [Text.isDigit, Bool.and_eq_true, decide_eq_true_eq, Char.le_def, UInt32.le_iff_toNat_le] at isDigit
  have zero : '0'.val.toNat = 48 := rfl
  have nine : '9'.val.toNat = 57 := rfl
  have zero' : '0'.toNat = 48 := rfl
  have same : c.toNat = c.val.toNat := rfl
  omega

theorem digitsValue?_decimal {digits : Text} (digital : ∀ c ∈ digits, Text.isDigit c = true) :
    digitsValue? 10 digits = some (decimal digits) := by
  -- From the right, as both fold from the left: the last digit is what the last step adds.
  induction digits using List.reverseRecOn with
  | nil => rfl
  | append_singleton digits c inductionHypothesis =>
    have isDigit := digital c (by simp)
    have bounds := toNat_of_isDigit isDigit
    have valued : Text.hexValue? c = some (c.toNat - '0'.toNat) := by simp [Text.hexValue?, isDigit]
    have value : decimal (digits ++ [c]) = decimal digits * 10 + (c.toNat - '0'.toNat) := by
      rw [decimal, Nat.ofDigitChars_append, Nat.ofDigitChars_cons, Nat.ofDigitChars_nil, decimal, Nat.mul_comm]
    rw [digitsValue?_append, inductionHypothesis fun d member => digital d (by simp [member]), valued, value]
    exact if_pos (by omega)

theorem digits?_decimal {digits : Text} (isDigits : IsDigits digits) :
    digits? 10 digits = some (decimal digits) := by
  rw [digits?, if_neg (by simpa using isDigits.1), digitsValue?_decimal isDigits.2]

theorem unsigned?_of_head {base : Nat} {text : Text} (noPlus : ∀ rest, text ≠ '+' :: rest) :
    unsigned? base text = digits? base text := by
  unfold unsigned?
  split
  · rename_i rest
    exact absurd rfl (noPlus rest)
  · rfl

theorem long?_of_head {text : Text} (noMinus : ∀ rest, text ≠ '-' :: rest) :
    long? text = ((unsigned? 10 text).bind (below? (UInt64.size / 2))).map Int.ofNat := by
  unfold long?
  split
  · rename_i rest
    exact absurd rfl (noMinus rest)
  · rfl

theorem below?_positive (n : Nat) :
    (below? (UInt64.size / 2) n).map Int.ofNat = if FitsLong n then some (n : Int) else none := by
  have half : UInt64.size / 2 = 2 ^ 63 := rfl
  have same : FitsLong n ↔ n < 2 ^ 63 := by unfold FitsLong; omega
  rw [below?, half]
  by_cases fits : n < 2 ^ 63
  · rw [if_pos fits, if_pos (same.mpr fits)]
    rfl
  · rw [if_neg fits, if_neg (fits ∘ same.mp)]
    rfl

/-- Below zero there is room for one number more. -/
theorem below?_negative (n : Nat) : ((below? (UInt64.size / 2 + 1) n).map fun n => -(n : Int)) =
    if FitsLong (-n) then some (-n : Int) else none := by
  have half : UInt64.size / 2 = 2 ^ 63 := rfl
  have same : FitsLong (-n) ↔ n < 2 ^ 63 + 1 := by unfold FitsLong; omega
  rw [below?, half]
  by_cases fits : n < 2 ^ 63 + 1
  · rw [if_pos fits, if_pos (same.mpr fits)]
    rfl
  · rw [if_neg fits, if_neg (fits ∘ same.mp)]
    rfl

/-- A whole number is read, unless it takes more than 64 bits. -/
theorem long?_signed {sign digits : Text} (isSign : IsSign sign) (isDigits : IsDigits digits) :
    long? (sign ++ digits) =
      if FitsLong (signed sign (decimal digits)) then some (signed sign (decimal digits)) else none := by
  have value := digits?_decimal isDigits
  rcases isSign with rfl | rfl | rfl
  · rw [List.nil_append, long?_of_head (isDigits.ne_cons rfl), unsigned?_of_head (isDigits.ne_cons rfl), value]
    exact below?_positive (decimal digits)
  · have unsigned : unsigned? 10 (['+'] ++ digits) = digits? 10 digits := rfl
    rw [long?_of_head (by simp), unsigned, value]
    exact below?_positive (decimal digits)
  · have negated : long? (['-'] ++ digits) =
        ((digits? 10 digits).bind (below? (UInt64.size / 2 + 1))).map fun n => -(n : Int) := rfl
    rw [negated, value]
    exact below?_negative (decimal digits)

/-- An address is read, unless it takes more than 64 bits. -/
theorem word?_decimal {digits : Text} (isDigits : IsDigits digits) :
    word? digits = if decimal digits < 2 ^ 64 then some (decimal digits) else none := by
  have size : UInt64.size = 2 ^ 64 := rfl
  rw [word?, unsigned?_of_head (isDigits.ne_cons rfl), digits?_decimal isDigits, Option.bind_some, below?, size]

end Number

namespace Literal

theorem dropPoint_pointed (before : Text) : dropPoint (before ++ ['.']) = before := by
  simp [dropPoint]

theorem dropPoint_digits {digits : Text} (isDigits : IsDigits digits) (before : Text) :
    dropPoint (before ++ digits) = before ++ digits := by
  obtain ⟨c, last, isDigit⟩ := getLast?_digits isDigits before
  have notPoint : c ≠ '.' := (ne_of_isDigit isDigit).1
  rw [dropPoint, last, if_neg (by simpa using notPoint)]

/-- A point at the end of a whole number does not matter. -/
theorem readLong?_signed {sign digits point : Text} (isSign : IsSign sign) (isDigits : IsDigits digits)
    (isPoint : point = [] ∨ point = ['.']) :
    readLong? (sign ++ (digits ++ point)) =
      if FitsLong (signed sign (decimal digits)) then some (signed sign (decimal digits)) else none := by
  rw [readLong?, ← Number.long?_signed isSign isDigits]
  cases isPoint with
  | inl absent => rw [absent, List.append_nil, dropPoint_digits isDigits]
  | inr present => rw [present, ← List.append_assoc, dropPoint_pointed]

theorem readAddress?_decimal {digits : Text} (isDigits : IsDigits digits) :
    readAddress? ('#' :: digits) = if decimal digits < 2 ^ 64 then some (decimal digits) else none := by
  rw [readAddress?, ← Number.word?_decimal isDigits]
  exact congrArg (Option.bind · Number.word?) (Text.after?_eq_some_iff.mpr rfl)

theorem readKeyword?_colon (name : Text) : readKeyword? (':' :: name) = some name :=
  Text.after?_eq_some_iff.mpr rfl

end Literal

/-! ## Hexadecimal digits -/

/-- The character is the digit of a value below sixteen, in either case. -/
def IsHexDigitOf (c : Char) (d : Nat) : Prop :=
  d < 16 ∧ (c = Nat.digitChar d ∨ c = (Nat.digitChar d).toUpper)

/-- The digits, in either case, are those of the number, perhaps with zeros in front. -/
inductive Hexadecimal : Text → Nat → Prop where
  | nil : Hexadecimal [] 0
  | digit {digits : Text} {n d : Nat} {c : Char} : Hexadecimal digits n → IsHexDigitOf c d →
      Hexadecimal (digits ++ [c]) (n * 16 + d)

inductive HexBytes : Text → List Nat → Prop where
  | nil : HexBytes [] []
  | byte {a b : Char} {byte : Nat} {digits : Text} {bytes : List Nat} : Hexadecimal [a, b] byte →
      HexBytes digits bytes → HexBytes (a :: b :: digits) (byte :: bytes)

namespace IsHexDigitOf

variable {c : Char} {d : Nat}

/-- What holds of the sixteen digits in lower case and in upper case holds of every digit. -/
theorem of_table {P : Char → Nat → Prop} (isDigit : IsHexDigitOf c d)
    (table : ∀ d < 16, P (Nat.digitChar d) d ∧ P (Nat.digitChar d).toUpper d) : P c d := by
  obtain ⟨lower, upper⟩ := table d isDigit.1
  cases isDigit.2 with
  | inl same => rw [same]; exact lower
  | inr same => rw [same]; exact upper

theorem hexValue?_eq (isDigit : IsHexDigitOf c d) : Text.hexValue? c = some d :=
  isDigit.of_table (P := fun c d => Text.hexValue? c = some d) (by decide)

theorem isHexDigit (isDigit : IsHexDigitOf c d) : Text.isHexDigit c = true :=
  isDigit.of_table (P := fun c _ => Text.isHexDigit c = true) (by decide)

theorem utf8Size_eq (isDigit : IsHexDigitOf c d) : c.utf8Size = 1 :=
  isDigit.of_table (P := fun c _ => c.utf8Size = 1) (by decide)

theorem exists_of_isHexDigit (isDigit : Text.isHexDigit c = true) : ∃ d, IsHexDigitOf c d := by
  have table : ∀ n < 128, Text.isHexDigit (Char.ofNat n) = true →
      ∃ d < 16, Char.ofNat n = Nat.digitChar d ∨ Char.ofNat n = (Nat.digitChar d).toUpper := by decide +kernel
  -- The table covers all characters of seven bits, and there is no digit beyond them.
  have small : c.toNat < 128 := by
    have last : 'f'.val.toNat = 102 := rfl
    have capital : 'F'.val.toNat = 70 := rfl
    have nine : '9'.val.toNat = 57 := rfl
    have same : c.toNat = c.val.toNat := rfl
    simp only [Text.isHexDigit, Text.isDigit, Bool.or_eq_true, Bool.and_eq_true, decide_eq_true_eq, Char.le_def,
      UInt32.le_iff_toNat_le] at isDigit
    omega
  have found := table c.toNat small
  rw [Char.ofNat_toNat] at found
  obtain ⟨d, bounded, same⟩ := found isDigit
  exact ⟨d, bounded, same⟩

end IsHexDigitOf

namespace Hexadecimal

variable {digits : Text} {n : Nat}

theorem digital (hexadecimal : Hexadecimal digits n) : ∀ c ∈ digits, Text.isHexDigit c = true := by
  induction hexadecimal with
  | nil => simp
  | digit _ isDigit inductionHypothesis =>
    intro c member
    cases List.mem_append.mp member with
    | inl before => exact inductionHypothesis c before
    | inr last =>
      rw [List.mem_singleton.mp last]
      exact isDigit.isHexDigit

theorem exists_of_digital (digital : ∀ c ∈ digits, Text.isHexDigit c = true) : ∃ n, Hexadecimal digits n := by
  induction digits using List.reverseRecOn with
  | nil => exact ⟨0, .nil⟩
  | append_singleton digits c inductionHypothesis =>
    obtain ⟨n, before⟩ := inductionHypothesis fun d member => digital d (by simp [member])
    obtain ⟨d, isDigit⟩ := IsHexDigitOf.exists_of_isHexDigit (digital c (by simp))
    exact ⟨_, .digit before isDigit⟩

theorem lt (hexadecimal : Hexadecimal digits n) : n < 16 ^ digits.length := by
  induction hexadecimal with
  | nil => exact Nat.one_pos
  | digit _ isDigit inductionHypothesis =>
    have below := isDigit.1
    rw [List.length_append, List.length_singleton, Nat.pow_succ]
    omega

theorem digitsValue?_eq (hexadecimal : Hexadecimal digits n) : Number.digitsValue? 16 digits = some n := by
  induction hexadecimal with
  | nil => rfl
  | digit _ isDigit inductionHypothesis =>
    rw [Number.digitsValue?_append, inductionHypothesis, isDigit.hexValue?_eq]
    exact if_pos isDigit.1

theorem iff_digitsValue? : Hexadecimal digits n ↔
    digits.all Text.isHexDigit = true ∧ Number.digitsValue? 16 digits = some n := by
  constructor
  · intro hexadecimal
    exact ⟨List.all_eq_true.mpr hexadecimal.digital, hexadecimal.digitsValue?_eq⟩
  · intro ⟨digital, value⟩
    obtain ⟨m, hexadecimal⟩ := exists_of_digital (List.all_eq_true.mp digital)
    rw [hexadecimal.digitsValue?_eq, Option.some.injEq] at value
    rwa [← value]

instance : Decidable (Hexadecimal digits n) :=
  decidable_of_iff' _ iff_digitsValue?

theorem hex?_eq (hexadecimal : Hexadecimal digits n) (nonempty : digits ≠ []) : Number.hex? digits = some n := by
  have noPlus : ∀ rest, digits ≠ '+' :: rest := by
    rintro rest rfl
    exact absurd (hexadecimal.digital '+' (by simp)) (by decide)
  rw [Number.hex?, Number.unsigned?_of_head noPlus, Number.digits?, if_neg (by simpa using nonempty),
    hexadecimal.digitsValue?_eq]

end Hexadecimal

namespace HexBytes

variable {digits : Text} {bytes : List Nat}

theorem exists_of_digital (digits : Text) (paired : digits.length % 2 = 0)
    (digital : ∀ c ∈ digits, Text.isHexDigit c = true) : ∃ bytes, HexBytes digits bytes := by
  match digits with
  | [] => exact ⟨[], .nil⟩
  | [a] => simp at paired
  | a :: b :: rest =>
    have paired : rest.length % 2 = 0 := by
      simp only [List.length_cons] at paired
      omega
    have both : ∀ c ∈ [a, b], Text.isHexDigit c = true :=
      fun c member => digital c (List.mem_append_left rest member)
    obtain ⟨byte, first⟩ := Hexadecimal.exists_of_digital both
    obtain ⟨bytes, others⟩ := exists_of_digital rest paired fun c member => digital c (by simp [member])
    exact ⟨byte :: bytes, .byte first others⟩

theorem length_eq (hexBytes : HexBytes digits bytes) : digits.length = 2 * bytes.length := by
  induction hexBytes with
  | nil => rfl
  | byte _ _ inductionHypothesis =>
    simp only [List.length_cons, inductionHypothesis]
    omega

theorem digital (hexBytes : HexBytes digits bytes) : ∀ c ∈ digits, Text.isHexDigit c = true := by
  induction hexBytes with
  | nil => simp
  | @byte a b byte digits bytes first _ inductionHypothesis =>
    intro c member
    cases List.mem_append.mp (show c ∈ [a, b] ++ digits from member) with
    | inl own => exact first.digital c own
    | inr later => exact inductionHypothesis c later

theorem hexBytes?_eq (hexBytes : HexBytes digits bytes) : Literal.hexBytes? digits = some bytes := by
  induction hexBytes with
  | nil => rfl
  | byte first _ inductionHypothesis =>
    rw [Literal.hexBytes?, first.hex?_eq (by simp), inductionHypothesis]
    rfl

theorem readBytes?_eq (hexBytes : HexBytes digits bytes) : Literal.readBytes? ('0' :: 'x' :: digits) = some bytes := by
  rw [← hexBytes.hexBytes?_eq]
  exact congrArg (Option.bind · Literal.hexBytes?) (Text.after?_eq_some_iff.mpr rfl)

end HexBytes

/-! ## Floats -/

namespace Number

/-- A sign at the front is split off, if no other follows. -/
theorem splitSign_append {sign rest : Text} (isSign : IsSign sign)
    (unsigned : ∀ c cs, rest = c :: cs → c ≠ '+' ∧ c ≠ '-') : (splitSign (sign ++ rest)).2 = rest := by
  rcases isSign with rfl | rfl | rfl
  · rw [List.nil_append]
    unfold splitSign
    split
    · rename_i cs
      exact absurd rfl (unsigned '-' cs rfl).2
    · rename_i cs
      exact absurd rfl (unsigned '+' cs rfl).1
    · rfl
  · rfl
  · rfl

theorem unsigned_of_digits {digits : Text} (isDigits : IsDigits digits) (after : Text) :
    ∀ c cs, digits ++ after = c :: cs → c ≠ '+' ∧ c ≠ '-' := by
  obtain ⟨nonempty, digital⟩ := isDigits
  intro c cs same
  cases digits with
  | nil => exact absurd rfl nonempty
  | cons d ds =>
    obtain ⟨rfl, -⟩ := List.cons.inj same
    have isDigit := digital d (by simp)
    exact ⟨ne_of_class isDigit rfl, ne_of_class isDigit rfl⟩

theorem isSome_exponentValue? {exponent : Text} (exponential : exponent = [] ∨ IsExponent exponent) :
    (exponentValue? exponent).isSome = true := by
  cases exponential with
  | inl absent => rw [absent]; rfl
  | inr present =>
    cases present with
    | @intro mark sign digits isMark isSign isDigits =>
      have unsigned := unsigned_of_digits isDigits []
      rw [List.append_nil] at unsigned
      have value := digits?_decimal isDigits
      simp only [exponentValue?, splitSign_append isSign unsigned, value]
      simp [isMark]

/-- Digits before or after the point, and perhaps an exponent, are a decimal. -/
theorem isSome_decimal? {whole tail fraction exponent : Text} (digital : ∀ c ∈ whole, Text.isDigit c = true)
    (stops : Stops Text.isDigit tail) (parts : splitFraction tail = (fraction, exponent))
    (isDigits : IsDigits (whole ++ fraction)) (exponential : exponent = [] ∨ IsExponent exponent) :
    (decimal? (whole ++ tail)).isSome = true := by
  obtain ⟨power, found⟩ := Option.isSome_iff_exists.mp (isSome_exponentValue? exponential)
  simp only [decimal?, takeWhile_run digital stops, dropWhile_run digital stops, parts, digits?_decimal isDigits, found]
  rfl

theorem isSome_float?_of_decimal {sign text : Text} (isSign : IsSign sign)
    (unsigned : ∀ c cs, text = c :: cs → c ≠ '+' ∧ c ≠ '-') (isDecimal : (decimal? text).isSome = true) :
    (float? (sign ++ text)).isSome = true := by
  have magnitude : (magnitude? text).isSome = true := by
    simp only [magnitude?]
    split
    · rfl
    split
    · rfl
    · exact isDecimal
  simp only [float?, splitSign_append isSign unsigned, Option.isSome_map, magnitude]

/-- Every float of the grammar is read. -/
theorem isSome_float? {text : Text} (isFloat : IsNumber .float text) : (float? text).isSome = true := by
  cases isFloat with
  | @fraction sign digits fraction exponent isSign isDigits isFraction exponential =>
    have inside : ∀ c ∈ digits, Text.isDigit c = true := by
      cases isDigits with
      | inl absent => simp [absent]
      | inr present => exact present.2
    have stops := stops_optionalExponent exponential
    have parts : splitFraction ('.' :: (fraction ++ exponent)) = (fraction, exponent) := by
      rw [splitFraction, takeWhile_run isFraction.2 stops, dropWhile_run isFraction.2 stops]
    have both : IsDigits (digits ++ fraction) := by
      refine ⟨by simp [isFraction.1], fun c member => ?_⟩
      cases List.mem_append.mp member with
      | inl before => exact inside c before
      | inr after => exact isFraction.2 c after
    refine isSome_float?_of_decimal isSign ?_ (isSome_decimal? inside (stops_cons rfl _) parts both exponential)
    cases isDigits with
    | inl absent => simp [absent]
    | inr present => exact unsigned_of_digits present _
  | @scientific sign digits exponent isSign isDigits isExponent =>
    have parts : splitFraction exponent = ([], exponent) := by
      cases isExponent with
      | intro isMark _ _ => rcases isMark with rfl | rfl <;> rfl
    have whole : IsDigits (digits ++ []) := by rwa [List.append_nil]
    exact isSome_float?_of_decimal isSign (unsigned_of_digits isDigits _)
      (isSome_decimal? isDigits.2 isExponent.stops parts whole (.inr isExponent))

end Number

end LispSyntax
