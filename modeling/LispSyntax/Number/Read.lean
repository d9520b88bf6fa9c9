import LispSyntax.Number.Binary64
import LispSyntax.Text.Classes

/-! # Reading numbers

Numbers in text. Whole numbers take one sign and at least one digit, and have to lie in their range; a
number without a sign of its own still takes a plus. Floats are decimals with an optional fraction and
exponent, or the words `inf`, `infinity` and `nan` in any case.
-/

namespace LispSyntax

namespace Number

/-- The value of digits in a base, most significant first; none if one of them is no such digit. -/
def digitsValue? (base : Nat) (digits : Text) : Option Nat :=
  digits.foldl
    (fun value c =>
      match value, Text.hexValue? c with
      | some v, some d => if d < base then some (v * base + d) else none
      | _, _ => none)
    (some 0)

def digits? (base : Nat) (text : Text) : Option Nat :=
  if text.isEmpty then none else digitsValue? base text

def unsigned? (base : Nat) : Text → Option Nat
  | '+' :: digits => digits? base digits
  | digits => digits? base digits

def below? (limit : Nat) (value : Nat) : Option Nat :=
  if value < limit then some value else none

def word? (text : Text) : Option Nat :=
  (unsigned? 10 text).bind (below? UInt64.size)

def long? : Text → Option Int
  | '-' :: digits => ((digits? 10 digits).bind (below? (UInt64.size / 2 + 1))).map fun n => -(n : Int)
  | text => ((unsigned? 10 text).bind (below? (UInt64.size / 2))).map Int.ofNat

def hex? (text : Text) : Option Nat :=
  unsigned? 16 text

def character? (code : Nat) : Option Char :=
  if code.isValidChar then some (Char.ofNat code) else none

def splitSign : Text → Bool × Text
  | '-' :: cs => (true, cs)
  | '+' :: cs => (false, cs)
  | cs => (false, cs)

/-- The exponent after a mantissa: nothing, or a mark and a signed whole number. -/
def exponentValue? : Text → Option Int
  | [] => some 0
  | e :: cs =>
    if e = 'e' || e = 'E' then
      let (negative, digits) := splitSign cs
      (digits? 10 digits).map fun n => if negative then -(n : Int) else n
    else none

def splitFraction : Text → Text × Text
  | '.' :: cs => (cs.takeWhile Text.isDigit, cs.dropWhile Text.isDigit)
  | cs => ([], cs)

/-- A decimal without sign: digits, a fraction and an exponent, with a digit before the exponent. -/
def decimal? (text : Text) : Option Binary64 := do
  let whole := text.takeWhile Text.isDigit
  let (fraction, rest) := splitFraction (text.dropWhile Text.isDigit)
  let mantissa ← digits? 10 (whole ++ fraction)
  let exponent ← exponentValue? rest
  return Binary64.ofDecimal mantissa (exponent - fraction.length)

def lower (c : Char) : Char :=
  if 'A' ≤ c && c ≤ 'Z' then Char.ofNat (c.toNat + 32) else c

def magnitude? (text : Text) : Option Binary64 :=
  let word := text.map lower
  if word = "inf".toList || word = "infinity".toList then some Binary64.infinity
  else if word = "nan".toList then some Binary64.nan
  else decimal? text

def float? (text : Text) : Option Binary64 :=
  let (negative, rest) := splitSign text
  (magnitude? rest).map fun x => if negative then x.negate else x

end Number

end LispSyntax
