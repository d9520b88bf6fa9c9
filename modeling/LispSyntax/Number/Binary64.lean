/-! # Binary64 numbers

A float is the 64-bit word of the IEEE format, kept as a natural number, so that nothing here rests on
machine arithmetic. `Binary64.ofRatio` rounds an exact ratio to the nearest float, and half-way cases to
the one with an even significand.
-/

namespace LispSyntax

structure Binary64 where
  word : Nat
deriving DecidableEq, Repr

namespace Binary64

def fractionBits : Nat :=
  52

def specialExponent : Nat :=
  2047

def leastExponent : Int :=
  -1074

def zero : Binary64 :=
  ⟨0⟩

def infinity : Binary64 :=
  ⟨specialExponent <<< fractionBits⟩

def nan : Binary64 :=
  ⟨(specialExponent <<< fractionBits) + (1 <<< (fractionBits - 1))⟩

def negate (x : Binary64) : Binary64 :=
  ⟨x.word + (1 <<< 63)⟩

def isNaN (x : Binary64) : Bool :=
  decide (specialExponent <<< fractionBits < x.word % (1 <<< 63))

/-- The quotient rounded to the nearest whole number, half-way cases to the even one. -/
def roundDiv (num den : Nat) : Nat :=
  let quotient := num / den
  let twice := 2 * (num % den)
  if twice < den then quotient
  else if den < twice then quotient + 1
  else quotient + quotient % 2

/-- A ratio in units of `2 ^ exponent`, as numerator and denominator. -/
def inUnits (num den : Nat) (exponent : Int) : Nat × Nat :=
  (num <<< (-exponent).toNat, den <<< exponent.toNat)

/-- The exponent of the unit in the last place that a positive ratio is rounded to: the ratio is at least
`2 ^ 52` and below `2 ^ 53` such units, unless the least unit is already too coarse for that. -/
def unitExponent (num den : Nat) : Int :=
  let guess : Int := (num.log2 : Int) - den.log2 - fractionBits - 1
  let (n, d) := inUnits num den guess
  let exponent := if n / d < 1 <<< (fractionBits + 1) then guess else guess + 1
  max exponent leastExponent

/-- The number with the given significand in units of `2 ^ exponent`. A significand that was rounded up to
the next power of two carries into the exponent field. -/
def ofUnits (significand : Nat) (exponent : Int) : Binary64 :=
  let field := (exponent - leastExponent).toNat
  if significand < 1 <<< fractionBits then ⟨significand⟩
  else
    let word := (field <<< fractionBits) + significand
    if word < infinity.word then ⟨word⟩ else infinity

def ofRatio (num den : Nat) : Binary64 :=
  if num = 0 then zero
  else
    let exponent := unitExponent num den
    let (n, d) := inUnits num den exponent
    ofUnits (roundDiv n d) exponent

/-- Powers of ten past which every float is infinite, or zero on the other side. -/
def decimalRange : Int :=
  400

/-- The float nearest to `mantissa * 10 ^ exponent`. Numbers far out of range are settled by their count of
digits, without computing the power. -/
def ofDecimal (mantissa : Nat) (exponent : Int) : Binary64 :=
  let digits : Int := (Nat.toDigits 10 mantissa).length
  if mantissa = 0 then zero
  else if decimalRange < digits + exponent then infinity
  else if digits + exponent < -decimalRange then zero
  else ofRatio (mantissa * Nat.pow 10 exponent.toNat) (Nat.pow 10 (-exponent).toNat)

end Binary64

end LispSyntax
