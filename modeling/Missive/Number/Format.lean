/-!
# Missive.Number.Format

Binary interchange formats: what a bit pattern stands for, and the pattern nearest to a
quotient.

A pattern is a sign, a biased exponent and a fraction, most significant first.  Everything is
exact arithmetic on `Nat`: a finite datum is `significand * 2 ^ exponent`, and `Format.nearest`
rounds a quotient to the nearest pattern, a tie going to the even significand.
-/

namespace Missive

/-- A binary interchange format, by the widths of its fraction and exponent fields. -/
structure Format where
  fractionBits : Nat
  exponentBits : Nat

/-- What a bit pattern stands for. -/
inductive Datum where
  | nan
  | infinite (negative : Bool)
  /-- `significand * 2 ^ exponent`, negated if `negative`. -/
  | finite (negative : Bool) (significand : Nat) (exponent : Int)
  deriving Repr, DecidableEq

namespace Format

/-- The 32-bit format. -/
def single : Format := ⟨23, 8⟩

/-- The 64-bit format. -/
def double : Format := ⟨52, 11⟩

/-- The exponent of the least positive datum. -/
def leastExponent (f : Format) : Int :=
  2 - (1 <<< (f.exponentBits - 1) : Nat) - f.fractionBits

/-- The sign bit of a pattern, as a number. -/
def signBit (f : Format) (negative : Bool) : Nat :=
  if negative then 1 <<< (f.fractionBits + f.exponentBits) else 0

/-- The pattern of an infinity. -/
def infinity (f : Format) (negative : Bool) : Nat :=
  f.signBit negative + ((1 <<< f.exponentBits) - 1) <<< f.fractionBits

/-- The pattern of a quiet NaN. -/
def quietNan (f : Format) (negative : Bool) : Nat :=
  f.infinity negative + (1 <<< (f.fractionBits - 1))

/-- What a pattern stands for. -/
def decode (f : Format) (bits : Nat) : Datum :=
  let fraction := bits % (1 <<< f.fractionBits)
  let biased := (bits >>> f.fractionBits) % (1 <<< f.exponentBits)
  let negative := (bits >>> (f.fractionBits + f.exponentBits)) % 2 == 1
  if biased == (1 <<< f.exponentBits) - 1 then
    if fraction == 0 then .infinite negative else .nan
  else if biased == 0 then
    .finite negative fraction f.leastExponent
  else
    .finite negative (fraction + (1 <<< f.fractionBits)) (f.leastExponent + (biased - 1 : Nat))

/-- The quotient rounded to the nearest integer, a tie going to the even one. -/
def roundQuotient (num den : Nat) : Nat :=
  let q := num / den
  let r := num % den
  if den < 2 * r || (2 * r == den && q % 2 == 1) then q + 1 else q

/-- The quotient `num / den / 2 ^ e`, as a pair of numerator and denominator. -/
def scaleDown (num den : Nat) (e : Int) : Nat × Nat :=
  if e < 0 then (num <<< (-e).toNat, den) else (num, den <<< e.toNat)

/-- The exponent of the significand that `num / den` gets: the quotient divided by two to it has
as many bits as a significand, unless the least exponent is reached first. -/
def exponentFor (f : Format) (num den : Nat) : Int :=
  let guess := max f.leastExponent ((num.log2 : Int) - den.log2 - f.fractionBits)
  let (n, d) := scaleDown num den guess
  if n / d < 1 <<< f.fractionBits && f.leastExponent < guess then guess - 1 else guess

/-- The pattern of a significand of at most one bit more than the format holds. -/
def assemble (f : Format) (negative : Bool) (significand : Nat) (exponent : Int) : Nat :=
  let magnitude :=
    if significand < 1 <<< f.fractionBits then significand
    else (exponent - f.leastExponent).toNat <<< f.fractionBits + significand
  f.signBit negative + min magnitude (f.infinity false)

/-- The pattern nearest to `num / den`, a tie going to the even significand and a quotient beyond
the largest finite datum to the infinity of its sign. -/
def nearest (f : Format) (negative : Bool) (num den : Nat) : Nat :=
  if num == 0 then f.signBit negative
  else
    let e := f.exponentFor num den
    let (n, d) := scaleDown num den e
    f.assemble negative (roundQuotient n d) e

/-- The pattern nearest to `significand * 2 ^ exponent`. -/
def nearestScaled (f : Format) (negative : Bool) (significand : Nat) (exponent : Int) : Nat :=
  if exponent < 0 then f.nearest negative significand (1 <<< (-exponent).toNat)
  else f.nearest negative (significand <<< exponent.toNat) 1

end Format

end Missive
