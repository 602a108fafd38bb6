import Missive.Number.Double

/-!
# Missive.Number.Shortest

The fewest decimal digits that read back as the same floating-point number.

The reals that round to `m * 2 ^ e` form an interval, closed iff `m` is even.  For one digit, two
digits, and so on, the decimals of that many digits next to the number are tried; the first count
with a decimal inside the interval wins, of two decimals the nearer one.  `Tie` says which of two
equally near decimals is taken.

`Digits` is the result, and `Digits.positional` and `Digits.scientific` lay it out.
-/

namespace Missive

/-- Which of two equally near decimals is taken. -/
inductive Tie where
  | toEven
  | up
  deriving Repr, DecidableEq

/-- The decimal `0.d₁d₂… * 10 ^ point`. -/
structure Digits where
  digits : List Char
  point : Int
  deriving Repr, DecidableEq

/-- The decimal digits of a number. -/
def decimalDigits (n : Nat) : List Char := Nat.toDigits 10 n

/-- The decimal text of a number. -/
def decimalText (n : Nat) : String := String.ofList (decimalDigits n)

/-- The decimal text of a whole number. -/
def integerText (n : Int) : String :=
  if n < 0 then "-" ++ decimalText n.natAbs else decimalText n.natAbs

namespace Shortest

/-- The `p` with `10 ^ (p - 1) ≤ num / den < 10 ^ p`, for a positive quotient. -/
def magnitude (num den : Nat) : Int :=
  if den ≤ num then (decimalDigits (num / den)).length
  else 1 - ((decimalDigits ((den + num - 1) / num - 1)).length : Int)

/-- An interval of positive quotients around a number, over one denominator. -/
structure Interval where
  low : Nat
  value : Nat
  high : Nat
  den : Nat
  closed : Bool

/-- The reals that round to `significand * 2 ^ exponent`.  Below a power of two the neighbour is half
as far away, unless the exponent is the least one. -/
def Interval.around (f : Format) (significand : Nat) (exponent : Int) : Interval :=
  let below :=
    if significand == 1 <<< f.fractionBits && f.leastExponent < exponent then 1 else 2
  let (scale, den) := Format.scaleDown 1 1 (2 - exponent)
  { low := (4 * significand - below) * scale
    value := 4 * significand * scale
    high := (4 * significand + 2) * scale
    den := den
    closed := significand % 2 == 0 }

/-- The interval in units of `10 ^ j`. -/
def Interval.inUnits (i : Interval) (j : Int) : Interval :=
  if j < 0 then
    let k := Nat.pow 10 (-j).toNat
    { i with low := i.low * k, value := i.value * k, high := i.high * k }
  else { i with den := i.den * Nat.pow 10 j.toNat }

/-- Whether a whole number of units lies inside. -/
def Interval.has (i : Interval) (n : Nat) : Bool :=
  if i.closed then i.low ≤ n * i.den && n * i.den ≤ i.high
  else i.low < n * i.den && n * i.den < i.high

/-- The whole number of units inside the interval that is nearest to the number. -/
def Interval.pick? (i : Interval) (tie : Tie) : Option Nat :=
  let floor := i.value / i.den
  match i.has floor, i.has (floor + 1) with
  | true, true =>
    let r := 2 * (i.value % i.den)
    let up := i.den < r || (r == i.den && (tie == .up || floor % 2 == 1))
    some (if up then floor + 1 else floor)
  | true, false => some floor
  | false, true => some (floor + 1)
  | false, false => none

/-- The digits of `n * 10 ^ j` without its trailing zeros. -/
def ofUnits (n : Nat) (j : Int) : Digits :=
  let all := decimalDigits n
  ⟨(all.reverse.dropWhile (· == '0')).reverse, all.length + j⟩

/-- Try `count`, `count + 1`, … digits, at most `fuel` of them. -/
def scan (i : Interval) (tie : Tie) (p : Int) (count : Nat) : Nat → Digits
  | 0 => ofUnits (i.value / i.den) 0
  | fuel + 1 =>
    let j := p - count
    match (i.inUnits j).pick? tie with
    | some n => ofUnits n j
    | none => scan i tie p (count + 1) fuel

/-- The most digits that a number of the format needs. -/
def mostDigits (f : Format) : Nat := f.fractionBits * 31 / 100 + 3

/-- The shortest digits of the positive number `significand * 2 ^ exponent`. -/
def digits (f : Format) (tie : Tie) (significand : Nat) (exponent : Int) : Digits :=
  let i := Interval.around f significand exponent
  scan i tie (magnitude i.value i.den) 1 (mostDigits f)

end Shortest

namespace Digits

/-- Positional text: `whole` follows the digits of a whole number (`""` or `".0"`). -/
def positional (d : Digits) (whole : String) : String :=
  let n := d.digits.length
  if d.point ≤ 0 then
    "0." ++ String.ofList (List.replicate (-d.point).toNat '0' ++ d.digits)
  else if n ≤ d.point.toNat then
    String.ofList (d.digits ++ List.replicate (d.point.toNat - n) '0') ++ whole
  else
    String.ofList (d.digits.take d.point.toNat) ++ "." ++ String.ofList (d.digits.drop d.point.toNat)

/-- Scientific text: one digit, the others after a point, and a signed exponent. -/
def scientific (d : Digits) : String :=
  let fraction := d.digits.drop 1
  let e := d.point - 1
  String.ofList (d.digits.take 1) ++ (if fraction.isEmpty then "" else "." ++ String.ofList fraction)
    ++ (if e < 0 then "e-" else "e+") ++ decimalText e.natAbs

end Digits

namespace Datum

/-- Positional text without an exponent, whole numbers without a point. -/
def plainText (f : Format) : Datum → String
  | .nan => "NaN"
  | .infinite negative => if negative then "-inf" else "inf"
  | .finite negative m e =>
    (if negative then "-" else "")
      ++ (if m == 0 then "0" else (Shortest.digits f .up m e).positional "")

end Datum

/-- Positional text of a double. -/
def Double.plainText (x : Double) : String := x.datum.plainText .double

/-- Positional text of a single. -/
def Single.plainText (x : Single) : String := x.datum.plainText .single

end Missive
