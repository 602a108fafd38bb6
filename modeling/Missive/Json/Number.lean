import Missive.Json.Basic
import Missive.Number.Reading
import Missive.Text.Scan

/-!
# Missive.Json.Number

Reading JSON numbers.

Whole numbers that fit are kept exactly.  Everything else becomes a double by a rule that is fast
and not always the nearest one: the digits are collected in a significand of 64 bits for as long
as they fit, and the significand, as a double, is scaled by a power of ten, rounding again.
-/

namespace Missive.JsonNumber

open Text

/-- A significand of 64 bits with one more digit, if it fits. -/
def addDigit? (significand : Nat) (c : Char) : Option Nat :=
  let n := 10 * significand + digitValue c
  if n < UInt64.size then some n else none

/-- Collect the digits of the whole part: the significand, and how many digits did not fit. -/
def collectWhole (significand : Nat) : List Char → Nat × Nat
  | [] => (significand, 0)
  | c :: rest =>
    match addDigit? significand c with
    | some n => collectWhole n rest
    | none => (significand, rest.length + 1)

/-- Collect the digits of the fraction: the significand, and how many digits it took.  From the
first digit on that does not fit they are dropped. -/
def collectFraction (significand taken : Nat) : List Char → Nat × Nat
  | [] => (significand, taken)
  | c :: rest =>
    match addDigit? significand c with
    | some n => collectFraction n (taken + 1) rest
    | none => (significand, taken)

/-- The power of ten nearest to `10 ^ n`. -/
def powerOfTen (n : Nat) : Double := .ofQuotient false (Nat.pow 10 n) 1

/-- The largest power of ten that is a double. -/
def largestPower : Int := 308

/-- A positive double scaled by a power of ten, in at most `fuel` steps. -/
def scale (x : Double) (exponent : Int) : Nat → Option Double
  | 0 => some x
  | fuel + 1 =>
    if exponent.natAbs ≤ largestPower then
      if 0 ≤ exponent then some (x.mul (powerOfTen exponent.natAbs))
      else some (x.div (powerOfTen exponent.natAbs))
    else if x.same .zero then some x
    else if 0 ≤ exponent then none
    else scale (x.div (powerOfTen 308)) (exponent + largestPower) fuel

/-- The double of a significand and a power of ten; one out of range is refused.  Two steps down
take every significand to zero. -/
def ofParts (negative : Bool) (significand : Nat) (exponent : Int) : Option JsonNumber :=
  (scale (.ofInt significand) exponent 4).bind fun x => ofDouble? (if negative then x.negate else x)

/-- The number without a fraction or an exponent. -/
def ofWhole (negative : Bool) (significand : Nat) : Option JsonNumber :=
  if !negative then some (.natural significand.toUInt64)
  else if significand == 0 || Int64.size / 2 < significand then
    ofDouble? (Double.negate (.ofInt significand))
  else some (.ofInt64 (.ofInt (-(significand : Int))))

/-- The limit of the exponent that a text may give. -/
def exponentLimit : Nat := Int32.size / 2

/-- Read an exponent after its letter, and finish the number. -/
def readExponent (negative : Bool) (significand : Nat) (start : Int) : Scan JsonNumber := do
  let below ← Scan.accept "-"
  if !below then
    let _ ← Scan.accept "+"
  let digits ← Scan.takeSome isDigit
  let exponent := digitsValue digits
  if exponentLimit ≤ exponent then
    Scan.ensure (significand == 0 || below)
    ofDouble? (if negative then Double.negate .zero else .zero)
  else
    let limit : Int := exponentLimit
    let sum := if below then start - exponent else start + exponent
    ofParts negative significand (max (-limit) (min (limit - 1) sum))

/-- Read the exponent, if there is one, and finish the number. -/
def readScale (negative : Bool) (significand : Nat) (start : Int) : Scan JsonNumber := do
  match ← Scan.peek? with
  | some 'e' | some 'E' =>
    let _ ← Scan.next
    readExponent negative significand start
  | _ => ofParts negative significand start

/-- Read a number. -/
def read : Scan JsonNumber := do
  let negative ← Scan.accept "-"
  let whole ← Scan.takeSome isDigit
  Scan.ensure (whole.head? != some '0' || whole.length == 1)
  let (significand, dropped) := collectWhole 0 whole
  if ← Scan.accept "." then
    let fraction ← Scan.takeSome isDigit
    let (significand, taken) := collectFraction significand 0 fraction
    readScale negative significand ((dropped : Int) - taken)
  else
    match ← Scan.peek? with
    | some 'e' | some 'E' => readScale negative significand dropped
    | _ =>
      if dropped == 0 then ofWhole negative significand
      else ofParts negative significand dropped

end Missive.JsonNumber
