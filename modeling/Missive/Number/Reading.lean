import Missive.Number.Double

/-!
# Missive.Number.Reading

Numbers from text: whole numbers in a range, and decimals rounded once to a floating-point
format.
-/

namespace Missive

/-- Whether a character is an ASCII digit. -/
def isDigit (c : Char) : Bool := '0' ≤ c && c ≤ '9'

/-- The value of an ASCII digit. -/
def digitValue (c : Char) : Nat := c.toNat - '0'.toNat

/-- The number that a list of ASCII digits writes. -/
def digitsValue (cs : List Char) : Nat := cs.foldl (fun n c => 10 * n + digitValue c) 0

/-- A nonempty list of ASCII digits, as a number. -/
def readDigits? (cs : List Char) : Option Nat :=
  if cs.isEmpty || !cs.all isDigit then none else some (digitsValue cs)

/-- A number below `limit`: an optional `+`, then digits. -/
def readNat? (limit : Nat) (cs : List Char) : Option Nat :=
  let digits := match cs with
    | '+' :: rest => rest
    | rest => rest
  (readDigits? digits).filter (· < limit)

/-- A whole number from `-limit` up to below `limit`: an optional sign, then digits. -/
def readInt? (limit : Nat) (cs : List Char) : Option Int :=
  match cs with
  | '-' :: rest => ((readDigits? rest).filter (· ≤ limit)).map fun n => -(n : Int)
  | rest => (readNat? limit rest).map Int.ofNat

/-- A number as its decimal text gives it. -/
inductive Numeral where
  | nan
  | infinite
  /-- `significand * 10 ^ exponent`. -/
  | decimal (significand : Nat) (exponent : Int)
  deriving Repr, DecidableEq

namespace Numeral

/-- An optional sign and a nonempty list of digits. -/
def readExponent? (cs : List Char) : Option Int :=
  match cs with
  | '-' :: rest => (readDigits? rest).map fun n => -(n : Int)
  | '+' :: rest => (readDigits? rest).map Int.ofNat
  | rest => (readDigits? rest).map Int.ofNat

/-- Digits with an optional point, at least one digit in all, and an optional exponent. -/
def readDecimal? (cs : List Char) : Option Numeral :=
  let whole := cs.takeWhile isDigit
  let (fraction, rest) := match cs.dropWhile isDigit with
    | '.' :: after => (after.takeWhile isDigit, after.dropWhile isDigit)
    | after => ([], after)
  if whole.isEmpty && fraction.isEmpty then none
  else
    let significand := digitsValue (whole ++ fraction)
    let shift : Int := -(fraction.length : Int)
    match rest with
    | [] => some (.decimal significand shift)
    | c :: after =>
      if c == 'e' || c == 'E' then
        (readExponent? after).map fun e => .decimal significand (shift + e)
      else none

/-- An unsigned numeral; the words for infinity and NaN are read in any case. -/
def read? (cs : List Char) : Option Numeral :=
  let word := String.ofList (cs.map Char.toLower)
  if word == "inf" || word == "infinity" then some .infinite
  else if word == "nan" then some .nan
  else readDecimal? cs

/-- A numeral with an optional sign. -/
def readSigned? (cs : List Char) : Option (Bool × Numeral) :=
  match cs with
  | '-' :: rest => (read? rest).map (true, ·)
  | '+' :: rest => (read? rest).map (false, ·)
  | rest => (read? rest).map (false, ·)

/-- Decimal orders of magnitude beyond which every format overflows or underflows. -/
def farExponent : Int := 400

/-- The pattern nearest to a numeral. -/
def nearest (f : Format) (negative : Bool) : Numeral → Nat
  | .nan => f.quietNan negative
  | .infinite => f.infinity negative
  | .decimal significand exponent =>
    let order := exponent + (Nat.toDigits 10 significand).length
    if significand == 0 || order < -farExponent then f.signBit negative
    else if farExponent < order then f.infinity negative
    else if exponent < 0 then f.nearest negative significand (Nat.pow 10 (-exponent).toNat)
    else f.nearest negative (significand * Nat.pow 10 exponent.toNat) 1

end Numeral

/-- The double nearest to a decimal text. -/
def Double.read? (cs : List Char) : Option Double :=
  (Numeral.readSigned? cs).map fun (negative, n) => ⟨(n.nearest .double negative).toUInt64⟩

/-- The single nearest to a decimal text. -/
def Single.read? (cs : List Char) : Option Single :=
  (Numeral.readSigned? cs).map fun (negative, n) => ⟨(n.nearest .single negative).toUInt32⟩

end Missive
