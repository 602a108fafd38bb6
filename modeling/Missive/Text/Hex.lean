/-!
# Missive.Text.Hex

Numbers and byte sequences in lower-case hexadecimal.
-/

namespace Missive.Text

/-- A number in hexadecimal, without leading zeros. -/
def hexText (n : Nat) : String := String.ofList (Nat.toDigits 16 n)

/-- A number in hexadecimal, with zeros in front up to a width. -/
def hexPadded (width n : Nat) : String :=
  let digits := hexText n
  String.ofList (List.replicate (width - digits.length) '0') ++ digits

/-- The value of a hexadecimal digit of either case. -/
def hexValue? (c : Char) : Option Nat :=
  if '0' ≤ c && c ≤ '9' then some (c.toNat - '0'.toNat)
  else if 'a' ≤ c && c ≤ 'f' then some (c.toNat - 'a'.toNat + 10)
  else if 'A' ≤ c && c ≤ 'F' then some (c.toNat - 'A'.toNat + 10)
  else none

/-- The number that digits write in a base; anything else counts as a zero. -/
def numberIn (base : Nat) (digits : List Char) : Nat :=
  digits.foldl (fun n c => base * n + (hexValue? c).getD 0) 0

/-- The number that a text writes in hexadecimal. -/
def ofHex (s : String) : Nat := numberIn 16 s.toList

/-- The bytes that pairs of digits write. -/
def hexPairs : List Char → List UInt8
  | a :: b :: rest => ((hexValue? a).getD 0 * 16 + (hexValue? b).getD 0).toUInt8 :: hexPairs rest
  | _ => []

/-- The bytes that a text of pairs of digits writes. -/
def bytesOfHex (s : String) : List UInt8 := hexPairs s.toList

/-- A byte sequence, two digits a byte. -/
def hexOfBytes (bytes : List UInt8) : String :=
  "".intercalate (bytes.map fun b => hexPadded 2 b.toNat)

end Missive.Text
