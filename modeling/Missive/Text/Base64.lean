/-!
# Missive.Text.Base64

Bytes as text of the standard base64 alphabet, padded to a multiple of four characters.

Reading accepts canonical text only: padding is required, nothing else may stand in the text, and
the bits that the last character carries beyond the last byte are zero.
-/

namespace Missive.Base64

/-- The character of a number below 64. -/
def symbol (n : Nat) : Char :=
  if n < 26 then Char.ofNat ('A'.toNat + n)
  else if n < 52 then Char.ofNat ('a'.toNat + (n - 26))
  else if n < 62 then Char.ofNat ('0'.toNat + (n - 52))
  else if n == 62 then '+'
  else '/'

/-- The number of a character of the alphabet. -/
def symbolValue? (c : Char) : Option Nat :=
  if 'A' ≤ c ∧ c ≤ 'Z' then some (c.toNat - 'A'.toNat)
  else if 'a' ≤ c ∧ c ≤ 'z' then some (c.toNat - 'a'.toNat + 26)
  else if '0' ≤ c ∧ c ≤ '9' then some (c.toNat - '0'.toNat + 52)
  else if c = '+' then some 62
  else if c = '/' then some 63
  else none

/-- The text of a byte sequence. -/
def encode : List UInt8 → List Char
  | [] => []
  | [a] =>
    let n := a.toNat
    [symbol (n / 4), symbol (n % 4 * 16), '=', '=']
  | [a, b] =>
    let n := a.toNat * 256 + b.toNat
    [symbol (n / 1024), symbol (n / 16 % 64), symbol (n % 16 * 4), '=']
  | a :: b :: c :: rest =>
    let n := a.toNat * 65536 + b.toNat * 256 + c.toNat
    symbol (n / 262144) :: symbol (n / 4096 % 64) :: symbol (n / 64 % 64) :: symbol (n % 64)
      :: encode rest

/-- The byte sequence of a canonical text. -/
def decode? : List Char → Option (List UInt8)
  | [] => some []
  | [c, d, '=', '='] => do
    let n := (← symbolValue? c) * 64 + (← symbolValue? d)
    if n % 16 = 0 then some [(n / 16).toUInt8] else none
  | [c, d, e, '='] => do
    let n := (← symbolValue? c) * 4096 + (← symbolValue? d) * 64 + (← symbolValue? e)
    if n % 4 = 0 then some [(n / 1024).toUInt8, (n / 4 % 256).toUInt8] else none
  | c :: d :: e :: f :: rest => do
    let n := (← symbolValue? c) * 262144 + (← symbolValue? d) * 4096 + (← symbolValue? e) * 64
      + (← symbolValue? f)
    let tail ← decode? rest
    some ((n / 65536).toUInt8 :: (n / 256 % 256).toUInt8 :: (n % 256).toUInt8 :: tail)
  | _ => none

/-- The text of a byte sequence. -/
def encodeText (bytes : List UInt8) : String := String.ofList (encode bytes)

/-- The byte sequence of a canonical text. -/
def decodeText? (s : String) : Option (List UInt8) := decode? s.toList

end Missive.Base64
