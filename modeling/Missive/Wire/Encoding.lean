import Missive.Number.Double
import Missive.Text.Utf8
import Missive.Wire.Kind

/-!
# Missive.Wire.Encoding

The bytes of single values.

```
header := varint (tag * 16 + kind)
object := (header value)* 0x00
array  := kind varint(count) value{count} 0x00
```

Variable-length integers have seven bits to a byte, lowest first, and a set top bit in every byte
but the last.  The signed kinds are folded first, so that numbers of small magnitude are short.
Fixed-width kinds are little-endian; texts and byte sequences follow their length.
-/

namespace Missive.Wire

/-! ## variable-length integers -/

/-- The seven-bit groups of a number, at most `more + 1` of them. -/
def groups : Nat → Nat → List UInt8
  | 0, n => [n.toUInt8]
  | more + 1, n =>
    if n < 128 then [n.toUInt8] else (n % 128 + 128).toUInt8 :: groups more (n / 128)

/-- A number of 64 bits takes at most ten groups. -/
def varint (n : UInt64) : List UInt8 := groups 9 n.toNat

/-- Fold a whole number: the non-negative ones to the even numbers, the negative ones to the odd
ones. -/
def zigzag (n : Int) : Nat := if 0 ≤ n then 2 * n.toNat else 2 * (-n).toNat - 1

/-- Undo `zigzag`. -/
def unzigzag (n : Nat) : Int := if n % 2 == 0 then (n / 2 : Nat) else -((n / 2 : Nat) : Int) - 1

/-! ## fixed-width numbers -/

/-- The lowest `count` bytes of a number, lowest first. -/
def littleEndian : Nat → Nat → List UInt8
  | 0, _ => []
  | count + 1, n => (n % 256).toUInt8 :: littleEndian count (n / 256)

/-- The number that bytes write, lowest first. -/
def ofLittleEndian : List UInt8 → Nat
  | [] => 0
  | b :: rest => b.toNat + 256 * ofLittleEndian rest

/-! ## values -/

def bool (b : Bool) : List UInt8 := varint (if b then 1 else 0)

def int (n : Int32) : List UInt8 := varint n.toInt64.toUInt64

def uint (n : UInt32) : List UInt8 := varint n.toUInt64

def sint (n : Int32) : List UInt8 := varint (zigzag n.toInt).toUInt64

def fixedInt (n : UInt32) : List UInt8 := littleEndian 4 n.toNat

def sfixedInt (n : Int32) : List UInt8 := littleEndian 4 n.toUInt32.toNat

def long (n : Int64) : List UInt8 := varint n.toUInt64

def ulong (n : UInt64) : List UInt8 := varint n

def slong (n : Int64) : List UInt8 := varint (zigzag n.toInt).toUInt64

def fixedLong (n : UInt64) : List UInt8 := littleEndian 8 n.toNat

def sfixedLong (n : Int64) : List UInt8 := littleEndian 8 n.toUInt64.toNat

def float (x : Single) : List UInt8 := littleEndian 4 x.bits.toNat

def double (x : Double) : List UInt8 := littleEndian 8 x.bits.toNat

def binary (bytes : List UInt8) : List UInt8 := varint bytes.length.toUInt64 ++ bytes

def string (s : String) : List UInt8 := binary (Utf8.encode s)

/-! ## containers -/

/-- The header of a field. -/
def header (tag : UInt32) (kind : Kind) : List UInt8 :=
  varint (tag.toUInt64 * 16 + kind.code.toUInt64)

/-- The end of an object or an array. -/
def endMark : List UInt8 := [0]

/-- The beginning of an array. -/
def arrayStart (kind : Kind) (count : Nat) : List UInt8 := kind.code :: varint count.toUInt64

/-- A field: its header and its value. -/
def field (tag : UInt32) (kind : Kind) (value : List UInt8) : List UInt8 := header tag kind ++ value

/-- An object of fields. -/
def object (fields : List (List UInt8)) : List UInt8 := fields.flatten ++ endMark

/-- An array of values of one kind. -/
def array (kind : Kind) (values : List (List UInt8)) : List UInt8 :=
  arrayStart kind values.length ++ values.flatten ++ endMark

end Missive.Wire
