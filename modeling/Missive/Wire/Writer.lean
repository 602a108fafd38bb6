import Missive.Wire.Encoding

/-!
# Missive.Wire.Writer

A stream writer for the binary format.

`name` sets the tag of the next value.  Every value, and the beginning of every container, writes
the header for the tag that is set and forgets it; without a tag it writes no header, as for the
elements of an array and for the outermost value.
-/

namespace Missive.Wire

/-- The bytes written so far, and the tag set for the next value. -/
structure Writer where
  bytes : List UInt8 := []
  pending : Option UInt32 := none
  deriving DecidableEq

namespace Writer

/-- Set the tag of the next value. -/
def name (tag : UInt32) (w : Writer) : Writer := { w with pending := some tag }

/-- The header that the next value of a kind gets. -/
def headerFor (kind : Kind) (w : Writer) : List UInt8 :=
  match w.pending with
  | some tag => header tag kind
  | none => []

/-- Write a value of a kind, after its header. -/
def put (kind : Kind) (value : List UInt8) (w : Writer) : Writer :=
  { bytes := w.bytes ++ w.headerFor kind ++ value, pending := none }

/-- Write an end mark; a tag that is set stays set. -/
def finish (w : Writer) : Writer := { w with bytes := w.bytes ++ endMark }

def beginObject (w : Writer) : Writer := w.put .object []

def endObject (w : Writer) : Writer := w.finish

def beginArray (kind : Kind) (count : Nat) (w : Writer) : Writer :=
  w.put .array (arrayStart kind count)

def endArray (w : Writer) : Writer := w.finish

def bool (b : Bool) (w : Writer) : Writer := w.put .int (Wire.bool b)

def int (n : Int32) (w : Writer) : Writer := w.put .int (Wire.int n)

def uint (n : UInt32) (w : Writer) : Writer := w.put .int (Wire.uint n)

def sint (n : Int32) (w : Writer) : Writer := w.put .sint (Wire.sint n)

def fixedInt (n : UInt32) (w : Writer) : Writer := w.put .fint (Wire.fixedInt n)

def sfixedInt (n : Int32) (w : Writer) : Writer := w.put .fint (Wire.sfixedInt n)

def long (n : Int64) (w : Writer) : Writer := w.put .long (Wire.long n)

def ulong (n : UInt64) (w : Writer) : Writer := w.put .long (Wire.ulong n)

def slong (n : Int64) (w : Writer) : Writer := w.put .slong (Wire.slong n)

def fixedLong (n : UInt64) (w : Writer) : Writer := w.put .flong (Wire.fixedLong n)

def sfixedLong (n : Int64) (w : Writer) : Writer := w.put .flong (Wire.sfixedLong n)

def float (x : Single) (w : Writer) : Writer := w.put .float (Wire.float x)

def double (x : Double) (w : Writer) : Writer := w.put .double (Wire.double x)

def string (s : String) (w : Writer) : Writer := w.put .string (Wire.string s)

def binary (bytes : List UInt8) (w : Writer) : Writer := w.put .binary (Wire.binary bytes)

end Writer

end Missive.Wire
