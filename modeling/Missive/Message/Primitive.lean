import Missive.Json.Reader
import Missive.Json.Writer
import Missive.Schema.Basic
import Missive.Wire.Reader
import Missive.Wire.Writer

/-!
# Missive.Message.Primitive

Primitive values on the wire and in JSON.

A primitive type fixes the scalars that it has and the bytes that they are; in JSON only the type
of the scalar counts.
-/

namespace Missive

/-! ## on the wire -/

/-- The bytes of a primitive value. -/
def Primitive.encode : Primitive → Scalar → List UInt8
  | .bool, .bool b => Wire.bool b
  | .int32, .int n => Wire.int n
  | .uint32, .uint n => Wire.uint n
  | .sint32, .int n => Wire.sint n
  | .fixed32, .uint n => Wire.fixedInt n
  | .sfixed32, .int n => Wire.sfixedInt n
  | .int64, .long n => Wire.long n
  | .uint64, .ulong n => Wire.ulong n
  | .sint64, .long n => Wire.slong n
  | .fixed64, .ulong n => Wire.fixedLong n
  | .sfixed64, .long n => Wire.sfixedLong n
  | .float, .float x => Wire.float x
  | .double, .double x => Wire.double x
  | .string, .string s => Wire.string s
  | .bytes, .bytes bs => Wire.binary bs
  | _, _ => []

/-- Write a primitive value to a stream. -/
def Primitive.write : Primitive → Scalar → Wire.Writer → Wire.Writer
  | .bool, .bool b, w => w.bool b
  | .int32, .int n, w => w.int n
  | .uint32, .uint n, w => w.uint n
  | .sint32, .int n, w => w.sint n
  | .fixed32, .uint n, w => w.fixedInt n
  | .sfixed32, .int n, w => w.sfixedInt n
  | .int64, .long n, w => w.long n
  | .uint64, .ulong n, w => w.ulong n
  | .sint64, .long n, w => w.slong n
  | .fixed64, .ulong n, w => w.fixedLong n
  | .sfixed64, .long n, w => w.sfixedLong n
  | .float, .float x, w => w.float x
  | .double, .double x, w => w.double x
  | .string, .string s, w => w.string s
  | .bytes, .bytes bs, w => w.binary bs
  | _, _, w => w

/-- Read a primitive value. -/
def Primitive.read : Primitive → Wire.Read Scalar
  | .bool => .bool <$> Wire.Read.bool
  | .int32 => .int <$> Wire.Read.int
  | .uint32 => .uint <$> Wire.Read.uint
  | .sint32 => .int <$> Wire.Read.sint
  | .fixed32 => .uint <$> Wire.Read.fixedInt
  | .sfixed32 => .int <$> Wire.Read.sfixedInt
  | .int64 => .long <$> Wire.Read.long
  | .uint64 => .ulong <$> Wire.Read.ulong
  | .sint64 => .long <$> Wire.Read.slong
  | .fixed64 => .ulong <$> Wire.Read.fixedLong
  | .sfixed64 => .long <$> Wire.Read.sfixedLong
  | .float => .float <$> Wire.Read.float
  | .double => .double <$> Wire.Read.double
  | .string => .string <$> Wire.Read.string
  | .bytes => .bytes <$> Wire.Read.binary

/-! ## in JSON -/

/-- The JSON value of a scalar. -/
def Scalar.toJson : Scalar → Json
  | .bool b => .bool b
  | .int n => .ofInt n.toInt
  | .uint n => .ofNat n.toNat
  | .long n => .ofInt n.toInt
  | .ulong n => .ofNat n.toNat
  | .float x => .ofDouble x.widen
  | .double x => .ofDouble x
  | .string s => .string s
  | .bytes bs => .ofBytes bs

/-- Read a scalar of a type. -/
def ScalarType.readJson : ScalarType → Json.Read Scalar
  | .bool => .bool <$> Json.Read.bool
  | .int => .int <$> Json.Read.int
  | .uint => .uint <$> Json.Read.uint
  | .long => .long <$> Json.Read.long
  | .ulong => .ulong <$> Json.Read.ulong
  | .float => .float <$> Json.Read.float
  | .double => .double <$> Json.Read.double
  | .string => .string <$> Json.Read.string
  | .bytes => .bytes <$> Json.Read.binary

end Missive
