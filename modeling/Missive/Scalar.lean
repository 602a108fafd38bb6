import Missive.Number.Double

/-!
# Missive.Scalar

Single values without structure: truth values, whole numbers of two widths, floating-point numbers
of two widths, texts and byte sequences.
-/

namespace Missive

/-- The types of scalars. -/
inductive ScalarType where
  | bool
  | int
  | uint
  | long
  | ulong
  | float
  | double
  | string
  | bytes
  deriving Repr, DecidableEq

/-- A scalar. -/
inductive Scalar where
  | bool (b : Bool)
  | int (n : Int32)
  | uint (n : UInt32)
  | long (n : Int64)
  | ulong (n : UInt64)
  | float (x : Single)
  | double (x : Double)
  | string (s : String)
  | bytes (bs : List UInt8)
  deriving DecidableEq

instance : Inhabited Scalar := ⟨.bool false⟩

namespace ScalarType

/-- All types of scalars. -/
def all : List ScalarType :=
  [.bool, .int, .uint, .long, .ulong, .float, .double, .string, .bytes]

/-- The word for a type in diagnostics. -/
def label : ScalarType → String
  | .bool => "bool"
  | .int => "int"
  | .uint => "uint"
  | .long => "long"
  | .ulong => "ulong"
  | .float => "float"
  | .double => "double"
  | .string => "string"
  | .bytes => "bytes"

/-- The type of a word. -/
def ofLabel? (word : String) : Option ScalarType := all.find? (·.label == word)

/-- The value that a type starts with. -/
def zero : ScalarType → Scalar
  | .bool => .bool false
  | .int => .int 0
  | .uint => .uint 0
  | .long => .long 0
  | .ulong => .ulong 0
  | .float => .float .zero
  | .double => .double .zero
  | .string => .string ""
  | .bytes => .bytes []

end ScalarType

namespace Scalar

/-- The type of a scalar. -/
def type : Scalar → ScalarType
  | .bool _ => .bool
  | .int _ => .int
  | .uint _ => .uint
  | .long _ => .long
  | .ulong _ => .ulong
  | .float _ => .float
  | .double _ => .double
  | .string _ => .string
  | .bytes _ => .bytes

/-- Equality of values: floating-point numbers are compared as numbers, not as patterns. -/
def same : Scalar → Scalar → Bool
  | .float x, .float y => x.same y
  | .double x, .double y => x.same y
  | s, t => s == t

end Scalar

end Missive
