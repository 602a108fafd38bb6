/-!
# Missive.Wire.Kind

The kinds of values on the wire.  A kind travels in four bits of every field header and in the
first byte of every array, so that a reader can skip values it does not know.
-/

namespace Missive.Wire

/-- The kind of a value on the wire. -/
inductive Kind where
  /-- A variable-length integer of 32 bits. -/
  | int
  /-- A variable-length integer of 32 bits, small in magnitude. -/
  | sint
  /-- Four bytes. -/
  | fint
  /-- A variable-length integer of 64 bits. -/
  | long
  /-- A variable-length integer of 64 bits, small in magnitude. -/
  | slong
  /-- Eight bytes. -/
  | flong
  | float
  | double
  | string
  | binary
  | object
  | array
  deriving Repr, DecidableEq

namespace Kind

/-- The code of a kind. -/
def code : Kind → UInt8
  | .int => 1
  | .sint => 2
  | .fint => 3
  | .long => 4
  | .slong => 5
  | .flong => 6
  | .float => 7
  | .double => 8
  | .string => 9
  | .binary => 10
  | .object => 11
  | .array => 12

/-- The kind of a code. -/
def ofCode? : Nat → Option Kind
  | 1 => some .int
  | 2 => some .sint
  | 3 => some .fint
  | 4 => some .long
  | 5 => some .slong
  | 6 => some .flong
  | 7 => some .float
  | 8 => some .double
  | 9 => some .string
  | 10 => some .binary
  | 11 => some .object
  | 12 => some .array
  | _ => none

/-- The capitalised name of a kind. -/
def title : Kind → String
  | .int => "Int"
  | .sint => "Sint"
  | .fint => "Fint"
  | .long => "Long"
  | .slong => "Slong"
  | .flong => "Flong"
  | .float => "Float"
  | .double => "Double"
  | .string => "String"
  | .binary => "Binary"
  | .object => "Object"
  | .array => "Array"

/-- The word for a kind in descriptions. -/
def label : Kind → String
  | .int => "int"
  | .sint => "sint"
  | .fint => "fint"
  | .long => "long"
  | .slong => "slong"
  | .flong => "flong"
  | .float => "float"
  | .double => "double"
  | .string => "string"
  | .binary => "binary"
  | .object => "object"
  | .array => "array"

@[simp] theorem ofCode?_code (k : Kind) : ofCode? k.code.toNat = some k := by
  cases k <;> rfl

end Kind

end Missive.Wire
