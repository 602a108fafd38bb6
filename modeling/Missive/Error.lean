import Missive.Json.Basic
import Missive.Number.Shortest
import Missive.Scalar
import Missive.Text.Quoted
import Missive.Text.Utf8
import Missive.Wire.Kind

/-!
# Missive.Error

Why a payload cannot be read, or a property not be set.

Each constructor is a cause; `ReadError.message` is the one place that words it.  Causes inside
JSON, base64 and XML text are not told apart further.
-/

namespace Missive

/-- What is wrong with a binary payload. -/
inductive WireFault where
  | varintOverflow
  | pastArrayEnd
  | missingHeader
  | kindMismatch (expected found : Wire.Kind)
  | objectEndOutside
  | unknownElementKind (code : UInt8)
  | arrayEndOutside
  | arrayEndExpected (found : UInt8)
  | headerOutside
  | unknownKind (code : Nat)
  | tagOutOfRange (tag : Nat)
  | topLevelSkip
  | text (fault : Utf8Fault)
  deriving Repr, DecidableEq

/-- What a JSON value was expected to be. -/
inductive JsonExpectation where
  | object
  | array
  | bool
  | integer
  | unsignedInteger
  | number
  | string
  | base64
  deriving Repr, DecidableEq

/-- What is wrong with a JSON payload. -/
inductive JsonFault where
  | expected (wanted : JsonExpectation) (found : JsonKind)
  | notNumeric (text : String)
  | pastArrayEnd
  | pastObjectEnd
  | missingName
  | nothingLeft
  | nameOutside
  | objectEndOutside
  | arrayEndOutside
  | tooWide (n : Int)
  deriving Repr, DecidableEq

/-- Why a payload cannot be read, or a property not be set. -/
inductive ReadError where
  | wire (fault : WireFault)
  | unexpectedEnd
  | json (fault : JsonFault)
  | jsonText
  | base64
  | xmlValue (text property : String)
  | xmlText
  | duplicateKey (property key : String)
  | unknownProperty (name : String)
  /-- `expected` is the type of a scalar property, absent for any other property. -/
  | typeMismatch (property : String) (expected : Option ScalarType)
  | missingDiscriminator
  deriving Repr, DecidableEq

/-- The wording of a fault in UTF-8. -/
def Utf8Fault.message : Utf8Fault → String
  | .incomplete start => s!"incomplete utf-8 byte sequence from index {decimalText start}"
  | .invalid start length =>
    s!"invalid utf-8 sequence of {decimalText length} bytes from index {decimalText start}"

/-- A byte in hexadecimal, two digits after `0x`. -/
def byteText (b : UInt8) : String := "0x" ++ Text.hexPadded 2 b.toNat

/-- The wording of a fault in a binary payload. -/
def WireFault.message : WireFault → String
  | .varintOverflow => "varint overflows 64 bits"
  | .pastArrayEnd => "read past the end of an array"
  | .missingHeader => "value read without a field header"
  | .kindMismatch expected found => s!"expected {expected.title} value, found {found.title}"
  | .objectEndOutside => "end of object outside of an object"
  | .unknownElementKind code => s!"unknown array element kind {decimalText code.toNat}"
  | .arrayEndOutside => "end of array outside of an array"
  | .arrayEndExpected found => s!"expected end of array, found {byteText found}"
  | .headerOutside => "field header outside of an object"
  | .unknownKind code => s!"unknown value kind {decimalText code}"
  | .tagOutOfRange tag => s!"field tag {decimalText tag} out of range"
  | .topLevelSkip => "cannot skip the top-level value"
  | .text fault => s!"invalid UTF-8 in string: {fault.message}"

/-- The phrase for a kind of JSON value. -/
def JsonKind.phrase : JsonKind → String
  | .null => "null"
  | .bool => "a boolean"
  | .number => "a number"
  | .string => "a string"
  | .array => "an array"
  | .object => "an object"

/-- The phrase for what was expected. -/
def JsonExpectation.phrase : JsonExpectation → String
  | .object => "an object"
  | .array => "an array"
  | .bool => "a boolean"
  | .integer => "an integer"
  | .unsignedInteger => "an unsigned integer"
  | .number => "a number"
  | .string => "a string"
  | .base64 => "a base64 string"

/-- The wording of a fault in a JSON payload. -/
def JsonFault.message : JsonFault → String
  | .expected wanted found => s!"expected {wanted.phrase}, found {found.phrase}"
  | .notNumeric text => s!"expected a number, found string {Text.quoted text}"
  | .pastArrayEnd => "read past the end of an array"
  | .pastObjectEnd => "read past the end of an object"
  | .missingName => "value read without a property name"
  | .nothingLeft => "no value left to read"
  | .nameOutside => "property name read outside of an object"
  | .objectEndOutside => "end of object outside of an object"
  | .arrayEndOutside => "end of array outside of an array"
  | .tooWide n => s!"{integerText n} does not fit in 32 bits"

/-- The wording of an error; `none` where only its kind is told. -/
def ReadError.message : ReadError → Option String
  | .wire fault => some s!"malformed binary payload: {fault.message}"
  | .unexpectedEnd => some "unexpected end of binary payload"
  | .json fault => some s!"malformed JSON payload: {fault.message}"
  | .jsonText => none
  | .base64 => none
  | .xmlValue text property =>
    some s!"malformed XML payload: invalid value {Text.quoted text} for `{property}`"
  | .xmlText => none
  | .duplicateKey property key => some s!"duplicate key {key} in map `{property}`"
  | .unknownProperty name => some s!"unknown property `{name}`"
  | .typeMismatch property expected =>
    expected.map fun type => s!"property `{property}` expects {type.label}"
  | .missingDiscriminator => some "polymorphic object is missing its type discriminator"

end Missive
