import Missive.Error
import Missive.Number.Reading
import Missive.Text.Base64
import Missive.Text.Blank
import Missive.Text.Lines

/-!
# Missive.Xml.Value

Scalars in attribute values and element texts.
-/

namespace Missive.Xml

open Text

/-- A truth value. -/
def readBool? (text : String) : Option Bool :=
  if text == "true" then some true else if text == "false" then some false else none

/-- The scalar of a type that a text without white space around it writes. -/
def readScalar? (type : ScalarType) (text : String) : Option Scalar :=
  let chars := text.toList
  match type with
  | .bool => (readBool? text).map .bool
  | .int => (readInt? (Int32.size / 2) chars).map fun n => .int (.ofInt n)
  | .uint => (readNat? UInt32.size chars).map fun n => .uint n.toUInt32
  | .long => (readInt? (Int64.size / 2) chars).map fun n => .long (.ofInt n)
  | .ulong => (readNat? UInt64.size chars).map fun n => .ulong n.toUInt64
  | .float => (Single.read? chars).map .float
  | .double => (Double.read? chars).map .double
  | .string => some (.string text)
  | .bytes => (Base64.decodeText? text).map .bytes

/-- A scalar from the text for a property.  White space around it is left out, except that a text
is taken as it is. -/
def scalar (type : ScalarType) (text property : String) : Except ReadError Scalar :=
  match type with
  | .string => .ok (.string text)
  | .bytes =>
    match readScalar? .bytes (trimmed text) with
    | some s => .ok s
    | none => .error .base64
  | _ =>
    match readScalar? type (trimmed text) with
    | some s => .ok s
    | none => .error (.xmlValue text property)

/-- Scalars from a comma-separated list. -/
def scalarList (type : ScalarType) (text property : String) : Except ReadError (List Scalar) :=
  (listItems text).mapM fun item => scalar type item property

end Missive.Xml
