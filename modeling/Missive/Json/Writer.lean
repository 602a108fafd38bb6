import Missive.Json.Basic
import Missive.Text.Base64

/-!
# Missive.Json.Writer

A stream writer for JSON: names, values, and the beginnings and ends of containers, in order.

The writer never fails.  A value without a name inside an object takes the empty name, and a
container that is ended as the other kind is dropped.
-/

namespace Missive.Json

/-- The value of a floating-point number.  Numbers that JSON cannot write are named in a text. -/
def ofDouble (x : Double) : Json :=
  if finite : x.isFinite then .number (.real x finite)
  else match x.datum with
    | .infinite false => .string "Infinity"
    | .infinite true => .string "-Infinity"
    | _ => .string "NaN"

/-- The value of a byte sequence: base64 text. -/
def ofBytes (bytes : List UInt8) : Json := .string (Base64.encodeText bytes)

namespace Writer

/-- A container under construction. -/
inductive Frame where
  | object (name : Option String) (members : List (String × Json))
  | array (name : Option String) (items : List Json)

end Writer

/-- The state of a writer: the open containers, innermost first, the name given to the next value,
and the outermost value once it is complete. -/
structure Writer where
  frames : List Writer.Frame := []
  pending : Option String := none
  result : Option Json := none

namespace Writer

/-- A writer with nothing written. -/
def empty : Writer := {}

/-- Put a value with a name into the innermost container. -/
def put (name : Option String) (value : Json) (w : Writer) : Writer :=
  match w.frames with
  | .object own members :: frames =>
    { w with frames := .object own (setMember (name.getD "") value members) :: frames }
  | .array own items :: frames => { w with frames := .array own (items ++ [value]) :: frames }
  | [] => { w with result := some value }

/-- Name the next value. -/
def name (name : String) (w : Writer) : Writer := { w with pending := some name }

/-- Write a value. -/
def value (value : Json) (w : Writer) : Writer :=
  { w with pending := none }.put w.pending value

def beginObject (w : Writer) : Writer :=
  { w with pending := none, frames := .object w.pending [] :: w.frames }

def endObject (w : Writer) : Writer :=
  match w.frames with
  | .object own members :: frames => { w with frames }.put own (.object members)
  | _ :: frames => { w with frames }
  | [] => w

def beginArray (w : Writer) : Writer :=
  { w with pending := none, frames := .array w.pending [] :: w.frames }

def endArray (w : Writer) : Writer :=
  match w.frames with
  | .array own items :: frames => { w with frames }.put own (.array items)
  | _ :: frames => { w with frames }
  | [] => w

/-- The value written; `null` before it is complete. -/
def toJson (w : Writer) : Json := w.result.getD .null

end Writer

end Missive.Json
