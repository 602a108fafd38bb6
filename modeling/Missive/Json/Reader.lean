import Missive.Reading
import Missive.Text.Base64

/-!
# Missive.Json.Reader

A stream reader for JSON values, with the calls of the reader for the binary format.

The reader holds the value that the last name announced and the unread parts of the open
containers, innermost first.  A call that fails leaves the reader where the failure was found.
-/

namespace Missive.Json

namespace Reader

/-- The unread part of an open container. -/
inductive Frame where
  | object (members : List (String × Json))
  | array (items : List Json)

end Reader

/-- The state of a reader. -/
structure Reader where
  pending : Option Json := none
  frames : List Reader.Frame := []

/-- A step of reading: a result or an error, and the reader it leaves. -/
abbrev Read := EStateM ReadError Reader

namespace Reader

/-- A reader in front of a value. -/
def ofJson (value : Json) : Reader := { pending := some value }

end Reader

namespace Read

/-- Fail with a fault of the payload. -/
def fault {α : Type} (f : JsonFault) : Read α := throw (.json f)

/-- Fail on a value of the wrong kind. -/
def mismatch {α : Type} (wanted : JsonExpectation) (found : Json) : Read α :=
  fault (.expected wanted found.kind)

/-- The next value, whatever it is. -/
def next : Read Json := fun r =>
  match r.pending with
  | some value => .ok value { r with pending := none }
  | none =>
    match r.frames with
    | .array (item :: items) :: frames => .ok item { r with frames := .array items :: frames }
    | .array [] :: _ => .error (.json .pastArrayEnd) r
    | .object _ :: _ => .error (.json .missingName) r
    | [] => .error (.json .nothingLeft) r

/-- Whether the current container has another property or element. -/
def hasNext : Read Bool := do
  match (← get).frames with
  | .object members :: _ => return !members.isEmpty
  | .array items :: _ => return !items.isEmpty
  | [] => return false

/-- Whether the next value is `null`. -/
def peekNull : Read Bool := do
  let r ← get
  match r.pending with
  | some value => return value.isNull
  | none =>
    match r.frames with
    | .array (item :: _) :: _ => return item.isNull
    | _ => return false

/-- Skip the next value. -/
def skipValue : Read Unit := do
  let _ ← next

/-- Read the next value with `read`, or nothing if it is `null`. -/
def nullable {α : Type} (read : Read α) : Read (Option α) := do
  if ← peekNull then
    skipValue
    return none
  else return some (← read)

/-- The name of the next property; its value is kept. -/
def nextName : Read String := fun r =>
  match r.frames with
  | .object ((name, value) :: members) :: frames =>
    .ok name { pending := some value, frames := .object members :: frames }
  | .object [] :: _ => .error (.json .pastObjectEnd) r
  | _ => .error (.json .nameOutside) r

def pushFrame (frame : Reader.Frame) : Read Unit :=
  modify fun r => { r with frames := frame :: r.frames }

def popFrame : Read Unit :=
  modify fun r => { r with frames := r.frames.tail }

def beginObject : Read Unit := do
  match ← next with
  | .object members => pushFrame (.object members)
  | found => mismatch .object found

/-- Leave the current container, which must be an object; unread properties are dropped. -/
def endObject : Read Unit := do
  let frames := (← get).frames
  popFrame
  match frames with
  | .object _ :: _ => return ()
  | _ => fault .objectEndOutside

def beginArray : Read Unit := do
  match ← next with
  | .array items => pushFrame (.array items)
  | found => mismatch .array found

/-- Leave the current container, which must be an array; unread elements are dropped. -/
def endArray : Read Unit := do
  let frames := (← get).frames
  popFrame
  match frames with
  | .array _ :: _ => return ()
  | _ => fault .arrayEndOutside

/-- How many entries the current container has left. -/
def remaining : Read Nat := do
  match (← get).frames with
  | .object members :: _ => return members.length
  | .array items :: _ => return items.length
  | [] => return 0

/-- Repeat a step on a value while the current container has more.  Every step takes an entry. -/
def whileNext {α : Type} (step : α → Read α) (a : α) : Read α := do
  repeatNext hasNext step ((← remaining) + 1) a

/-! ## values -/

def bool : Read Bool := do
  match ← next with
  | .bool b => return b
  | found => mismatch .bool found

/-- A whole number in a range. -/
def whole (wanted : JsonExpectation) (least limit : Int) : Read Int := do
  let found ← next
  match found with
  | .number n =>
    match n.toIntIn? least limit with
    | some i => return i
    | none => mismatch wanted found
  | _ => mismatch wanted found

def long : Read Int64 := do
  return .ofInt (← whole .integer (-(Int64.size / 2)) (Int64.size / 2))

def ulong : Read UInt64 := do
  return (← whole .unsignedInteger 0 UInt64.size).toNat.toUInt64

def int : Read Int32 := do
  let n := (← long).toInt
  if -(Int32.size / 2) ≤ n && n < Int32.size / 2 then return .ofInt n else fault (.tooWide n)

def uint : Read UInt32 := do
  let n := (← ulong).toNat
  if n < UInt32.size then return n.toUInt32 else fault (.tooWide n)

/-- A number, or the name of one that JSON cannot write. -/
def double : Read Double := do
  match ← next with
  | .number n => return n.toDouble
  | .string s =>
    if s == "NaN" then return .nan false
    else if s == "Infinity" then return .infinity false
    else if s == "-Infinity" then return .infinity true
    else fault (.notNumeric s)
  | found => mismatch .number found

def float : Read Single := do
  return (← double).narrow

/-- A text; `null` is the empty one. -/
def string : Read String := do
  match ← next with
  | .string s => return s
  | .null => return ""
  | found => mismatch .string found

/-- A byte sequence in base64; `null` is the empty one. -/
def binary : Read (List UInt8) := do
  match ← next with
  | .string s =>
    match Base64.decodeText? s with
    | some bytes => return bytes
    | none => throw .base64
  | .null => return []
  | found => mismatch .base64 found

end Read

end Missive.Json
