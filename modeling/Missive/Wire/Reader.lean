import Missive.Reading
import Missive.Wire.Encoding

/-!
# Missive.Wire.Reader

A stream reader for the binary format.

The reader holds the unread bytes, the kind that the last field header announced, and the open
containers, innermost first.  A call that fails leaves the reader where the failure was found, so
that calls after it are defined as well.

`skipValue`, `endObject` and `endArray` walk values of unknown shape.  A value inside a value lies
after at least one more byte, so the number of unread bytes bounds both the nesting and the number
of steps of a loop.
-/

namespace Missive.Wire

/-- An open container. -/
inductive Frame where
  | object
  /-- An array of which `remaining` elements are unread. -/
  | array (kind : Kind) (remaining : Nat)
  deriving Repr, DecidableEq

/-- The state of a reader. -/
structure Reader where
  rest : List UInt8
  pending : Option Kind := none
  frames : List Frame := []
  deriving DecidableEq

/-- A step of reading: a result or an error, and the reader it leaves. -/
abbrev Read := EStateM ReadError Reader

namespace Reader

/-- A reader at the beginning of a payload. -/
def ofBytes (bytes : List UInt8) : Reader := { rest := bytes }

/-- Whether every byte has been read. -/
def isFinished (r : Reader) : Bool := r.rest.isEmpty

end Reader

namespace Read

/-- Fail with a fault of the payload. -/
def fault {α : Type} (f : WireFault) : Read α := throw (.wire f)

/-! ## bytes -/

def byte : Read UInt8 := fun r =>
  match r.rest with
  | [] => .error .unexpectedEnd r
  | b :: rest => .ok b { r with rest }

def peekByte : Read UInt8 := fun r =>
  match r.rest with
  | [] => .error .unexpectedEnd r
  | b :: _ => .ok b r

/-- The next `count` bytes. -/
def take (count : Nat) : Read (List UInt8) := fun r =>
  if count ≤ r.rest.length then .ok (r.rest.take count) { r with rest := r.rest.drop count }
  else .error .unexpectedEnd r

/-- The groups of a variable-length integer from the bit `shift` on, added to `value`; the rest of
the bytes comes with the result.  The tenth group may only carry the top bit. -/
def varintFrom (shift value : Nat) : List UInt8 → EStateM.Result ReadError (List UInt8) Nat
  | [] => .error .unexpectedEnd []
  | b :: rest =>
    if shift == 63 && 1 < b then .error (.wire .varintOverflow) rest
    else if b < 128 then .ok (value + (b.toNat <<< shift)) rest
    else varintFrom (shift + 7) (value + ((b.toNat - 128) <<< shift)) rest

/-- A variable-length integer. -/
def varint : Read UInt64 := fun r =>
  match varintFrom 0 0 r.rest with
  | .ok n rest => .ok n.toUInt64 { r with rest }
  | .error e rest => .error e { r with rest }

/-- A byte sequence after its length. -/
def lengthPrefixed : Read (List UInt8) := do
  let length ← varint
  take length.toNat

/-- A little-endian number of `count` bytes. -/
def fixed (count : Nat) : Read Nat := do
  return ofLittleEndian (← take count)

/-! ## headers and containers -/

/-- The kind of the value about to be read; `none` for the outermost value. -/
def valueKind : Read (Option Kind) := fun r =>
  match r.pending with
  | some kind => .ok (some kind) { r with pending := none }
  | none =>
    match r.frames with
    | .array kind remaining :: frames =>
      if remaining == 0 then .error (.wire .pastArrayEnd) r
      else .ok (some kind) { r with frames := .array kind (remaining - 1) :: frames }
    | .object :: _ => .error (.wire .missingHeader) r
    | [] => .ok none r

/-- The value about to be read must have a kind. -/
def expect (kind : Kind) : Read Unit := do
  match ← valueKind with
  | some found => if found == kind then return () else fault (.kindMismatch kind found)
  | none => return ()

def pushFrame (frame : Frame) : Read Unit :=
  modify fun r => { r with frames := frame :: r.frames }

def popFrame : Read Unit :=
  modify fun r => { r with frames := r.frames.tail }

/-- Whether the current container has another field or element. -/
def hasNext : Read Bool := do
  match (← get).frames with
  | .object :: _ => return (← peekByte) != 0
  | .array _ remaining :: _ => return 0 < remaining
  | [] => return false

/-- The tag of the next field; its kind is kept for the value. -/
def nextName : Read UInt32 := do
  match (← get).frames with
  | .object :: _ =>
    let header := (← varint).toNat
    match Kind.ofCode? (header % 16) with
    | none => fault (.unknownKind (header % 16))
    | some kind =>
      if UInt32.size ≤ header / 16 then fault (.tagOutOfRange (header / 16))
      else
        modify fun r => { r with pending := some kind }
        return (header / 16).toUInt32
  | _ => fault .headerOutside

def beginObject : Read Unit := do
  expect .object
  pushFrame .object

/-- The element kind and the count of an array. -/
def openArray : Read Unit := do
  let code ← byte
  match Kind.ofCode? code.toNat with
  | none => fault (.unknownElementKind code)
  | some kind =>
    let count ← varint
    pushFrame (.array kind count.toNat)

def beginArray : Read Unit := do
  expect .array
  openArray

/-- Repeat a step on a value while the current container has more.  Every step reads at least one
byte. -/
def whileNext {α : Type} (step : α → Read α) (a : α) : Read α := do
  repeatNext hasNext step ((← get).rest.length + 1) a

/-! ## skipping -/

/-- Leave an object, skipping the fields that are unread. -/
def closeObject (skip : Read Unit) : Read Unit := do
  whileNext (fun _ => do let _ ← nextName; skip) ()
  popFrame
  let _ ← byte

/-- Leave an array, skipping the elements that are unread. -/
def closeArray (skip : Read Unit) : Read Unit := do
  whileNext (fun _ => skip) ()
  popFrame
  let mark ← byte
  if mark == 0 then return () else fault (.arrayEndExpected mark)

/-- Skip the next value, of at most `depth` nested values. -/
def skipNested : Nat → Read Unit
  | 0 => throw .unexpectedEnd
  | depth + 1 => do
    match ← valueKind with
    | none => fault .topLevelSkip
    | some .int | some .sint | some .long | some .slong => let _ ← varint
    | some .fint | some .float => let _ ← take 4
    | some .flong | some .double => let _ ← take 8
    | some .string | some .binary => let _ ← lengthPrefixed
    | some .object =>
      pushFrame .object
      closeObject (skipNested depth)
    | some .array =>
      openArray
      closeArray (skipNested depth)

/-- Skip the next value, whatever its kind. -/
def skipValue : Read Unit := do
  skipNested ((← get).rest.length + 1)

/-- Skip the unread fields of the current object. -/
def skipRemaining : Read Unit :=
  whileNext (fun _ => do let _ ← nextName; skipValue) ()

/-- Leave the current object, skipping the fields that are unread. -/
def endObject : Read Unit := do
  match (← get).frames with
  | .object :: _ => closeObject skipValue
  | _ => fault .objectEndOutside

/-- Leave the current array, skipping the elements that are unread. -/
def endArray : Read Unit := do
  match (← get).frames with
  | .array .. :: _ => closeArray skipValue
  | _ => fault .arrayEndOutside

/-! ## values -/

def bool : Read Bool := do
  expect .int
  return (← varint) != 0

def int : Read Int32 := do
  expect .int
  return (← varint).toUInt32.toInt32

def uint : Read UInt32 := do
  expect .int
  return (← varint).toUInt32

def sint : Read Int32 := do
  expect .sint
  return .ofInt (unzigzag (← varint).toUInt32.toNat)

def fixedInt : Read UInt32 := do
  expect .fint
  return (← fixed 4).toUInt32

def sfixedInt : Read Int32 := do
  expect .fint
  return (← fixed 4).toUInt32.toInt32

def long : Read Int64 := do
  expect .long
  return (← varint).toInt64

def ulong : Read UInt64 := do
  expect .long
  varint

def slong : Read Int64 := do
  expect .slong
  return .ofInt (unzigzag (← varint).toNat)

def fixedLong : Read UInt64 := do
  expect .flong
  return (← fixed 8).toUInt64

def sfixedLong : Read Int64 := do
  expect .flong
  return (← fixed 8).toUInt64.toInt64

def float : Read Single := do
  expect .float
  return ⟨(← fixed 4).toUInt32⟩

def double : Read Double := do
  expect .double
  return ⟨(← fixed 8).toUInt64⟩

/-- A text; bytes that are not UTF-8 are a fault. -/
def string : Read String := do
  expect .string
  let bytes ← lengthPrefixed
  match Utf8.decode? bytes with
  | some s => return s
  | none => fault (.text ((Utf8.fault? bytes).getD (.incomplete bytes.length)))

def binary : Read (List UInt8) := do
  expect .binary
  lengthPrefixed

/-- The type discriminator that opens an object of a family. -/
def typeId : Read UInt32 := do
  if ← hasNext then
    if (← nextName) == 0 then uint else throw .missingDiscriminator
  else throw .missingDiscriminator

end Read

end Missive.Wire
