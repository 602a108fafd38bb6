import Missive.Model.Plan
import Missive.Proofs.Wire.Session

/-!
# Missive.Proofs.Wire.Machine

The binary reader on a machine.

The reader of `Missive.Wire.Reader` holds the bytes that are left, and its numbers have no bounds.
On a machine it holds all bytes and a position, and sizes are words.  There a program is stopped
in the middle of a step if it takes a part of the bytes that is not there, shifts a word by its
width or more, or counts below zero or past the last word.  Loops follow whatever counts and
nesting the bytes claim, until a clock runs out.
-/

namespace Missive.Wire

/-- What a machine stops a program for. -/
inductive Panic where
  /-- A part of the bytes that is not there. -/
  | slice
  /-- A copy to a place of another size. -/
  | copy
  /-- A shift by the width of a word or more. -/
  | shift
  | underflow
  | overflow

/-- Why nothing comes of a step. -/
inductive Halt where
  | panic (cause : Panic)
  /-- The clock has run out. -/
  | timeout

/-- The state of a reader: all bytes, and the position of the next one. -/
structure Cursor where
  data : List UInt8
  position : Nat := 0
  pending : Option Kind := none
  frames : List Frame := []

/-- A step of reading: a result or an error, and the state it leaves, unless it is stopped. -/
def Machine (α : Type) : Type := Cursor → Except Halt (EStateM.Result ReadError Cursor α)

instance : Monad Machine where
  pure a := fun k => .ok (.ok a k)
  bind q g := fun k =>
    match q k with
    | .ok (.ok a k') => g a k'
    | .ok (.error e k') => .ok (.error e k')
    | .error halt => .error halt

namespace Machine

def timeout {α : Type} : Machine α := fun _ => .error .timeout

def stop {α : Type} (cause : Panic) : Machine α := fun _ => .error (.panic cause)

def fail {α : Type} (e : ReadError) : Machine α := fun k => .ok (.error e k)

/-- Fail with a fault of the payload. -/
def fault {α : Type} (f : WireFault) : Machine α := fail (.wire f)

def cursor : Machine Cursor := fun k => .ok (.ok k k)

def change (g : Cursor → Cursor) : Machine Unit := fun k => .ok (.ok () (g k))

/-! ## words -/

/-- The sum of two sizes, if it is a size. -/
def checkedAdd (a b : Nat) : Option Nat := if a + b < UInt64.size then some (a + b) else none

def add (a b : Nat) : Machine Nat :=
  match checkedAdd a b with
  | some n => return n
  | none => stop .overflow

def subtract (a b : Nat) : Machine Nat := if b ≤ a then return a - b else stop .underflow

def shiftLeft (n : UInt64) (amount : Nat) : Machine UInt64 :=
  if amount < 64 then return n <<< amount.toUInt64 else stop .shift

/-- The lowest number of 32 bits has no negative. -/
def negateInt (n : Int32) : Machine Int32 := if n = .minValue then stop .overflow else return -n

/-- The lowest number of 64 bits has no negative. -/
def negateLong (n : Int64) : Machine Int64 := if n = .minValue then stop .overflow else return -n

/-- The bytes from one position up to another. -/
def slice (bytes : List UInt8) (start stop : Nat) : Machine (List UInt8) :=
  if start ≤ stop ∧ stop ≤ bytes.length then return (bytes.drop start).take (stop - start)
  else Machine.stop .slice

/-! ## bytes -/

def byte : Machine UInt8 := do
  let k ← cursor
  match k.data[k.position]? with
  | none => fail .unexpectedEnd
  | some b =>
    let position ← add k.position 1
    change ({ · with position })
    return b

def peekByte : Machine UInt8 := do
  let k ← cursor
  match k.data[k.position]? with
  | none => fail .unexpectedEnd
  | some b => return b

/-- The next `count` bytes. -/
def take (count : Nat) : Machine (List UInt8) := do
  let k ← cursor
  match (checkedAdd k.position count).filter (· ≤ k.data.length) with
  | none => fail .unexpectedEnd
  | some position =>
    let bytes ← slice k.data k.position position
    change ({ · with position })
    return bytes

/-- A little-endian number of `count` bytes, copied to a place of that size. -/
def fixed (count : Nat) : Machine Nat := do
  let bytes ← take count
  if bytes.length = count then return ofLittleEndian bytes else stop .copy

/-- The groups of a variable-length integer from the bit `shift` on, joined to `value`. -/
def varintFrom : Nat → Nat → UInt64 → Machine UInt64
  | 0, _, _ => timeout
  | clock + 1, shift, value => do
    let b ← byte
    if shift == 63 && 1 < b then fault .varintOverflow
    else
      let group ← shiftLeft (b &&& 0x7f).toUInt64 shift
      if b &&& 0x80 == 0 then return value ||| group
      else varintFrom clock (shift + 7) (value ||| group)

/-- A variable-length integer. -/
def varint : Machine UInt64 := varintFrom 10 0 0

/-- A byte sequence after its length. -/
def lengthPrefixed : Machine (List UInt8) := do
  let length ← varint
  take length.toNat

/-! ## headers and containers -/

/-- The kind of the value about to be read; `none` for the outermost value. -/
def valueKind : Machine (Option Kind) := do
  let k ← cursor
  match k.pending with
  | some kind =>
    change ({ · with pending := none })
    return some kind
  | none =>
    match k.frames with
    | .array kind remaining :: frames =>
      if remaining == 0 then fault .pastArrayEnd
      else
        let remaining ← subtract remaining 1
        change ({ · with frames := .array kind remaining :: frames })
        return some kind
    | .object :: _ => fault .missingHeader
    | [] => return none

/-- The value about to be read must have a kind. -/
def expect (kind : Kind) : Machine Unit := do
  match ← valueKind with
  | some found => if found == kind then return () else fault (.kindMismatch kind found)
  | none => return ()

def pushFrame (frame : Frame) : Machine Unit :=
  change fun k => { k with frames := frame :: k.frames }

def popFrame : Machine Unit := change fun k => { k with frames := k.frames.tail }

/-- Whether the current container has another field or element. -/
def hasNext : Machine Bool := do
  match (← cursor).frames with
  | .object :: _ => return (← peekByte) != 0
  | .array _ remaining :: _ => return 0 < remaining
  | [] => return false

/-- The tag of the next field; its kind is kept for the value. -/
def nextName : Machine UInt32 := do
  match (← cursor).frames with
  | .object :: _ =>
    let header := (← varint).toNat
    match Kind.ofCode? (header % 16) with
    | none => fault (.unknownKind (header % 16))
    | some kind =>
      if UInt32.size ≤ header / 16 then fault (.tagOutOfRange (header / 16))
      else
        change ({ · with pending := some kind })
        return (header / 16).toUInt32
  | _ => fault .headerOutside

def beginObject : Machine Unit := do
  expect .object
  pushFrame .object

/-- The element kind and the count of an array. -/
def openArray : Machine Unit := do
  let code ← byte
  match Kind.ofCode? code.toNat with
  | none => fault (.unknownElementKind code)
  | some kind =>
    let count ← varint
    pushFrame (.array kind count.toNat)

def beginArray : Machine Unit := do
  expect .array
  openArray

/-! ## skipping -/

/-- Repeat a step while the current container has more. -/
def whileNext (step : Machine Unit) : Nat → Machine Unit
  | 0 => timeout
  | clock + 1 => do
    if ← hasNext then
      step
      whileNext step clock
    else return ()

/-- Skip the unread fields of the current object. -/
def skipFields (skip : Machine Unit) (clock : Nat) : Machine Unit :=
  whileNext (do let _ ← nextName; skip) clock

/-- Leave the current object, skipping the fields that are unread. -/
def leaveObject (skip : Machine Unit) (clock : Nat) : Machine Unit := do
  match (← cursor).frames with
  | .object :: _ =>
    skipFields skip clock
    popFrame
    let _ ← byte
  | _ => fault .objectEndOutside

/-- Leave the current array, skipping the elements that are unread. -/
def leaveArray (skip : Machine Unit) (clock : Nat) : Machine Unit := do
  match (← cursor).frames with
  | .array .. :: _ =>
    whileNext skip clock
    popFrame
    let mark ← byte
    if mark == 0 then return () else fault (.arrayEndExpected mark)
  | _ => fault .arrayEndOutside

/-- Skip the next value, whatever its kind. -/
def skipValue : Nat → Machine Unit
  | 0 => timeout
  | clock + 1 => do
    match ← valueKind with
    | none => fault .topLevelSkip
    | some .int | some .sint | some .long | some .slong => let _ ← varint
    | some .fint | some .float => let _ ← take 4
    | some .flong | some .double => let _ ← take 8
    | some .string | some .binary => let _ ← lengthPrefixed
    | some .object =>
      pushFrame .object
      leaveObject (skipValue clock) (clock + 1)
    | some .array =>
      openArray
      leaveArray (skipValue clock) clock

/-! ## values -/

/-- Unfold a number of 32 bits by its lowest bit. -/
def unfoldInt (n : UInt32) : Machine Int32 := do
  let sign ← negateInt (n &&& 1).toInt32
  return (n >>> 1).toInt32 ^^^ sign

/-- Unfold a number of 64 bits by its lowest bit. -/
def unfoldLong (n : UInt64) : Machine Int64 := do
  let sign ← negateLong (n &&& 1).toInt64
  return (n >>> 1).toInt64 ^^^ sign

/-- A value of a primitive type. -/
def value (type : Primitive) : Machine Scalar := do
  expect type.wireKind
  match type with
  | .bool => return .bool ((← varint) != 0)
  | .int32 => return .int (← varint).toUInt32.toInt32
  | .uint32 => return .uint (← varint).toUInt32
  | .sint32 => return .int (← unfoldInt (← varint).toUInt32)
  | .fixed32 => return .uint (← fixed 4).toUInt32
  | .sfixed32 => return .int (← fixed 4).toUInt32.toInt32
  | .int64 => return .long (← varint).toInt64
  | .uint64 => return .ulong (← varint)
  | .sint64 => return .long (← unfoldLong (← varint))
  | .fixed64 => return .ulong (← fixed 8).toUInt64
  | .sfixed64 => return .long (← fixed 8).toUInt64.toInt64
  | .float => return .float ⟨(← fixed 4).toUInt32⟩
  | .double => return .double ⟨(← fixed 8).toUInt64⟩
  | .string =>
    let bytes ← lengthPrefixed
    match Utf8.decode? bytes with
    | some s => return .string s
    | none => fault (.text ((Utf8.fault? bytes).getD (.incomplete bytes.length)))
  | .bytes => return .bytes (← lengthPrefixed)

/-- The type discriminator that opens an object of a family. -/
def typeId : Machine UInt32 := do
  if ← hasNext then
    if (← nextName) == 0 then
      expect .int
      return (← varint).toUInt32
    else fail .missingDiscriminator
  else fail .missingDiscriminator

/-! ## calls -/

/-- Make a call. -/
def make (clock : Nat) : Call → Machine Reply
  | .isFinished => do
    let k ← cursor
    return .flag (k.data.length ≤ k.position)
  | .beginObject => do beginObject; return .done
  | .endObject => do leaveObject (skipValue clock) clock; return .done
  | .beginArray => do beginArray; return .done
  | .endArray => do leaveArray (skipValue clock) clock; return .done
  | .hasNext => return .flag (← hasNext)
  | .nextName => return .number (← nextName)
  | .skipValue => do skipValue clock; return .done
  | .skipRemaining => do skipFields (skipValue clock) clock; return .done
  | .typeId => return .number (← typeId)
  | .value type => return .scalar (← value type)

/-- What comes of calls, each with the state that it leaves, unless one of them is stopped. -/
def session (clock : Nat) :
    List Call → Cursor → Except Halt (List (Except ReadError Reply × Cursor))
  | [], _ => .ok []
  | call :: calls, k => do
    let result ← make clock call k
    return (outcome result, left result) :: (← session clock calls (left result))

end Machine

end Missive.Wire
