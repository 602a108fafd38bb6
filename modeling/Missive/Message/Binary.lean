import Missive.Message.Catalog
import Missive.Message.Primitive

/-!
# Missive.Message.Binary

Messages in the binary format.

A message is an object.  A member of a family begins with its discriminator under the tag zero;
then come the fields that have a tag, the inherited ones first.  A map is an array of objects with
the key under the tag one and the value under the tag two.

Reading takes fields in any order and skips tags that it does not know.  The last of several
values under one tag counts.  A message inside a message lies after at least one more byte, so the
number of unread bytes bounds the nesting.
-/

namespace Missive

/-- The tag of the key in an entry of a map. -/
def Wire.keyTag : UInt32 := 1

/-- The tag of the value in an entry of a map. -/
def Wire.valueTag : UInt32 := 2

namespace Catalog

/-! ## writing -/

/-- The field with the discriminator of a message, if it is in a family. -/
def discriminator (c : Catalog) (id : MessageId) : List (List UInt8) :=
  match c.typeId? id with
  | some typeId => [Wire.field 0 .int (Wire.uint typeId)]
  | none => []

/-- The bytes of a key. -/
def encodeKey (c : Catalog) : ValuePlan → Key → List UInt8
  | .primitive p, .scalar s => p.encode s
  | .enumeration id, .constant index => Wire.int (c.codeOf id index)
  | _, _ => []

mutual

/-- The bytes of a value after its header. -/
def encodeValue (c : Catalog) : FieldPlan → Value → List UInt8
  | .single (.primitive p), .scalar s => p.encode s
  | .single (.enumeration id), .constant index => Wire.int (c.codeOf id index)
  | .single (.message ..), .message type fields =>
    Wire.object (c.discriminator type ++ encodeFields c (c.slots type) fields)
  | .repeated element, .list items => Wire.array element.wireKind (encodeItems c element items)
  | .map key value, .map entries => Wire.array .object (encodeEntries c key value entries)
  | _, _ => []

/-- The fields of a message.  Fields without a tag are left out, and so are absent messages. -/
def encodeFields (c : Catalog) : List Slot → List Value → List (List UInt8)
  | slot :: slots, value :: values =>
    match slot.tag with
    | some tag =>
      if value.isAbsent then encodeFields c slots values
      else
        Wire.field tag slot.plan.wireKind (encodeValue c slot.plan value)
          :: encodeFields c slots values
    | none => encodeFields c slots values
  | _, _ => []

/-- The elements of an array. -/
def encodeItems (c : Catalog) (element : ValuePlan) : List Value → List (List UInt8)
  | [] => []
  | item :: items => encodeValue c (.single element) item :: encodeItems c element items

/-- The entries of a map. -/
def encodeEntries (c : Catalog) (key value : ValuePlan) : List (Key × Value) → List (List UInt8)
  | [] => []
  | (k, v) :: entries =>
    Wire.object [
      Wire.field Wire.keyTag key.wireKind (encodeKey c key k),
      Wire.field Wire.valueTag value.wireKind (encodeValue c (.single value) v)]
    :: encodeEntries c key value entries

end

/-- The bytes of a message. -/
def encode (c : Catalog) (message : Message) : List UInt8 :=
  Wire.object (c.discriminator message.type ++ c.encodeFields (c.slots message.type) message.fields)

/-! ## reading -/

/-- A way to read a message of a type inside another; nothing comes of a member of the family that
the type does not have. -/
abbrev NestedRead := MessageId → Wire.Read (Option Message)

/-- Read a single value. -/
def readValue (c : Catalog) (nested : NestedRead) : ValuePlan → Wire.Read (Option Value)
  | .primitive p => return some (.scalar (← p.read))
  | .enumeration id => return some (.constant (c.constantOfCode id (← Wire.Read.int)))
  | .message id _ => return (← nested id).map Message.toValue

/-- Read the fields of an entry of a map, of which either may be missing. -/
def readEntryFields (c : Catalog) (nested : NestedRead) (key value : ValuePlan) :
    Wire.Read (Option Key × Option Value) := do
  Wire.Read.beginObject
  let entry ← Wire.Read.whileNext (fun (k, v) => do
    let tag ← Wire.Read.nextName
    if tag == Wire.keyTag then return ((← c.readValue nested key).bind Key.ofValue?, v)
    else if tag == Wire.valueTag then return (k, ← c.readValue nested value)
    else
      Wire.Read.skipValue
      return (k, v)) (none, none)
  Wire.Read.endObject
  return entry

/-- Read the value of a field. -/
def readField (c : Catalog) (nested : NestedRead) (slot : Slot) : Wire.Read Value :=
  match slot.plan with
  | .single value => return (← c.readValue nested value).getD .absent
  | .repeated element => do
    Wire.Read.beginArray
    let items ← Wire.Read.whileNext (fun items => do
      return items ++ (← c.readValue nested element).toList) []
    Wire.Read.endArray
    return .list items
  | .map key value => do
    Wire.Read.beginArray
    let entries ← Wire.Read.whileNext (fun entries => do
      let entry ← c.readEntryFields nested key value
      match c.addEntry slot.key key value entry entries with
      | .ok entries => return entries
      | .error e => throw e) []
    Wire.Read.endArray
    return .map entries

/-- Read the fields of a message up to the end of its object. -/
def readFields (c : Catalog) (nested : NestedRead) (id : MessageId) : Wire.Read Message := do
  let slots := c.slots id
  let fields ← Wire.Read.whileNext (fun fields => do
    let tag ← Wire.Read.nextName
    match slots.find? (·.tag == some tag) with
    | some slot => return fields.set slot.position (← c.readField nested slot)
    | none =>
      Wire.Read.skipValue
      return fields) (c.new id).fields
  return { type := id, fields }

/-- Find out which member of a type an object holds. -/
def readType (c : Catalog) (id : MessageId) : Wire.Read (Option MessageId) := do
  if c.model.inFamily id then return c.memberOfTypeId? id (← Wire.Read.typeId) else return some id

/-- Read a message of a type, of at most `depth` nested messages. -/
def readNested (c : Catalog) : Nat → NestedRead
  | 0, _ => throw .unexpectedEnd
  | depth + 1, id => do
    Wire.Read.beginObject
    let message ← match ← c.readType id with
      | some type => some <$> c.readFields (c.readNested depth) type
      | none => pure none
    Wire.Read.endObject
    return message

/-- Read a message of a type; nothing comes of a member of the family that the type does not
have. -/
def readMessage (c : Catalog) (id : MessageId) : Wire.Read (Option Message) := do
  c.readNested ((← get).rest.length + 1) id

/-- The message of a type at the beginning of a payload. -/
def decode (c : Catalog) (id : MessageId) (bytes : List UInt8) :
    Except ReadError (Option Message) :=
  match (c.readMessage id).run (.ofBytes bytes) with
  | .ok message _ => .ok message
  | .error e _ => .error e

end Catalog

end Missive
