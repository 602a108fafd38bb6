import Missive.Json.Parse
import Missive.Json.Print
import Missive.Message.Catalog
import Missive.Message.Primitive

/-!
# Missive.Message.Json

Messages in JSON.

A message is an object with a property for each field, the inherited ones first; transient fields
are written as well.  Where a family is possible, the object is the second element of an array of
which the first names the type: in a field of an abstract type, and outside of any field for all
members of a family.  A map is an object if its keys are texts, and an array of records
otherwise.

Reading takes properties in any order and ignores those that it does not know.
-/

namespace Missive

/-- The property with the key in a record of a map. -/
def Json.keyName : String := "key"

/-- The property with the value in a record of a map. -/
def Json.valueName : String := "value"

namespace Catalog

/-! ## writing -/

/-- An object with the name of its type in front. -/
def named (c : Catalog) (type : MessageId) (content : Json) : Json :=
  .array [.string (c.jsonType type), content]

/-- The JSON value of a key. -/
def keyJson (c : Catalog) (plan : ValuePlan) : Key → Json
  | .scalar s => s.toJson
  | .constant index =>
    match plan with
    | .enumeration id => .string (c.nameOf id index)
    | _ => .null

/-- The property name that a key is. -/
def keyName : Key → String
  | .scalar (.string s) => s
  | _ => ""

mutual

/-- The JSON value of a value. -/
def valueJson (c : Catalog) : FieldPlan → Value → Json
  | .single (.primitive _), .scalar s => s.toJson
  | .single (.enumeration id), .constant index => .string (c.nameOf id index)
  | .single (.message _ isAbstract), .message type fields =>
    let content := .object (membersJson c (c.slots type) fields)
    if isAbstract then c.named type content else content
  | .repeated element, .list items => .array (itemsJson c element items)
  | .map key value, .map entries =>
    if FieldPlan.keysAreNames key then .object (namedJson c value entries)
    else .array (recordsJson c key value entries)
  | _, _ => .null

/-- The properties of a message.  Absent messages are left out. -/
def membersJson (c : Catalog) : List Slot → List Value → List (String × Json)
  | slot :: slots, value :: values =>
    if value.isAbsent then membersJson c slots values
    else (slot.key, valueJson c slot.plan value) :: membersJson c slots values
  | _, _ => []

/-- The elements of a list. -/
def itemsJson (c : Catalog) (element : ValuePlan) : List Value → List Json
  | [] => []
  | item :: items => valueJson c (.single element) item :: itemsJson c element items

/-- The entries of a map with texts as keys. -/
def namedJson (c : Catalog) (value : ValuePlan) : List (Key × Value) → List (String × Json)
  | [] => []
  | (k, v) :: entries => (keyName k, valueJson c (.single value) v) :: namedJson c value entries

/-- The entries of a map with other keys. -/
def recordsJson (c : Catalog) (key value : ValuePlan) : List (Key × Value) → List Json
  | [] => []
  | (k, v) :: entries =>
    .object [(Json.keyName, c.keyJson key k), (Json.valueName, valueJson c (.single value) v)]
      :: recordsJson c key value entries

end

/-- The JSON value of a message. -/
def toJson (c : Catalog) (message : Message) : Json :=
  let content := .object (c.membersJson (c.slots message.type) message.fields)
  if c.model.inFamily message.type then c.named message.type content else content

/-- The JSON text of a message. -/
def toJsonText (c : Catalog) (message : Message) : String := (c.toJson message).text

/-! ## reading -/

/-- A way to read a message of a type, with or without the name of its type in front. -/
abbrev NestedJson := MessageId → Bool → Json.Read (Option Message)

/-- Read a single value; nothing comes of `null` in place of a message. -/
def readValueJson (c : Catalog) (nested : NestedJson) : ValuePlan → Json.Read (Option Value)
  | .primitive p => return some (.scalar (← p.scalarType.readJson))
  | .enumeration id => return some (.constant (c.constantOfName id (← Json.Read.string)))
  | .message id isAbstract => return (← nested id isAbstract).map Message.toValue

/-- Read a record of a map, of which either part may be missing. -/
def readRecordJson (c : Catalog) (nested : NestedJson) (key value : ValuePlan) :
    Json.Read (Option Key × Option Value) := do
  Json.Read.beginObject
  let record ← Json.Read.whileNext (fun (k, v) => do
    let name ← Json.Read.nextName
    if name == Json.keyName then return ((← c.readValueJson nested key).bind Key.ofValue?, v)
    else if name == Json.valueName then return (k, ← c.readValueJson nested value)
    else
      Json.Read.skipValue
      return (k, v)) (none, none)
  Json.Read.endObject
  return record

/-- Read the value of a field. -/
def readFieldJson (c : Catalog) (nested : NestedJson) (slot : Slot) : Json.Read Value :=
  match slot.plan with
  | .single value => return (← c.readValueJson nested value).getD .absent
  | .repeated element => do
    Json.Read.beginArray
    let items ← Json.Read.whileNext (fun items => do
      return items ++ (← c.readValueJson nested element).toList) []
    Json.Read.endArray
    return .list items
  | .map key value => do
    let add (entry : Option Key × Option Value) (entries : List (Key × Value)) :
        Json.Read (List (Key × Value)) :=
      match c.addEntry slot.key key value entry entries with
      | .ok entries => return entries
      | .error e => throw e
    if FieldPlan.keysAreNames key then
      Json.Read.beginObject
      let entries ← Json.Read.whileNext (fun entries => do
        let name ← Json.Read.nextName
        let v ← c.readValueJson nested value
        add (some (.scalar (.string name)), v) entries) []
      Json.Read.endObject
      return .map entries
    else
      Json.Read.beginArray
      let entries ← Json.Read.whileNext (fun entries => do
        add (← c.readRecordJson nested key value) entries) []
      Json.Read.endArray
      return .map entries

/-- Read an object with the properties of a message. -/
def readContentJson (c : Catalog) (nested : NestedJson) (id : MessageId) : Json.Read Message := do
  let slots := c.slots id
  Json.Read.beginObject
  let fields ← Json.Read.whileNext (fun fields => do
    let name ← Json.Read.nextName
    match slots.find? (·.key == name) with
    | some slot => return fields.set slot.position (← c.readFieldJson nested slot)
    | none =>
      Json.Read.skipValue
      return fields) (c.new id).fields
  Json.Read.endObject
  return { type := id, fields }

/-- Read an array of the name of a type and an object. -/
def readNamedJson (c : Catalog) (nested : NestedJson) (id : MessageId) :
    Json.Read (Option Message) := do
  Json.Read.beginArray
  let message ← match c.memberOfJsonType? id (← Json.Read.string) with
    | some type => some <$> c.readContentJson nested type
    | none =>
      Json.Read.skipValue
      pure none
  Json.Read.endArray
  return message

/-- Read a message of a type, or nothing for `null`, of at most `depth` nested messages. -/
def readNestedJson (c : Catalog) : Nat → NestedJson
  | 0, _, _ => Json.Read.fault .nothingLeft
  | depth + 1, id, isNamed => do
    if ← Json.Read.peekNull then
      Json.Read.skipValue
      return none
    else if isNamed then c.readNamedJson (c.readNestedJson depth) id
    else return some (← c.readContentJson (c.readNestedJson depth) id)

/-- The message of a type that a JSON value is; nothing comes of `null` and of a member of the
family that the type does not have. -/
def ofJson (c : Catalog) (id : MessageId) (value : Json) : Except ReadError (Option Message) :=
  match (c.readNestedJson (value.weight + 1) id (c.model.inFamily id)).run (.ofJson value) with
  | .ok message _ => .ok message
  | .error e _ => .error e

/-- The message of a type in a JSON text. -/
def ofJsonText (c : Catalog) (id : MessageId) (text : String) :
    Except ReadError (Option Message) :=
  match Json.parse? text with
  | some value => c.ofJson id value
  | none => .error .jsonText

end Catalog

end Missive
