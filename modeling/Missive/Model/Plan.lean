import Missive.Model.Lineage
import Missive.Wire.Kind

/-!
# Missive.Model.Plan

How the values of fields travel, in the binary format and in JSON.

A plan depends on what a field holds and not on where the field stands.
-/

namespace Missive

/-- How a single value travels. -/
inductive ValuePlan where
  | primitive (p : Primitive)
  | enumeration (id : EnumId)
  /-- A message.  If its type is abstract, a discriminator travels with it. -/
  | message (id : MessageId) (isAbstract : Bool)
  deriving Repr, DecidableEq

/-- How a field travels. -/
inductive FieldPlan where
  /-- One value; a message may be absent, and is then not written. -/
  | single (value : ValuePlan)
  | repeated (element : ValuePlan)
  /-- Entries in order.  In JSON they are an object if the keys are texts, and a list of records
  otherwise. -/
  | map (key value : ValuePlan)
  deriving Repr, DecidableEq

/-- Why a field cannot travel. -/
inductive PlanError where
  | primitiveKey (p : Primitive)
  | messageKey (name : String)
  | nestedMap
  | repeatedMap
  deriving Repr, DecidableEq

/-- The wording of an error. -/
def PlanError.message : PlanError → String
  | .primitiveKey p => s!"map keys must be strings, integers, booleans or enums, not {p.keyword}"
  | .messageKey name =>
    s!"map keys must be strings, integers, booleans or enums, not message `{name}`"
  | .nestedMap => "maps cannot nest inside maps"
  | .repeatedMap => "repeated fields cannot hold maps"

namespace Primitive

/-- The kind of a primitive value on the wire. -/
def wireKind : Primitive → Wire.Kind
  | .bool | .int32 | .uint32 => .int
  | .sint32 => .sint
  | .fixed32 | .sfixed32 => .fint
  | .int64 | .uint64 => .long
  | .sint64 => .slong
  | .fixed64 | .sfixed64 => .flong
  | .float => .float
  | .double => .double
  | .string => .string
  | .bytes => .binary

/-- The phrase for the shape of a primitive value in JSON. -/
def jsonPhrase : Primitive → String
  | .bool => "boolean"
  | .float | .double => "number"
  | .string => "string"
  | .bytes => "base64"
  | _ => "integer"

/-- The phrase for the value that a primitive field starts with. -/
def defaultPhrase : Primitive → String
  | .bool => "false"
  | .float | .double => "0.0"
  | .string => "\"\""
  | .bytes => "empty bytes"
  | _ => "0"

end Primitive

namespace ValuePlan

/-- The kind of a value on the wire. -/
def wireKind : ValuePlan → Wire.Kind
  | .primitive p => p.wireKind
  | .enumeration _ => .int
  | .message .. => .object

/-- A description in one line. -/
def describe (m : Model) : ValuePlan → String
  | .primitive p =>
    s!"{p.keyword} [binary {p.wireKind.label}, json {p.jsonPhrase}, default {p.defaultPhrase}]"
  | .enumeration id =>
    s!"enum {(m.enumeration id).name} [binary int, json enum-name, default first constant]"
  | .message id isAbstract =>
    let shape := if isAbstract then "discriminated" else "object"
    s!"message {(m.message id).name} [binary object, json {shape}, default absent]"

/-- Whether a value may be absent. -/
def isMessage : ValuePlan → Bool
  | .message .. => true
  | _ => false

end ValuePlan

namespace FieldPlan

/-- Whether the keys of a map are the names of an object in JSON. -/
def keysAreNames (key : ValuePlan) : Bool := key == .primitive .string

/-- The kind of a field on the wire. -/
def wireKind : FieldPlan → Wire.Kind
  | .single value => value.wireKind
  | .repeated _ | .map .. => .array

def isMap : FieldPlan → Bool
  | .map .. => true
  | _ => false

/-- The single value of a field that is written as text in XML, and whether it is a list of
such. -/
def textual? : FieldPlan → Option (ValuePlan × Bool)
  | .single (.message ..) | .repeated (.message ..) | .map .. => none
  | .single value => some (value, false)
  | .repeated element => some (element, true)

/-- A description in one line. -/
def describe (m : Model) : FieldPlan → String
  | .single value =>
    if value.isMessage then s!"optional {value.describe m}" else value.describe m
  | .repeated element => s!"repeated {element.describe m}"
  | .map key value =>
    let form := if keysAreNames key then "object" else "entries"
    s!"map {key.describe m} => {value.describe m} as {form}"

end FieldPlan

namespace Model

/-- Plan a single value. -/
def planValue (m : Model) : Kind → Except PlanError ValuePlan
  | .primitive p => .ok (.primitive p)
  | .enumeration id => .ok (.enumeration id)
  | .message id => .ok (.message id (m.message id).isAbstract)
  | .map .. => .error .nestedMap

/-- Plan a key of a map. -/
def planKey (m : Model) : Kind → Except PlanError ValuePlan
  | .primitive .float => .error (.primitiveKey .float)
  | .primitive .double => .error (.primitiveKey .double)
  | .primitive .bytes => .error (.primitiveKey .bytes)
  | .message id => .error (.messageKey (m.message id).name)
  | kind => m.planValue kind

/-- Plan a field of a kind. -/
def planKind (m : Model) (kind : Kind) (repeated : Bool) : Except PlanError FieldPlan :=
  match kind, repeated with
  | .map .., true => .error .repeatedMap
  | .map key value, false => do
    let key ← m.planKey key
    let value ← m.planValue value
    return .map key value
  | kind, true => return .repeated (← m.planValue kind)
  | kind, false => return .single (← m.planValue kind)

/-- Plan a field. -/
def planField (m : Model) (f : Field) : Except PlanError FieldPlan := m.planKind f.kind f.repeated

end Model

end Missive
