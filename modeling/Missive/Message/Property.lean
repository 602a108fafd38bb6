import Missive.Message.Catalog

/-!
# Missive.Message.Property

Fields by name, with values whose type is found out when they are used.

A dynamic value is a scalar, or any other value together with its shape.  A property takes the
dynamic values of exactly its own shape, and a scalar only as a scalar.
-/

namespace Missive

/-- The types that values of fields have.  Primitives that differ in nothing but their bytes on the
wire share one. -/
inductive Shape where
  | scalar (type : ScalarType)
  | enumeration (id : EnumId)
  /-- A message of a type, or none. -/
  | message (id : MessageId)
  | list (element : Shape)
  | map (key value : Shape)
  /-- A type that no field has. -/
  | foreign (type : String)
  deriving Repr, DecidableEq

/-- The shape of a single value. -/
def ValuePlan.shape : ValuePlan → Shape
  | .primitive p => .scalar p.scalarType
  | .enumeration id => .enumeration id
  | .message id _ => .message id

/-- The shape of the value of a field. -/
def FieldPlan.shape : FieldPlan → Shape
  | .single value => value.shape
  | .repeated element => .list element.shape
  | .map key value => .map key.shape value.shape

/-- The type of a scalar shape. -/
def Shape.scalarType? : Shape → Option ScalarType
  | .scalar type => some type
  | _ => none

/-- A value with its shape. -/
inductive PropertyValue where
  | scalar (s : Scalar)
  | other (shape : Shape) (value : Value)

namespace PropertyValue

def value : PropertyValue → Value
  | .scalar s => .scalar s
  | .other _ value => value

/-- A value of a known shape. -/
def ofValue (shape : Shape) : Value → PropertyValue
  | .scalar s => .scalar s
  | value => .other shape value

/-- A list of texts. -/
def ofStrings (items : List String) : PropertyValue :=
  .other (.list (.scalar .string)) (.list (items.map fun s => .scalar (.string s)))

/-- The value for a property of a shape.  Any other shape is an error, and so is a scalar that does
not come as one. -/
def cast (expected : Shape) (property : String) (d : PropertyValue) : Except ReadError Value :=
  let mismatch := .error (.typeMismatch property expected.scalarType?)
  match expected.scalarType?, d with
  | some type, .scalar s => if s.type == type then .ok (.scalar s) else mismatch
  | none, .other shape value => if shape == expected then .ok value else mismatch
  | _, _ => mismatch

/-- The text of a byte sequence in diagnostics. -/
def bytesText (bytes : List UInt8) : String :=
  let items := ", ".intercalate (bytes.map fun b => decimalText b.toNat)
  s!"[{items}]"

/-- The text of a value in diagnostics: scalars in full, and a placeholder for all else. -/
def text : PropertyValue → String
  | .scalar (.bool b) => if b then "Bool(true)" else "Bool(false)"
  | .scalar (.int n) => s!"Int({integerText n.toInt})"
  | .scalar (.uint n) => s!"UInt({decimalText n.toNat})"
  | .scalar (.long n) => s!"Long({integerText n.toInt})"
  | .scalar (.ulong n) => s!"ULong({decimalText n.toNat})"
  | .scalar (.float x) => s!"Float({x.plainText})"
  | .scalar (.double x) => s!"Double({x.plainText})"
  | .scalar (.string s) => s!"String({Text.quoted s})"
  | .scalar (.bytes bs) => s!"Bytes({bytesText bs})"
  | .other .. => "Other(..)"

end PropertyValue

namespace Catalog

/-- The slot of a property. -/
def property? (c : Catalog) (id : MessageId) (name : String) : Option Slot :=
  (c.slots id).find? (·.key == name)

/-- The names of the properties of a message, the inherited ones first. -/
def properties (c : Catalog) (message : Message) : List String :=
  (c.slots message.type).map (·.key)

/-- The value of a property. -/
protected def get (c : Catalog) (message : Message) (name : String) :
    Except ReadError PropertyValue :=
  match c.property? message.type name with
  | some slot =>
    .ok (.ofValue slot.plan.shape (message.fields.getD slot.position slot.plan.initial))
  | none => .error (.unknownProperty name)

/-- Change the value of a property. -/
protected def modify (c : Catalog) (message : Message) (name : String)
    (change : Slot → Value → Except ReadError Value) : Except ReadError Message :=
  match c.property? message.type name with
  | some slot => do
    let value ← change slot (message.fields.getD slot.position slot.plan.initial)
    return { message with fields := message.fields.set slot.position value }
  | none => .error (.unknownProperty name)

/-- Set a property. -/
protected def set (c : Catalog) (message : Message) (name : String) (d : PropertyValue) :
    Except ReadError Message :=
  c.modify message name fun slot _ => d.cast slot.plan.shape slot.key

end Catalog

end Missive
