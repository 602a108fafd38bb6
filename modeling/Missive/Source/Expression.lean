import Missive.Source.View

/-!
# Missive.Source.Expression

The types of values in the emitted code, and the expressions that read and write single values.

Writing happens with a `writer` in scope, and reading with a `reader`.  An expression that reads a
message gives an `Option`; any other gives the value itself.
-/

namespace Missive

/-- The type of scalars in the emitted code. -/
def ScalarType.typeText : ScalarType → String
  | .bool => "bool"
  | .int => "i32"
  | .uint => "u32"
  | .long => "i64"
  | .ulong => "u64"
  | .float => "f32"
  | .double => "f64"
  | .string => "String"
  | .bytes => "Vec<u8>"

/-- The word for a primitive type in the methods of the binary reader and writer. -/
def Primitive.methodWord : Primitive → String
  | .bool => "bool"
  | .int32 => "int"
  | .uint32 => "uint"
  | .sint32 => "sint"
  | .fixed32 => "fixed_int"
  | .sfixed32 => "sfixed_int"
  | .int64 => "long"
  | .uint64 => "ulong"
  | .sint64 => "slong"
  | .fixed64 => "fixed_long"
  | .sfixed64 => "sfixed_long"
  | .float => "float"
  | .double => "double"
  | .string => "string"
  | .bytes => "binary"

/-- The word for a type of scalars in the methods of the JSON reader. -/
def ScalarType.methodWord : ScalarType → String
  | .bytes => "binary"
  | type => type.label

namespace Source

/-! ## types -/

/-- The type of a single value. -/
def valueType (m : Model) : ValuePlan → String
  | .primitive p => p.scalarType.typeText
  | .enumeration id => typeName (m.enumeration id).name
  | .message id _ => typeName (m.message id).name

/-- The type of the storage of a field. -/
def storageType (m : Model) (runtime : String) : FieldPlan → String
  | .single value =>
    let type := valueType m value
    if value.isMessage then s!"Option<Box<{type}>>" else type
  | .repeated element => s!"Vec<{valueType m element}>"
  | .map key value => s!"{runtime}::IndexMap<{valueType m key}, {valueType m value}>"

/-- Whether a value is handed out as a copy. -/
def isCopy : ValuePlan → Bool
  | .primitive .string | .primitive .bytes | .message .. => false
  | _ => true

/-! ## expressions -/

/-- How the code reaches a value. -/
inductive Access where
  /-- A place of the value's own type, such as a field. -/
  | place (text : String)
  /-- A reference to the value, such as the variable of a loop. -/
  | reference (text : String)

namespace Access

def copied : Access → String
  | .place text => text
  | .reference text => s!"*{text}"

def borrowed : Access → String
  | .place text => s!"&{text}"
  | .reference text => text

def receiver : Access → String
  | .place text => text
  | .reference text => text

end Access

/-- Write a value to JSON. -/
def jsonWrite (plan : ValuePlan) (access : Access) : String :=
  match plan with
  | .primitive p =>
    match p.scalarType with
    | .bool => s!"writer.write_bool({access.copied})"
    | .int => s!"writer.write_i64(i64::from({access.copied}))"
    | .uint => s!"writer.write_u64(u64::from({access.copied}))"
    | .long => s!"writer.write_i64({access.copied})"
    | .ulong => s!"writer.write_u64({access.copied})"
    | .float => s!"writer.write_f64(f64::from({access.copied}))"
    | .double => s!"writer.write_f64({access.copied})"
    | .string => s!"writer.write_str({access.borrowed})"
    | .bytes => s!"writer.write_binary({access.borrowed})"
  | .enumeration _ => s!"writer.write_str({access.receiver}.name())"
  | .message _ true => s!"{access.receiver}.write_json(writer)"
  | .message _ false => s!"{access.receiver}.write_json_content(writer)"

/-- Read a value from JSON. -/
def jsonRead (m : Model) (plan : ValuePlan) : String :=
  match plan with
  | .primitive p => s!"reader.next_{p.scalarType.methodWord}()?"
  | .enumeration _ => s!"{valueType m plan}::from_name(&reader.next_string()?)"
  | .message _ true => s!"{valueType m plan}::read_json(reader)?"
  | .message _ false => s!"reader.next_nullable({valueType m plan}::read_json_content)?"

/-- Write a value to the binary format. -/
def binaryWrite (plan : ValuePlan) (access : Access) : String :=
  match plan with
  | .primitive p =>
    let value := if isCopy plan then access.copied else access.borrowed
    s!"writer.write_{p.methodWord}({value})"
  | .enumeration _ => s!"writer.write_int({access.receiver}.code())"
  | .message .. => s!"{access.receiver}.write_binary(writer)"

/-- Read a value from the binary format. -/
def binaryRead (m : Model) (plan : ValuePlan) : String :=
  match plan with
  | .primitive p => s!"reader.next_{p.methodWord}()?"
  | .enumeration _ => s!"{valueType m plan}::from_code(reader.next_int()?)"
  | .message .. => s!"{valueType m plan}::read_binary(reader)?"

end Source

end Missive
