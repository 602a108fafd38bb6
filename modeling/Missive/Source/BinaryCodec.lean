import Missive.Source.JsonCodec

/-!
# Missive.Source.BinaryCodec

The code that reads and writes messages in the binary format.

A message is an object of tagged values.  A member of a family begins with its discriminator under
the tag 0.  Transient fields are not written.
-/

namespace Missive.Source

/-- The fields that travel. -/
def encodedFields (fields : List FieldView) : List FieldView :=
  fields.filter fun field => !field.field.transient && field.field.tag.isSome

/-! ## fields -/

/-- Write a field. -/
def binaryWriteField (runtime : String) (field : FieldView) : Code :=
  let place := s!"self.{field.ident}"
  let name := line s!"writer.name(Self::{field.tag});"
  match field.plan with
  | .single value =>
    if value.isMessage then
      enter s!"if let Some(value) = &{place}"
      ++ name
      ++ statement (binaryWrite value (.reference "value"))
      ++ leave
    else name ++ statement (binaryWrite value (.place place))
  | .repeated element =>
    name
    ++ line s!"writer.begin_array({runtime}::DataType::{element.wireKind.title}, {place}.len());"
    ++ enter s!"for item in &{place}"
    ++ statement (binaryWrite element (.reference "item"))
    ++ leave
    ++ line "writer.end_array();"
  | .map key value =>
    name
    ++ line s!"writer.begin_array({runtime}::DataType::Object, {place}.len());"
    ++ enter s!"for (key, value) in &{place}"
    ++ line "writer.begin_object();"
    ++ line "writer.name(1);"
    ++ statement (binaryWrite key (.reference "key"))
    ++ line "writer.name(2);"
    ++ statement (binaryWrite value (.reference "value"))
    ++ line "writer.end_object();"
    ++ leave
    ++ line "writer.end_array();"

/-- The arm that reads a field. -/
def binaryReadField (m : Model) (field : FieldView) : Code :=
  let place := s!"self.{field.ident}"
  let arm := s!"Self::{field.tag} =>"
  match field.plan with
  | .single value =>
    let box := if value.isMessage then ".map(Box::new)" else ""
    line s!"{arm} {place} = {binaryRead m value}{box},"
  | .repeated element =>
    enter arm
    ++ line s!"{place}.clear();"
    ++ line "reader.begin_array()?;"
    ++ enter "while reader.has_next()?"
    ++ line (pushStatement element (binaryRead m element) place)
    ++ leave
    ++ line "reader.end_array()?;"
    ++ leave
  | .map key value =>
    enter arm
    ++ line s!"{place}.clear();"
    ++ line "reader.begin_array()?;"
    ++ enter "while reader.has_next()?"
    ++ line "let mut key = None;"
    ++ line "let mut value = None;"
    ++ line "reader.begin_object()?;"
    ++ enter "while reader.has_next()?"
    ++ enter "match reader.next_name()?"
    ++ line s!"1 => key = Some({binaryRead m key}),"
    ++ line (entryValueArm "2" value (binaryRead m value))
    ++ line "_ => reader.skip_value()?,"
    ++ leave
    ++ leave
    ++ line "reader.end_object()?;"
    ++ line (putStatement value (accessorName "put" field.field.name))
    ++ leave
    ++ line "reader.end_array()?;"
    ++ leave

/-- The method that writes the fields, those of the structure below first. -/
def binaryFieldWriter (runtime : String) (fields : List FieldView) (hasBase : Bool) : Code :=
  let encoded := encodedFields fields
  blank
  ++ if encoded.isEmpty && !hasBase then
      line s!"fn write_binary_fields(&self, _writer: &mut {runtime}::DataWriter) \x7b\x7d"
    else
      enter s!"fn write_binary_fields(&self, writer: &mut {runtime}::DataWriter)"
      ++ (if hasBase then line "self.base.write_binary_fields(writer);" else [])
      ++ encoded.flatMap (binaryWriteField runtime)
      ++ leave

/-- The method that reads a field by tag: its own fields, then the structure below, then
nothing. -/
def binaryFieldReader (m : Model) (runtime : String) (fields : List FieldView) (hasBase : Bool) :
    Code :=
  let encoded := encodedFields fields
  let tag := if encoded.isEmpty && !hasBase then "_tag" else "tag"
  let fallback :=
    if hasBase then "self.base.read_binary_field(reader, tag)?" else "reader.skip_value()?"
  blank
  ++ enter s!"fn read_binary_field(&mut self, reader: &mut {runtime}::DataReader<'_>, {tag}: u32) -> {runtime}::Result<()>"
  ++ (if encoded.isEmpty then line s!"{fallback};"
    else
      enter "match tag"
      ++ encoded.flatMap (binaryReadField m)
      ++ line s!"_ => {fallback},"
      ++ leave)
  ++ line "Ok(())"
  ++ leave

/-! ## messages -/

/-- The signature of a public reader. -/
def binaryReadSignature (runtime : String) : String :=
  s!"pub fn read_binary(reader: &mut {runtime}::DataReader<'_>) -> {runtime}::Result<Option<Self>>"

/-- The methods of a concrete message. -/
def binaryMethods (runtime : String) (discriminated : Bool) : Code :=
  blank
  ++ (if discriminated then
      line "/// Read a message; `None` if the object holds another member of the family."
    else [])
  ++ enter (binaryReadSignature runtime)
  ++ line "reader.begin_object()?;"
  ++ (if discriminated then
      enter "if reader.read_type_id()? != Self::TYPE_ID"
      ++ line "reader.end_object()?;"
      ++ line "return Ok(None);"
      ++ leave
    else [])
  ++ line "let value = Self::read_binary_fields(reader)?;"
  ++ line "reader.end_object()?;"
  ++ line "Ok(Some(value))"
  ++ leave
  ++ blank
  ++ enter s!"fn read_binary_fields(reader: &mut {runtime}::DataReader<'_>) -> {runtime}::Result<Self>"
  ++ line "let mut value = Self::default();"
  ++ enter "while reader.has_next()?"
  ++ line "let tag = reader.next_name()?;"
  ++ line "value.read_binary_field(reader, tag)?;"
  ++ leave
  ++ line "Ok(value)"
  ++ leave
  ++ blank
  ++ enter s!"pub fn write_binary(&self, writer: &mut {runtime}::DataWriter)"
  ++ line "writer.begin_object();"
  ++ (if discriminated then
      line "writer.name(0);" ++ line "writer.write_uint(Self::TYPE_ID);"
    else [])
  ++ line "self.write_binary_fields(writer);"
  ++ line "writer.end_object();"
  ++ leave

/-- The methods of an abstract message. -/
def binaryFamilyMethods (m : Model) (runtime : String) (id : MessageId) (cases : Cases) : Code :=
  let name := cases.typeName
  let writer := cases.parameter "writer"
  blank
  ++ line "/// Read a message; `None` for an unknown discriminator."
  ++ enter (binaryReadSignature runtime)
  ++ enter s!"static FACTORIES: ::std::sync::LazyLock<::std::collections::HashMap<u32, {runtime}::BinaryFactory<{name}>>> = ::std::sync::LazyLock::new(||"
  ++ line "::std::collections::HashMap::from(["
  ++ (m.concreteDescendants id).flatMap (fun other =>
    let type := typeName (m.message other).name
    line s!"    ({type}::TYPE_ID, (|reader: &mut {runtime}::DataReader<'_>| -> {runtime}::Result<{name}> \x7b Ok({name}::from({type}::read_binary_fields(reader)?)) \x7d) as {runtime}::BinaryFactory<{name}>),")
  ++ line "])"
  ++ leaveWith ");"
  ++ line "reader.begin_object()?;"
  ++ line "let type_id = reader.read_type_id()?;"
  ++ line "let value = FACTORIES.get(&type_id).map(|factory| factory(reader)).transpose()?;"
  ++ line "reader.end_object()?;"
  ++ line "Ok(value)"
  ++ leave
  ++ blank
  ++ enter s!"pub fn write_binary(&self, {writer}: &mut {runtime}::DataWriter)"
  ++ cases.dispatch (fun _ => "inner.write_binary(writer)") none
  ++ leave
  ++ blank
  ++ line "/// Binary discriminator of the contained type."
  ++ enter "pub fn type_id(&self) -> u32"
  ++ cases.dispatch (fun _ => "inner.type_id()") none
  ++ leave

end Missive.Source
