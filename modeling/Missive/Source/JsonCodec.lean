import Missive.Source.Accessor

/-!
# Missive.Source.JsonCodec

The code that reads and writes messages as JSON.

A message is an object of its properties.  A member of a family is an array of its discriminator
and that object.
-/

namespace Missive.Source

/-- An expression as a statement. -/
def statement (expression : String) : Code := line s!"{expression};"

/-- Store an element that was read; a message that is absent is left out. -/
def pushStatement (plan : ValuePlan) (read place : String) : String :=
  if plan.isMessage then s!"if let Some(item) = {read} \x7b {place}.push(item); \x7d"
  else s!"{place}.push({read});"

/-- Add an entry whose key and value were read.  Entries go through the accessor, so that a key
that occurs twice fails. -/
def putStatement (value : ValuePlan) (put : String) : String :=
  if value.isMessage then
    s!"if let Some(value) = value \x7b self.{put}(key.unwrap_or_default(), value)?; \x7d"
  else s!"self.{put}(key.unwrap_or_default(), value.unwrap_or_default())?;"

/-- The arm that reads the value of an entry. -/
def entryValueArm (pattern : String) (value : ValuePlan) (read : String) : String :=
  if value.isMessage then s!"{pattern} => value = {read},"
  else s!"{pattern} => value = Some({read}),"

/-! ## fields -/

/-- Write a field. -/
def jsonWriteField (field : FieldView) : Code :=
  let place := s!"self.{field.ident}"
  let name := line s!"writer.name(Self::{field.prop});"
  match field.plan with
  | .single value =>
    if value.isMessage then
      enter s!"if let Some(value) = &{place}"
      ++ name
      ++ statement (jsonWrite value (.reference "value"))
      ++ leave
    else name ++ statement (jsonWrite value (.place place))
  | .repeated element =>
    name
    ++ line "writer.begin_array();"
    ++ enter s!"for item in &{place}"
    ++ statement (jsonWrite element (.reference "item"))
    ++ leave
    ++ line "writer.end_array();"
  | .map key value =>
    if FieldPlan.keysAreNames key then
      name
      ++ line "writer.begin_object();"
      ++ enter s!"for (key, value) in &{place}"
      ++ line "writer.name(key);"
      ++ statement (jsonWrite value (.reference "value"))
      ++ leave
      ++ line "writer.end_object();"
    else
      name
      ++ line "writer.begin_array();"
      ++ enter s!"for (key, value) in &{place}"
      ++ line "writer.begin_object();"
      ++ line "writer.name(\"key\");"
      ++ statement (jsonWrite key (.reference "key"))
      ++ line "writer.name(\"value\");"
      ++ statement (jsonWrite value (.reference "value"))
      ++ line "writer.end_object();"
      ++ leave
      ++ line "writer.end_array();"

/-- The arm that reads a field. -/
def jsonReadField (m : Model) (field : FieldView) : Code :=
  let place := s!"self.{field.ident}"
  let put := accessorName "put" field.field.name
  let arm := s!"Self::{field.prop} =>"
  match field.plan with
  | .single value =>
    let box := if value.isMessage then ".map(Box::new)" else ""
    line s!"{arm} {place} = {jsonRead m value}{box},"
  | .repeated element =>
    enter arm
    ++ line s!"{place}.clear();"
    ++ line "reader.begin_array()?;"
    ++ enter "while reader.has_next()"
    ++ line (pushStatement element (jsonRead m element) place)
    ++ leave
    ++ line "reader.end_array()?;"
    ++ leave
  | .map key value =>
    let read := jsonRead m value
    if FieldPlan.keysAreNames key then
      enter arm
      ++ line s!"{place}.clear();"
      ++ line "reader.begin_object()?;"
      ++ enter "while reader.has_next()"
      ++ line "let key = reader.next_name()?;"
      ++ (if value.isMessage then
          line s!"if let Some(value) = {read} \x7b self.{put}(key, value)?; \x7d"
        else line s!"let value = {read};" ++ line s!"self.{put}(key, value)?;")
      ++ leave
      ++ line "reader.end_object()?;"
      ++ leave
    else
      enter arm
      ++ line s!"{place}.clear();"
      ++ line "reader.begin_array()?;"
      ++ enter "while reader.has_next()"
      ++ line "let mut key = None;"
      ++ line "let mut value = None;"
      ++ line "reader.begin_object()?;"
      ++ enter "while reader.has_next()"
      ++ enter "match reader.next_name()?.as_str()"
      ++ line s!"\"key\" => key = Some({jsonRead m key}),"
      ++ line (entryValueArm "\"value\"" value read)
      ++ line "_ => reader.skip_value()?,"
      ++ leave
      ++ leave
      ++ line "reader.end_object()?;"
      ++ line (putStatement value put)
      ++ leave
      ++ line "reader.end_array()?;"
      ++ leave

/-- The method that writes the fields, those of the structure below first. -/
def jsonFieldWriter (runtime : String) (fields : List FieldView) (hasBase : Bool) : Code :=
  blank
  ++ if fields.isEmpty && !hasBase then
      line s!"fn write_json_fields(&self, _writer: &mut {runtime}::JsonWriter) \x7b\x7d"
    else
      enter s!"fn write_json_fields(&self, writer: &mut {runtime}::JsonWriter)"
      ++ (if hasBase then line "self.base.write_json_fields(writer);" else [])
      ++ fields.flatMap jsonWriteField
      ++ leave

/-- The method that reads a field by name: its own fields, then the structure below, then
nothing. -/
def jsonFieldReader (m : Model) (runtime : String) (fields : List FieldView) (hasBase : Bool) :
    Code :=
  let name := if fields.isEmpty && !hasBase then "_name" else "name"
  let fallback :=
    if hasBase then "self.base.read_json_field(reader, name)?" else "reader.skip_value()?"
  blank
  ++ enter s!"fn read_json_field(&mut self, reader: &mut {runtime}::JsonReader, {name}: &str) -> {runtime}::Result<()>"
  ++ (if fields.isEmpty then line s!"{fallback};"
    else
      enter "match name"
      ++ fields.flatMap (jsonReadField m)
      ++ line s!"_ => {fallback},"
      ++ leave)
  ++ line "Ok(())"
  ++ leave

/-! ## messages -/

/-- The signature of a public reader. -/
def jsonReadSignature (runtime : String) : String :=
  s!"pub fn read_json(reader: &mut {runtime}::JsonReader) -> {runtime}::Result<Option<Self>>"

/-- The signature of a public writer. -/
def jsonWriteSignature (runtime : String) : String :=
  s!"pub fn write_json(&self, writer: &mut {runtime}::JsonWriter)"

/-- The methods of a concrete message. -/
def jsonMethods (runtime : String) (inFamily : Bool) : Code :=
  blank
  ++ line "/// Read a message; `None` for `null` or another type's discriminator."
  ++ enter (jsonReadSignature runtime)
  ++ enter "if reader.peek_null()"
  ++ line "reader.skip_value()?;"
  ++ line "return Ok(None);"
  ++ leave
  ++ (if inFamily then
      line "reader.begin_array()?;"
      ++ line "let json_type = reader.next_string()?;"
      ++ enter "let value = if json_type == Self::JSON_TYPE"
      ++ line "Some(Self::read_json_content(reader)?)"
      ++ leave
      ++ enter "else"
      ++ line "reader.skip_value()?;"
      ++ line "None"
      ++ leaveWith ";"
      ++ line "reader.end_array()?;"
      ++ line "Ok(value)"
    else line "Ok(Some(Self::read_json_content(reader)?))")
  ++ leave
  ++ blank
  ++ enter s!"fn read_json_content(reader: &mut {runtime}::JsonReader) -> {runtime}::Result<Self>"
  ++ line "let mut value = Self::default();"
  ++ line "reader.begin_object()?;"
  ++ enter "while reader.has_next()"
  ++ line "let name = reader.next_name()?;"
  ++ line "value.read_json_field(reader, &name)?;"
  ++ leave
  ++ line "reader.end_object()?;"
  ++ line "Ok(value)"
  ++ leave
  ++ blank
  ++ enter (jsonWriteSignature runtime)
  ++ (if inFamily then
      line "writer.begin_array();"
      ++ line "writer.write_str(Self::JSON_TYPE);"
      ++ line "self.write_json_content(writer);"
      ++ line "writer.end_array();"
    else line "self.write_json_content(writer);")
  ++ leave
  ++ blank
  ++ enter s!"fn write_json_content(&self, writer: &mut {runtime}::JsonWriter)"
  ++ line "writer.begin_object();"
  ++ line "self.write_json_fields(writer);"
  ++ line "writer.end_object();"
  ++ leave

/-- The methods of an abstract message. -/
def jsonFamilyMethods (m : Model) (runtime : String) (id : MessageId) (cases : Cases) : Code :=
  let name := cases.typeName
  let writer := cases.parameter "writer"
  blank
  ++ line "/// Read a message; `None` for `null` or an unknown discriminator."
  ++ enter (jsonReadSignature runtime)
  ++ enter s!"static FACTORIES: ::std::sync::LazyLock<::std::collections::HashMap<&'static str, {runtime}::JsonFactory<{name}>>> = ::std::sync::LazyLock::new(||"
  ++ line "::std::collections::HashMap::from(["
  ++ (m.concreteDescendants id).flatMap (fun other =>
    let type := typeName (m.message other).name
    line s!"    ({type}::JSON_TYPE, (|reader: &mut {runtime}::JsonReader| -> {runtime}::Result<{name}> \x7b Ok({name}::from({type}::read_json_content(reader)?)) \x7d) as {runtime}::JsonFactory<{name}>),")
  ++ line "])"
  ++ leaveWith ");"
  ++ enter "if reader.peek_null()"
  ++ line "reader.skip_value()?;"
  ++ line "return Ok(None);"
  ++ leave
  ++ line "reader.begin_array()?;"
  ++ line "let json_type = reader.next_string()?;"
  ++ enter "let value = match FACTORIES.get(json_type.as_str())"
  ++ line "Some(factory) => Some(factory(reader)?),"
  ++ enter "None =>"
  ++ line "reader.skip_value()?;"
  ++ line "None"
  ++ leave
  ++ leaveWith ";"
  ++ line "reader.end_array()?;"
  ++ line "Ok(value)"
  ++ leave
  ++ blank
  ++ enter (jsonWriteSignature runtime)
  ++ line "writer.begin_array();"
  ++ line "writer.write_str(self.json_type());"
  ++ line "self.write_json_content(writer);"
  ++ line "writer.end_array();"
  ++ leave
  ++ blank
  ++ enter s!"fn write_json_content(&self, {writer}: &mut {runtime}::JsonWriter)"
  ++ cases.dispatch (fun _ => "inner.write_json_content(writer)") none
  ++ leave
  ++ blank
  ++ line "/// JSON discriminator of the contained type."
  ++ enter "pub fn json_type(&self) -> &'static str"
  ++ cases.dispatch (fun _ => "inner.json_type()") none
  ++ leave

end Missive.Source
