import Missive.Model.Identify
import Missive.Source.Expression
import Missive.Source.Plugin

/-!
# Missive.Source.XmlCodec

The plugin for the code that reads messages from XML.

Primitive and enumeration fields are attributes, or elements whose text is the value; a repeated
one is a comma-separated list.  A message field is an element.  If its type is abstract, the
element holds one that names the member of the family; if it is repeated, the element holds one
element an item.  Maps have no form in XML.
-/

namespace Missive.Source

/-- The constant with the name of a field in XML. -/
def xmlConstant (field : FieldView) : String := constantName field.field.name "XML"

/-! ## values in text -/

/-- Read a single value from a text. -/
def xmlReadOne (m : Model) (runtime : String) (value : ValuePlan) (text constant : String) :
    String :=
  match value with
  | .primitive .string => s!"{text}.to_string()"
  | .primitive .bytes => s!"{runtime}::xml::decode_base64({text})?"
  | .primitive _ => s!"{runtime}::xml::parse({text}, Self::{constant})?"
  | value => s!"{valueType m value}::from_name({text}.trim())"

/-- Read a list of values from a text. -/
def xmlReadList (m : Model) (runtime : String) (value : ValuePlan) (text constant : String) :
    String :=
  match value with
  | .primitive .string => s!"{runtime}::xml::split_list({text}).map(str::to_string).collect()"
  | .primitive .bytes =>
    s!"{runtime}::xml::split_list({text}).map({runtime}::xml::decode_base64).collect::<{runtime}::Result<_>>()?"
  | .primitive _ => s!"{runtime}::xml::parse_list({text}, Self::{constant})?"
  | value => s!"{runtime}::xml::split_list({text}).map({valueType m value}::from_name).collect()"

/-- Set a field from a text. -/
def xmlAssign (view : MessageView) (field : FieldView) (value : ValuePlan) (isList : Bool)
    (text : String) : String :=
  let read := if isList then xmlReadList else xmlReadOne
  s!"self.{field.ident} = {read view.model view.runtime value text (xmlConstant field)}"

/-! ## fields -/

/-- The type of an element in the emitted code. -/
def xmlNode (runtime : String) : String := s!"{runtime}::xml::roxmltree::Node<'_, '_>"

/-- The call that reads what no field has, where there is a structure below. -/
def xmlFallback (view : MessageView) (call : String) : Option String :=
  if view.hasBase then some call else none

/-- The method that reads an attribute. -/
def xmlAttributeReader (view : MessageView) : Code :=
  let attributes := view.fields.filterMap fun field => field.plan.textual?.map (field, ·)
  let unused := attributes.isEmpty && !view.hasBase
  let name := if unused then "_name" else "name"
  let value := if unused then "_value" else "value"
  let fallback := xmlFallback view "self.base.read_xml_attribute(name, value)?"
  let last := fallback.getD "\x7b\x7d"
  blank
  ++ enter s!"fn read_xml_attribute(&mut self, {name}: &str, {value}: &str) -> {view.runtime}::Result<()>"
  ++ (if attributes.isEmpty then fallback.toList.flatMap fun call => line s!"{call};"
    else
      enter "match name"
      ++ attributes.flatMap (fun (field, value, isList) =>
        let assign := xmlAssign view field value isList "value"
        line s!"Self::{xmlConstant field} => {assign},")
      ++ line s!"_ => {last},"
      ++ leave)
  ++ line "Ok(())"
  ++ leave

/-- The arm that reads an element of a field. -/
def xmlElementArm (view : MessageView) (field : FieldView) : Code :=
  let runtime := view.runtime
  let arm := s!"Self::{xmlConstant field} =>"
  let place := s!"self.{field.ident}"
  match field.plan.textual?, field.plan with
  | some (value, isList), _ =>
    let text := s!"{runtime}::xml::text(node)"
    line s!"{arm} {xmlAssign view field value isList text},"
  | none, .single value =>
    let type := valueType view.model value
    if value matches .message _ true then
      enter arm
      ++ enter s!"{place} = match {runtime}::xml::first_element(node)"
      ++ line s!"Some(child) => {type}::read_xml(child)?.map(Box::new),"
      ++ line "None => None,"
      ++ leaveWith ";"
      ++ leave
    else line s!"{arm} {place} = Some(Box::new({type}::read_xml_content(node)?)),"
  | none, .repeated element =>
    let type := valueType view.model element
    enter arm
    ++ line s!"{place}.clear();"
    ++ enter s!"for child in {runtime}::xml::elements(node)"
    ++ (if element matches .message _ true then
        enter s!"if let Some(item) = {type}::read_xml(child)?"
        ++ line s!"{place}.push(item);"
        ++ leave
      else line s!"{place}.push({type}::read_xml_content(child)?);")
    ++ leave
    ++ leave
  | none, .map .. => []

/-- The method that reads an element. -/
def xmlElementReader (view : MessageView) : Code :=
  let node := if view.fields.isEmpty && !view.hasBase then "_node" else "node"
  let fallback := xmlFallback view "self.base.read_xml_element(node)?"
  let last := fallback.getD "\x7b\x7d"
  blank
  ++ enter s!"fn read_xml_element(&mut self, {node}: {xmlNode view.runtime}) -> {view.runtime}::Result<()>"
  ++ (if view.fields.isEmpty then fallback.toList.flatMap fun call => line s!"{call};"
    else
      enter "match node.tag_name().name()"
      ++ view.fields.flatMap (xmlElementArm view)
      ++ line s!"_ => {last},"
      ++ leave)
  ++ line "Ok(())"
  ++ leave

/-- The members of a structure with fields; maps are refused. -/
def xmlStorageSurface (view : MessageView) : Except String Code :=
  match view.fields.find? fun field => field.plan matches .map .. with
  | some field => .error s!"field `{field.field.name}` is a map, which has no XML rendering"
  | none =>
    .ok (blank
      ++ view.fields.flatMap (fun field =>
        let name := literal (Model.xmlNameOf field.field.options field.field.name)
        line s!"pub const {xmlConstant field}: &'static str = {name};")
      ++ xmlAttributeReader view
      ++ xmlElementReader view)

/-! ## messages -/

/-- The public reader of a type. -/
def xmlReadSignature (runtime node : String) : String :=
  s!"pub fn read_xml({node}: {xmlNode runtime}) -> {runtime}::Result<Option<Self>>"

/-- The reader of an abstract message, by the name of the element. -/
def xmlFamilyMethods (view : MessageView) : Code :=
  let m := view.model
  let concrete := m.concreteDescendants view.id
  line "/// Read the member of the family named by the element; `None` if unknown."
  ++ enter (xmlReadSignature view.runtime (if concrete.isEmpty then "_node" else "node"))
  ++ (if concrete.isEmpty then line "Ok(None)"
    else
      enter "Ok(match node.tag_name().name()"
      ++ concrete.flatMap (fun id =>
        let name := typeName (m.message id).name
        line s!"{name}::XML_ELEMENT => Some({view.typeName}::from({name}::read_xml_content(node)?)),")
      ++ line "_ => None,"
      ++ leaveWith ")")
  ++ leave

/-- The readers of a concrete message. -/
def xmlMethods (view : MessageView) : Code :=
  let runtime := view.runtime
  let name := literal (Model.xmlNameOf view.message.options view.message.name)
  line s!"pub const XML_ELEMENT: &'static str = {name};"
  ++ blank
  ++ enter s!"fn read_xml_content(node: {xmlNode runtime}) -> {runtime}::Result<Self>"
  ++ line "let mut value = Self::default();"
  ++ enter "for attribute in node.attributes()"
  ++ line "value.read_xml_attribute(attribute.name(), attribute.value())?;"
  ++ leave
  ++ enter s!"for child in {runtime}::xml::elements(node)"
  ++ line "value.read_xml_element(child)?;"
  ++ leave
  ++ line "Ok(value)"
  ++ leave
  ++ blank
  ++ enter (xmlReadSignature runtime "node")
  ++ line "Ok(Some(Self::read_xml_content(node)?))"
  ++ leave

/-- The items after the public type of a message. -/
def xmlPublicSurface (view : MessageView) : Except String Code :=
  let runtime := view.runtime
  .ok (blank
    ++ enter s!"impl {view.typeName}"
    ++ (if view.message.isAbstract then xmlFamilyMethods view else xmlMethods view)
    ++ leave
    ++ blank
    ++ enter s!"impl {runtime}::XmlMessage for {view.typeName}"
    ++ enter s!"fn read_xml(node: {xmlNode runtime}) -> {runtime}::Result<Option<Self>>"
    ++ line "Self::read_xml(node)"
    ++ leave
    ++ leave)

/-- The plugin for XML. -/
def xmlPlugin : Plugin :=
  { name := "xml", enabled := (·.xml), storageSurface := xmlStorageSurface
    publicSurface := xmlPublicSurface }

/-- The plugins that come with the library. -/
def builtinPlugins : Registry := [xmlPlugin]

end Missive.Source
