import Missive.Source.BinaryCodec
import Missive.Source.Plugin
import Missive.Source.Properties
import Missive.Source.Visitor

/-!
# Missive.Source.Message

The code of a message.

A concrete message is a structure with its fields.  An abstract message is a type with a case for
each of its variants, and a structure with the fields that it declares.  A structure holds that of
the message it extends as its `base`.
-/

namespace Missive.Source

/-- What all definitions of a compilation are emitted with. -/
structure Context where
  model : Model
  features : Features
  /-- The path of the crate that the code calls. -/
  runtime : String
  plugins : List Plugin
  generics : Generics

/-- Code that is there only with a feature. -/
def when (condition : Bool) (code : Code) : Code := if condition then code else []

/-! ## structures -/

/-- The structure that holds the fields of a message. -/
def structureCode (m : Model) (runtime : String) (view : MessageView) : Code :=
  let message := view.message
  let base := message.parent.toList.flatMap fun parent => line s!"base: {dataName m parent},"
  let storage := view.fields.flatMap fun field =>
    line s!"{field.ident}: {storageType m runtime field.plan},"
  blank
  ++ (if message.isAbstract then
      line s!"/// Fields declared by [`{typeName message.name}`]."
      ++ line "#[derive(Debug, Clone, PartialEq, Default)]"
      ++ enter s!"struct {view.typeName}"
    else
      docs message.docs
      ++ line "#[derive(Debug, Clone, PartialEq, Default)]"
      ++ enter s!"pub struct {view.typeName}")
  ++ base
  ++ storage
  ++ leave

/-- The constants of a structure. -/
def constants (features : Features) (view : MessageView) : Code :=
  let message := view.message
  let isConcrete := !message.isAbstract
  when isConcrete (
    line s!"pub const JSON_TYPE: &'static str = {literal message.jsonType};"
    ++ when features.binary (message.typeId.toList.flatMap fun typeId =>
      line s!"pub const TYPE_ID: u32 = {decimalText typeId.toNat};"))
  ++ view.fields.flatMap (fun field =>
    line s!"pub const {field.prop}: &'static str = {literal field.field.key};"
    ++ when features.binary (field.field.tag.toList.flatMap fun tag =>
      line s!"pub const {field.tag}: u32 = {decimalText tag.toNat};"))
  ++ when (isConcrete && features.reflection) (propertyNames view.inherited view.fields)

/-- The accessors of all fields. -/
def fieldAccessors (m : Model) (runtime : String) (view : MessageView) : Code :=
  view.inherited.flatMap (fun field =>
    (accessors m runtime field).flatMap (Accessor.forwarded field))
  ++ view.fields.flatMap fun field => (accessors m runtime field).flatMap (Accessor.onStorage field)

/-- The discriminators of a concrete message. -/
def discriminators (features : Features) (message : Model.Message) : Code :=
  blank
  ++ enter "pub fn json_type(&self) -> &'static str"
  ++ line "Self::JSON_TYPE"
  ++ leave
  ++ when (features.binary && message.typeId.isSome) (
    blank
    ++ enter "pub fn type_id(&self) -> u32"
    ++ line "Self::TYPE_ID"
    ++ leave)

/-- The members of the structure of a message, with what plugins add to them. -/
def storageMembers (ctx : Context) (view : MessageView) (added : Code) : Code :=
  let m := ctx.model
  let runtime := ctx.runtime
  let message := view.message
  let isConcrete := !message.isAbstract
  let inFamily := m.inFamily view.id
  constants ctx.features view
  ++ when isConcrete (
    blank
    ++ enter "pub fn new() -> Self"
    ++ line "Self::default()"
    ++ leave)
  ++ fieldAccessors m runtime view
  ++ when isConcrete (discriminators ctx.features message)
  ++ jsonFieldWriter runtime view.fields view.hasBase
  ++ jsonFieldReader m runtime view.fields view.hasBase
  ++ when isConcrete (jsonMethods runtime inFamily)
  ++ when ctx.features.binary (
    binaryFieldWriter runtime view.fields view.hasBase
    ++ binaryFieldReader m runtime view.fields view.hasBase
    ++ when isConcrete (binaryMethods runtime (inFamily && message.typeId.isSome)))
  ++ when ctx.features.reflection (
    propertyTable m runtime view.fields view.hasBase
    ++ when isConcrete propertyMethods)
  ++ when (isConcrete && ctx.features.interfaces) (visitMethodCode m ctx.generics view.id)
  ++ added

/-- The structure of a message with its members. -/
def dataCode (ctx : Context) (view : MessageView) : Except CompileError Code := do
  let added ← runPlugins ctx.plugins Plugin.storageSurface view
  return structureCode ctx.model ctx.runtime view
    ++ blank
    ++ enter s!"impl {view.typeName}"
    ++ storageMembers ctx view added
    ++ leave

/-! ## traits and families -/

/-- The traits of a public type, which forward to its methods. -/
def traits (ctx : Context) (typeName : String) : Code :=
  let runtime := ctx.runtime
  blank
  ++ enter s!"impl {runtime}::JsonMessage for {typeName}"
  ++ enter s!"fn read_json(reader: &mut {runtime}::JsonReader) -> {runtime}::Result<Option<Self>>"
  ++ line "Self::read_json(reader)"
  ++ leave
  ++ blank
  ++ enter s!"fn write_json(&self, writer: &mut {runtime}::JsonWriter)"
  ++ line "self.write_json(writer)"
  ++ leave
  ++ leave
  ++ when ctx.features.binary (
    blank
    ++ enter s!"impl {runtime}::BinaryMessage for {typeName}"
    ++ enter s!"fn read_binary(reader: &mut {runtime}::DataReader<'_>) -> {runtime}::Result<Option<Self>>"
    ++ line "Self::read_binary(reader)"
    ++ leave
    ++ blank
    ++ enter s!"fn write_binary(&self, writer: &mut {runtime}::DataWriter)"
    ++ line "self.write_binary(writer)"
    ++ leave
    ++ leave)
  ++ when ctx.features.reflection (propertyTrait runtime typeName)

/-- The type with the cases of an abstract message. -/
def casesType (message : Model.Message) (cases : Cases) : Code :=
  blank ++ docs message.docs ++ line "#[derive(Debug, Clone, PartialEq)]"
  ++ if cases.isEmpty then line s!"pub enum {cases.typeName} \x7b\x7d"
    else
      enter s!"pub enum {cases.typeName}"
      ++ cases.items.flatMap (fun c => line s!"{c.name}({c.name}),")
      ++ leave

/-- The expression that makes a value of an abstract message from one that extends it: a case of
its own, or of the abstract case that stands between. -/
def upcast? (m : Model) (cases : Cases) (id : MessageId) : Option String :=
  let name := typeName (m.message id).name
  if cases.items.any (·.id == id) then some s!"{cases.typeName}::{name}(value)"
  else
    (cases.items.find? fun c => c.isAbstract && (m.descendants c.id).contains id).map fun holder =>
      s!"{cases.typeName}::{holder.name}({holder.name}::from(value))"

/-- The conversions to an abstract message from those that extend it. -/
def upcasts (m : Model) (id : MessageId) (cases : Cases) : Code :=
  (m.descendants id).flatMap fun other =>
    let name := typeName (m.message other).name
    (upcast? m cases other).toList.flatMap fun value =>
      blank
      ++ enter s!"impl From<{name}> for {cases.typeName}"
      ++ enter s!"fn from(value: {name}) -> Self"
      ++ line value
      ++ leave
      ++ leave

/-- The members of the type of an abstract message. -/
def familyMembers (ctx : Context) (view : MessageView) (cases : Cases) : Code :=
  let m := ctx.model
  let runtime := ctx.runtime
  blank
  ++ enter s!"impl {cases.typeName}"
  ++ (view.inherited ++ view.fields).flatMap (fun field =>
    (accessors m runtime field).flatMap (Accessor.dispatched cases field))
  ++ jsonFamilyMethods m runtime view.id cases
  ++ when ctx.features.binary (binaryFamilyMethods m runtime view.id cases)
  ++ when ctx.features.reflection (propertyFamilyMethods runtime cases)
  ++ when ctx.features.interfaces (visitFamilyMethod m ctx.generics view.id cases)
  ++ leave

/-- The code of an abstract message. -/
def familyCode (ctx : Context) (view : MessageView) : Except CompileError Code := do
  let m := ctx.model
  let cases := Cases.of m view.id
  let added ← runPlugins ctx.plugins Plugin.publicSurface { view with typeName := cases.typeName }
  let data ← dataCode ctx view
  return when ctx.features.interfaces (visitorTrait m ctx.generics view.id cases)
    ++ casesType view.message cases
    ++ upcasts m view.id cases
    ++ familyMembers ctx view cases
    ++ traits ctx cases.typeName
    ++ added
    ++ data

/-- The code of a concrete message. -/
def concreteCode (ctx : Context) (view : MessageView) : Except CompileError Code := do
  let data ← dataCode ctx view
  let added ← runPlugins ctx.plugins Plugin.publicSurface view
  return data ++ traits ctx view.typeName ++ added

/-- The code of a message. -/
def messageCode (ctx : Context) (id : MessageId) : Except CompileError Code := do
  let m := ctx.model
  let fields ← ownFields m id
  let inherited ← inheritedFields m id
  let view : MessageView :=
    { model := m, id, typeName := dataName m id, runtime := ctx.runtime, fields, inherited }
  if view.message.isAbstract then familyCode ctx view else concreteCode ctx view

end Missive.Source
