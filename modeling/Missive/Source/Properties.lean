import Missive.Source.Expression

/-!
# Missive.Source.Properties

The code that gives access to properties by name.
-/

namespace Missive.Source

/-- The expression that gets a property, and the statement that sets it. -/
def propertyAccess (m : Model) (runtime : String) (field : FieldView) : String × String :=
  let ident := field.ident
  let prop := field.prop
  let downcast := s!"this.{ident} = value.downcast(Self::{prop})?;"
  match field.plan with
  | .single (.primitive p) =>
    (if isCopy (.primitive p) then s!"{runtime}::Value::from(this.{ident})"
      else s!"{runtime}::Value::from(this.{ident}.clone())",
     s!"this.{ident} = {runtime}::FromValue::from_value(value, Self::{prop})?;")
  | .single (.enumeration _) => (s!"{runtime}::Value::other(this.{ident})", downcast)
  | .single (.message id isAbstract) =>
    let type := valueType m (.message id isAbstract)
    (s!"{runtime}::Value::other(this.{ident}.as_deref().cloned())",
     s!"this.{ident} = value.downcast::<Option<{type}>>(Self::{prop})?.map(Box::new);")
  | .repeated _ | .map .. => (s!"{runtime}::Value::other(this.{ident}.clone())", downcast)

/-- The entry of a property in the table. -/
def propertyEntry (m : Model) (runtime : String) (field : FieldView) : Code :=
  let (get, set) := propertyAccess m runtime field
  line s!"    {runtime}::Property \x7b"
  ++ line s!"        name: Self::{field.prop},"
  ++ line s!"        get: |this| {get},"
  ++ line s!"        set: |this, value| \x7b {set} Ok(()) \x7d,"
  ++ line "    \x7d,"

/-- The table of properties of a structure, and the methods that look into it. -/
def propertyTable (m : Model) (runtime : String) (fields : List FieldView) (hasBase : Bool) :
    Code :=
  let declaration := s!"const PROPERTY_TABLE: &'static [{runtime}::Property<Self>] = &["
  let unknown := s!"Err({runtime}::reflect::unknown(name))"
  let value := if hasBase || !fields.isEmpty then "value" else "_value"
  let fallbackGet := if hasBase then "self.base.reflect_get(name)" else unknown
  let fallbackSet := if hasBase then "self.base.reflect_set(name, value)" else unknown
  let lookup := s!"match {runtime}::reflect::lookup(Self::PROPERTY_TABLE, name)"
  blank
  ++ (if fields.isEmpty then line s!"{declaration}];"
    else line declaration ++ fields.flatMap (propertyEntry m runtime) ++ line "];")
  ++ blank
  ++ enter s!"fn reflect_get(&self, name: &str) -> {runtime}::Result<{runtime}::Value>"
  ++ enter lookup
  ++ line "Some(property) => Ok((property.get)(self)),"
  ++ line s!"None => {fallbackGet},"
  ++ leave
  ++ leave
  ++ blank
  ++ enter s!"fn reflect_set(&mut self, name: &str, {value}: {runtime}::Value) -> {runtime}::Result<()>"
  ++ enter lookup
  ++ line s!"Some(property) => (property.set)(self, {value}),"
  ++ line s!"None => {fallbackSet},"
  ++ leave
  ++ leave

/-- The names of all properties of a concrete message. -/
def propertyNames (inherited fields : List FieldView) : Code :=
  let names := ", ".intercalate ((inherited ++ fields).map fun field => literal field.field.key)
  line s!"pub const PROPERTY_NAMES: &'static [&'static str] = &[{names}];"

/-- The methods of a concrete message. -/
def propertyMethods : Code :=
  blank
  ++ line "/// Property keys, ancestor keys first."
  ++ enter "pub fn property_names(&self) -> &'static [&'static str]"
  ++ line "Self::PROPERTY_NAMES"
  ++ leave

/-- The methods of an abstract message. -/
def propertyFamilyMethods (runtime : String) (cases : Cases) : Code :=
  let name := cases.parameter "name"
  let value := cases.parameter "value"
  blank
  ++ line "/// Property keys of the contained type, ancestor keys first."
  ++ enter "pub fn property_names(&self) -> &'static [&'static str]"
  ++ cases.dispatch (fun _ => "inner.property_names()") none
  ++ leave
  ++ blank
  ++ enter s!"fn reflect_get(&self, {name}: &str) -> {runtime}::Result<{runtime}::Value>"
  ++ cases.dispatch (fun _ => "inner.reflect_get(name)") none
  ++ leave
  ++ blank
  ++ enter s!"fn reflect_set(&mut self, {name}: &str, {value}: {runtime}::Value) -> {runtime}::Result<()>"
  ++ cases.dispatch (fun _ => "inner.reflect_set(name, value)") none
  ++ leave

/-- The trait by which any message gives access to its properties. -/
def propertyTrait (runtime typeName : String) : Code :=
  blank
  ++ enter s!"impl {runtime}::Reflective for {typeName}"
  ++ enter "fn properties(&self) -> &'static [&'static str]"
  ++ line "self.property_names()"
  ++ leave
  ++ blank
  ++ enter s!"fn get(&self, name: &str) -> {runtime}::Result<{runtime}::Value>"
  ++ line "self.reflect_get(name)"
  ++ leave
  ++ blank
  ++ enter s!"fn set(&mut self, name: &str, value: {runtime}::Value) -> {runtime}::Result<()>"
  ++ line "self.reflect_set(name, value)"
  ++ leave
  ++ leave

end Missive.Source
