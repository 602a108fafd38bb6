import Missive.Source.View

/-!
# Missive.Source.Enumeration

The code of an enumeration.
-/

namespace Missive.Source

/-- The code of an enumeration. -/
def enumerationCode (e : Model.Enumeration) : Code :=
  let name := typeName e.name
  let constants := e.constants.map fun c => (c, variantName c.name)
  let paths := constants.map fun (_, variant) => s!"{name}::{variant}"
  let all := ", ".intercalate paths
  blank
  ++ docs e.docs
  ++ line "#[derive(Debug, Clone, Copy, PartialEq, Eq, Hash, PartialOrd, Ord, Default)]"
  ++ enter s!"pub enum {name}"
  ++ constants.zipIdx.flatMap (fun ((c, variant), index) =>
    docs c.docs ++ (if index == 0 then line "#[default]" else []) ++ line s!"{variant},")
  ++ leave
  ++ blank
  ++ enter s!"impl {name}"
  ++ line s!"pub const ALL: &'static [{name}] = &[{all}];"
  ++ blank
  ++ line "/// Binary code of the constant."
  ++ enter "pub fn code(self) -> i32"
  ++ enter "match self"
  ++ constants.flatMap (fun (c, variant) =>
    line s!"{name}::{variant} => {integerText c.code.toInt},")
  ++ leave
  ++ leave
  ++ blank
  ++ line "/// Unknown codes resolve to the default constant."
  ++ enter "pub fn from_code(code: i32) -> Self"
  ++ enter "match code"
  ++ constants.flatMap (fun (c, variant) =>
    line s!"{integerText c.code.toInt} => {name}::{variant},")
  ++ line "_ => Self::default(),"
  ++ leave
  ++ leave
  ++ blank
  ++ line "/// JSON name of the constant."
  ++ enter "pub fn name(self) -> &'static str"
  ++ enter "match self"
  ++ constants.flatMap (fun (c, variant) => line s!"{name}::{variant} => {literal c.jsonName},")
  ++ leave
  ++ leave
  ++ blank
  ++ line "/// Unknown names resolve to the default constant."
  ++ enter "pub fn from_name(name: &str) -> Self"
  ++ enter "match name"
  ++ constants.flatMap (fun (c, variant) => line s!"{literal c.jsonName} => {name}::{variant},")
  ++ line "_ => Self::default(),"
  ++ leave
  ++ leave
  ++ leave
  ++ blank
  ++ enter s!"impl ::std::fmt::Display for {name}"
  ++ enter "fn fmt(&self, f: &mut ::std::fmt::Formatter<'_>) -> ::std::fmt::Result"
  ++ line "f.write_str(self.name())"
  ++ leave
  ++ leave

end Missive.Source
