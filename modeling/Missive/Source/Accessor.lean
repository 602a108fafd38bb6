import Missive.Source.Expression

/-!
# Missive.Source.Accessor

The accessors of fields.

An accessor is laid out in three ways: on the storage itself, forwarded to the structure below,
and dispatched over the cases of an abstract message.
-/

namespace Missive.Source

/-- What an accessor returns. -/
inductive Returns where
  /-- The expression of its body. -/
  | value
  /-- The message itself. -/
  | chain
  /-- The message itself, unless the body fails. -/
  | tryChain
  deriving DecidableEq

/-- An accessor of a field. -/
structure Accessor where
  name : String
  mutates : Bool := false
  parameters : List (String × String) := []
  result : String
  returns : Returns := .value
  body : List String

namespace Accessor

/-- An accessor that changes the field. -/
def chain (name : String) (parameters : List (String × String)) (body : List String) : Accessor :=
  { name, mutates := true, parameters, result := "&mut Self", returns := .chain, body }

/-- Whether an accessor only looks at the field. -/
def isGetter (a : Accessor) : Bool := a.returns == .value && !a.mutates

/-- The signature, with each parameter's name as `rename` gives it. -/
def signature (a : Accessor) (rename : String → String) : String :=
  let receiver := if a.mutates then "&mut self" else "&self"
  let parameters := "".intercalate
    (a.parameters.map fun (name, type) => s!", {rename name}: {type}")
  s!"pub fn {a.name}({receiver}{parameters}) -> {a.result}"

/-- A call of the same accessor elsewhere. -/
def call (a : Accessor) (target : String) : String :=
  let arguments := ", ".intercalate (a.parameters.map Prod.fst)
  s!"{target}.{a.name}({arguments})"

/-- The last line of the body. -/
def last (a : Accessor) : Option String :=
  match a.returns with
  | .value => none
  | .chain => some "self"
  | .tryChain => some "Ok(self)"

/-- The documentation of an accessor, which only a getter has. -/
def comment (field : FieldView) (a : Accessor) : Code :=
  if a.isGetter then docs field.field.docs else []

/-- The accessor on the storage itself. -/
def onStorage (field : FieldView) (a : Accessor) : Code :=
  blank ++ a.comment field
  ++ enter (a.signature id)
  ++ a.body.flatMap line
  ++ a.last.toList.flatMap line
  ++ leave

/-- The accessor forwarded to the structure below. -/
def forwarded (field : FieldView) (a : Accessor) : Code :=
  let call := a.call "self.base"
  let statement := match a.returns with
    | .value => call
    | .chain => s!"{call};"
    | .tryChain => s!"{call}?;"
  blank ++ a.comment field
  ++ enter (a.signature id)
  ++ line statement
  ++ a.last.toList.flatMap line
  ++ leave

/-- The accessor dispatched over cases. -/
def dispatched (cases : Cases) (field : FieldView) (a : Accessor) : Code :=
  let call := a.call "inner"
  let arm := match a.returns with
    | .value => call
    | .chain => s!"\x7b {call}; \x7d"
    | .tryChain => s!"\x7b {call}?; \x7d"
  blank ++ a.comment field
  ++ enter (a.signature cases.parameter)
  ++ cases.dispatch (fun _ => arm) a.last
  ++ leave

end Accessor

/-- The accessors of a field with their bodies on the storage. -/
def accessors (m : Model) (runtime : String) (field : FieldView) : List Accessor :=
  let ident := field.ident
  let name := field.field.name
  let place := s!"self.{ident}"
  let setter := accessorName "set" name
  match field.plan with
  | .single value =>
    let type := valueType m value
    if value.isMessage then
      [{ name := ident, result := s!"Option<&{type}>", body := [s!"{place}.as_deref()"] },
       { name := mutableName name, mutates := true, result := s!"Option<&mut {type}>"
         body := [s!"{place}.as_deref_mut()"] },
       { name := accessorName "has" name, result := "bool", body := [s!"{place}.is_some()"] },
       .chain setter [("value", s!"impl Into<Option<{type}>>")]
         [s!"{place} = value.into().map(Box::new);"]]
    else if isCopy value then
      [{ name := ident, result := type, body := [place] },
       .chain setter [("value", type)] [s!"{place} = value;"]]
    else
      let (borrowed, into) :=
        if value == .primitive .string then ("&str", "impl Into<String>")
        else ("&[u8]", "impl Into<Vec<u8>>")
      [{ name := ident, result := borrowed, body := [s!"&{place}"] },
       .chain setter [("value", into)] [s!"{place} = value.into();"]]
  | .repeated element =>
    let type := valueType m element
    [{ name := ident, result := s!"&[{type}]", body := [s!"&{place}"] },
     { name := mutableName name, mutates := true, result := s!"&mut Vec<{type}>"
       body := [s!"&mut {place}"] },
     .chain setter [("values", s!"impl IntoIterator<Item = {type}>")]
       [s!"{place}.clear();", s!"{place}.extend(values);"],
     .chain (accessorName "add" name) [("value", type)] [s!"{place}.push(value);"]]
  | .map key value =>
    let keyType := valueType m key
    let type := valueType m value
    [{ name := ident, result := s!"&{storageType m runtime field.plan}", body := [s!"&{place}"] },
     .chain setter [("entries", s!"impl IntoIterator<Item = ({keyType}, {type})>")]
       [s!"{place}.clear();", s!"{place}.extend(entries);"],
     { name := accessorName "put" name, mutates := true
       parameters := [("key", keyType), ("value", type)]
       result := s!"{runtime}::Result<&mut Self>", returns := .tryChain
       body :=
         [s!"if {place}.contains_key(&key) \x7b",
          s!"    return Err({runtime}::Error::DuplicateKey \x7b property: Self::{field.prop}, key: format!(\"\x7bkey:?\x7d\") \x7d);",
          "\x7d",
          s!"{place}.insert(key, value);"] }]

end Missive.Source
