import Missive.Number.Shortest

/-!
# Missive.Model.Error

Why a schema has no model.
-/

namespace Missive

/-- Why a schema cannot be compiled. -/
inductive SchemaError where
  | duplicateDefinition (name : String)
  | unresolvedType (message field reference : String)
  | unresolvedParent (message parent : String)
  | parentNotMessage (message parent : String)
  | inheritanceCycle (message : String)
  | abstractExtendsConcrete (message parent : String)
  | repeatedMap (message field : String)
  | duplicateField (message field : String)
  | identifierClash (message field ident other : String)
  | duplicateKey (message field key other : String)
  | duplicateTag (message field : String) (tag : UInt32) (other : String)
  | reservedTag (message field : String)
  | duplicateTypeId (message : String) (id : UInt32) (other : String)
  | reservedTypeId (message : String)
  | emptyEnumeration (name : String)
  | negativeCode (enumeration constant : String) (code : Int32)
  | duplicateCode (enumeration constant : String) (code : Int32) (other : String)
  | duplicateConstant (enumeration constant : String)
  deriving Repr, DecidableEq

/-- The wording of an error. -/
def SchemaError.message : SchemaError → String
  | .duplicateDefinition name => s!"definition `{name}` is declared more than once"
  | .unresolvedType message field reference =>
    s!"field `{message}.{field}` refers to unknown type `{reference}`"
  | .unresolvedParent message parent => s!"`{message}` extends unknown type `{parent}`"
  | .parentNotMessage message parent => s!"`{message}` extends `{parent}`, which is not a message"
  | .inheritanceCycle message => s!"inheritance cycle through `{message}`"
  | .abstractExtendsConcrete message parent =>
    s!"abstract `{message}` cannot extend concrete `{parent}`"
  | .repeatedMap message field => s!"field `{message}.{field}` is a repeated map"
  | .duplicateField message field =>
    s!"field `{message}.{field}` is already declared by `{message}` or an ancestor"
  | .identifierClash message field ident other =>
    s!"field `{message}.{field}` generates `{ident}`, already generated for `{other}`"
  | .duplicateKey message field key other =>
    s!"field `{message}.{field}` uses key `{key}`, already used by `{other}`"
  | .duplicateTag message field tag other =>
    s!"field `{message}.{field}` uses tag {decimalText tag.toNat}, already used by `{other}`"
  | .reservedTag message field =>
    s!"field `{message}.{field}` uses tag 0, reserved for the type discriminator"
  | .duplicateTypeId message id other =>
    s!"`{message}` uses type id {decimalText id.toNat}, already used by `{other}`"
  | .reservedTypeId message => s!"`{message}` uses type id 0, reserved for the discriminator slot"
  | .emptyEnumeration name => s!"enum `{name}` declares no constants"
  | .negativeCode enumeration constant code =>
    s!"constant `{enumeration}.{constant}` has negative code {integerText code.toInt}"
  | .duplicateCode enumeration constant code other =>
    s!"constant `{enumeration}.{constant}` uses code {integerText code.toInt}, already used by `{other}`"
  | .duplicateConstant enumeration constant =>
    s!"constant `{enumeration}.{constant}` is declared twice"

end Missive
