import Missive.Json.Writer
import Missive.Schema.Basic

/-!
# Missive.Schema.Document

Schemas as JSON documents.

A record is an object, in which unknown properties are ignored, or an array of its properties in
order, of which the last ones may be missing.  Missing properties take their defaults.  A document
is a whole schema if it has the property `files`, and a single file otherwise.
-/

namespace Missive

/-! ## parts of documents -/

namespace Json

/-- The properties that a record gives: by name, or in order. -/
def record? (names : List String) : Json → Option (List (String × Json))
  | .object members => some members
  | .array items => if items.length ≤ names.length then some (names.zip items) else none
  | _ => none

/-- A property, or a default if it is missing. -/
def property {α : Type} (members : List (String × Json)) (name : String) (read : Json → Option α)
    (default : α) : Option α :=
  match members.lookup name with
  | some value => read value
  | none => some default

/-- A property that must be there. -/
def required {α : Type} (members : List (String × Json)) (name : String)
    (read : Json → Option α) : Option α :=
  members.lookup name >>= read

def bool? : Json → Option Bool
  | .bool b => some b
  | _ => none

def string? : Json → Option String
  | .string s => some s
  | _ => none

/-- A whole number in a range, written without a fraction or an exponent. -/
def wholeIn? (least limit : Int) : Json → Option Int
  | .number n => n.heldIn? least limit
  | _ => none

def uint32? (j : Json) : Option UInt32 := (wholeIn? 0 UInt32.size j).map (·.toNat.toUInt32)

def int32? (j : Json) : Option Int32 := (wholeIn? (-(Int32.size / 2)) (Int32.size / 2) j).map .ofInt

/-- A value, or `null` for none. -/
def nullable? {α : Type} (read : Json → Option α) : Json → Option (Option α)
  | .null => some none
  | value => (read value).map some

def list? {α : Type} (read : Json → Option α) : Json → Option (List α)
  | .array items => items.mapM read
  | _ => none

/-- An object of exactly one property. -/
def single? : Json → Option (String × Json)
  | .object [member] => some member
  | _ => none

def ofNullable {α : Type} (write : α → Json) : Option α → Json
  | some a => write a
  | none => .null

end Json

namespace OptionValue

def ofJson? : Json → Option OptionValue
  | .bool b => some (.flag b)
  | .number n => some (.number n.toDouble)
  | .string s => some (.text s)
  | _ => none

/-- An option's value in a document; a number that JSON cannot write is lost. -/
def toJson : OptionValue → Json
  | .flag b => .bool b
  | .number x => if finite : x.isFinite then .number (.real x finite) else .null
  | .text s => .string s

end OptionValue

namespace Options

def ofJson? : Json → Option Options
  | .object members => do
    let entries ← members.mapM fun (name, value) => do return (name, ← OptionValue.ofJson? value)
    return ofList entries
  | _ => none

def toJson (options : Options) : Json :=
  .object (options.entries.map fun (name, value) => (name, value.toJson))

end Options

namespace Primitive

/-- A primitive type: its word, or the word as the name of a `null` property. -/
def ofJson? : Json → Option Primitive
  | .string word => ofKeyword? word
  | .object [(word, .null)] => ofKeyword? word
  | _ => none

end Primitive

namespace FieldType

/-- A field type of at most `depth` levels. -/
def ofJsonWithin? : Nat → Json → Option FieldType
  | 0, _ => none
  | depth + 1, j => do
    match ← j.single? with
    | ("primitive", value) => return .primitive (← Primitive.ofJson? value)
    | ("custom", .string reference) => return .custom reference
    | ("map", .object members) =>
      return .map (← Json.required members "key" (ofJsonWithin? depth))
        (← Json.required members "value" (ofJsonWithin? depth))
    | _ => none

/-- A field type.  A part of a document weighs less than the whole. -/
def ofJson? (j : Json) : Option FieldType := ofJsonWithin? j.weight j

def toJson : FieldType → Json
  | .primitive p => .object [("primitive", .string p.keyword)]
  | .custom reference => .object [("custom", .string reference)]
  | .map key value => .object [("map", .object [("key", key.toJson), ("value", value.toJson)])]

end FieldType

/-! ## definitions -/

namespace Schema

namespace Field

def properties : List String :=
  ["name", "type", "repeated", "transient", "index", "docs", "options"]

def ofJson? (j : Json) : Option Field := do
  let members ← j.record? properties
  return {
    name := ← Json.required members "name" Json.string?
    type := ← Json.required members "type" FieldType.ofJson?
    repeated := ← Json.property members "repeated" Json.bool? false
    transient := ← Json.property members "transient" Json.bool? false
    index := ← Json.property members "index" (Json.nullable? Json.uint32?) none
    docs := ← Json.property members "docs" (Json.nullable? Json.string?) none
    options := ← Json.property members "options" Options.ofJson? .empty }

def toJson (f : Field) : Json :=
  .object
    [("name", .string f.name), ("type", f.type.toJson), ("repeated", .bool f.repeated),
     ("transient", .bool f.transient), ("index", .ofNullable (fun n => .ofNat n.toNat) f.index),
     ("docs", .ofNullable .string f.docs), ("options", f.options.toJson)]

end Field

namespace Constant

def properties : List String := ["name", "index", "docs", "options"]

def ofJson? (j : Json) : Option Constant := do
  let members ← j.record? properties
  return {
    name := ← Json.property members "name" Json.string? ""
    index := ← Json.property members "index" (Json.nullable? Json.int32?) none
    docs := ← Json.property members "docs" (Json.nullable? Json.string?) none
    options := ← Json.property members "options" Options.ofJson? .empty }

def toJson (c : Constant) : Json :=
  .object
    [("name", .string c.name), ("index", .ofNullable (fun n => .ofInt n.toInt) c.index),
     ("docs", .ofNullable .string c.docs), ("options", c.options.toJson)]

end Constant

namespace Enumeration

def properties : List String := ["name", "docs", "options", "constants"]

def ofJson? (j : Json) : Option Enumeration := do
  let members ← j.record? properties
  return {
    name := ← Json.property members "name" Json.string? ""
    docs := ← Json.property members "docs" (Json.nullable? Json.string?) none
    options := ← Json.property members "options" Options.ofJson? .empty
    constants := ← Json.property members "constants" (Json.list? Constant.ofJson?) [] }

def toJson (e : Enumeration) : Json :=
  .object
    [("name", .string e.name), ("docs", .ofNullable .string e.docs),
     ("options", e.options.toJson), ("constants", .array (e.constants.map Constant.toJson))]

end Enumeration

namespace Definition

/-- The properties of a message. -/
def properties : List String :=
  ["name", "docs", "options", "abstract", "extends", "id", "fields", "definitions"]

/-- What a message declares itself. -/
def headOfMembers? (members : List (String × Json)) : Option MessageHead := do
  return {
    name := ← Json.property members "name" Json.string? ""
    docs := ← Json.property members "docs" (Json.nullable? Json.string?) none
    options := ← Json.property members "options" Options.ofJson? .empty
    isAbstract := ← Json.property members "abstract" Json.bool? false
    extends? := ← Json.property members "extends" (Json.nullable? Json.string?) none
    id := ← Json.property members "id" (Json.nullable? Json.uint32?) none
    fields := ← Json.property members "fields" (Json.list? Field.ofJson?) [] }

/-- A definition of at most `depth` levels. -/
def ofJsonWithin? : Nat → Json → Option Definition
  | 0, _ => none
  | depth + 1, j => do
    match ← j.single? with
    | ("message", value) =>
      let members ← value.record? properties
      return .message (← headOfMembers? members)
        (← Json.property members "definitions" (Json.list? (ofJsonWithin? depth)) [])
    | ("enum", value) => return .enumeration (← Enumeration.ofJson? value)
    | _ => none

/-- A definition.  A part of a document weighs less than the whole. -/
def ofJson? (j : Json) : Option Definition := ofJsonWithin? j.weight j

mutual

def toJson : Definition → Json
  | .message head nested => .object [("message", .object
      [("name", .string head.name), ("docs", .ofNullable .string head.docs),
       ("options", head.options.toJson), ("abstract", .bool head.isAbstract),
       ("extends", .ofNullable .string head.extends?),
       ("id", .ofNullable (fun n => .ofNat n.toNat) head.id),
       ("fields", .array (head.fields.map Field.toJson)),
       ("definitions", .array (listToJson nested))])]
  | .enumeration e => .object [("enum", e.toJson)]

def listToJson : List Definition → List Json
  | [] => []
  | d :: rest => toJson d :: listToJson rest

end

end Definition

/-! ## files and schemas -/

namespace File

def properties : List String := ["name", "package", "docs", "options", "definitions"]

def ofJson? (j : Json) : Option File := do
  let members ← j.record? properties
  return {
    name := ← Json.property members "name" Json.string? ""
    package := ← Json.property members "package" (Json.nullable? Json.string?) none
    docs := ← Json.property members "docs" (Json.nullable? Json.string?) none
    options := ← Json.property members "options" Options.ofJson? .empty
    definitions := ← Json.property members "definitions" (Json.list? Definition.ofJson?) [] }

def toJson (f : File) : Json :=
  .object
    [("name", .string f.name), ("package", .ofNullable .string f.package),
     ("docs", .ofNullable .string f.docs), ("options", f.options.toJson),
     ("definitions", .array (f.definitions.map Definition.toJson))]

end File

namespace OptionSet

def properties : List String := ["name", "docs", "options"]

def ofJson? (j : Json) : Option OptionSet := do
  let members ← j.record? properties
  return {
    name := ← Json.property members "name" Json.string? ""
    docs := ← Json.property members "docs" (Json.nullable? Json.string?) none
    options := ← Json.property members "options" Options.ofJson? .empty }

def toJson (s : OptionSet) : Json :=
  .object
    [("name", .string s.name), ("docs", .ofNullable .string s.docs),
     ("options", s.options.toJson)]

end OptionSet

/-- The schema that a document describes. -/
def ofJson? (j : Json) : Option Schema :=
  match j.member? "files" with
  | some files => do
    let sets := j.member? "options"
    return {
      files := ← files.list? File.ofJson?
      options := ← (sets.map (Json.list? OptionSet.ofJson?)).getD (some []) }
  | none => (File.ofJson? j).map fun file => { files := [file] }

/-- The document of a schema. -/
def toJson (s : Schema) : Json :=
  .object
    [("files", .array (s.files.map File.toJson)),
     ("options", .array (s.options.map OptionSet.toJson))]

end Schema

end Missive
