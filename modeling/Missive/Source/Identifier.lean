import Missive.Number.Shortest
import Missive.Text.Words

/-!
# Missive.Source.Identifier

The names that the emitted Rust code uses.

Names in a schema are free-form.  Each is put into the case that its place asks for, made to begin
with a letter, and kept apart from the words of the language, from the names that every module
uses, and from the methods that every message has.
-/

namespace Missive.Source

open Text

/-! ## names that are taken -/

/-- Words of the language that may still be written as raw identifiers. -/
def keywords : List String :=
  ["abstract", "as", "async", "await", "become", "box", "break", "const", "continue", "do",
   "dyn", "else", "enum", "extern", "false", "final", "fn", "for", "gen", "if", "impl", "in",
   "let", "loop", "macro", "match", "mod", "move", "mut", "override", "priv", "pub", "ref",
   "return", "static", "struct", "trait", "true", "try", "type", "typeof", "unsafe", "unsized",
   "use", "virtual", "where", "while", "yield"]

/-- Words of the language that may not. -/
def reservedWords : List String := ["self", "Self", "super", "crate", "_"]

/-- Names that a generated type must not hide. -/
def preludeNames : List String :=
  ["Self", "Option", "Some", "None", "Result", "Ok", "Err", "Box", "Vec", "String", "Default",
   "Clone", "Copy", "Debug", "PartialEq", "Eq", "PartialOrd", "Ord", "Hash", "From", "Into",
   "Send", "Sync", "Sized", "Drop", "Iterator", "IntoIterator", "Extend", "ToString",
   "ToOwned", "AsRef", "AsMut", "Fn", "FnMut", "FnOnce"]

/-- Methods that every message has. -/
def messageMethods : List String :=
  ["new", "base", "visit", "json_type", "type_id", "property_names", "reflect_get",
   "reflect_set", "read_json", "read_json_content", "read_json_field", "write_json",
   "write_json_content", "write_json_fields", "read_binary", "read_binary_fields",
   "read_binary_field", "write_binary", "write_binary_fields", "read_xml", "read_xml_content",
   "read_xml_attribute", "read_xml_element", "to_json_value", "to_json_string",
   "from_json_value", "from_json_str", "to_bytes", "from_bytes", "from_xml_str", "properties",
   "get", "set"]

/-! ## names for the parts of a schema -/

/-- A name that begins with a letter: the letter is put in front of the empty name and of a
digit. -/
def beginWith (letter : String) (name : String) : String :=
  match name.toList with
  | [] => letter
  | c :: _ => if c.isDigit then letter ++ name else name

/-- The type of a message or an enumeration. -/
def typeName (name : String) : String :=
  let ident := beginWith "T" (camelCase name)
  if preludeNames.contains ident then ident ++ "_" else ident

/-- The structure with the fields that an abstract message declares. -/
def baseName (name : String) : String := typeName name ++ "Base"

/-- The visitor of a family. -/
def visitorName (name : String) : String := typeName name ++ "Visitor"

/-- The visitor's case for a concrete message. -/
def visitMethod (name : String) : String := "visit_" ++ snakeCase (typeName name)

/-- The stem that the storage and the accessors of a field share. -/
def fieldStem (name : String) : String :=
  let stem := beginWith "f" (snakeCase name)
  if messageMethods.contains stem || reservedWords.contains stem then stem ++ "_" else stem

/-- The storage and the getter of a field. -/
def fieldName (name : String) : String :=
  let stem := fieldStem name
  if keywords.contains stem then "r#" ++ stem else stem

/-- An accessor of a field that does something, such as `set`. -/
def accessorName (action name : String) : String := action ++ "_" ++ fieldStem name

/-- The accessor that lends a field for change. -/
def mutableName (name : String) : String := fieldStem name ++ "_mut"

/-- A constant that belongs to a field, such as its `TAG`. -/
def constantName (name role : String) : String := beginWith "F" (shoutyCase name) ++ "_" ++ role

/-- The variant of an enumeration constant. -/
def variantName (name : String) : String :=
  let ident := beginWith "V" (camelCase name)
  if ident == "Self" then ident ++ "_" else ident

/-- The element or attribute that a name has in XML unless an option says otherwise. -/
def xmlName (name : String) : String := kebabCase name

/-! ## names that are free -/

/-- The first of `base` with a number from `n` on that is not taken, looking at most `fuel`
times. -/
def numbered? (base : String) (taken : List String) : Nat → Nat → Option String
  | 0, _ => none
  | fuel + 1, n =>
    let candidate := base ++ decimalText n
    if taken.contains candidate then numbered? base taken fuel (n + 1) else some candidate

/-- A name unless it is taken, then the name with `2`, `3` and so on.  One of the first
`taken.length + 1` numbers is free. -/
def fresh (base : String) (taken : List String) : String :=
  if taken.contains base then (numbered? base taken (taken.length + 1) 2).getD base else base

end Missive.Source
