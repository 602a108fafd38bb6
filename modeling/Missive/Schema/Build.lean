import Missive.Schema.Basic

/-!
# Missive.Schema.Build

Writing schemas as Lean terms: a definition begins with its name and its parts, and each call adds
one declaration to it.
-/

namespace Missive.Schema

/-! ## fields -/

namespace Field

/-- A field with one value of a primitive type. -/
def ofPrimitive (name : String) (p : Primitive) : Field := { name, type := .primitive p }

/-- A field with one value of a message or an enumeration. -/
def ofCustom (name reference : String) : Field := { name, type := .custom reference }

/-- A field with a map. -/
def ofMap (name : String) (key value : FieldType) : Field := { name, type := .map key value }

/-- The field with any number of values. -/
def many (f : Field) : Field := { f with repeated := true }

/-- The field left out of the binary encoding. -/
def asTransient (f : Field) : Field := { f with transient := true }

/-- The field with a binary tag. -/
def withIndex (n : UInt32) (f : Field) : Field := { f with index := some n }

def withOption (name : String) (value : OptionValue) (f : Field) : Field :=
  { f with options := f.options.insert name value }

def withDocs (text : String) (f : Field) : Field := { f with docs := some text }

end Field

/-! ## enumerations -/

/-- A constant whose code is given, or assigned. -/
def Constant.of (name : String) (index : Option Int32) : Constant := { name, index }

def Constant.withOption (name : String) (value : OptionValue) (c : Constant) : Constant :=
  { c with options := c.options.insert name value }

namespace Definition

/-- An enumeration of constants. -/
def ofConstants (name : String) (constants : List Constant) : Definition :=
  .enumeration { name, constants }

/-- An enumeration of names, whose codes are assigned. -/
def ofNames (name : String) (names : List String) : Definition :=
  ofConstants name (names.map fun constant => .of constant none)

/-! ## messages -/

/-- A concrete message. -/
def ofFields (name : String) (fields : List Field) : Definition := .message { name, fields } []

/-- An abstract message. -/
def ofFamily (name : String) (fields : List Field) : Definition :=
  .message { name, fields, isAbstract := true } []

/-- Change what a message declares itself. -/
def mapHead (f : MessageHead → MessageHead) : Definition → Definition
  | .message head nested => .message (f head) nested
  | d => d

/-- The message as an extension of another. -/
def extending (parent : String) (d : Definition) : Definition :=
  d.mapHead fun head => { head with extends? := some parent }

/-- The message with a binary discriminator. -/
def withId (n : UInt32) (d : Definition) : Definition :=
  d.mapHead fun head => { head with id := some n }

/-- The message with one more definition inside it. -/
def withNested (d inner : Definition) : Definition :=
  match d with
  | .message head nested => .message head (nested ++ [inner])
  | .enumeration e => .enumeration e

def withOption (name : String) (value : OptionValue) (d : Definition) : Definition :=
  d.mapHead fun head => { head with options := head.options.insert name value }

def withDocs (text : String) (d : Definition) : Definition :=
  d.mapHead fun head => { head with docs := some text }

end Definition

end Missive.Schema
