import Missive.Scalar

/-!
# Missive.Schema.Basic

Schemas: files of message and enumeration definitions, as they are declared.

Names are free-form, references are by name and unresolved, and every definition may carry
options.
-/

namespace Missive

/-- The primitive types of fields.  Several of them hold the same scalars and differ in how these
travel. -/
inductive Primitive where
  | bool
  | int32
  | uint32
  | sint32
  | fixed32
  | sfixed32
  | int64
  | uint64
  | sint64
  | fixed64
  | sfixed64
  | float
  | double
  | string
  | bytes
  deriving Repr, DecidableEq

namespace Primitive

/-- Every primitive type. -/
def all : List Primitive :=
  [.bool, .int32, .uint32, .sint32, .fixed32, .sfixed32, .int64, .uint64, .sint64, .fixed64,
   .sfixed64, .float, .double, .string, .bytes]

/-- The word for a primitive type in schemas. -/
def keyword : Primitive → String
  | .bool => "bool"
  | .int32 => "int32"
  | .uint32 => "uint32"
  | .sint32 => "sint32"
  | .fixed32 => "fixed32"
  | .sfixed32 => "sfixed32"
  | .int64 => "int64"
  | .uint64 => "uint64"
  | .sint64 => "sint64"
  | .fixed64 => "fixed64"
  | .sfixed64 => "sfixed64"
  | .float => "float"
  | .double => "double"
  | .string => "string"
  | .bytes => "bytes"

/-- The primitive type of a word. -/
def ofKeyword? (word : String) : Option Primitive := all.find? (·.keyword == word)

/-- The scalars that a primitive type holds. -/
def scalarType : Primitive → ScalarType
  | .bool => .bool
  | .int32 | .sint32 | .sfixed32 => .int
  | .uint32 | .fixed32 => .uint
  | .int64 | .sint64 | .sfixed64 => .long
  | .uint64 | .fixed64 => .ulong
  | .float => .float
  | .double => .double
  | .string => .string
  | .bytes => .bytes

theorem ofKeyword?_keyword (p : Primitive) : ofKeyword? p.keyword = some p := by
  cases p <;> rfl

end Primitive

/-! ## options -/

/-- The value of an option. -/
inductive OptionValue where
  | flag (b : Bool)
  | number (x : Double)
  | text (s : String)
  deriving DecidableEq

/-- Options by name, in the order of their names; no name occurs twice. -/
structure Options where
  entries : List (String × OptionValue)
  ordered : entries.Pairwise (fun a b => a.1 < b.1)
  deriving DecidableEq

namespace Options

/-- No options. -/
def empty : Options := ⟨[], .nil⟩

instance : EmptyCollection Options := ⟨empty⟩

/-- Put an entry where its name belongs, in place of one of that name. -/
def insertEntry (name : String) (value : OptionValue) :
    List (String × OptionValue) → List (String × OptionValue)
  | [] => [(name, value)]
  | (other, old) :: rest =>
    if name == other then (name, value) :: rest
    else if name < other then (name, value) :: (other, old) :: rest
    else (other, old) :: insertEntry name value rest

theorem eq_or_mem_of_mem_insertEntry {name : String} {value : OptionValue}
    {entry : String × OptionValue} {entries : List (String × OptionValue)}
    (h : entry ∈ insertEntry name value entries) : entry = (name, value) ∨ entry ∈ entries := by
  induction entries with
  | nil => exact .inl (List.mem_singleton.mp h)
  | cons first rest ih =>
      rw [insertEntry] at h
      split at h
      · exact (List.mem_cons.mp h).imp_right (List.mem_cons_of_mem _)
      · split at h
        · exact List.mem_cons.mp h
        · cases h with
          | head => exact .inr (.head _)
          | tail _ h => exact (ih h).imp_right (List.mem_cons_of_mem _)

theorem ordered_insertEntry (name : String) (value : OptionValue)
    {entries : List (String × OptionValue)} (h : entries.Pairwise (fun a b => a.1 < b.1)) :
    (insertEntry name value entries).Pairwise (fun a b => a.1 < b.1) := by
  induction entries with
  | nil => exact List.pairwise_singleton _ _
  | cons first rest ih =>
      obtain ⟨hfirst, hrest⟩ := List.pairwise_cons.mp h
      rw [insertEntry]
      split
      · next heq =>
          obtain rfl := eq_of_beq heq
          exact List.pairwise_cons.mpr ⟨hfirst, hrest⟩
      · next hne =>
          split
          · next hlt =>
              refine List.pairwise_cons.mpr ⟨fun entry hentry => ?_, h⟩
              cases hentry with
              | head => exact hlt
              | tail _ hentry => exact String.lt_trans hlt (hfirst entry hentry)
          · next hlt =>
              refine List.pairwise_cons.mpr ⟨fun entry hentry => ?_, ih hrest⟩
              obtain rfl | hentry := eq_or_mem_of_mem_insertEntry hentry
              · have hneq : first.1 ≠ name := fun heq => hne (beq_iff_eq.mpr heq.symm)
                exact Std.lt_of_le_of_ne (String.not_lt.mp hlt) hneq
              · exact hfirst entry hentry

/-- Set an option. -/
def insert (options : Options) (name : String) (value : OptionValue) : Options :=
  ⟨insertEntry name value options.entries, ordered_insertEntry name value options.ordered⟩

/-- Options from entries in any order; of two with one name the later counts. -/
def ofList (entries : List (String × OptionValue)) : Options :=
  entries.foldl (fun options (name, value) => options.insert name value) empty

def get? (options : Options) (name : String) : Option OptionValue := options.entries.lookup name

/-- The names of the options that are set. -/
def names (options : Options) : List String := options.entries.map Prod.fst

/-- Whether an option is the flag `true`. -/
def flag (options : Options) (name : String) : Bool := options.get? name == some (.flag true)

/-- The text of an option that has one. -/
def text? (options : Options) (name : String) : Option String :=
  match options.get? name with
  | some (.text s) => some s
  | _ => none

end Options

/-! ## definitions -/

/-- The type that a field declares. -/
inductive FieldType where
  | primitive (p : Primitive)
  /-- A message or an enumeration by name. -/
  | custom (reference : String)
  | map (key value : FieldType)
  deriving DecidableEq

namespace Schema

/-- A field of a message. -/
structure Field where
  name : String
  type : FieldType
  repeated : Bool := false
  /-- Transient fields are left out of the binary encoding. -/
  transient : Bool := false
  /-- The binary tag, if it is fixed. -/
  index : Option UInt32 := none
  docs : Option String := none
  options : Options := .empty
  deriving DecidableEq

/-- A constant of an enumeration. -/
structure Constant where
  name : String := ""
  /-- The binary code, if it is fixed. -/
  index : Option Int32 := none
  docs : Option String := none
  options : Options := .empty
  deriving DecidableEq

/-- An enumeration.  Its first constant is the one that values start with. -/
structure Enumeration where
  name : String := ""
  docs : Option String := none
  options : Options := .empty
  constants : List Constant := []
  deriving DecidableEq

/-- What a message declares itself, without the definitions inside it. -/
structure MessageHead where
  name : String := ""
  docs : Option String := none
  options : Options := .empty
  /-- An abstract message has no values but those of the messages that extend it. -/
  isAbstract : Bool := false
  /-- The message that is extended. -/
  extends? : Option String := none
  /-- The binary type discriminator, if it is fixed. -/
  id : Option UInt32 := none
  fields : List Field := []
  deriving DecidableEq

/-- A definition; messages may hold further ones. -/
inductive Definition where
  | message (head : MessageHead) (nested : List Definition)
  | enumeration (e : Enumeration)

namespace Definition

def name : Definition → String
  | .message head _ => head.name
  | .enumeration e => e.name

def docs : Definition → Option String
  | .message head _ => head.docs
  | .enumeration e => e.docs

def options : Definition → Options
  | .message head _ => head.options
  | .enumeration e => e.options

end Definition

/-- A schema file. -/
structure File where
  name : String := ""
  package : Option String := none
  docs : Option String := none
  options : Options := .empty
  definitions : List Definition := []

/-- Named options for a whole schema. -/
structure OptionSet where
  name : String := ""
  docs : Option String := none
  options : Options := .empty
  deriving DecidableEq

end Schema

/-- A schema: its files, in order, and the options for all of them. -/
structure Schema where
  files : List Schema.File := []
  options : List Schema.OptionSet := []

namespace Schema

/-- A schema of one file. -/
def ofDefinitions (definitions : List Definition) : Schema :=
  { files := [{ name := "schema", definitions }] }

/-- Give a name to the files that have none. -/
def nameFiles (name : String) (schema : Schema) : Schema :=
  { schema with files := schema.files.map fun file =>
      if file.name.isEmpty then { file with name } else file }

end Schema

end Missive
