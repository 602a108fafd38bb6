import Missive.Schema.Basic

/-!
# Missive.Model.Basic

Models: schemas whose references are resolved.

Messages and enumerations are numbered in the order of the document, each before the definitions
inside it.  The binary tags, codes and discriminators and the names in JSON are part of the model;
they are empty until they are assigned.
-/

namespace Missive

/-- The number of a message in a model. -/
abbrev MessageId := Nat

/-- The number of an enumeration in a model. -/
abbrev EnumId := Nat

namespace Model

/-- A definition of a model. -/
inductive Reference where
  | message (id : MessageId)
  | enumeration (id : EnumId)
  deriving Repr, DecidableEq

/-- A field type with its references resolved. -/
inductive Kind where
  | primitive (p : Primitive)
  | message (id : MessageId)
  | enumeration (id : EnumId)
  | map (key value : Kind)
  deriving Repr, DecidableEq

/-- A field. -/
structure Field where
  name : String
  docs : Option String
  options : Options
  kind : Kind
  repeated : Bool
  transient : Bool
  explicitTag : Option UInt32
  /-- The binary tag; transient fields have none. -/
  tag : Option UInt32 := none
  /-- The name in JSON and in reflection. -/
  key : String := ""
  deriving DecidableEq

/-- A message. -/
structure Message where
  name : String
  docs : Option String
  options : Options
  isAbstract : Bool
  /-- The number of its file. -/
  file : Nat
  explicitId : Option UInt32
  /-- The message that it extends. -/
  parent : Option MessageId := none
  /-- The binary discriminator of a concrete message below an abstract one. -/
  typeId : Option UInt32 := none
  /-- The discriminator in JSON. -/
  jsonType : String := ""
  fields : List Field := []
  /-- The definitions inside it. -/
  nested : List Reference := []
  deriving DecidableEq

instance : Inhabited Message :=
  ⟨{ name := "", docs := none, options := .empty, isAbstract := false, file := 0
     explicitId := none }⟩

/-- A constant. -/
structure Constant where
  name : String
  docs : Option String
  options : Options
  explicitCode : Option Int32
  code : Int32 := 0
  /-- The name in JSON. -/
  jsonName : String := ""
  deriving DecidableEq

/-- An enumeration. -/
structure Enumeration where
  name : String
  docs : Option String
  options : Options
  /-- The number of its file. -/
  file : Nat
  constants : List Constant
  deriving DecidableEq

instance : Inhabited Enumeration :=
  ⟨{ name := "", docs := none, options := .empty, file := 0, constants := [] }⟩

/-- A file. -/
structure File where
  name : String
  package : Option String
  docs : Option String
  options : Options
  deriving DecidableEq

end Model

/-- A resolved schema. -/
structure Model where
  files : List Model.File := []
  /-- The options for the whole schema. -/
  options : List Options := []
  messages : List Model.Message := []
  enumerations : List Model.Enumeration := []
  /-- The definitions outside of any message. -/
  roots : List Model.Reference := []
  /-- Every definition by name. -/
  names : List (String × Model.Reference) := []

namespace Model

/-- A message by number. -/
def message (m : Model) (id : MessageId) : Message := m.messages.getD id default

/-- An enumeration by number. -/
def enumeration (m : Model) (id : EnumId) : Enumeration := m.enumerations.getD id default

/-- The numbers of the messages. -/
def messageIds (m : Model) : List MessageId := List.range m.messages.length

/-- The numbers of the enumerations. -/
def enumIds (m : Model) : List EnumId := List.range m.enumerations.length

/-- The part of a name after its last dot; nothing without a dot. -/
def lastSegment? (name : String) : Option String :=
  let chars := name.toList
  if chars.contains '.' then
    some (String.ofList (chars.reverse.takeWhile (· != '.')).reverse)
  else none

/-- A definition by name; a name with dots that is not known stands for its last segment. -/
def lookup (m : Model) (name : String) : Option Reference :=
  match m.names.lookup name with
  | some reference => some reference
  | none => lastSegment? name >>= fun segment => m.names.lookup segment

/-- The name of a definition. -/
def nameOf (m : Model) : Reference → String
  | .message id => (m.message id).name
  | .enumeration id => (m.enumeration id).name

/-- Whether a file, or the options for the whole schema, turn on a flag. -/
def globalFlag (m : Model) (name : String) : Bool :=
  m.files.any (·.options.flag name) || m.options.any (·.flag name)

end Model

end Missive
