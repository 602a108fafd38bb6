import Missive.Model.Error
import Missive.Model.Lineage

/-!
# Missive.Model.Resolve

Resolving the references of a schema.

Names may be used before they are declared.  Of several faults the first in this order is told:
names that occur twice, parents that cannot be found, cycles, abstract messages below concrete
ones, field types.
-/

namespace Missive

namespace Schema.Definition

mutual

/-- A definition and those inside it, each before what it holds. -/
def preorder : Definition → List Definition
  | .message head nested => .message head nested :: preorderAll nested
  | .enumeration e => [.enumeration e]

def preorderAll : List Definition → List Definition
  | [] => []
  | d :: rest => preorder d ++ preorderAll rest

end

mutual

/-- The number of messages in a definition. -/
def messageCount : Definition → Nat
  | .message _ nested => messageCountAll nested + 1
  | .enumeration _ => 0

def messageCountAll : List Definition → Nat
  | [] => 0
  | d :: rest => messageCount d + messageCountAll rest

end

mutual

/-- The number of enumerations in a definition. -/
def enumCount : Definition → Nat
  | .message _ nested => enumCountAll nested
  | .enumeration _ => 1

def enumCountAll : List Definition → Nat
  | [] => 0
  | d :: rest => enumCount d + enumCountAll rest

end

end Schema.Definition

namespace Model

open Schema

/-! ## numbering -/

/-- The reference of a definition where messages and enumerations are numbered from here on. -/
def referenceAt (firstMessage firstEnum : Nat) : Definition → Reference
  | .message .. => .message firstMessage
  | .enumeration _ => .enumeration firstEnum

/-- The references of definitions that stand one after another. -/
def references (firstMessage firstEnum : Nat) : List Definition → List Reference
  | [] => []
  | d :: rest =>
    referenceAt firstMessage firstEnum d ::
      references (firstMessage + d.messageCount) (firstEnum + d.enumCount) rest

/-- A message without its parent and fields. -/
def Message.ofHead (head : MessageHead) (file : Nat) (nested : List Reference) : Message :=
  { name := head.name, docs := head.docs, options := head.options,
    isAbstract := head.isAbstract, file, explicitId := head.id, nested }

/-- An enumeration without its codes. -/
def Enumeration.ofDeclared (e : Schema.Enumeration) (file : Nat) : Enumeration :=
  { name := e.name, docs := e.docs, options := e.options, file,
    constants := e.constants.map fun c =>
      { name := c.name, docs := c.docs, options := c.options, explicitCode := c.index } }

mutual

/-- The messages of a definition in order. -/
def messagesOf (file firstMessage firstEnum : Nat) : Definition → List Message
  | .message head nested =>
    .ofHead head file (references (firstMessage + 1) firstEnum nested) ::
      messagesOfAll file (firstMessage + 1) firstEnum nested
  | .enumeration _ => []

def messagesOfAll (file firstMessage firstEnum : Nat) : List Definition → List Message
  | [] => []
  | d :: rest =>
    messagesOf file firstMessage firstEnum d ++
      messagesOfAll file (firstMessage + d.messageCount) (firstEnum + d.enumCount) rest

end

/-- The definitions of a file with its number, and the others after it. -/
def numberFiles (firstFile firstMessage firstEnum : Nat) : List Schema.File → List Message
  | [] => []
  | file :: rest =>
    messagesOfAll firstFile firstMessage firstEnum file.definitions ++
      numberFiles (firstFile + 1) (firstMessage + Definition.messageCountAll file.definitions)
        (firstEnum + Definition.enumCountAll file.definitions) rest

/-- Every definition of a schema in order, with the number of its file. -/
def declared (schema : Schema) : List (Nat × Definition) :=
  schema.files.zipIdx.flatMap fun (file, index) =>
    (Definition.preorderAll file.definitions).map fun d => (index, d)

/-- The messages that a schema declares. -/
def heads (schema : Schema) : List MessageHead :=
  (declared schema).filterMap fun
    | (_, .message head _) => some head
    | _ => none

/-- The enumerations that a schema declares. -/
def enumerationsOf (schema : Schema) : List Enumeration :=
  (declared schema).filterMap fun
    | (file, .enumeration e) => some (.ofDeclared e file)
    | _ => none

/-- The names of definitions, listed with those inside them, and their references, numbered from
here on. -/
def nameTable (firstMessage firstEnum : Nat) : List Definition → List (String × Reference)
  | [] => []
  | .message head _ :: rest =>
    (head.name, .message firstMessage) :: nameTable (firstMessage + 1) firstEnum rest
  | .enumeration e :: rest =>
    (e.name, .enumeration firstEnum) :: nameTable firstMessage (firstEnum + 1) rest

/-- The model of a schema as far as no name has to be looked up. -/
def register (schema : Schema) : Model :=
  { files := schema.files.map fun f =>
      { name := f.name, package := f.package, docs := f.docs, options := f.options }
    options := schema.options.map (·.options)
    messages := numberFiles 0 0 0 schema.files
    enumerations := enumerationsOf schema
    roots := references 0 0 (schema.files.flatMap (·.definitions))
    names := nameTable 0 0 ((declared schema).map Prod.snd) }

/-! ## checks -/

/-- The first name that occurs again. -/
def firstRepeated? (seen : List String) : List String → Option String
  | [] => none
  | name :: rest => if seen.contains name then some name else firstRepeated? (name :: seen) rest

/-- The parent that a message declares. -/
def parentOf (m : Model) (head : MessageHead) : Except SchemaError (Option MessageId) :=
  match head.extends? with
  | none => .ok none
  | some parent =>
    match m.lookup parent with
    | some (.message id) => .ok (some id)
    | some (.enumeration _) => .error (.parentNotMessage head.name parent)
    | none => .error (.unresolvedParent head.name parent)

/-- Refuse the first message that extends itself, or one that does. -/
def checkCycles (m : Model) : Except SchemaError Unit :=
  match m.messageIds.find? m.isCyclic with
  | some id => .error (.inheritanceCycle (m.message id).name)
  | none => .ok ()

/-- Refuse the first abstract message that extends a concrete one. -/
def checkAbstract (m : Model) : Except SchemaError Unit :=
  m.messages.forM fun message =>
    match message.parent with
    | some parent =>
      if message.isAbstract && !(m.message parent).isAbstract then
        .error (.abstractExtendsConcrete message.name (m.message parent).name)
      else .ok ()
    | none => .ok ()

/-! ## fields -/

/-- Resolve the type of a field. -/
def resolveType (m : Model) (message field : String) : FieldType → Except SchemaError Kind
  | .primitive p => .ok (.primitive p)
  | .custom reference =>
    match m.lookup reference with
    | some (.message id) => .ok (.message id)
    | some (.enumeration id) => .ok (.enumeration id)
    | none => .error (.unresolvedType message field reference)
  | .map key value => do
    let key ← m.resolveType message field key
    let value ← m.resolveType message field value
    return .map key value

/-- Resolve a field of a message. -/
def resolveField (m : Model) (message : String) (f : Schema.Field) : Except SchemaError Field := do
  let kind ← m.resolveType message f.name f.type
  match f.repeated, kind with
  | true, .map .. => .error (.repeatedMap message f.name)
  | _, _ =>
    return { name := f.name, docs := f.docs, options := f.options, kind, repeated := f.repeated,
             transient := f.transient, explicitTag := f.index }

/-- The messages of a model with parents, given in order. -/
def setParents (m : Model) (parents : List (Option MessageId)) : Model :=
  { m with
    messages := List.zipWith (fun message parent => { message with parent }) m.messages parents }

/-- The messages of a model with fields, given in order. -/
def setFields (m : Model) (fields : List (List Field)) : Model :=
  { m with
    messages := List.zipWith (fun message fields => { message with fields }) m.messages fields }

/-- The model of a schema, before tags, codes and discriminators are assigned. -/
def resolve (schema : Schema) : Except SchemaError Model := do
  let m := register schema
  match firstRepeated? [] (m.names.map Prod.fst) with
  | some name => .error (.duplicateDefinition name)
  | none =>
    let parents ← (heads schema).mapM m.parentOf
    let m := m.setParents parents
    m.checkCycles
    m.checkAbstract
    let fields ← (heads schema).mapM fun head => head.fields.mapM (m.resolveField head.name)
    return m.setFields fields

end Model

end Missive
