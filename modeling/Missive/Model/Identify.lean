import Missive.Model.Resolve
import Missive.Source.Identifier

/-!
# Missive.Model.Identify

Assigning the numbers and names under which values travel.

Numbers that a schema fixes are kept.  The others are given in the order of declaration, each the
least that is neither fixed nor given before.  Codes are numbered in an enumeration, discriminators
in a family, and tags in a message and the messages that it extends.

All of them are 32 bits wide.  A word that counts past this width overflows: the run stops there, or
the count goes on at a number that nothing may have, a negative code or the discriminator or tag
zero.  Counts are natural numbers here.  The errors given at that point are no rules of schemas;
they stand for the overflow.
-/

namespace Missive

/-! ## numbers that are free -/

/-- The least number from `n` on that is not used, looking at most `fuel` times. -/
def freeFrom (used : List Nat) : Nat → Nat → Nat
  | 0, n => n
  | fuel + 1, n => if used.contains n then freeFrom used fuel (n + 1) else n

/-- The least number from `n` on that is not used. -/
def firstFree (used : List Nat) (n : Nat) : Nat := freeFrom used used.length n

/-- Give numbers from `next` on that are not used to the slots that have none. -/
def fillGaps (used : List Nat) (next : Nat) : List (Option Nat) → List Nat
  | [] => []
  | some n :: rest => n :: fillGaps used next rest
  | none :: rest =>
    let n := firstFree used next
    n :: fillGaps used (n + 1) rest

namespace Model

/-- The option that names a message, a constant or a field in JSON. -/
def nameOption : String := "Name"

/-- The name in JSON of something declared under a name. -/
def jsonNameOf (options : Options) (name : String) : String :=
  (options.text? nameOption).getD name

/-- The option that names a message or a field in XML. -/
def xmlNameOption : String := "XmlName"

/-- The name in XML of something declared under a name. -/
def xmlNameOf (options : Options) (name : String) : String :=
  match options.text? xmlNameOption, options.text? nameOption with
  | some text, _ => text
  | none, some text => text
  | none, none => Source.xmlName name

/-! ## codes -/

/-- Check the constants of an enumeration in order.  `names` and `codes` are those before. -/
def checkConstants (enumeration : String) (names : List String) (codes : List (Int32 × String)) :
    List Constant → Except SchemaError Unit
  | [] => .ok ()
  | c :: rest =>
    if names.contains c.name then .error (.duplicateConstant enumeration c.name)
    else
      match c.explicitCode with
      | none => checkConstants enumeration (c.name :: names) codes rest
      | some code =>
        if code < 0 then .error (.negativeCode enumeration c.name code)
        else
          match codes.lookup code with
          | some other => .error (.duplicateCode enumeration c.name code other)
          | none => checkConstants enumeration (c.name :: names) ((code, c.name) :: codes) rest

/-- The codes of constants. -/
def constantCodes (constants : List Constant) : List Nat :=
  let slots := constants.map fun c => c.explicitCode.map fun code => code.toInt.toNat
  fillGaps (slots.filterMap id) 0 slots

/-- A constant with its code and its name in JSON. -/
def Constant.identify (c : Constant) (code : Nat) : Constant :=
  { c with code := .ofNat code, jsonName := jsonNameOf c.options c.name }

/-- An enumeration with its codes and the names of its constants.  The last error stands for an
overflow of the codes. -/
def identifyEnumeration (e : Enumeration) : Except SchemaError Enumeration := do
  if e.constants.isEmpty then .error (.emptyEnumeration e.name)
  else
    checkConstants e.name [] [] e.constants
    let codes := constantCodes e.constants
    match (e.constants.zip codes).find? fun (_, code) => Int32.size / 2 ≤ code with
    | some (c, code) => .error (.negativeCode e.name c.name (.ofNat code))
    | none => return { e with constants := List.zipWith Constant.identify e.constants codes }

/-! ## discriminators -/

/-- The concrete messages below abstract ones, in order. -/
def familyMembers (m : Model) : List MessageId :=
  m.messageIds.filter fun id => m.inFamily id && !(m.message id).isAbstract

/-- Check the fixed discriminators of messages in order.  `seen` holds those before by the root of
their family. -/
def checkTypeIds (m : Model) (seen : List ((MessageId × UInt32) × MessageId)) :
    List MessageId → Except SchemaError Unit
  | [] => .ok ()
  | id :: rest =>
    match (m.message id).explicitId with
    | none => m.checkTypeIds seen rest
    | some typeId =>
      if typeId == 0 then .error (.reservedTypeId (m.message id).name)
      else
        match seen.lookup (m.root id, typeId) with
        | some other =>
          .error (.duplicateTypeId (m.message id).name typeId (m.message other).name)
        | none => m.checkTypeIds (((m.root id, typeId), id) :: seen) rest

/-- The members of a family with their discriminators. -/
def familyTypeIds (m : Model) (root : MessageId) : List (MessageId × Nat) :=
  let members := m.familyMembers.filter fun id => m.root id == root
  let slots := members.map fun id => (m.message id).explicitId.map UInt32.toNat
  members.zip (fillGaps (slots.filterMap id) 1 slots)

/-- The number that a message has in its family. -/
def familyNumber? (m : Model) (id : MessageId) : Option Nat :=
  (m.familyTypeIds (m.root id)).lookup id

/-- The discriminator of a message. -/
def typeIdOf? (m : Model) (id : MessageId) : Option UInt32 := (m.familyNumber? id).map Nat.toUInt32

/-- Stop at the first message whose number overflows.  The error stands for the overflow. -/
def checkFamilyNumbers (m : Model) : Except SchemaError Unit :=
  match m.familyMembers.find? fun id => (m.familyNumber? id).any (UInt32.size ≤ ·) with
  | some id => .error (.reservedTypeId (m.message id).name)
  | none => .ok ()

/-- A model with its discriminators. -/
def identifyMessages (m : Model) : Except SchemaError Model := do
  m.checkTypeIds [] m.familyMembers
  m.checkFamilyNumbers
  let messages := m.messages.zipIdx.map fun (message, id) =>
    { message with typeId := m.typeIdOf? id, jsonType := jsonNameOf message.options message.name }
  return { m with messages }

/-! ## tags and keys -/

/-- A field's name with that of its message. -/
def qualified (message field : String) : String := message ++ "." ++ field

/-- The items that the emitted code has for a field of a name, whatever the field holds. -/
def fieldItems (name : String) : List String :=
  [Source.fieldName name, Source.constantName name "PROP"]

/-- What the fields of a message must not use again, with the fields that use it. -/
structure Taken where
  names : List String := []
  items : List (String × String) := []
  tags : List (UInt32 × String) := []
  keys : List (String × String) := []

namespace Taken

/-- Take everything that a numbered field uses. -/
def add (taken : Taken) (message : String) (f : Field) : Taken :=
  let owner := qualified message f.name
  { names := f.name :: taken.names
    items := (fieldItems f.name).reverse.map (fun item => (item, owner)) ++ taken.items
    tags := (f.tag.map fun tag => (tag, owner)).toList ++ taken.tags
    keys := (f.key, owner) :: taken.keys }

/-- What the fields of the messages use that a message extends. -/
def above (m : Model) (id : MessageId) : Taken :=
  (m.ancestors id).foldl (fun taken ancestor =>
    let message := m.message ancestor
    message.fields.foldl (fun taken f => taken.add message.name f) taken) {}

end Taken

/-- Take the items of a field. -/
def checkItems (message field : String) (items : List (String × String)) :
    List String → Except SchemaError (List (String × String))
  | [] => .ok items
  | item :: rest =>
    match items.lookup item with
    | some other => .error (.identifierClash message field item other)
    | none => checkItems message field ((item, qualified message field) :: items) rest

/-- Check the names and the fixed tags of fields in order. -/
def checkFields (message : String) (taken : Taken) : List Field → Except SchemaError Taken
  | [] => .ok taken
  | f :: rest => do
    if taken.names.contains f.name then .error (.duplicateField message f.name)
    else
      let items ← checkItems message f.name taken.items (fieldItems f.name)
      let taken := { taken with names := f.name :: taken.names, items }
      match f.transient, f.explicitTag with
      | false, some tag =>
        if tag == 0 then .error (.reservedTag message f.name)
        else
          match taken.tags.lookup tag with
          | some other => .error (.duplicateTag message f.name tag other)
          | none =>
            checkFields message
              { taken with tags := (tag, qualified message f.name) :: taken.tags } rest
      | _, _ => checkFields message taken rest

/-- Check the keys of fields in order. -/
def checkKeys (message : String) (keys : List (String × String)) :
    List Field → Except SchemaError Unit
  | [] => .ok ()
  | f :: rest =>
    let key := jsonNameOf f.options f.name
    match keys.lookup key with
    | some other => .error (.duplicateKey message f.name key other)
    | none => checkKeys message ((key, qualified message f.name) :: keys) rest

/-- Give tags from `next` on that are not used to the fields that travel and have none.  The error
stands for an overflow of the tags. -/
def numberFields (message : String) (used : List Nat) (next : Nat) :
    List Field → Except SchemaError (List Field)
  | [] => .ok []
  | f :: rest => do
    let named := { f with key := jsonNameOf f.options f.name }
    if f.transient then return named :: (← numberFields message used next rest)
    else
      match f.explicitTag with
      | some tag =>
        return { named with tag := some tag } :: (← numberFields message used next rest)
      | none =>
        let n := firstFree used next
        if UInt32.size ≤ n then .error (.reservedTag message f.name)
        else
          return { named with tag := some n.toUInt32 } ::
            (← numberFields message used (n + 1) rest)

/-- The fields of a message with their tags and keys. -/
def identifiedFields (m : Model) (id : MessageId) : Except SchemaError (List Field) := do
  let message := m.message id
  let above := Taken.above m id
  let taken ← checkFields message.name above message.fields
  checkKeys message.name above.keys message.fields
  numberFields message.name (taken.tags.map fun (tag, _) => tag.toNat) 1 message.fields

/-- Number the fields of a message. -/
def identifyFields (m : Model) (id : MessageId) : Except SchemaError Model := do
  let fields ← m.identifiedFields id
  return { m with messages := m.messages.modify id fun message => { message with fields } }

/-- The messages in an order in which each comes after those it extends. -/
def generalFirst (m : Model) : List MessageId :=
  (List.range m.messages.length).flatMap fun depth =>
    m.messageIds.filter fun id => (m.ascent id).length == depth

/-- A model with all its numbers and names. -/
def identify (m : Model) : Except SchemaError Model := do
  let enumerations ← m.enumerations.mapM identifyEnumeration
  let m ← { m with enumerations }.identifyMessages
  m.generalFirst.foldlM identifyFields m

/-- The model of a schema. -/
def ofSchema (schema : Schema) : Except SchemaError Model := do
  (← resolve schema).identify

end Model

end Missive
