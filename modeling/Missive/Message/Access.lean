import Missive.Message.Property

/-!
# Missive.Message.Access

Changes of single fields, for values whose type is known beforehand.
-/

namespace Missive.Catalog

/-- Replace the value of a field. -/
def assign (c : Catalog) (message : Message) (name : String) (value : Value) :
    Except ReadError Message :=
  c.modify message name fun _ _ => .ok value

/-- Add an item at the end of a list. -/
def addItem (c : Catalog) (message : Message) (name : String) (item : Value) :
    Except ReadError Message :=
  c.modify message name fun _ value =>
    match value with
    | .list items => .ok (.list (items ++ [item]))
    | other => .ok other

/-- Add an entry at the end of a map, in place.  A key that is there already is an error. -/
def storeEntry (c : Catalog) (name : String) (key : Key) (item : Value) :
    EStateM ReadError Message Unit := do
  let message ← get
  let some slot := c.property? message.type name | throw (.unknownProperty name)
  match slot.plan, message.fields.getD slot.position slot.plan.initial with
  | .map plan _, .map entries =>
    if (entries.lookup key).isSome then
      throw (.duplicateKey slot.key (c.keyText plan key))
    set { message with
      fields := message.fields.set slot.position (.map (Entries.set key item entries)) }
  | _, _ => return ()

/-- The message with an entry added at the end of a map. -/
def put (c : Catalog) (message : Message) (name : String) (key : Key) (item : Value) :
    Except ReadError Message :=
  match c.storeEntry name key item message with
  | .ok () message => .ok message
  | .error e _ => .error e

/-- Replace the entries of a map; of several with one key, the last counts. -/
def assignEntries (c : Catalog) (message : Message) (name : String)
    (entries : List (Key × Value)) : Except ReadError Message :=
  c.assign message name (.map (Entries.ofList entries))

end Missive.Catalog
