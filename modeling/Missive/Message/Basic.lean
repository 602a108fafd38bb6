import Missive.Model.Basic
import Missive.Scalar

/-!
# Missive.Message.Basic

Messages as data.

A message has a concrete type and one value for each field of it, the fields of the most general
ancestor first.  A value of an abstract type is a message of one of the concrete types below it.
-/

namespace Missive

/-- A key of a map. -/
inductive Key where
  | scalar (s : Scalar)
  /-- A constant of an enumeration, by its place. -/
  | constant (index : Nat)
  deriving DecidableEq

/-- The value of a field, or a part of one. -/
inductive Value where
  | scalar (s : Scalar)
  /-- A constant of an enumeration, by its place. -/
  | constant (index : Nat)
  /-- No message. -/
  | absent
  | message (type : MessageId) (fields : List Value)
  | list (items : List Value)
  /-- Entries in the order in which they were added; no two have the same key. -/
  | map (entries : List (Key × Value))

instance : Inhabited Value := ⟨.absent⟩

/-- A message: its concrete type and the values of its fields. -/
structure Message where
  type : MessageId
  fields : List Value

instance : Inhabited Message := ⟨⟨0, []⟩⟩

namespace Key

/-- The key as a value. -/
def toValue : Key → Value
  | .scalar s => .scalar s
  | .constant index => .constant index

/-- The key that a value is, if it can be one. -/
def ofValue? : Value → Option Key
  | .scalar s => some (.scalar s)
  | .constant index => some (.constant index)
  | _ => none

end Key

namespace Value

def isAbsent : Value → Bool
  | .absent => true
  | _ => false

mutual

/-- Equality of values.  Numbers are compared as numbers, and maps regardless of order. -/
def same : Value → Value → Bool
  | .scalar s, .scalar t => s.same t
  | .constant i, .constant j => i == j
  | .absent, .absent => true
  | .message type fields, .message type' fields' => type == type' && sameItems fields fields'
  | .list items, .list items' => sameItems items items'
  | .map entries, .map entries' => entries.length == entries'.length && sameEntries entries entries'
  | _, _ => false

/-- Equality of lists of values. -/
def sameItems : List Value → List Value → Bool
  | [], [] => true
  | v :: vs, w :: ws => same v w && sameItems vs ws
  | _, _ => false

/-- Whether all entries are among others. -/
def sameEntries : List (Key × Value) → List (Key × Value) → Bool
  | [], _ => true
  | (key, value) :: rest, others =>
    match others.lookup key with
    | some other => same value other && sameEntries rest others
    | none => false

end

end Value

namespace Message

/-- The message as a value. -/
def toValue (message : Message) : Value := .message message.type message.fields

/-- Equality of messages. -/
def same (a b : Message) : Bool := a.toValue.same b.toValue

end Message

/-! ## entries of maps -/

namespace Entries

/-- Add an entry at the end, unless its key is there already. -/
def put? (key : Key) (value : Value) (entries : List (Key × Value)) :
    Option (List (Key × Value)) :=
  if (entries.lookup key).isSome then none else some (entries ++ [(key, value)])

/-- Set an entry: a key that is there already keeps its place and takes the new value. -/
def set (key : Key) (value : Value) : List (Key × Value) → List (Key × Value)
  | [] => [(key, value)]
  | (other, old) :: rest =>
    if other == key then (key, value) :: rest else (other, old) :: set key value rest

/-- Entries set one after the other. -/
def ofList (entries : List (Key × Value)) : List (Key × Value) :=
  entries.foldl (fun before (key, value) => set key value before) []

end Entries

end Missive
