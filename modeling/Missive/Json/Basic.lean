import Missive.Number.Double

/-!
# Missive.Json.Basic

JSON values.  Numbers without a fraction or an exponent are kept as whole numbers of 64 bits where
they fit; the properties of an object keep the order in which they were set.
-/

namespace Missive

/-- A JSON number. -/
inductive JsonNumber where
  | natural (n : UInt64)
  | negative (n : Int64) (below : n < 0)
  /-- A number that is no infinity and no NaN; JSON has no way to write these. -/
  | real (x : Double) (finite : x.isFinite)
  deriving DecidableEq

/-- A JSON value. -/
inductive Json where
  | null
  | bool (b : Bool)
  | number (n : JsonNumber)
  | string (s : String)
  | array (items : List Json)
  | object (members : List (String × Json))

instance : Inhabited Json := ⟨.null⟩

/-- The kinds of JSON values. -/
inductive JsonKind where
  | null
  | bool
  | number
  | string
  | array
  | object
  deriving Repr, DecidableEq

namespace JsonNumber

/-- A signed whole number. -/
def ofInt64 (n : Int64) : JsonNumber :=
  if below : n < 0 then .negative n below else .natural n.toUInt64

/-- The number as a double, rounded if it has more digits. -/
def toDouble : JsonNumber → Double
  | .natural n => .ofInt n.toNat
  | .negative n _ => .ofInt n.toInt
  | .real x _ => x

/-- The whole number that a number is, if it is one. -/
def toInt? : JsonNumber → Option Int
  | .natural n => some n.toNat
  | .negative n _ => some n.toInt
  | .real x _ => x.toInt?

/-- The whole number in a range that a number is held as, if it is. -/
def heldIn? (least limit : Int) : JsonNumber → Option Int
  | .natural n => if (n.toNat : Int) < limit then some n.toNat else none
  | .negative n _ => if least ≤ n.toInt then some n.toInt else none
  | .real .. => none

/-- The whole number in a range that a number is, if it is one.  A number that is not held as one is
compared as a double, with the bounds as doubles. -/
def toIntIn? (least limit : Int) (n : JsonNumber) : Option Int :=
  (n.heldIn? least limit).or
    (let x := n.toDouble
    if (Double.ofInt least).le x && x.lt (.ofInt (limit - 1)) then x.toInt? else none)

/-- A double as a number, if it is finite. -/
def ofDouble? (x : Double) : Option JsonNumber :=
  if finite : x.isFinite then some (.real x finite) else none

end JsonNumber

namespace Json

/-- The kind of a value. -/
def kind : Json → JsonKind
  | .null => .null
  | .bool _ => .bool
  | .number _ => .number
  | .string _ => .string
  | .array _ => .array
  | .object _ => .object

def isNull : Json → Bool
  | .null => true
  | _ => false

/-- Set a property: a name that is already there keeps its place and takes the new value. -/
def setMember (name : String) (value : Json) : List (String × Json) → List (String × Json)
  | [] => [(name, value)]
  | (other, old) :: rest =>
    if other == name then (name, value) :: rest else (other, old) :: setMember name value rest

/-- The value of a property of an object. -/
def member? (name : String) : Json → Option Json
  | .object members => members.lookup name
  | _ => none

/-- A number of 64 bits. -/
def ofNat (n : Nat) : Json := .number (.natural n.toUInt64)

/-- A signed number of 64 bits. -/
def ofInt (n : Int) : Json := .number (.ofInt64 (.ofInt n))

mutual

/-- Replace every number that is a double. -/
def mapReals (f : Double → Json) : Json → Json
  | .number (.real x _) => f x
  | .array items => .array (mapRealsItems f items)
  | .object members => .object (mapRealsMembers f members)
  | value => value

def mapRealsItems (f : Double → Json) : List Json → List Json
  | [] => []
  | item :: rest => mapReals f item :: mapRealsItems f rest

def mapRealsMembers (f : Double → Json) : List (String × Json) → List (String × Json)
  | [] => []
  | (name, value) :: rest => (name, mapReals f value) :: mapRealsMembers f rest

end

mutual

/-- The number of values in a value, itself and the properties' names included. -/
def weight : Json → Nat
  | .array items => weightItems items + 1
  | .object members => weightMembers members + 1
  | _ => 1

def weightItems : List Json → Nat
  | [] => 0
  | item :: rest => weight item + weightItems rest

def weightMembers : List (String × Json) → Nat
  | [] => 0
  | (_, value) :: rest => weight value + 1 + weightMembers rest

end

end Json

end Missive
