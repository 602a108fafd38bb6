import Missive.Number.Double

/-!
# Missive.Toml.Basic

TOML documents, and how keys and headers extend them.

A table is *implicit* while only something below it has been mentioned, and *dotted* if a dotted
key brought it up.  A header may define an implicit table once, and a dotted key may extend only
what dotted keys brought up; everything else counts as defining a table twice.
-/

namespace Missive.Toml

/-- A value, or a table under construction. -/
inductive Item where
  | string (s : String)
  | integer (n : Int)
  | float (x : Double)
  | bool (b : Bool)
  /-- A date, a time, or both.  It is checked and not kept. -/
  | moment
  | array (items : List Item)
  /-- A table written as a value, which nothing extends. -/
  | inline (entries : List (String × Item))
  | table (implicit dotted : Bool) (entries : List (String × Item))
  /-- The tables of an array of tables, the last one first. -/
  | tables (elements : List (List (String × Item)))

abbrev Entries := List (String × Item)

namespace Entries

/-- Put an item in place of the one under a key, or at the end. -/
def set (key : String) (item : Item) : Entries → Entries
  | [] => [(key, item)]
  | (other, old) :: rest =>
    if other == key then (key, item) :: rest else (other, old) :: set key item rest

/-- Change the table that a path leads to, bringing up the tables on the way that are not there.
`dotted` tells a path of a dotted key from a path of a header.  The change is told whether the
table was brought up by a dotted key. -/
def descend (dotted : Bool) (change : Bool → Entries → Option Entries) :
    (path : List String) → (here : Bool) → Entries → Option Entries
  | [], here, entries => change here entries
  | key :: path, _, entries =>
    match entries.lookup key with
    | none => do
      let inner ← descend dotted change path dotted []
      return entries ++ [(key, .table true dotted inner)]
    | some (.table implicit dotted' inner) => do
      if dotted && !implicit then none
      else
        let inner ← descend dotted change path dotted' inner
        return set key (.table implicit dotted' inner) entries
    | some (.tables (last :: others)) => do
      let last ← descend dotted change path false last
      return set key (.tables (last :: others)) entries
    | some _ => none

/-- Set the value of a key, which may be dotted, in a table. -/
def define (path : List String) (key : String) (item : Item) (entries : Entries) :
    Option Entries :=
  descend true (fun dotted entries =>
    if dotted == path.isEmpty || (entries.lookup key).isSome then none
    else some (entries ++ [(key, item)])) path false entries

/-- Define the table of a header. -/
def openTable (path : List String) (key : String) (entries : Entries) : Option Entries :=
  descend false (fun _ entries =>
    match entries.lookup key with
    | none => some (entries ++ [(key, .table false false [])])
    | some (.table true false inner) => some (set key (.table false false inner) entries)
    | some _ => none) path false entries

/-- Add a table to the array of tables of a header. -/
def openElement (path : List String) (key : String) (entries : Entries) : Option Entries :=
  descend false (fun _ entries =>
    match entries.lookup key with
    | none => some (entries ++ [(key, .tables [[]])])
    | some (.tables elements) => some (set key (.tables ([] :: elements)) entries)
    | some _ => none) path false entries

/-- Set the value of a key, which may be dotted, in the table of the last header. -/
def defineUnder (header : List String) (path : List String) (key : String) (item : Item)
    (entries : Entries) : Option Entries :=
  descend false (fun _ inner => define path key item inner) header false entries

end Entries

end Missive.Toml
