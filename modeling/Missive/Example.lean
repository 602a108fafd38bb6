import Missive.Message.Basic
import Missive.Schema.Build

/-!
# Missive.Example

Schemas that between them have every sort of definition and field, and a function by cases on the
messages of one of them.
-/

namespace Missive.Example

/-! ## schemas -/

section Schemas

open Schema Field Definition

/-- A drawing program: a family with an abstract branch, members that hold members, and a label that
is not stored. -/
def shapes : Schema := .ofDefinitions
  [ofNames "LineStyle" ["SOLID", "DASHED", "DOTTED"],
   ofFamily "Shape" [ofPrimitive "x" .double, ofPrimitive "y" .double],
   (ofFamily "AtomicShape" []).extending "Shape",
   (ofFields "Circle" [ofPrimitive "radius" .double]).extending "AtomicShape",
   (ofFields "Rectangle" [ofPrimitive "width" .double, ofPrimitive "height" .double]).extending
     "AtomicShape",
   (ofFields "Group"
     [(ofCustom "members" "Shape").many, (ofPrimitive "label" .string).asTransient]).extending
     "Shape",
   ofFields "Drawing"
     [ofPrimitive "title" .string, ofCustom "style" "LineStyle", ofCustom "background" "Shape",
      ofCustom "frame" "Rectangle", (ofCustom "layers" "Group").many,
      (ofPrimitive "tags" .string).many]]

/-- A holder with one field of each kind: a message, a list, an enumeration with codes out of order,
and maps in both forms of JSON. -/
def scenarios : Schema := .ofDefinitions
  [ofConstants "Corpus" [.of "UNIVERSAL" (some 7), .of "WEB" (some 1), .of "IMAGES" none],
   ofFamily "Figure" [],
   (ofFields "Circle" [ofPrimitive "radius" .double]).extending "Figure",
   (ofFields "Rectangle" [ofPrimitive "width" .double, ofPrimitive "height" .double]).extending
     "Figure",
   ofFields "Holder"
     [ofCustom "child" "Circle", (ofPrimitive "values" .int32).many,
      ofMap "counts" (.primitive .string) (.primitive .int32), ofCustom "corpus" "Corpus",
      ofMap "labels" (.primitive .int32) (.primitive .string),
      ofMap "figures" (.primitive .string) (.custom "Figure")]]

/-- One field of each primitive type, two lists, and names that options replace. -/
def scalars : Schema := .ofDefinitions
  [ofFields "Scalars"
     [ofPrimitive "flag" .bool, ofPrimitive "count" .int32, ofPrimitive "size" .uint32,
      ofPrimitive "delta" .sint32, ofPrimitive "checksum" .fixed32,
      ofPrimitive "offset" .sfixed32, ofPrimitive "total" .int64,
      ofPrimitive "capacity" .uint64, ofPrimitive "drift" .sint64, ofPrimitive "hash" .fixed64,
      ofPrimitive "stamp" .sfixed64,
      (ofPrimitive "ratio" .float).withOption "XmlName" (.text "r"),
      ofPrimitive "precise" .double,
      (ofPrimitive "text" .string).withOption "Name" (.text "label"),
      ofPrimitive "blob" .bytes, (ofPrimitive "numbers" .int32).many,
      (ofPrimitive "words" .string).many]]

/-- Maps with every type of key, and with values of every sort. -/
def maps : Schema := .ofDefinitions
  [ofConstants "Tone"
     [.of "FLAT" none, (Constant.of "SHARP" (some 3)).withOption "Name" (.text "#"),
      .of "NATURAL" (some 1)],
   ofFamily "Item" [],
   (ofFields "Coin" [ofPrimitive "cents" .sint32]).extending "Item",
   (ofFields "Bag" [ofMap "items" (.primitive .string) (.custom "Item")]).extending "Item",
   ofFields "Maps"
     [ofMap "by_bool" (.primitive .bool) (.primitive .string),
      ofMap "by_i32" (.primitive .int32) (.primitive .bytes),
      ofMap "by_u32" (.primitive .uint32) (.primitive .float),
      ofMap "by_s32" (.primitive .sint32) (.primitive .bool),
      ofMap "by_f32" (.primitive .fixed32) (.primitive .int64),
      ofMap "by_sf32" (.primitive .sfixed32) (.primitive .sfixed64),
      ofMap "by_i64" (.primitive .int64) (.primitive .uint32),
      ofMap "by_u64" (.primitive .uint64) (.primitive .double),
      ofMap "by_s64" (.primitive .sint64) (.primitive .sint64),
      ofMap "by_f64" (.primitive .fixed64) (.primitive .fixed32),
      ofMap "by_sf64" (.primitive .sfixed64) (.primitive .uint64),
      ofMap "by_tone" (.custom "Tone") (.custom "Tone"),
      ofMap "tones" (.primitive .string) (.custom "Tone"),
      ofMap "items" (.primitive .int32) (.custom "Item"),
      ofMap "coins" (.primitive .string) (.custom "Coin"),
      ofMap "tone_coins" (.custom "Tone") (.custom "Coin"),
      ofMap "blobs" (.primitive .string) (.primitive .bytes),
      (ofMap "skipped" (.primitive .string) (.primitive .int32)).asTransient]]

/-- Two versions of a record and of a family of events, with the same names and numbers on the
wire. -/
def evolution : Schema := .ofDefinitions
  [ofFields "RecordV1" [ofPrimitive "id" .int64, ofPrimitive "name" .string],
   ofFields "RecordV2"
     [ofPrimitive "id" .int64, ofPrimitive "name" .string, ofPrimitive "note" .string],
   ofFamily "EventV1" [],
   (((ofFields "ClickV1" [ofPrimitive "x" .int32]).extending "EventV1").withId 4).withOption
     "Name" (.text "Click"),
   ofFields "LogV1" [(ofCustom "events" "EventV1").many],
   ofFamily "EventV2" [],
   (((ofFields "ClickV2" [ofPrimitive "x" .int32]).extending "EventV2").withId 4).withOption
     "Name" (.text "Click"),
   (((ofFields "ScrollV2" [ofPrimitive "delta" .sint32]).extending "EventV2").withId 9).withOption
     "Name" (.text "Scroll"),
   ofFields "LogV2" [(ofCustom "events" "EventV2").many]]

/-- Corner cases of names and hierarchies: a concrete message below a concrete one, an abstract
branch with a field of its own, fields named like keywords or not at all, the largest tags, lists of
every type, a message that holds messages of its own type, and an abstract message with nothing
below. -/
def zoo : Schema := .ofDefinitions
  [ofConstants "Level"
     [.of "LOW" (some 5), (Constant.of "Mid" none).withOption "Name" (.text "medium"),
      .of "HIGH" (some 0), .of "2x" none],
   ofFamily "Animal" [ofPrimitive "name" .string, (ofCustom "level" "Level").withIndex 7],
   (ofFields "Dog"
     [((ofPrimitive "breed" .string).withOption "Name" (.text "kind")).withOption
       "XmlName" (.text "race")]).extending "Animal",
   ((ofFields "Puppy" [ofPrimitive "ageWeeks" .uint32, ofCustom "mother" "Dog"]).extending
     "Dog").withId 1,
   (ofFamily "Wild" [(ofPrimitive "habitat" .string).asTransient]).extending "Animal",
   (((ofFields "Wolf" [(ofCustom "pack" "Animal").many, ofCustom "prey" "Animal"]).extending
     "Wild").withOption "Name" (.text "wolf!")).withOption "XmlName" (.text "lupus"),
   ofFields "Lists"
     ([ofPrimitive "bools" .bool, ofPrimitive "i32s" .int32, ofPrimitive "u32s" .uint32,
       ofPrimitive "s32s" .sint32, ofPrimitive "f32s" .fixed32, ofPrimitive "sf32s" .sfixed32,
       ofPrimitive "i64s" .int64, ofPrimitive "u64s" .uint64, ofPrimitive "s64s" .sint64,
       ofPrimitive "f64s" .fixed64, ofPrimitive "sf64s" .sfixed64, ofPrimitive "floats" .float,
       ofPrimitive "doubles" .double, ofPrimitive "strings" .string, ofPrimitive "blobs" .bytes,
       ofCustom "levels" "Level", ofCustom "animals" "Animal", ofCustom "dogs" "Dog"].map many),
   ofFields "Words"
     [(ofPrimitive "type" .string).withIndex 4294967295,
      (ofPrimitive "self" .int32).withIndex 268435455, ofPrimitive "new" .bool,
      ofPrimitive "firstName" .string,
      (ofPrimitive "2nd" .double).withOption "Name" (.text "zweite \"Zahl\""),
      (ofPrimitive "scratch" .bytes).asTransient, (ofPrimitive "" .sint64).withIndex 3],
   (ofFields "Node"
     [ofPrimitive "value" .int32, ofCustom "left" "Node",
      (ofCustom "children" "Node").many]).withNested
     (ofConstants "Mark" [.of "none" none, .of "some" (some 2147483647)]),
   ofFields "Plain" [(ofPrimitive "a" .int64).withIndex 2, ofCustom "mark" "Node.Mark"],
   ((ofFields "PlainSub" [ofPrimitive "b" .float]).extending "Plain").withId 9,
   ofFamily "Hollow" [ofPrimitive "weight" .double],
   ofFields "Empty" []]

end Schemas

/-! ## a function by cases

The messages of `shapes` are numbered in order: the abstract ones are 0 and 1, a circle is 2, a
rectangle 3 and a group 4.  All begin with a position.
-/

mutual

/-- The cases that a shape is made of, in order, and its area by a scale; pi is three. -/
def area (scale : Double) : Value → List String × Double
  | .message 2 [_, _, .scalar (.double radius)] =>
    (["circle"], ((Double.mul (.ofInt 3) radius).mul radius).mul scale)
  | .message 3 [_, _, .scalar (.double width), .scalar (.double height)] =>
    (["rectangle"], (width.mul height).mul scale)
  | .message 4 [_, _, .list members, _] =>
    let (cases, sum) := areas scale .zero members
    ("group" :: cases, sum)
  | _ => ([], .zero)

/-- The cases of several shapes, and their areas added up from the first on. -/
def areas (scale sum : Double) : List Value → List String × Double
  | [] => ([], sum)
  | shape :: shapes =>
    let (cases, part) := area scale shape
    let (more, total) := areas scale (sum.add part) shapes
    (cases ++ more, total)

end

end Missive.Example
