import Missive.Proofs.Message.BinaryRoundTrip
import Missive.Proofs.Wire.Session

/-!
# Missive.Proofs.Wire.Walk

Walking a payload call by call, and skipping it.

A node is a value as it is handed to the stream writer: single values of the primitive types,
objects of tagged nodes, and arrays.  Its walk is what a reader sees that makes the matching calls
one after another (`Node.walk`).  The bytes that the writer makes of a node are walked in this way
in front of any suffix, and skipped as a whole (`walk_write`).
-/

namespace Missive

/-- A primitive value is written as one value of its kind. -/
theorem Primitive.write_eq {type : Primitive} (htype : value.type = type.scalarType)
    (w : Wire.Writer) : type.write value w = w.put type.wireKind (type.encode value) := by
  cases type <;> cases value <;> first | rfl | simp [Scalar.type, Primitive.scalarType] at htype

namespace Wire

/-! ## nodes -/

/-- A value to be written. -/
inductive Node where
  | single (type : Primitive) (value : Scalar)
  | object (fields : List (UInt32 × Node))
  /-- The kind is that of the elements. -/
  | array (kind : Kind) (items : List Node)

namespace Node

/-- The kind of a node on the wire. -/
def kind : Node → Kind
  | .single type _ => type.wireKind
  | .object _ => .object
  | .array .. => .array

/-- A node that can be written: values are of their types, the elements of an array are of its
kind, and lengths are counted in 64 bits. -/
inductive Writable : Node → Prop where
  | single {type : Primitive} {value : Scalar} (htype : value.type = type.scalarType)
      (hsize : value.IsStorable) : Writable (.single type value)
  | object {fields : List (UInt32 × Node)} (h : ∀ field ∈ fields, Writable field.2) :
      Writable (.object fields)
  | array {kind : Kind} {items : List Node} (hlength : items.length < UInt64.size)
      (hkind : ∀ item ∈ items, item.kind = kind) (h : ∀ item ∈ items, Writable item) :
      Writable (.array kind items)

mutual

/-- Write a node to a stream. -/
def write : Node → Writer → Writer
  | .single type value, w => type.write value w
  | .object fields, w => (writeFields fields w.beginObject).endObject
  | .array kind items, w => (writeItems items (w.beginArray kind items.length)).endArray

def writeFields : List (UInt32 × Node) → Writer → Writer
  | [], w => w
  | (tag, node) :: fields, w => writeFields fields (write node (w.name tag))

def writeItems : List Node → Writer → Writer
  | [], w => w
  | node :: items, w => writeItems items (write node w)

end

mutual

/-- The bytes of a node after its header. -/
def body : Node → List UInt8
  | .single type value => type.encode value
  | .object fields => bodyFields fields ++ endMark
  | .array kind items => arrayStart kind items.length ++ (bodyItems items ++ endMark)

def bodyFields : List (UInt32 × Node) → List UInt8
  | [] => []
  | (tag, node) :: fields => header tag node.kind ++ (body node ++ bodyFields fields)

def bodyItems : List Node → List UInt8
  | [] => []
  | node :: items => body node ++ bodyItems items

end

end Node

/-! ## walks -/

/-- A call that succeeds, its reply, and the pending kind and the frames after it. -/
structure Sight where
  call : Call
  reply : Reply
  pending : Option Kind := none
  frames : List Frame

/-- A call made from the reader `r` shows what is given, and ends at `r'`. -/
def Sight.Shows (sight : Sight) (r r' : Reader) : Prop :=
  sight.call.make r = .ok sight.reply r' ∧ r'.pending = sight.pending ∧ r'.frames = sight.frames

namespace Node

mutual

/-- What a walk over a node sees, from behind its header or at its place in an array; `frames` are
those around it. -/
def walk (frames : List Frame) : Node → List Sight
  | .single type value => [{ call := .value type, reply := .scalar value, frames }]
  | .object fields =>
    { call := .beginObject, reply := .done, frames := .object :: frames } ::
      (walkFields frames fields ++
        [{ call := .hasNext, reply := .flag false, frames := .object :: frames },
          { call := .endObject, reply := .done, frames }])
  | .array kind items =>
    { call := .beginArray, reply := .done, frames := .array kind items.length :: frames } ::
      (walkItems kind frames items ++
        [{ call := .hasNext, reply := .flag false, frames := .array kind 0 :: frames },
          { call := .endArray, reply := .done, frames }])

/-- What a walk sees of the fields of an object. -/
def walkFields (frames : List Frame) : List (UInt32 × Node) → List Sight
  | [] => []
  | (tag, node) :: fields =>
    { call := .hasNext, reply := .flag true, frames := .object :: frames } ::
      { call := .nextName, reply := .number tag, pending := some node.kind,
        frames := .object :: frames } ::
      (walk (.object :: frames) node ++ walkFields frames fields)

/-- What a walk sees of the elements of an array: one less remains after each. -/
def walkItems (kind : Kind) (frames : List Frame) : List Node → List Sight
  | [] => []
  | node :: items =>
    { call := .hasNext, reply := .flag true,
      frames := .array kind (items.length + 1) :: frames } ::
      (walk (.array kind items.length :: frames) node ++ walkItems kind frames items)

end

/-! ## writing -/

variable {node : Node}

theorem writeFields_eq
    (ih : ∀ field ∈ fields, ∀ w, write field.2 w = w.put field.2.kind field.2.body)
    (bytes : List UInt8) :
    writeFields fields ⟨bytes, none⟩ = ⟨bytes ++ bodyFields fields, none⟩ := by
  induction fields generalizing bytes with
  | nil => simp [writeFields, bodyFields]
  | cons field fields ihf =>
      have hrest := ihf fun field h => ih field (List.mem_cons_of_mem _ h)
      have hfirst := ih field List.mem_cons_self
      simp [writeFields, bodyFields, hfirst, hrest, Writer.put, Writer.headerFor, Writer.name]

theorem writeItems_eq (ih : ∀ item ∈ items, ∀ w, write item w = w.put item.kind item.body)
    (bytes : List UInt8) : writeItems items ⟨bytes, none⟩ = ⟨bytes ++ bodyItems items, none⟩ := by
  induction items generalizing bytes with
  | nil => simp [writeItems, bodyItems]
  | cons item items ihi =>
      have hrest := ihi fun item h => ih item (List.mem_cons_of_mem _ h)
      have hfirst := ih item List.mem_cons_self
      simp [writeItems, bodyItems, hfirst, hrest, Writer.put, Writer.headerFor]

/-- A node is written as one value of its kind. -/
theorem write_eq (h : node.Writable) (w : Writer) : node.write w = w.put node.kind node.body := by
  induction h generalizing w with
  | single htype hsize => exact Primitive.write_eq htype w
  | @object fields h ih =>
      rw [write, Writer.beginObject, Writer.put, writeFields_eq ih]
      simp [Writer.endObject, Writer.finish, Writer.put, Node.kind, body]
  | @array kind items hlength hkind h ih =>
      rw [write, Writer.beginArray, Writer.put, writeItems_eq ih]
      simp [Writer.endArray, Writer.finish, Writer.put, Node.kind, body]

/-! ## skipping -/

theorem exists_spellsFields
    (ih : ∀ field ∈ fields, ∃ t : Tree, t.kind = field.2.kind ∧ Spells t field.2.body) :
    ∃ trees, SpellsFields trees (bodyFields fields) := by
  induction fields with
  | nil => exact ⟨[], .nil⟩
  | cons field fields ihf =>
      obtain ⟨t, hkind, ht⟩ := ih field List.mem_cons_self
      obtain ⟨trees, htrees⟩ := ihf fun field h => ih field (List.mem_cons_of_mem _ h)
      exact ⟨(field.1, t) :: trees, .cons (hkind ▸ isVarint_varint _) ht htrees⟩

theorem exists_spellsItems {kind : Kind} (hkind : ∀ item ∈ items, item.kind = kind)
    (ih : ∀ item ∈ items, ∃ t : Tree, t.kind = item.kind ∧ Spells t item.body) :
    ∃ trees, trees.length = items.length ∧ (∀ t ∈ trees, t.kind = kind) ∧
      SpellsItems trees (bodyItems items) := by
  induction items with
  | nil => exact ⟨[], rfl, by simp, .nil⟩
  | cons item items ihi =>
      obtain ⟨t, ht, hspells⟩ := ih item List.mem_cons_self
      obtain ⟨trees, hlength, hkinds, htrees⟩ := ihi
        (fun item h => hkind item (List.mem_cons_of_mem _ h))
        fun item h => ih item (List.mem_cons_of_mem _ h)
      refine ⟨t :: trees, by simp [hlength], ?_, .cons hspells htrees⟩
      simpa [ht.trans (hkind item List.mem_cons_self)] using hkinds

theorem toNat_length_toUInt64 (h : n < UInt64.size) : n = n.toUInt64.toNat := by
  simpa [UInt64.size] using (Nat.mod_eq_of_lt h).symm

/-- The bytes of a node spell a tree of its kind. -/
theorem exists_spells (h : node.Writable) :
    ∃ t : Tree, t.kind = node.kind ∧ Spells t node.body := by
  induction h with
  | @single type value htype hsize =>
      exact ⟨type.tree value, type.kind_tree htype, type.spells_tree htype hsize⟩
  | @object fields h ih =>
      obtain ⟨trees, htrees⟩ := exists_spellsFields ih
      exact ⟨.object trees, rfl, .object htrees⟩
  | @array kind items hlength hkind h ih =>
      obtain ⟨trees, hcount, hkinds, htrees⟩ := exists_spellsItems hkind ih
      refine ⟨.array kind trees, rfl, .array (isVarint_varint _) ?_ hkinds htrees⟩
      exact hcount.trans (toNat_length_toUInt64 hlength)

/-! ## walking -/

/-- A walk over a node ends right behind it, wherever the node stands. -/
def Walks (node : Node) : Prop :=
  ∀ pending frames frames' rest, Before node.kind pending frames frames' →
    Sees Sight.Shows (node.walk frames') ⟨node.body ++ rest, pending, frames⟩ ⟨rest, none, frames'⟩

theorem sees_walkFields (frames : List Frame) (ih : ∀ field ∈ fields, Walks field.2)
    (rest : List UInt8) :
    Sees Sight.Shows (walkFields frames fields) ⟨bodyFields fields ++ rest, none, .object :: frames⟩
      ⟨rest, none, .object :: frames⟩ := by
  induction fields with
  | nil => exact .nil _
  | cons field fields ihf =>
      obtain ⟨tag, node⟩ := field
      have hh : IsVarint (headerNumber tag node.kind) (header tag node.kind) := isVarint_varint _
      have hnode := ih (tag, node) List.mem_cons_self _ _ _ (bodyFields fields ++ rest)
        (.header (.object :: frames))
      have hrest := ihf fun field h => ih field (List.mem_cons_of_mem _ h)
      rw [bodyFields, List.append_assoc, List.append_assoc, walkFields]
      refine .cons ⟨bind_of_ok _ (Read.hasNext_header hh _ none frames), rfl, rfl⟩ ?_
      refine .cons ⟨bind_of_ok _ (Read.nextName_append hh _ none frames), rfl, rfl⟩ ?_
      exact hnode.append hrest

theorem sees_walkItems {kind : Kind} (frames : List Frame)
    (hkind : ∀ item ∈ items, item.kind = kind) (ih : ∀ item ∈ items, Walks item)
    (rest : List UInt8) :
    Sees Sight.Shows (walkItems kind frames items)
      ⟨bodyItems items ++ rest, none, .array kind items.length :: frames⟩
      ⟨rest, none, .array kind 0 :: frames⟩ := by
  induction items with
  | nil => exact .nil _
  | cons item items ihi =>
      have hbefore : Before item.kind none (.array kind (items.length + 1) :: frames)
          (.array kind items.length :: frames) := by
        rw [hkind item List.mem_cons_self]
        exact .item items.length frames
      have hitem := ih item List.mem_cons_self _ _ _ (bodyItems items ++ rest) hbefore
      have hrest := ihi (fun item h => hkind item (List.mem_cons_of_mem _ h))
        fun item h => ih item (List.mem_cons_of_mem _ h)
      rw [bodyItems, List.append_assoc, walkItems]
      refine .cons ⟨bind_of_ok _ (Read.hasNext_array kind _ _ none frames), rfl, rfl⟩ ?_
      exact hitem.append hrest

theorem walks (h : node.Writable) : node.Walks := by
  induction h with
  | @single type value htype hsize =>
      intro pending frames frames' rest hb
      have hread := type.read_reads _ _ pending frames frames' rest
        (type.spells_tree htype hsize) (type.kind_tree htype ▸ hb)
      rw [type.ofTree_tree htype] at hread
      exact .cons ⟨bind_of_ok _ hread, rfl, rfl⟩ (.nil _)
  | @object fields h ih =>
      intro pending frames frames' rest hb
      rw [body, List.append_assoc, walk]
      refine .cons ⟨bind_of_ok _ (Read.beginObject_before (.inside hb) _), rfl, rfl⟩ ?_
      refine (sees_walkFields frames' ih (endMark ++ rest)).append ?_
      refine .cons ⟨bind_of_ok _ (Read.hasNext_object 0 rest none frames'), rfl, rfl⟩ ?_
      exact .cons ⟨bind_of_ok _ (Read.endObject_append .nil rest frames'), rfl, rfl⟩ (.nil _)
  | @array kind items hlength hkind h ih =>
      intro pending frames frames' rest hb
      have hstart := Read.beginArray_before hb kind (isVarint_varint items.length.toUInt64)
        (bodyItems items ++ (endMark ++ rest))
      rw [← toNat_length_toUInt64 hlength] at hstart
      rw [body, arrayStart, List.cons_append, List.cons_append, List.append_assoc,
        List.append_assoc, walk]
      refine .cons ⟨bind_of_ok _ hstart, rfl, rfl⟩ ?_
      refine (sees_walkItems frames' hkind ih (endMark ++ rest)).append ?_
      refine .cons ⟨bind_of_ok _ (Read.hasNext_array kind 0 _ none frames'), rfl, rfl⟩ ?_
      exact .cons ⟨bind_of_ok _ (Read.endArray_append .nil (by simp) rest frames'), rfl, rfl⟩
        (.nil _)

end Node

/-- **The format describes itself.**  A node written as a field, under any tag, is a piece of bytes
of its own.  In front of any suffix and inside any frames, the calls of a walk over it succeed, show
its tags, kinds, lengths and values in order, find another part of a container as long as there is
one and none at its end, and stop at the suffix with the frames as they were.  Skipping the value
stops there as well. -/
theorem walk_write (node : Node) (h : node.Writable) (tag : UInt32) :
    ∃ bytes, (∀ w : Writer, node.write (w.name tag) = ⟨w.bytes ++ bytes, none⟩) ∧
      ∀ frames suffix,
        Sees Sight.Shows (Node.walkFields frames [(tag, node)])
          ⟨bytes ++ suffix, none, .object :: frames⟩ ⟨suffix, none, .object :: frames⟩ ∧
        (do let found ← Read.nextName; Read.skipValue; return found)
            ⟨bytes ++ suffix, none, .object :: frames⟩ =
          .ok tag ⟨suffix, none, .object :: frames⟩ := by
  have hfields : Node.bodyFields [(tag, node)] = header tag node.kind ++ node.body := by
    simp [Node.bodyFields]
  refine ⟨header tag node.kind ++ node.body, fun w => ?_, fun frames suffix => ⟨?_, ?_⟩⟩
  · rw [node.write_eq h]
    simp [Writer.put, Writer.headerFor, Writer.name]
  · rw [← hfields]
    exact Node.sees_walkFields frames (by simpa using node.walks h) suffix
  · obtain ⟨t, hkind, ht⟩ := node.exists_spells h
    have hh : IsVarint (headerNumber tag t.kind) (header tag node.kind) :=
      hkind ▸ isVarint_varint _
    rw [List.append_assoc, bind_of_ok _ (Read.nextName_append hh _ none frames),
      bind_of_ok _ (Read.skipValue_append ht (.header (.object :: frames)) suffix)]
    rfl

/-- Numbers at the ends of their ranges, and containers inside containers. -/
def Node.extremes : Node :=
  .object [(0, .single .int32 (.int .minValue)), (1, .single .sint64 (.long .minValue)),
    (4294967295, .array .array [.array .object [.object []], .array .string []])]

theorem Node.writable_extremes : extremes.Writable := by
  have hobjects : (Node.array .object [.object []]).Writable :=
    .array (by decide) (by simp [Node.kind]) (by simpa using .object (by simp))
  have hstrings : (Node.array .string []).Writable := .array (by decide) (by simp) (by simp)
  refine .object fun field hfield => ?_
  simp only [List.mem_cons, List.not_mem_nil, or_false] at hfield
  obtain rfl | rfl | rfl := hfield
  · exact .single rfl trivial
  · exact .single rfl trivial
  · exact .array (by decide) (by simp [Node.kind]) (by simp [hobjects, hstrings])

theorem walk_write_extremes :
    Node.extremes.Writable ∧
    ∃ bytes, (∀ w : Writer, Node.extremes.write (w.name 4294967295) = ⟨w.bytes ++ bytes, none⟩) ∧
      ∀ frames suffix,
        Sees Sight.Shows (Node.walkFields frames [(4294967295, Node.extremes)])
          ⟨bytes ++ suffix, none, .object :: frames⟩ ⟨suffix, none, .object :: frames⟩ ∧
        (do let found ← Read.nextName; Read.skipValue; return found)
            ⟨bytes ++ suffix, none, .object :: frames⟩ =
          .ok 4294967295 ⟨suffix, none, .object :: frames⟩ :=
  ⟨Node.writable_extremes, walk_write _ Node.writable_extremes _⟩

end Wire

end Missive
