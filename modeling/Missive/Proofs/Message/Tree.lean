import Missive.Message.Binary
import Missive.Proofs.Wire.Tree

/-!
# Missive.Proofs.Message.Tree

What a catalog makes of a payload that is given as a tree.

The functions here say without a stream reader what a message, a field, a value or an entry of a
map becomes, or which error it is.  `Catalog.readMessage_yields` joins the two: on any spelling of a
tree, in front of any suffix, the stream reader ends with the same message or the same error, and
right behind the tree if it succeeds.
-/

namespace Missive

open Wire

/-! ## trees as values -/

/-- The error for a tree of another kind than the one that is wanted. -/
def Wire.Tree.mismatch (wanted : Kind) (t : Tree) : Except ReadError α :=
  .error (.wire (.kindMismatch wanted t.kind))

/-- The scalar that a tree is as a primitive value. -/
def Primitive.ofTree : Primitive → Tree → Except ReadError Scalar
  | .bool, .int n => .ok (.bool (n != 0))
  | .int32, .int n => .ok (.int n.toUInt32.toInt32)
  | .uint32, .int n => .ok (.uint n.toUInt32)
  | .sint32, .sint n => .ok (.int (.ofInt (unzigzag n.toUInt32.toNat)))
  | .fixed32, .fint n => .ok (.uint n)
  | .sfixed32, .fint n => .ok (.int n.toInt32)
  | .int64, .long n => .ok (.long n.toInt64)
  | .uint64, .long n => .ok (.ulong n)
  | .sint64, .slong n => .ok (.long (.ofInt (unzigzag n.toNat)))
  | .fixed64, .flong n => .ok (.ulong n)
  | .sfixed64, .flong n => .ok (.long n.toInt64)
  | .float, .float x => .ok (.float x)
  | .double, .double x => .ok (.double x)
  | .string, .string bs =>
    match Utf8.decode? bs with
    | some s => .ok (.string s)
    | none => .error (.wire (.text ((Utf8.fault? bs).getD (.incomplete bs.length))))
  | .bytes, .binary bs => .ok (.bytes bs)
  | p, t => t.mismatch p.wireKind

/-- The signed integer of 32 bits that a tree is. -/
def Wire.Tree.toInt32? : Tree → Except ReadError Int32
  | .int n => .ok n.toUInt32.toInt32
  | t => t.mismatch .int

/-- The integer of 32 bits that a tree is. -/
def Wire.Tree.toUInt32? : Tree → Except ReadError UInt32
  | .int n => .ok n.toUInt32
  | t => t.mismatch .int

namespace Catalog

/-- A way to make a message of a tree inside another. -/
abbrev NestedTree := MessageId → Tree → Except ReadError (Option Message)

/-- The single value that a tree is. -/
def valueOfTree (c : Catalog) (nested : NestedTree) :
    ValuePlan → Tree → Except ReadError (Option Value)
  | .primitive p, t => return some (.scalar (← p.ofTree t))
  | .enumeration id, t => return some (.constant (c.constantOfCode id (← t.toInt32?)))
  | .message id _, t => return (← nested id t).map Message.toValue

/-- An entry of a map with one more of its fields. -/
def entryWith (c : Catalog) (nested : NestedTree) (key value : ValuePlan)
    (entry : Option Key × Option Value) (field : UInt32 × Tree) :
    Except ReadError (Option Key × Option Value) := do
  if field.1 == keyTag then
    return ((← c.valueOfTree nested key field.2).bind Key.ofValue?, entry.2)
  else if field.1 == valueTag then return (entry.1, ← c.valueOfTree nested value field.2)
  else return entry

/-- The entry of a map that a tree is, of which either part may be missing. -/
def entryOfTree (c : Catalog) (nested : NestedTree) (key value : ValuePlan) :
    Tree → Except ReadError (Option Key × Option Value)
  | .object fields => fields.foldlM (c.entryWith nested key value) (none, none)
  | t => t.mismatch .object

/-- The items of a list with one more element; nothing comes of an absent message. -/
def itemsWith (c : Catalog) (nested : NestedTree) (element : ValuePlan) (items : List Value)
    (t : Tree) : Except ReadError (List Value) := do
  return items ++ (← c.valueOfTree nested element t).toList

/-- The entries of a map with one more element. -/
def entriesWith (c : Catalog) (nested : NestedTree) (property : String) (key value : ValuePlan)
    (entries : List (Key × Value)) (t : Tree) : Except ReadError (List (Key × Value)) := do
  c.addEntry property key value (← c.entryOfTree nested key value t) entries

/-- The value of a field that a tree is. -/
def fieldOfTree (c : Catalog) (nested : NestedTree) (property : String) :
    FieldPlan → Tree → Except ReadError Value
  | .single value, t => return (← c.valueOfTree nested value t).getD .absent
  | .repeated element, .array _ items =>
    return .list (← items.foldlM (c.itemsWith nested element) [])
  | .map key value, .array _ items =>
    return .map (← items.foldlM (c.entriesWith nested property key value) [])
  | _, t => t.mismatch .array

/-- The values of a message with one more of its fields.  Tags that are not known are skipped. -/
def fieldsWith (c : Catalog) (nested : NestedTree) (id : MessageId) (values : List Value)
    (field : UInt32 × Tree) : Except ReadError (List Value) :=
  match (c.slots id).find? (·.tag == some field.1) with
  | some slot =>
    return values.set slot.position (← c.fieldOfTree nested slot.key slot.plan field.2)
  | none => return values

/-- The message of a concrete type that fields are. -/
def messageOfFields (c : Catalog) (nested : NestedTree) (id : MessageId)
    (fields : List (UInt32 × Tree)) : Except ReadError Message := do
  return { type := id, fields := ← fields.foldlM (c.fieldsWith nested id) (c.new id).fields }

/-- Which member of a type an object is, and its fields without the discriminator. -/
def openFields (c : Catalog) (id : MessageId) (fields : List (UInt32 × Tree)) :
    Except ReadError (Option MessageId × List (UInt32 × Tree)) :=
  if c.model.inFamily id then
    match fields with
    | (tag, t) :: rest =>
      if tag == 0 then return (c.memberOfTypeId? id (← t.toUInt32?), rest)
      else .error .missingDiscriminator
    | [] => .error .missingDiscriminator
  else return (some id, fields)

/-- The message of a type that a tree is, of at most `depth` nested messages. -/
def nestedOfTree (c : Catalog) : Nat → NestedTree
  | 0, _, _ => .error .unexpectedEnd
  | depth + 1, id, .object fields => do
    let (type, rest) ← c.openFields id fields
    match type with
    | some type => return some (← c.messageOfFields (c.nestedOfTree depth) type rest)
    | none => return none
  | _ + 1, _, t => t.mismatch .object

end Catalog

/-! ## single values -/

theorem Primitive.ofTree_mismatch (p : Primitive) (t : Tree) (h : t.kind ≠ p.wireKind) :
    p.ofTree t = t.mismatch p.wireKind := by
  cases p <;> cases t <;> first | rfl | exact absurd rfl h

/-- A primitive value of another kind is refused before anything of it is read. -/
theorem Primitive.read_mismatch (p : Primitive) (h : Before kind pending frames frames')
    (hne : kind ≠ p.wireKind) (rest : List UInt8) :
    p.read ⟨rest, pending, frames⟩ =
      .error (.wire (.kindMismatch p.wireKind kind)) ⟨rest, none, frames'⟩ := by
  have hx := Read.expect_mismatch h hne rest
  cases p <;>
    simp only [Primitive.wireKind] at hx <;>
    simp [Primitive.read, Functor.map, EStateM.map, Read.bool, Read.int, Read.uint, Read.sint,
      Read.fixedInt, Read.sfixedInt, Read.long, Read.ulong, Read.slong, Read.fixedLong,
      Read.sfixedLong, Read.float, Read.double, Read.string, Read.binary,
      bind_of_error _ hx, Primitive.wireKind]

theorem Primitive.read_reads (p : Primitive) : Reads p.read p.ofTree := by
  intro t bs pending frames frames' rest hs hb
  by_cases hk : t.kind = p.wireKind
  · cases p <;> cases hs <;> simp only [Tree.kind, Primitive.wireKind, reduceCtorEq] at hk
    case bool.int hv =>
      exact .map Scalar.bool (.ok (Read.expect_bind_varint hb hv rest fun n => pure (n != 0)))
    case int32.int hv =>
      exact .map Scalar.int (.ok (Read.expect_bind_varint hb hv rest fun n =>
        pure n.toUInt32.toInt32))
    case uint32.int hv =>
      exact .map Scalar.uint (.ok (Read.expect_bind_varint hb hv rest fun n => pure n.toUInt32))
    case sint32.sint hv =>
      exact .map Scalar.int (.ok (Read.expect_bind_varint hb hv rest fun n =>
        pure (.ofInt (unzigzag n.toUInt32.toNat))))
    case int64.long hv =>
      exact .map Scalar.long (.ok (Read.expect_bind_varint hb hv rest fun n => pure n.toInt64))
    case uint64.long hv =>
      refine .map Scalar.ulong (.ok ?_)
      exact (bind_of_ok _ (Read.expect_before hb _)).trans
        (Read.varint_append hv rest none frames')
    case sint64.slong hv =>
      exact .map Scalar.long (.ok (Read.expect_bind_varint hb hv rest fun n =>
        pure (.ofInt (unzigzag n.toNat))))
    case fixed32.fint n =>
      exact .map Scalar.uint (.ok (Read.expect_bind_fixed4 hb n rest fun n => pure n))
    case sfixed32.fint n =>
      exact .map Scalar.int (.ok (Read.expect_bind_fixed4 hb n rest fun n => pure n.toInt32))
    case fixed64.flong n =>
      exact .map Scalar.ulong (.ok (Read.expect_bind_fixed8 hb n rest fun n => pure n))
    case sfixed64.flong n =>
      exact .map Scalar.long (.ok (Read.expect_bind_fixed8 hb n rest fun n => pure n.toInt64))
    case float.float x =>
      exact .map Scalar.float (.ok (Read.expect_bind_fixed4 hb x.bits rest fun n => pure ⟨n⟩))
    case double.double x =>
      exact .map Scalar.double (.ok (Read.expect_bind_fixed8 hb x.bits rest fun n => pure ⟨n⟩))
    case string.string bytes hv hlen =>
      have hread : Read.string ⟨_ ++ bytes ++ rest, pending, frames⟩ = _ :=
        Read.expect_bind_bytes hb hv hlen rest fun bytes =>
          match Utf8.decode? bytes with
          | some s => pure s
          | none => Read.fault (.text ((Utf8.fault? bytes).getD (.incomplete bytes.length)))
      cases hd : Utf8.decode? bytes with
      | some s =>
          rw [hd] at hread
          simp only [Primitive.ofTree, hd]
          exact .map Scalar.string (.ok hread)
      | none =>
          rw [hd] at hread
          simp only [Primitive.ofTree, hd]
          exact .map Scalar.string (.error hread)
    case bytes.binary hv hlen =>
      refine .map Scalar.bytes (.ok ?_)
      exact (bind_of_ok _ (Read.expect_before hb _)).trans
        (Read.lengthPrefixed_append hv hlen rest none frames')
  · rw [p.ofTree_mismatch t hk]
    exact .error (p.read_mismatch hb hk _)

theorem Wire.Tree.eq_object (t : Tree) (h : t.kind = .object) : ∃ fields, t = .object fields := by
  cases t <;> first | exact ⟨_, rfl⟩ | exact absurd h (by simp [Tree.kind])

theorem Wire.Tree.eq_array (t : Tree) (h : t.kind = .array) :
    ∃ kind items, t = .array kind items := by
  cases t <;> first | exact ⟨_, _, rfl⟩ | exact absurd h (by simp [Tree.kind])

/-- Reading a signed integer, as the code of a constant. -/
theorem Wire.Read.int_reads : Reads Read.int Tree.toInt32? := by
  intro t bs pending frames frames' rest hs hb
  by_cases hk : t.kind = .int
  · cases hs with
    | int hv =>
        exact .ok (Read.expect_bind_varint hb hv rest fun n => pure n.toUInt32.toInt32)
    | _ => simp [Tree.kind] at hk
  · have hf : t.toInt32? = t.mismatch .int := by
      cases t <;> first | rfl | exact absurd rfl hk
    rw [hf]
    exact .error (bind_of_error _ (Read.expect_mismatch hb hk _))

/-- Reading an unsigned integer, as a discriminator. -/
theorem Wire.Read.uint_reads : Reads Read.uint Tree.toUInt32? := by
  intro t bs pending frames frames' rest hs hb
  by_cases hk : t.kind = .int
  · cases hs with
    | int hv => exact .ok (Read.expect_bind_varint hb hv rest fun n => pure n.toUInt32)
    | _ => simp [Tree.kind] at hk
  · have hf : t.toUInt32? = t.mismatch .int := by
      cases t <;> first | rfl | exact absurd rfl hk
    rw [hf]
    exact .error (bind_of_error _ (Read.expect_mismatch hb hk _))

namespace Catalog

variable {c : Catalog} {nested : NestedRead} {nestedTree : NestedTree}

theorem readValue_reads (hn : ∀ id, Reads (nested id) (nestedTree id)) (plan : ValuePlan) :
    Reads (c.readValue nested plan) (c.valueOfTree nestedTree plan) := by
  intro t bs pending frames frames' rest hs hb
  cases plan with
  | primitive p =>
      exact .bind (p.read_reads t bs pending frames frames' rest hs hb) fun s => .pure _ _
  | enumeration id =>
      exact .bind (Read.int_reads t bs pending frames frames' rest hs hb) fun n => .pure _ _
  | message id isAbstract =>
      exact .bind (hn id t bs pending frames frames' rest hs hb) fun m => .pure _ _

/-! ## fields -/

/-- One field of an entry of a map. -/
theorem readEntryField_yields (hn : ∀ id, Reads (nested id) (nestedTree id))
    (key value : ValuePlan) (entry : Option Key × Option Value) (field : UInt32 × Tree)
    (hh : IsVarint (headerNumber field.1 field.2.kind) head) (hs : Spells field.2 body)
    (rest : List UInt8) (frames : List Frame) :
    Yields ((do
        let tag ← Read.nextName
        if tag == keyTag then
          return ((← c.readValue nested key).bind Key.ofValue?, entry.2)
        else if tag == valueTag then return (entry.1, ← c.readValue nested value)
        else
          Read.skipValue
          return entry : Read (Option Key × Option Value))
        ⟨head ++ (body ++ rest), none, .object :: frames⟩)
      (c.entryWith nestedTree key value entry field) ⟨rest, none, .object :: frames⟩ := by
  have hb : Before field.2.kind (some field.2.kind) (.object :: frames) (.object :: frames) :=
    .header _
  rw [bind_of_ok _ (Read.nextName_append hh _ none frames)]
  unfold entryWith
  split
  · exact .bind (readValue_reads hn key _ _ _ _ _ rest hs hb) fun v => .pure _ _
  · split
    · exact .bind (readValue_reads hn value _ _ _ _ _ rest hs hb) fun v => .pure _ _
    · rw [bind_of_ok _ (Read.skipValue_append hs hb rest)]
      exact .pure _ _

theorem readEntryFields_reads (hn : ∀ id, Reads (nested id) (nestedTree id))
    (key value : ValuePlan) :
    Reads (c.readEntryFields nested key value) (c.entryOfTree nestedTree key value) := by
  intro t bs pending frames frames' rest hs hb
  by_cases hk : t.kind = .object
  · obtain ⟨fields, rfl⟩ := t.eq_object hk
    cases hs with
    | object hfields =>
        unfold readEntryFields
        rw [List.append_assoc, bind_of_ok _ (Read.beginObject_before (.inside hb) _)]
        have hloop := Read.whileNext_fields _ (c.entryWith nestedTree key value) frames' hfields
          (by
            intro field _ head body rest entry hh hbody _
            exact readEntryField_yields hn key value entry field hh hbody rest frames') rest
          (none, none)
        rw [entryOfTree, ← bind_pure (List.foldlM _ _ _)]
        refine .bind hloop fun entry => .ok ?_
        exact bind_of_ok _ (Read.endObject_append .nil rest frames')
  · have hf : c.entryOfTree nestedTree key value t = t.mismatch .object := by
      cases t <;> first | rfl | exact absurd rfl hk
    rw [hf]
    exact .error (bind_of_error _ (Read.beginObject_mismatch hb hk _))

/-- An array, each element of which one step reads, up to its end. -/
theorem readArray_yields {step : α → Read α} {next : α → Tree → Except ReadError α}
    {finish : α → Value} (hstep : ∀ a, Reads (step a) (next a)) (hs : Spells (.array kind items) bs)
    (hb : Before .array pending frames frames') (rest : List UInt8) (a : α) :
    Yields ((do
        Read.beginArray
        let b ← Read.whileNext step a
        Read.endArray
        return finish b : Read Value) ⟨bs ++ rest, pending, frames⟩)
      (do return finish (← items.foldlM next a)) ⟨rest, none, frames'⟩ := by
  cases hs with
  | @array count start _ _ content hv hcount hkind hitems =>
      rw [List.cons_append, List.append_assoc, List.append_assoc,
        bind_of_ok _ (Read.beginArray_before hb kind hv _), ← hcount]
      have hloop := Read.whileNext_items step next kind frames' hitems (by
        intro t ht body rest remaining a hbody _
        refine hstep a t body _ _ _ rest hbody ?_
        rw [hkind t ht]
        exact .item remaining frames') (endMark ++ rest) a
      refine .bind hloop fun b => .ok ?_
      exact bind_of_ok _ (Read.endArray_append .nil (by simp) rest frames')

theorem readField_reads (hn : ∀ id, Reads (nested id) (nestedTree id)) (slot : Slot) :
    Reads (c.readField nested slot) (c.fieldOfTree nestedTree slot.key slot.plan) := by
  intro t bs pending frames frames' rest hs hb
  unfold readField
  cases hplan : slot.plan with
  | single value =>
      exact .bind (readValue_reads hn value t bs pending frames frames' rest hs hb)
        fun v => .pure _ _
  | repeated element =>
      by_cases hk : t.kind = .array
      · obtain ⟨kind, items, rfl⟩ := t.eq_array hk
        refine readArray_yields (fun a => ?_) hs hb rest []
        intro t bs pending frames frames' rest hs hb
        exact .bind (readValue_reads hn element t bs pending frames frames' rest hs hb) fun v =>
          .pure _ _
      · have hf : c.fieldOfTree nestedTree slot.key (.repeated element) t = t.mismatch .array := by
          cases t <;> first | rfl | exact absurd rfl hk
        rw [hf]
        exact .error (bind_of_error _ (Read.beginArray_mismatch hb hk _))
  | map key value =>
      by_cases hk : t.kind = .array
      · obtain ⟨kind, items, rfl⟩ := t.eq_array hk
        refine readArray_yields (fun a => ?_) hs hb rest []
        intro t bs pending frames frames' rest hs hb
        refine .bind (readEntryFields_reads hn key value t bs pending frames frames' rest hs hb)
          fun entry => ?_
        cases c.addEntry slot.key key value entry a with
        | ok entries => exact .pure _ _
        | error e => exact .error rfl
      · have hf : c.fieldOfTree nestedTree slot.key (.map key value) t = t.mismatch .array := by
          cases t <;> first | rfl | exact absurd rfl hk
        rw [hf]
        exact .error (bind_of_error _ (Read.beginArray_mismatch hb hk _))

/-! ## messages -/

/-- The fields of a message, up to the end of its object. -/
theorem readFields_yields (hn : ∀ id, Reads (nested id) (nestedTree id)) (id : MessageId)
    (hs : SpellsFields fields bs) (rest : List UInt8) (frames : List Frame) :
    Yields (c.readFields nested id ⟨bs ++ (endMark ++ rest), none, .object :: frames⟩)
      (c.messageOfFields nestedTree id fields) ⟨endMark ++ rest, none, .object :: frames⟩ := by
  refine .bind (Read.whileNext_fields _ (c.fieldsWith nestedTree id) frames hs ?_ rest _)
    fun values => .pure _ _
  intro field _ head body rest values hh hbody _
  have hb : Before field.2.kind (some field.2.kind) (.object :: frames) (.object :: frames) :=
    .header _
  rw [bind_of_ok _ (Read.nextName_append hh _ none frames)]
  unfold fieldsWith
  cases (c.slots id).find? (·.tag == some field.1) with
  | some slot =>
      exact .bind (readField_reads hn slot _ _ _ _ _ rest hbody hb) fun v => .pure _ _
  | none =>
      simp only
      rw [bind_of_ok _ (Read.skipValue_append hbody hb rest)]
      exact .pure _ _

/-- The discriminator that opens the fields of an object. -/
theorem typeId_yields (hh : IsVarint (headerNumber tag t.kind) head) (hs : Spells t body)
    (rest : List UInt8) (frames : List Frame) :
    Yields (Read.typeId ⟨head ++ (body ++ rest), none, .object :: frames⟩)
      (if tag == 0 then t.toUInt32? else .error .missingDiscriminator)
      ⟨rest, none, .object :: frames⟩ := by
  unfold Read.typeId
  rw [bind_of_ok _ (Read.hasNext_header hh _ none frames)]
  simp only [if_true]
  rw [bind_of_ok _ (Read.nextName_append hh _ none frames)]
  split
  · exact Read.uint_reads t body _ _ _ rest hs (.header _)
  · exact .error rfl

/-- Finding out which member of a type an object is leaves the fields after the discriminator. -/
theorem readType_yields (id : MessageId) (hs : SpellsFields fields bs) (rest : List UInt8)
    (frames : List Frame) :
    match c.openFields id fields with
    | .ok (type, fields') => ∃ bs', SpellsFields fields' bs' ∧
        c.readType id ⟨bs ++ (endMark ++ rest), none, .object :: frames⟩ =
          .ok type ⟨bs' ++ (endMark ++ rest), none, .object :: frames⟩
    | .error e => ∃ r', c.readType id ⟨bs ++ (endMark ++ rest), none, .object :: frames⟩ =
        .error e r' := by
  unfold openFields readType
  by_cases hf : c.model.inFamily id
  · simp only [hf, if_true]
    cases hs with
    | nil => exact ⟨_, rfl⟩
    | @cons tag t fields head body tail hh ht htail =>
        rw [List.append_assoc, List.append_assoc]
        have htype := typeId_yields hh ht (tail ++ (endMark ++ rest)) frames
        by_cases h0 : (tag == 0) = true
        · simp only [h0, if_true] at htype ⊢
          cases hu : t.toUInt32? with
          | ok n =>
              rw [hu] at htype
              exact ⟨tail, htail, bind_of_ok _ htype⟩
          | error e =>
              rw [hu] at htype
              obtain ⟨r', hr'⟩ := htype
              exact ⟨r', bind_of_error _ hr'⟩
        · simp only [h0] at htype ⊢
          obtain ⟨r', hr'⟩ := htype
          exact ⟨r', bind_of_error _ hr'⟩
  · simp only [hf]
    exact ⟨bs, hs, rfl⟩

/-- A reader of objects refuses values of other kinds, unless its depth is used up first. -/
theorem reads_of_object
    (h : ∀ id fields bs pending frames frames' rest, SpellsFields fields bs →
      Before .object pending frames frames' →
      Yields (c.readNested depth id ⟨bs ++ (endMark ++ rest), pending, frames⟩)
        (c.nestedOfTree depth id (.object fields)) ⟨rest, none, frames'⟩) (id : MessageId) :
    Reads (c.readNested depth id) (c.nestedOfTree depth id) := by
  intro t bs pending frames frames' rest hs hb
  by_cases hk : t.kind = .object
  · obtain ⟨fields, rfl⟩ := t.eq_object hk
    cases hs with
    | object hfields =>
        rw [List.append_assoc]
        exact h id fields _ pending frames frames' rest hfields hb
  · cases depth with
    | zero => exact .error rfl
    | succ depth =>
        have hf : c.nestedOfTree (depth + 1) id t = t.mismatch .object := by
          cases t <;> first | rfl | exact absurd rfl hk
        rw [hf]
        exact .error (bind_of_error _ (Read.beginObject_mismatch hb hk _))

/-- The stream reader on an object, wherever a message may stand. -/
theorem readNested_object (depth : Nat) (id : MessageId) (hs : SpellsFields fields bs)
    (hb : BeforeMessage pending frames frames') (rest : List UInt8) :
    Yields (c.readNested depth id ⟨bs ++ (endMark ++ rest), pending, frames⟩)
      (c.nestedOfTree depth id (.object fields)) ⟨rest, none, frames'⟩ := by
  induction depth generalizing id fields bs pending frames frames' rest with
  | zero => exact .error rfl
  | succ depth ih =>
      have hn : ∀ id, Reads (c.readNested depth id) (c.nestedOfTree depth id) :=
        reads_of_object fun id _ _ _ _ _ rest hs hb => ih id hs (.inside hb) rest
      unfold readNested nestedOfTree
      rw [bind_of_ok _ (Read.beginObject_before hb _)]
      have htype := readType_yields (c := c) id hs rest frames'
      cases ho : c.openFields id fields with
      | error e =>
          rw [ho] at htype
          obtain ⟨r', hr'⟩ := htype
          exact .error (bind_of_error _ hr')
      | ok opened =>
          obtain ⟨type, fields'⟩ := opened
          rw [ho] at htype
          obtain ⟨bs', hs', hread⟩ := htype
          rw [bind_of_ok _ hread]
          cases type with
          | none =>
              refine .ok ?_
              exact bind_of_ok _ (Read.endObject_append hs' rest frames')
          | some type =>
              simp only [bind_map_left]
              refine .bind (readFields_yields hn type hs' rest frames') fun message => .ok ?_
              exact bind_of_ok _ (Read.endObject_append .nil rest frames')

/-- The stream reader on any value. -/
theorem readNested_reads (depth : Nat) (id : MessageId) :
    Reads (c.readNested depth id) (c.nestedOfTree depth id) :=
  reads_of_object
    (fun id _ _ _ _ _ rest hs hb => readNested_object depth id hs (.inside hb) rest) id

/-- **Reading a payload**: on any spelling of an object, wherever a message may stand and whatever
follows, the reader ends as the tree says, and behind the object if it succeeds. -/
theorem readMessage_yields (id : MessageId) (hs : Spells (.object fields) bs)
    (hb : BeforeMessage pending frames frames') (rest : List UInt8) :
    Yields (c.readMessage id ⟨bs ++ rest, pending, frames⟩)
      (c.nestedOfTree ((bs ++ rest).length + 1) id (.object fields)) ⟨rest, none, frames'⟩ := by
  unfold readMessage
  rw [get_bind]
  cases hs with
  | object hfields =>
      rw [List.append_assoc]
      exact readNested_object _ id hfields hb rest

end Catalog

end Missive
