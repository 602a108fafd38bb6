import Missive.Proofs.Json.Stream
import Missive.Proofs.Message.JsonRoundTrip
import Missive.Proofs.Wire.Walk

/-!
# Missive.Proofs.Message.Writing

Messages written call by call.

The code of a message hands its fields to a stream writer, one call after another: `Catalog.write`
and `Catalog.writeJson` make these calls.  What the writer makes of them is the message in one
piece, in whatever place it is written (`write_eq`, `writeJson_eq`).  In JSON this rests on names
that are not repeated: the keys of the slots are distinct, and so are those of a map.
-/

namespace Missive

theorem Scalar.namesUnique_toJson (s : Scalar) : s.toJson.NamesUnique := by
  have hdouble : ∀ x, (Json.ofDouble x).NamesUnique := by
    intro x
    unfold Json.ofDouble
    split
    · exact .number _
    · split <;> exact .string _
  cases s with
  | bool b => exact .bool b
  | int | uint | long | ulong => exact .number _
  | float x => exact hdouble x.widen
  | double x => exact hdouble x
  | string | bytes => exact .string _

namespace Catalog

open Json (writeAll writeAll_append writeAll_tokens tokens tokensItems tokensMembers)

variable {c : Catalog} {plan : FieldPlan} {v : Value} {message : Message} {id : MessageId}

/-! ## the binary format -/

/-- Write the discriminator of a message, if it is in a family. -/
def writeType (c : Catalog) (id : MessageId) (w : Wire.Writer) : Wire.Writer :=
  match c.typeId? id with
  | some typeId => (w.name 0).uint typeId
  | none => w

/-- Write a key. -/
def writeKey (c : Catalog) : ValuePlan → Key → Wire.Writer → Wire.Writer
  | .primitive p, .scalar s, w => p.write s w
  | .enumeration id, .constant index, w => w.int (c.codeOf id index)
  | _, _, w => w

mutual

/-- Write a value, under the name that is set. -/
def writeValue (c : Catalog) : FieldPlan → Value → Wire.Writer → Wire.Writer
  | .single (.primitive p), .scalar s, w => p.write s w
  | .single (.enumeration id), .constant index, w => w.int (c.codeOf id index)
  | .single (.message ..), .message type fields, w =>
    (writeFields c (c.slots type) fields (c.writeType type w.beginObject)).endObject
  | .repeated element, .list items, w =>
    (writeItems c element items (w.beginArray element.wireKind items.length)).endArray
  | .map key value, .map entries, w =>
    (writeEntries c key value entries (w.beginArray .object entries.length)).endArray
  | _, _, w => w

/-- Write the fields of a message, each under its tag. -/
def writeFields (c : Catalog) : List Slot → List Value → Wire.Writer → Wire.Writer
  | slot :: slots, value :: values, w =>
    match slot.tag with
    | some tag =>
      if value.isAbsent then writeFields c slots values w
      else writeFields c slots values (writeValue c slot.plan value (w.name tag))
    | none => writeFields c slots values w
  | _, _, w => w

/-- Write the elements of an array. -/
def writeItems (c : Catalog) (element : ValuePlan) : List Value → Wire.Writer → Wire.Writer
  | [], w => w
  | item :: items, w => writeItems c element items (writeValue c (.single element) item w)

/-- Write the entries of a map. -/
def writeEntries (c : Catalog) (key value : ValuePlan) :
    List (Key × Value) → Wire.Writer → Wire.Writer
  | [], w => w
  | (k, v) :: entries, w =>
    let w := c.writeKey key k (w.beginObject.name Wire.keyTag)
    let w := writeValue c (.single value) v (w.name Wire.valueTag)
    writeEntries c key value entries w.endObject

end

/-- Write a message. -/
def write (c : Catalog) (message : Message) (w : Wire.Writer) : Wire.Writer :=
  (c.writeFields (c.slots message.type) message.fields
    (c.writeType message.type w.beginObject)).endObject

theorem writeType_eq (bytes : List UInt8) :
    c.writeType id ⟨bytes, none⟩ = ⟨bytes ++ (c.discriminator id).flatten, none⟩ := by
  cases h : c.typeId? id <;> simp [writeType, discriminator, h, Wire.Writer.uint, Wire.Writer.put,
    Wire.Writer.headerFor, Wire.Writer.name, Wire.field]

theorem writeKey_eq {key : ValuePlan} {k : Key} (h : c.Fits (.single key) k.toValue)
    (w : Wire.Writer) : c.writeKey key k w = w.put key.wireKind (c.encodeKey key k) := by
  cases k with
  | scalar s =>
      cases h with
      | scalar htype hsize => exact Primitive.write_eq htype w
  | constant index =>
      cases h with
      | constant h => rfl

section Parts

variable {slots : List Slot} {values items : List Value} {entries : List (Key × Value)}
  {element key value : ValuePlan}

theorem writeFields_eq
    (h : ∀ entry ∈ slots.zip values, entry.2.isAbsent = false → ∀ w,
      c.writeValue entry.1.plan entry.2 w =
        w.put entry.1.plan.wireKind (c.encodeValue entry.1.plan entry.2))
    (bytes : List UInt8) : c.writeFields slots values ⟨bytes, none⟩ =
      ⟨bytes ++ (c.encodeFields slots values).flatten, none⟩ := by
  induction slots generalizing values bytes with
  | nil => simp [writeFields, encodeFields]
  | cons slot slots ih =>
      cases values with
      | nil => simp [writeFields, encodeFields]
      | cons value values =>
          rw [List.zip_cons_cons, List.forall_mem_cons] at h
          rw [writeFields, encodeFields]
          cases slot.tag with
          | none => exact ih h.2 bytes
          | some tag =>
              cases habsent : value.isAbsent with
              | true => exact ih h.2 bytes
              | false =>
                  simp [h.1 habsent, ih h.2, Wire.Writer.put, Wire.Writer.headerFor,
                    Wire.Writer.name, Wire.field]

theorem writeItems_eq
    (h : ∀ item ∈ items, ∀ w, c.writeValue (.single element) item w =
      w.put element.wireKind (c.encodeValue (.single element) item))
    (bytes : List UInt8) : c.writeItems element items ⟨bytes, none⟩ =
      ⟨bytes ++ (c.encodeItems element items).flatten, none⟩ := by
  induction items generalizing bytes with
  | nil => simp [writeItems, encodeItems]
  | cons item items ih =>
      rw [List.forall_mem_cons] at h
      simp [writeItems, encodeItems, h.1, ih h.2, Wire.Writer.put, Wire.Writer.headerFor]

theorem writeEntries_eq (hkeys : ∀ entry ∈ entries, c.Fits (.single key) entry.1.toValue)
    (h : ∀ entry ∈ entries, ∀ w, c.writeValue (.single value) entry.2 w =
      w.put value.wireKind (c.encodeValue (.single value) entry.2))
    (bytes : List UInt8) : c.writeEntries key value entries ⟨bytes, none⟩ =
      ⟨bytes ++ (c.encodeEntries key value entries).flatten, none⟩ := by
  induction entries generalizing bytes with
  | nil => simp [writeEntries, encodeEntries]
  | cons entry entries ih =>
      rw [List.forall_mem_cons] at h hkeys
      simp [writeEntries, encodeEntries, writeKey_eq hkeys.1, h.1, ih hkeys.2 h.2,
        Wire.Writer.put, Wire.Writer.headerFor, Wire.Writer.name, Wire.Writer.beginObject,
        Wire.Writer.endObject, Wire.Writer.finish, Wire.field, Wire.object]

end Parts

/-- A value that fits is written as one value of its kind. -/
theorem writeValue_eq (h : c.Fits plan v) (hpresent : v.isAbsent = false) (w : Wire.Writer) :
    c.writeValue plan v w = w.put plan.wireKind (c.encodeValue plan v) := by
  induction h generalizing w with
  | scalar htype hsize => exact Primitive.write_eq htype w
  | constant h => rfl
  | absent id isAbstract => contradiction
  | message hmember hlength hfields ih =>
      rw [writeValue, Wire.Writer.beginObject, Wire.Writer.put, writeType_eq, writeFields_eq ih]
      simp [Wire.Writer.endObject, Wire.Writer.finish, Wire.Writer.put, encodeValue, Wire.object,
        FieldPlan.wireKind, ValuePlan.wireKind]
  | list hlength hitems hfits ih =>
      rw [writeValue, Wire.Writer.beginArray, Wire.Writer.put,
        writeItems_eq fun item hitem => ih item hitem (hitems item hitem)]
      simp [Wire.Writer.endArray, Wire.Writer.finish, Wire.Writer.put, encodeValue, Wire.array,
        FieldPlan.wireKind, length_encodeItems]
  | map hlength hdistinct hentries hkeys hvalues ihk ihv =>
      rw [writeValue, Wire.Writer.beginArray, Wire.Writer.put,
        writeEntries_eq hkeys fun entry hentry => ihv entry hentry (hentries entry hentry)]
      simp [Wire.Writer.endArray, Wire.Writer.finish, Wire.Writer.put, encodeValue, Wire.array,
        FieldPlan.wireKind, length_encodeEntries]

/-- **A message is written as an object** of the bytes that it has, under the name that is set. -/
theorem write_eq (h : c.FitsMessage id message) (w : Wire.Writer) :
    c.write message w = w.put .object (c.encode message) :=
  writeValue_eq (Fits.message h.member h.length h.fields : c.Fits (.single (.message id false)) _)
    rfl w

/-! ## JSON -/

/-- Write what has the name of its type in front. -/
def writeNamed (c : Catalog) (type : MessageId) (content : Json.Writer → Json.Writer)
    (w : Json.Writer) : Json.Writer :=
  (content (w.beginArray.value (.string (c.jsonType type)))).endArray

mutual

/-- Write a value, under the name that is set. -/
def writeValueJson (c : Catalog) : FieldPlan → Value → Json.Writer → Json.Writer
  | .single (.primitive _), .scalar s, w => w.value s.toJson
  | .single (.enumeration id), .constant index, w => w.value (.string (c.nameOf id index))
  | .single (.message _ isAbstract), .message type fields, w =>
    let content (w : Json.Writer) :=
      (writeMembersJson c (c.slots type) fields w.beginObject).endObject
    if isAbstract then c.writeNamed type content w else content w
  | .repeated element, .list items, w => (writeItemsJson c element items w.beginArray).endArray
  | .map key value, .map entries, w =>
    if FieldPlan.keysAreNames key then (writeNamedJson c value entries w.beginObject).endObject
    else (writeRecordsJson c key value entries w.beginArray).endArray
  | _, _, w => w

/-- Write the properties of a message, each under its key. -/
def writeMembersJson (c : Catalog) : List Slot → List Value → Json.Writer → Json.Writer
  | slot :: slots, value :: values, w =>
    if value.isAbsent then writeMembersJson c slots values w
    else writeMembersJson c slots values (writeValueJson c slot.plan value (w.name slot.key))
  | _, _, w => w

/-- Write the elements of a list. -/
def writeItemsJson (c : Catalog) (element : ValuePlan) : List Value → Json.Writer → Json.Writer
  | [], w => w
  | item :: items, w => writeItemsJson c element items (writeValueJson c (.single element) item w)

/-- Write the entries of a map with texts as keys. -/
def writeNamedJson (c : Catalog) (value : ValuePlan) :
    List (Key × Value) → Json.Writer → Json.Writer
  | [], w => w
  | (k, v) :: entries, w =>
    writeNamedJson c value entries (writeValueJson c (.single value) v (w.name (keyName k)))

/-- Write the entries of a map with other keys. -/
def writeRecordsJson (c : Catalog) (key value : ValuePlan) :
    List (Key × Value) → Json.Writer → Json.Writer
  | [], w => w
  | (k, v) :: entries, w =>
    let w := (w.beginObject.name Json.keyName).value (c.keyJson key k)
    let w := writeValueJson c (.single value) v (w.name Json.valueName)
    writeRecordsJson c key value entries w.endObject

end

/-- Write a message; a member of a family with the name of its type. -/
def writeJson (c : Catalog) (message : Message) (w : Json.Writer) : Json.Writer :=
  let content (w : Json.Writer) :=
    (c.writeMembersJson (c.slots message.type) message.fields w.beginObject).endObject
  if c.model.inFamily message.type then c.writeNamed message.type content w else content w

/-- A value that does not repeat names is written by its calls. -/
theorem writeAll_of_namesUnique {value : Json} (h : value.NamesUnique) (w : Json.Writer) :
    writeAll value.tokens w = w.value value := by
  rw [writeAll_tokens, h.merged_eq]

theorem writeAll_object (members : List (String × Json)) (w : Json.Writer) :
    writeAll (Json.object members).tokens w =
      (writeAll (tokensMembers members) w.beginObject).endObject := by
  rw [tokens]
  exact writeAll_append ..

theorem writeAll_array (items : List Json) (w : Json.Writer) :
    writeAll (Json.array items).tokens w =
      (writeAll (tokensItems items) w.beginArray).endArray := by
  rw [tokens]
  exact writeAll_append ..

theorem writeAll_member (name : String) (value : Json) (members : List (String × Json))
    (w : Json.Writer) : writeAll (tokensMembers ((name, value) :: members)) w =
      writeAll (tokensMembers members) (writeAll value.tokens (w.name name)) := by
  rw [tokensMembers]
  exact writeAll_append ..

section JsonParts

variable {slots : List Slot} {values items : List Value} {entries : List (Key × Value)}
  {element key value : ValuePlan}

theorem writeMembersJson_eq
    (h : ∀ entry ∈ slots.zip values, entry.2.isAbsent = false → ∀ w,
      c.writeValueJson entry.1.plan entry.2 w =
        writeAll (c.valueJson entry.1.plan entry.2).tokens w)
    (w : Json.Writer) : c.writeMembersJson slots values w =
      writeAll (tokensMembers (c.membersJson slots values)) w := by
  induction slots generalizing values w with
  | nil => simp [writeMembersJson, membersJson, tokensMembers, writeAll]
  | cons slot slots ih =>
      cases values with
      | nil => simp [writeMembersJson, membersJson, tokensMembers, writeAll]
      | cons value values =>
          rw [List.zip_cons_cons, List.forall_mem_cons] at h
          rw [writeMembersJson, membersJson]
          cases habsent : value.isAbsent with
          | true => exact ih h.2 w
          | false =>
              simp only [Bool.false_eq_true, if_false, h.1 habsent, ih h.2, writeAll_member]

theorem writeItemsJson_eq
    (h : ∀ item ∈ items, ∀ w, c.writeValueJson (.single element) item w =
      writeAll (c.valueJson (.single element) item).tokens w)
    (w : Json.Writer) : c.writeItemsJson element items w =
      writeAll (tokensItems (c.itemsJson element items)) w := by
  induction items generalizing w with
  | nil => rfl
  | cons item items ih =>
      rw [List.forall_mem_cons] at h
      rw [writeItemsJson, itemsJson, tokensItems, writeAll_append, h.1, ih h.2]

theorem writeNamedJson_eq
    (h : ∀ entry ∈ entries, ∀ w, c.writeValueJson (.single value) entry.2 w =
      writeAll (c.valueJson (.single value) entry.2).tokens w)
    (w : Json.Writer) : c.writeNamedJson value entries w =
      writeAll (tokensMembers (c.namedJson value entries)) w := by
  induction entries generalizing w with
  | nil => rfl
  | cons entry entries ih =>
      rw [List.forall_mem_cons] at h
      rw [writeNamedJson, namedJson, writeAll_member, h.1, ih h.2]

theorem namesUnique_keyJson (k : Key) : (c.keyJson key k).NamesUnique := by
  cases k with
  | scalar s => exact s.namesUnique_toJson
  | constant index =>
      cases key with
      | enumeration id => exact .string _
      | primitive | message => exact .null

theorem writeRecordsJson_eq
    (h : ∀ entry ∈ entries, ∀ w, c.writeValueJson (.single value) entry.2 w =
      writeAll (c.valueJson (.single value) entry.2).tokens w)
    (w : Json.Writer) : c.writeRecordsJson key value entries w =
      writeAll (tokensItems (c.recordsJson key value entries)) w := by
  induction entries generalizing w with
  | nil => rfl
  | cons entry entries ih =>
      rw [List.forall_mem_cons] at h
      rw [writeRecordsJson, recordsJson, tokensItems, writeAll_append, writeAll_object,
        writeAll_member, writeAll_member, writeAll_of_namesUnique (namesUnique_keyJson entry.1),
        h.1, ih h.2]
      rfl

end JsonParts

/-- An object with the name of its type in front is written between the ends of an array. -/
theorem writeAll_named (type : MessageId) (content : Json) (w : Json.Writer) :
    writeAll (c.named type content).tokens w = c.writeNamed type (writeAll content.tokens) w := by
  rw [named, writeAll_array, tokensItems, tokensItems, tokensItems, List.append_nil,
    writeAll_append]
  rfl

/-- A value that fits is written by the calls for its JSON value. -/
theorem writeValueJson_eq (h : c.Fits plan v) (hpresent : v.isAbsent = false) (w : Json.Writer) :
    c.writeValueJson plan v w = writeAll (c.valueJson plan v).tokens w := by
  induction h generalizing w with
  | @scalar p s htype hsize =>
      rw [writeValueJson, valueJson, writeAll_of_namesUnique s.namesUnique_toJson]
  | constant h => rfl
  | absent id isAbstract => contradiction
  | @message id type isAbstract fields hmember hlength hfields ih =>
      have hcontent : (fun w : Json.Writer =>
          (c.writeMembersJson (c.slots type) fields w.beginObject).endObject) =
          writeAll (Json.object (c.membersJson (c.slots type) fields)).tokens := by
        funext w
        rw [writeAll_object, writeMembersJson_eq ih]
      rw [writeValueJson, valueJson]
      cases isAbstract with
      | true => exact (congrArg (c.writeNamed type · w) hcontent).trans (writeAll_named ..).symm
      | false => exact congrFun hcontent w
  | list hlength hitems hfits ih =>
      rw [writeValueJson, valueJson, writeAll_array,
        writeItemsJson_eq fun item hitem => ih item hitem (hitems item hitem)]
  | @map key value entries hlength hdistinct hentries hkeys hvalues ihk ihv =>
      have hwrite : ∀ entry ∈ entries, ∀ w, c.writeValueJson (.single value) entry.2 w =
          writeAll (c.valueJson (.single value) entry.2).tokens w := fun entry hentry =>
        ihv entry hentry (hentries entry hentry)
      rw [writeValueJson, valueJson]
      split
      · rw [writeAll_object, writeNamedJson_eq hwrite]
      · rw [writeAll_array, writeRecordsJson_eq hwrite]

/-- The properties of a message have the keys of its slots as names. -/
theorem map_fst_membersJson_sublist (slots : List Slot) (values : List Value) :
    ((c.membersJson slots values).map Prod.fst).Sublist (slots.map (·.key)) := by
  induction slots generalizing values with
  | nil => simp [membersJson]
  | cons slot slots ih =>
      cases values with
      | nil => simp [membersJson]
      | cons value values =>
          rw [membersJson]
          split
          · exact (ih values).cons _
          · exact (ih values).cons_cons _

theorem namesUnique_named {type : MessageId} {content : Json} (h : content.NamesUnique) :
    (c.named type content).NamesUnique := by
  refine .array ?_
  simp only [List.forall_mem_cons, List.not_mem_nil, false_implies, implies_true, and_true]
  exact ⟨.string _, h⟩

theorem namesUnique_membersJson {type : MessageId} {fields : List Value} (hc : c.Lawful)
    (h : ∀ entry ∈ (c.slots type).zip fields, (c.valueJson entry.1.plan entry.2).NamesUnique) :
    (Json.object (c.membersJson (c.slots type) fields)).NamesUnique := by
  refine .object ((map_fst_membersJson_sublist _ _).nodup (hc.nodup_keys type)) ?_
  intro member hmember
  rw [membersJson_eq] at hmember
  obtain ⟨entry, hentry, hsome⟩ := List.mem_filterMap.mp hmember
  split at hsome
  · contradiction
  · rw [← Option.some.inj hsome]
    exact h entry hentry

/-- No object in the JSON value of a value repeats a name. -/
theorem namesUnique_valueJson (hc : c.Lawful) (h : c.Fits plan v) :
    (c.valueJson plan v).NamesUnique := by
  induction h with
  | @scalar p s htype hsize => exact s.namesUnique_toJson
  | constant h => exact .string _
  | absent id isAbstract => exact .null
  | @message id type isAbstract fields hmember hlength hfields ih =>
      have hcontent := namesUnique_membersJson hc ih
      rw [valueJson]
      cases isAbstract with
      | true => exact namesUnique_named hcontent
      | false => exact hcontent
  | list hlength hitems hfits ih =>
      rw [valueJson, itemsJson_eq]
      exact .array (by simpa using ih)
  | @map key value entries hlength hdistinct hentries hkeys hvalues ihk ihv =>
      rw [valueJson]
      split
      · next hnamed =>
          obtain rfl : key = .primitive .string := by simpa [FieldPlan.keysAreNames] using hnamed
          have hnames : entries.map Prod.fst = (entries.map fun entry => keyName entry.1).map
              fun name => .scalar (.string name) := by
            rw [List.map_map]
            exact List.map_congr_left fun entry hentry => (hkeys entry hentry).eq_name
          rw [hnames] at hdistinct
          rw [namedJson_eq]
          refine .object (by simpa [Function.comp_def] using hdistinct.of_map) ?_
          intro member hmember
          obtain ⟨entry, hentry, rfl⟩ := List.mem_map.mp hmember
          exact ihv entry hentry
      · rw [recordsJson_eq]
        refine .array fun item hitem => ?_
        obtain ⟨entry, hentry, rfl⟩ := List.mem_map.mp hitem
        refine .object (by simp [Json.keyName, Json.valueName]) ?_
        simp only [List.forall_mem_cons, List.not_mem_nil, false_implies, implies_true, and_true]
        exact ⟨namesUnique_keyJson entry.1, ihv entry hentry⟩

/-- **A message is written as its JSON value**, in whatever place and under whatever name. -/
theorem writeJson_eq (hc : c.Lawful) (h : c.FitsMessage id message) (w : Json.Writer) :
    c.writeJson message w = w.value (c.toJson message) := by
  have hfits : c.Fits (.single (.message id (c.model.inFamily message.type))) message.toValue :=
    .message h.member h.length h.fields
  calc c.writeJson message w
      = writeAll (c.toJson message).tokens w := writeValueJson_eq hfits rfl w
    _ = w.value (c.toJson message) := writeAll_of_namesUnique (namesUnique_valueJson hc hfits) w

end Catalog

end Missive
