import Missive.Example
import Missive.Proofs.Message.Catalog
import Missive.Proofs.Message.Fits
import Missive.Proofs.Message.Tree

/-!
# Missive.Proofs.Message.BinaryRoundTrip

Reading a message back from the bytes that it is written as.

`Catalog.tree` gives the tree that a value is written as.  The bytes of a value spell its tree
(`Catalog.spells_tree`), and a catalog makes of the tree the value again, without what its transient
fields held (`Catalog.readsBack_tree`).  Both go by induction on the fact that the value fits its
plan.
-/

namespace Missive

open Wire

/-! ## scalars -/

theorem Utf8.decode?_encode (s : String) : Utf8.decode? (Utf8.encode s) = some s := by
  have hbytes : (Utf8.encode s).toByteArray = s.toByteArray := by
    ext1
    rw [List.data_toByteArray, Utf8.encode, Array.toArray_toList]
    rfl
  rw [Utf8.decode?, hbytes, String.fromUTF8?, dif_pos s.isValidUTF8]
  rfl

namespace Wire

theorem unzigzag_zigzag (n : Int) : unzigzag (zigzag n) = n := by
  unfold zigzag
  by_cases h : 0 ≤ n
  · rw [if_pos h, unzigzag, if_pos (by simp)]
    omega
  · rw [if_neg h, unzigzag, if_neg (by simp; omega)]
    omega

theorem zigzag_toInt32_lt (n : Int32) : zigzag n.toInt < 2 ^ 32 := by
  have hle := n.le_toInt
  have hlt := n.toInt_lt
  unfold zigzag
  split <;> omega

theorem zigzag_toInt64_lt (n : Int64) : zigzag n.toInt < 2 ^ 64 := by
  have hle := n.le_toInt
  have hlt := n.toInt_lt
  unfold zigzag
  split <;> omega

theorem toInt32_toInt64 (n : Int32) : n.toInt64.toUInt64.toUInt32.toInt32 = n := by
  apply Int32.toBitVec_inj.mp
  ext i hi
  simp [BitVec.getLsbD_signExtend, hi]
  omega

end Wire

/-- The tree that a primitive value is written as. -/
def Primitive.tree : Primitive → Scalar → Tree
  | .bool, .bool b => .int (if b then 1 else 0)
  | .int32, .int n => .int n.toInt64.toUInt64
  | .uint32, .uint n => .int n.toUInt64
  | .sint32, .int n => .sint (zigzag n.toInt).toUInt64
  | .fixed32, .uint n => .fint n
  | .sfixed32, .int n => .fint n.toUInt32
  | .int64, .long n => .long n.toUInt64
  | .uint64, .ulong n => .long n
  | .sint64, .long n => .slong (zigzag n.toInt).toUInt64
  | .fixed64, .ulong n => .flong n
  | .sfixed64, .long n => .flong n.toUInt64
  | .float, .float x => .float x
  | .double, .double x => .double x
  | .string, .string s => .string (Utf8.encode s)
  | .bytes, .bytes bs => .binary bs
  | _, _ => .int 0

namespace Primitive

theorem kind_tree (p : Primitive) (htype : s.type = p.scalarType) :
    (p.tree s).kind = p.wireKind := by
  cases p <;> cases s <;> first | rfl | simp [Scalar.type, Primitive.scalarType] at htype

theorem spells_tree (p : Primitive) (htype : s.type = p.scalarType) (hsize : s.IsStorable) :
    Spells (p.tree s) (p.encode s) := by
  cases p <;> cases s <;> simp only [Scalar.type, Primitive.scalarType, reduceCtorEq] at htype
  case bool.bool b => exact .int (isVarint_varint _)
  case int32.int n => exact .int (isVarint_varint _)
  case uint32.uint n => exact .int (isVarint_varint _)
  case sint32.int n => exact .sint (isVarint_varint _)
  case fixed32.uint n => exact .fint n
  case sfixed32.int n => exact .fint n.toUInt32
  case int64.long n => exact .long (isVarint_varint _)
  case uint64.ulong n => exact .long (isVarint_varint _)
  case sint64.long n => exact .slong (isVarint_varint _)
  case fixed64.ulong n => exact .flong n
  case sfixed64.long n => exact .flong n.toUInt64
  case float.float x => exact .float x
  case double.double x => exact .double x
  case string.string s =>
    refine .string (isVarint_varint _) ?_
    simpa [UInt64.size] using (Nat.mod_eq_of_lt hsize).symm
  case bytes.bytes bs =>
    refine .binary (isVarint_varint _) ?_
    simpa [UInt64.size] using (Nat.mod_eq_of_lt hsize).symm

theorem ofTree_tree (p : Primitive) (htype : s.type = p.scalarType) :
    p.ofTree (p.tree s) = .ok s := by
  cases p <;> cases s <;> simp only [Scalar.type, Primitive.scalarType, reduceCtorEq] at htype
  case bool.bool b => cases b <;> rfl
  case int32.int n => simp [tree, ofTree, toInt32_toInt64]
  case uint32.uint n => simp [tree, ofTree]
  case sint32.int n =>
    have hn : (zigzag n.toInt).toUInt64.toUInt32.toNat = zigzag n.toInt := by
      have := zigzag_toInt32_lt n
      simp
      omega
    simp only [tree, ofTree]
    rw [hn, unzigzag_zigzag, Int32.ofInt_toInt]
  case sint64.long n =>
    have hn : (zigzag n.toInt).toUInt64.toNat = zigzag n.toInt := by
      have := zigzag_toInt64_lt n
      simp
      omega
    simp only [tree, ofTree]
    rw [hn, unzigzag_zigzag, Int64.ofInt_toInt]
  case string.string s => simp [tree, ofTree, Utf8.decode?_encode]
  all_goals simp [tree, ofTree]

end Primitive

/-! ## values -/

namespace Catalog

/-- The field with the discriminator that a message is written with. -/
def discriminatorTree (c : Catalog) (id : MessageId) : List (UInt32 × Tree) :=
  match c.typeId? id with
  | some typeId => [(0, .int typeId.toUInt64)]
  | none => []

/-- The tree that a key is written as. -/
def keyTree (c : Catalog) : ValuePlan → Key → Tree
  | .primitive p, .scalar s => p.tree s
  | .enumeration id, .constant index => .int (c.codeOf id index).toInt64.toUInt64
  | _, _ => .object []

mutual

/-- The tree that a value is written as. -/
def tree (c : Catalog) : FieldPlan → Value → Tree
  | .single (.primitive p), .scalar s => p.tree s
  | .single (.enumeration id), .constant index => .int (c.codeOf id index).toInt64.toUInt64
  | .single (.message ..), .message type fields =>
    .object (c.discriminatorTree type ++ fieldTrees c (c.slots type) fields)
  | .repeated element, .list items => .array element.wireKind (itemTrees c element items)
  | .map key value, .map entries => .array .object (entryTrees c key value entries)
  | _, _ => .object []

def fieldTrees (c : Catalog) : List Slot → List Value → List (UInt32 × Tree)
  | slot :: slots, value :: values =>
    match slot.tag with
    | some tag =>
      if value.isAbsent then fieldTrees c slots values
      else (tag, tree c slot.plan value) :: fieldTrees c slots values
    | none => fieldTrees c slots values
  | _, _ => []

def itemTrees (c : Catalog) (element : ValuePlan) : List Value → List Tree
  | [] => []
  | item :: items => tree c (.single element) item :: itemTrees c element items

def entryTrees (c : Catalog) (key value : ValuePlan) : List (Key × Value) → List Tree
  | [] => []
  | (k, v) :: entries =>
    .object [(keyTag, c.keyTree key k), (valueTag, tree c (.single value) v)]
      :: entryTrees c key value entries

end

variable {c : Catalog} {id type : MessageId}

theorem encodeKey_eq (plan : ValuePlan) (k : Key) :
    c.encodeKey plan k = c.encodeValue (.single plan) k.toValue := by
  cases plan <;> cases k <;> rfl

theorem keyTree_eq (plan : ValuePlan) (k : Key) :
    c.keyTree plan k = c.tree (.single plan) k.toValue := by
  cases plan <;> cases k <;> rfl

theorem itemTrees_eq (element : ValuePlan) (items : List Value) :
    c.itemTrees element items = items.map (c.tree (.single element)) := by
  induction items with
  | nil => rfl
  | cons item items ih => rw [itemTrees, ih, List.map_cons]

theorem entryTrees_eq (key value : ValuePlan) (entries : List (Key × Value)) :
    c.entryTrees key value entries = entries.map fun entry =>
      .object [(keyTag, c.keyTree key entry.1), (valueTag, c.tree (.single value) entry.2)] := by
  induction entries with
  | nil => rfl
  | cons entry entries ih => rw [entryTrees, ih, List.map_cons]

theorem fieldTrees_eq (slots : List Slot) (values : List Value) :
    c.fieldTrees slots values = (slots.zip values).filterMap fun entry =>
      entry.1.tag.bind fun tag =>
        if entry.2.isAbsent then none else some (tag, c.tree entry.1.plan entry.2) := by
  induction slots generalizing values with
  | nil => simp [fieldTrees]
  | cons slot slots ih =>
      cases values with
      | nil => simp [fieldTrees]
      | cons value values =>
          rw [fieldTrees, List.zip_cons_cons, List.filterMap_cons, ← ih]
          cases slot.tag with
          | none => rfl
          | some tag => cases value.isAbsent <;> rfl

/-- A value is written as a tree of the kind that its plan has. -/
theorem kind_tree (h : c.Fits plan v) (hv : v.isAbsent = false) :
    (c.tree plan v).kind = plan.wireKind := by
  cases h with
  | scalar htype hsize => exact Primitive.kind_tree _ htype
  | absent id isAbstract => contradiction
  | constant h => rfl
  | message hmember hlength hfields => rfl
  | list hlength hpresent hitems => rfl
  | map hlength hdistinct hpresent hkeys hvalues => rfl

/-! ## writing -/

theorem spellsFields_cons (tag : UInt32) (hkind : t.kind = kind) (ht : Spells t body)
    (hrest : SpellsFields fields bytes) :
    SpellsFields ((tag, t) :: fields) (Wire.field tag kind body ++ bytes) := by
  subst hkind
  rw [Wire.field, List.append_assoc]
  exact .cons (isVarint_varint _) ht hrest

theorem spellsFields_fieldTrees {slots : List Slot} {values : List Value}
    (h : ∀ entry ∈ slots.zip values, entry.2.isAbsent = false →
      (c.tree entry.1.plan entry.2).kind = entry.1.plan.wireKind ∧
        Spells (c.tree entry.1.plan entry.2) (c.encodeValue entry.1.plan entry.2)) :
    SpellsFields (c.fieldTrees slots values) (c.encodeFields slots values).flatten := by
  induction slots generalizing values with
  | nil => simpa [fieldTrees, encodeFields] using .nil
  | cons slot slots ih =>
      cases values with
      | nil => simpa [fieldTrees, encodeFields] using .nil
      | cons value values =>
          have hrest := ih fun entry hentry => h entry (.tail _ hentry)
          cases htag : slot.tag with
          | none => simpa only [fieldTrees, encodeFields, htag] using hrest
          | some tag =>
              cases habsent : value.isAbsent with
              | true => simpa [fieldTrees, encodeFields, htag, habsent] using hrest
              | false =>
                  obtain ⟨hkind, hspells⟩ := h (slot, value) (.head _) habsent
                  simpa [fieldTrees, encodeFields, htag, habsent] using
                    spellsFields_cons tag hkind hspells hrest

theorem spellsFields_discriminator (type : MessageId) (hrest : SpellsFields fields bytes) :
    SpellsFields (c.discriminatorTree type ++ fields)
      ((c.discriminator type).flatten ++ bytes) := by
  unfold discriminatorTree discriminator
  cases c.typeId? type with
  | none => exact hrest
  | some typeId =>
      rw [List.flatten_cons, List.flatten_nil, List.append_nil]
      exact spellsFields_cons 0 rfl (.int (isVarint_varint _)) hrest

theorem length_encodeItems (element : ValuePlan) (items : List Value) :
    (c.encodeItems element items).length = items.length := by
  induction items with
  | nil => rfl
  | cons item items ih => rw [encodeItems, List.length_cons, List.length_cons, ih]

theorem length_encodeEntries (key value : ValuePlan) (entries : List (Key × Value)) :
    (c.encodeEntries key value entries).length = entries.length := by
  induction entries with
  | nil => rfl
  | cons entry entries ih => rw [encodeEntries, List.length_cons, List.length_cons, ih]

/-- An array of fewer elements than 64 bits can count. -/
theorem spells_array (hkind : ∀ t ∈ items, t.kind = kind) (hlength : values.length = items.length)
    (hcount : items.length < UInt64.size) (h : SpellsItems items values.flatten) :
    Spells (.array kind items) (Wire.array kind values) := by
  have hstart : items.length = values.length.toUInt64.toNat := by
    simpa [hlength, UInt64.size] using (Nat.mod_eq_of_lt hcount).symm
  rw [Wire.array, arrayStart, List.cons_append, List.cons_append, List.append_assoc]
  exact .array (isVarint_varint _) hstart hkind h

theorem spellsItems_itemTrees {items : List Value}
    (h : ∀ item ∈ items,
      Spells (c.tree (.single element) item) (c.encodeValue (.single element) item)) :
    SpellsItems (c.itemTrees element items) (c.encodeItems element items).flatten := by
  induction items with
  | nil => exact .nil
  | cons item items ih =>
      rw [itemTrees, encodeItems, List.flatten_cons]
      exact .cons (h item (.head _)) (ih fun item hitem => h item (.tail _ hitem))

theorem spellsItems_entryTrees {entries : List (Key × Value)}
    (hkeys : ∀ entry ∈ entries, (c.keyTree key entry.1).kind = key.wireKind ∧
      Spells (c.keyTree key entry.1) (c.encodeKey key entry.1))
    (hvalues : ∀ entry ∈ entries, (c.tree (.single value) entry.2).kind = value.wireKind ∧
      Spells (c.tree (.single value) entry.2) (c.encodeValue (.single value) entry.2)) :
    SpellsItems (c.entryTrees key value entries) (c.encodeEntries key value entries).flatten := by
  induction entries with
  | nil => exact .nil
  | cons entry entries ih =>
      obtain ⟨hkkind, hk⟩ := hkeys entry (.head _)
      obtain ⟨hvkind, hv⟩ := hvalues entry (.head _)
      rw [entryTrees, encodeEntries, List.flatten_cons]
      refine .cons ?_ (ih (fun entry h => hkeys entry (.tail _ h)) fun entry h =>
        hvalues entry (.tail _ h))
      rw [Wire.object]
      refine .object ?_
      simpa using spellsFields_cons keyTag hkkind hk (spellsFields_cons valueTag hvkind hv .nil)

/-- **Writing**: the bytes of a value spell its tree. -/
theorem spells_tree (h : c.Fits plan v) (hv : v.isAbsent = false) :
    Spells (c.tree plan v) (c.encodeValue plan v) := by
  induction h with
  | scalar htype hsize => exact Primitive.spells_tree _ htype hsize
  | constant h => exact .int (isVarint_varint _)
  | absent id isAbstract => contradiction
  | message hmember hlength hfields ih =>
      rw [tree, encodeValue, Wire.object, List.flatten_append]
      refine .object (spellsFields_discriminator _ (spellsFields_fieldTrees ?_))
      exact fun entry hentry habsent =>
        ⟨kind_tree (hfields entry hentry) habsent, ih entry hentry habsent⟩
  | @list element items hlength hpresent hitems ih =>
      rw [tree, encodeValue]
      refine spells_array ?_ ?_ ?_ (spellsItems_itemTrees fun item h => ih item h (hpresent item h))
      · rw [itemTrees_eq]
        intro t ht
        obtain ⟨item, hitem, rfl⟩ := List.mem_map.mp ht
        exact kind_tree (hitems item hitem) (hpresent item hitem)
      · rw [itemTrees_eq, length_encodeItems, List.length_map]
      · rw [itemTrees_eq, List.length_map]
        exact hlength
  | @map key value entries hlength hdistinct hpresent hkeys hvalues ihk ihv =>
      rw [tree, encodeValue]
      refine spells_array ?_ ?_ ?_ (spellsItems_entryTrees (fun entry h => ?_) fun entry h => ?_)
      · rw [entryTrees_eq]
        intro t ht
        obtain ⟨entry, -, rfl⟩ := List.mem_map.mp ht
        rfl
      · rw [entryTrees_eq, length_encodeEntries, List.length_map]
      · rw [entryTrees_eq, List.length_map]
        exact hlength
      · have hkey : entry.1.toValue.isAbsent = false := by cases entry.1 <;> rfl
        rw [keyTree_eq, encodeKey_eq]
        exact ⟨kind_tree (hkeys entry h) hkey, ihk entry h hkey⟩
      · exact ⟨kind_tree (hvalues entry h) (hpresent entry h), ihv entry h (hpresent entry h)⟩

/-! ## reading -/

/-- A value is read back from its tree, without what its transient fields held. -/
def ReadsBack (c : Catalog) (depth : Nat) : FieldPlan → Value → Prop
  | .single value, v =>
    c.valueOfTree (c.nestedOfTree depth) value (c.tree (.single value) v) =
      .ok (some (v.persisted c))
  | plan, v => ∀ property,
    c.fieldOfTree (c.nestedOfTree depth) property plan (c.tree plan v) = .ok (v.persisted c)

theorem ReadsBack.fieldOfTree (h : c.ReadsBack depth plan v) (property : String) :
    c.fieldOfTree (c.nestedOfTree depth) property plan (c.tree plan v) = .ok (v.persisted c) := by
  cases plan with
  | single value =>
      rw [Catalog.fieldOfTree, show c.valueOfTree _ value _ = _ from h]
      rfl
  | repeated element => exact h property
  | map key value => exact h property

/-- The discriminator tells the type that was written. -/
theorem openFields_discriminator (hc : c.Lawful) (hmember : type ∈ c.members id)
    (rest : List (UInt32 × Tree)) :
    c.openFields id (c.discriminatorTree type ++ rest) = .ok (some type, rest) := by
  unfold openFields
  cases hfamily : c.model.inFamily id with
  | true =>
      obtain ⟨n, hn, hfind⟩ := hc.memberOfTypeId?_eq hfamily hmember
      simp only [if_true, discriminatorTree, hn, List.cons_append, List.nil_append,
        beq_self_eq_true]
      rw [show (Tree.int n.toUInt64).toUInt32? = .ok n.toUInt64.toUInt32 from rfl]
      simp only [UInt32.toUInt32_toUInt64]
      exact congrArg (fun found => Except.ok (found, rest)) hfind
  | false =>
      obtain ⟨-, hin, -⟩ := hc.of_mem_members hmember
      have htype : type = id := by
        unfold members at hmember
        split at hmember
        · next habs => simp [Model.inFamily, habs] at hfamily
        · exact List.mem_singleton.mp hmember
      have hnone := hc.typeId?_eq_none (hin.trans hfamily)
      simp only [Bool.false_eq_true, if_false, discriminatorTree, hnone, List.nil_append]
      rw [htype]
      rfl

/-- The fields of a message are read one after the other. -/
theorem foldlM_fieldTrees {fields : List Value} (hc : c.Lawful)
    (hlength : fields.length = (c.slots id).length)
    (hfits : ∀ entry ∈ (c.slots id).zip fields, c.Fits entry.1.plan entry.2)
    (h : ∀ entry ∈ (c.slots id).zip fields, ∀ tag, entry.1.tag = some tag →
      entry.2.isAbsent = false → c.ReadsBack depth entry.1.plan entry.2) :
    (c.fieldTrees (c.slots id) fields).foldlM (c.fieldsWith (c.nestedOfTree depth) id)
        (c.new id).fields =
      .ok (Value.persistedFields c (c.slots id) fields) := by
  rw [fieldTrees_eq, Value.persistedFields_eq]
  refine foldlM_slots hc hlength ?_ ?_
  · intro entry hentry part hpart values
    have hslot : entry.1 ∈ c.slots id := (List.of_mem_zip hentry).1
    obtain ⟨tag, htag, hpart⟩ := Option.bind_eq_some_iff.mp hpart
    have habsent : entry.2.isAbsent = false := by
      by_contra habsent
      simp [habsent] at hpart
    have hpersist : entry.1.field.transient = false := by
      have htransient := hc.tag_eq_none_iff hslot
      rw [htag] at htransient
      simpa using htransient
    obtain rfl : (tag, c.tree entry.1.plan entry.2) = part := by simpa [habsent] using hpart
    have hread := (h entry hentry tag htag habsent).fieldOfTree entry.1.key
    rw [fieldsWith, hc.find?_tag hslot htag]
    simp [hread, hpersist]
  · intro entry hentry hpart
    have hslot : entry.1 ∈ c.slots id := (List.of_mem_zip hentry).1
    cases htag : entry.1.tag with
    | none => rw [if_pos ((hc.tag_eq_none_iff hslot).mp htag)]
    | some tag =>
        have habsent : entry.2.isAbsent = true := by
          by_contra habsent
          simp [htag, habsent] at hpart
        obtain ⟨hinitial, hvalue⟩ := (hfits entry hentry).initial_eq habsent
        rw [hinitial, hvalue, Value.persisted]
        · simp
        all_goals simp

theorem nestedOfTree_message {fields : List Value} (hc : c.Lawful) (hmember : type ∈ c.members id)
    (hlength : fields.length = (c.slots type).length)
    (hfits : ∀ entry ∈ (c.slots type).zip fields, c.Fits entry.1.plan entry.2)
    (h : ∀ entry ∈ (c.slots type).zip fields, ∀ tag, entry.1.tag = some tag →
      entry.2.isAbsent = false → c.ReadsBack depth entry.1.plan entry.2) :
    c.nestedOfTree (depth + 1) id
        (.object (c.discriminatorTree type ++ c.fieldTrees (c.slots type) fields)) =
      .ok (some { type, fields := Value.persistedFields c (c.slots type) fields }) := by
  have hmessage : c.messageOfFields (c.nestedOfTree depth) type
      (c.fieldTrees (c.slots type) fields) =
      .ok { type, fields := Value.persistedFields c (c.slots type) fields } := by
    rw [messageOfFields, foldlM_fieldTrees hc hlength hfits h]
    rfl
  rw [nestedOfTree, openFields_discriminator hc hmember]
  simp only [Except.ok_bind, hmessage, Except.pure_eq_ok]

/-! ## how long values are -/

theorem encodeItems_eq (element : ValuePlan) (items : List Value) :
    c.encodeItems element items = items.map (c.encodeValue (.single element)) := by
  induction items with
  | nil => rfl
  | cons item items ih => rw [encodeItems, ih, List.map_cons]

theorem length_le_encodeItems (element : ValuePlan) (h : item ∈ items) :
    (c.encodeValue (.single element) item).length ≤
      (c.encodeItems element items).flatten.length := by
  rw [encodeItems_eq]
  exact (List.sublist_flatten_of_mem (List.mem_map_of_mem h)).length_le

theorem length_le_encodeEntries {entries : List (Key × Value)} (key value : ValuePlan)
    (h : entry ∈ entries) :
    (c.encodeKey key entry.1).length ≤ (c.encodeEntries key value entries).flatten.length ∧
      (c.encodeValue (.single value) entry.2).length ≤
        (c.encodeEntries key value entries).flatten.length := by
  induction entries with
  | nil => contradiction
  | cons first entries ih =>
      rw [encodeEntries, List.flatten_cons]
      simp only [List.length_append, Wire.object, Wire.field, List.flatten_cons, List.flatten_nil]
      obtain rfl | h := List.mem_cons.mp h
      · omega
      · have := ih h
        omega

theorem length_le_encodeFields {slots : List Slot} {values : List Value}
    (h : entry ∈ slots.zip values) (htag : entry.1.tag = some tag) (hv : entry.2.isAbsent = false) :
    (c.encodeValue entry.1.plan entry.2).length ≤ (c.encodeFields slots values).flatten.length := by
  induction slots generalizing values with
  | nil => simp at h
  | cons slot slots ih =>
      cases values with
      | nil => simp at h
      | cons value values =>
          obtain rfl | h := List.mem_cons.mp h
          · simp [encodeFields, htag, hv, Wire.field]
            omega
          · have hle := ih h
            rw [encodeFields]
            split
            · split
              · exact hle
              · rw [List.flatten_cons, List.length_append]
                omega
            · exact hle

/-! ## lists and maps -/

theorem foldlM_itemTrees {items : List Value}
    (h : ∀ item ∈ items, c.ReadsBack depth (.single element) item) :
    (c.itemTrees element items).foldlM (c.itemsWith (c.nestedOfTree depth) element) [] =
      .ok (Value.persistedItems c items) := by
  rw [itemTrees_eq, Value.persistedItems_eq, List.foldlM_map]
  refine Except.foldlM_concat (fun item hitem done => ?_) []
  rw [itemsWith, show c.valueOfTree _ element _ = _ from h item hitem]
  rfl

theorem Key.persisted_toValue (k : Key) : k.toValue.persisted c = k.toValue := by
  cases k <;> simp [Key.toValue, Value.persisted]

theorem entryOfTree_eq (hk : c.ReadsBack depth (.single key) k.toValue)
    (hv : c.ReadsBack depth (.single value) v) :
    c.entryOfTree (c.nestedOfTree depth) key value
        (.object [(keyTag, c.keyTree key k), (valueTag, c.tree (.single value) v)]) =
      .ok (some k, some (v.persisted c)) := by
  have hk' : c.valueOfTree (c.nestedOfTree depth) key (c.keyTree key k) = .ok (some k.toValue) := by
    rw [keyTree_eq, show c.valueOfTree _ key _ = _ from hk, Key.persisted_toValue]
  have hkey : Key.ofValue? k.toValue = some k := by cases k <;> rfl
  have hv' : c.valueOfTree (c.nestedOfTree depth) value (c.tree (.single value) v) =
      .ok (some (v.persisted c)) := hv
  simp [entryOfTree, entryWith, hk', hv', hkey, keyTag, valueTag]

theorem foldlM_entryTrees {entries : List (Key × Value)}
    (hdistinct : (entries.map Prod.fst).Nodup)
    (hpresent : ∀ entry ∈ entries, entry.2.isAbsent = false)
    (hk : ∀ entry ∈ entries, c.ReadsBack depth (.single key) entry.1.toValue)
    (hv : ∀ entry ∈ entries, c.ReadsBack depth (.single value) entry.2) (property : String) :
    (c.entryTrees key value entries).foldlM
        (c.entriesWith (c.nestedOfTree depth) property key value) [] =
      .ok (Value.persistedEntries c entries) := by
  rw [entryTrees_eq, Value.persistedEntries_eq]
  refine foldlM_entries c property key value (fun entry hentry done => ?_)
    (fun entry hentry => ?_) hdistinct
  · rw [entriesWith, entryOfTree_eq (hk entry hentry) (hv entry hentry), Except.ok_bind]
  · rw [Value.isAbsent_persisted, hpresent entry hentry]

/-- **Reading**: a value is made again of its tree, if the nesting is bounded by its bytes. -/
theorem readsBack_tree (hc : c.Lawful) (h : c.Fits plan v) (hv : v.isAbsent = false)
    (hdepth : (c.encodeValue plan v).length ≤ depth) : c.ReadsBack depth plan v := by
  -- only a message takes from the depth, and its mark of the end pays for it
  induction h generalizing depth with
  | @scalar p s htype hsize =>
      rw [ReadsBack, tree, valueOfTree, p.ofTree_tree htype, Value.persisted]
      · rfl
      all_goals simp
  | @constant enum index h =>
      have hcode : (Tree.int (c.codeOf enum index).toInt64.toUInt64).toInt32? =
          .ok (c.codeOf enum index) := by
        rw [Tree.toInt32?, toInt32_toInt64]
      rw [ReadsBack, tree, valueOfTree, hcode]
      simp [constantOfCode_codeOf hc.model enum h, Value.persisted]
  | absent id isAbstract => contradiction
  | @message id type isAbstract fields hmember hlength hfields ih =>
      simp only [encodeValue, Wire.object, List.flatten_append, List.length_append, endMark,
        List.length_singleton] at hdepth
      obtain ⟨depth, rfl⟩ : ∃ d, depth = d + 1 := ⟨depth - 1, by omega⟩
      have hall : ∀ entry ∈ (c.slots type).zip fields, ∀ tag, entry.1.tag = some tag →
          entry.2.isAbsent = false → c.ReadsBack depth entry.1.plan entry.2 := by
        intro entry hentry tag htag habsent
        have hle := length_le_encodeFields (c := c) hentry htag habsent
        exact ih entry hentry habsent (by omega)
      rw [ReadsBack, tree, valueOfTree, nestedOfTree_message hc hmember hlength hfields hall,
        Value.persisted]
      rfl
  | @list element items hlength hpresent hitems ih =>
      simp only [encodeValue, Wire.array, List.length_append] at hdepth
      have hall : ∀ item ∈ items, c.ReadsBack depth (.single element) item := by
        intro item hitem
        have hle := length_le_encodeItems (c := c) element hitem
        exact ih item hitem (hpresent item hitem) (by omega)
      intro property
      rw [tree, fieldOfTree, foldlM_itemTrees hall, Value.persisted]
      rfl
  | @map key value entries hlength hdistinct hpresent hkeys hvalues ihk ihv =>
      simp only [encodeValue, Wire.array, List.length_append] at hdepth
      have hallk : ∀ entry ∈ entries, c.ReadsBack depth (.single key) entry.1.toValue := by
        intro entry hentry
        have hle := (length_le_encodeEntries (c := c) key value hentry).1
        rw [encodeKey_eq] at hle
        exact ihk entry hentry (by cases entry.1 <;> rfl) (by omega)
      have hallv : ∀ entry ∈ entries, c.ReadsBack depth (.single value) entry.2 := by
        intro entry hentry
        have hle := (length_le_encodeEntries (c := c) key value hentry).2
        exact ihv entry hentry (hpresent entry hentry) (by omega)
      intro property
      rw [tree, fieldOfTree, foldlM_entryTrees hdistinct hpresent hallk hallv, Value.persisted]
      rfl

/-! ## the round trip -/

theorem ReadsBack.nestedOfTree {message : Message}
    (h : c.ReadsBack depth (.single (.message id isAbstract)) message.toValue) :
    c.nestedOfTree depth id (c.tree (.single (.message id isAbstract)) message.toValue) =
      .ok (some (message.persisted c)) := by
  rw [ReadsBack, valueOfTree, Message.toValue, Value.persisted] at h
  obtain ⟨found, hfound, h'⟩ := Except.bind_eq_ok h
  obtain ⟨other, rfl, hother⟩ := Option.map_eq_some_iff.mp (Except.ok.inj h')
  rw [Message.toValue, hfound, Message.persisted]
  obtain ⟨type, fields⟩ := other
  obtain ⟨rfl, rfl⟩ := Value.message.inj hother
  rfl

/-- **Binary round trip**: for every accepted schema of which all fields can travel, a message of a
type, or of a member of its family, is read back from its bytes, wherever a message may stand and
whatever follows.  Transient fields, at any depth, are as they start, and the reader stands right
behind the message. -/
theorem readMessage_encode (hm : Model.ofSchema schema = .ok m) (hc : ofModel m = .ok c)
    (hmessage : c.FitsMessage id message) (hb : BeforeMessage pending frames frames')
    (suffix : List UInt8) :
    c.readMessage id ⟨c.encode message ++ suffix, pending, frames⟩ =
      .ok (some (message.persisted c)) ⟨suffix, none, frames'⟩ := by
  have hfits : c.Fits (.single (.message id false)) message.toValue :=
    .message hmessage.member hmessage.length hmessage.fields
  have hspells : Spells (c.tree (.single (.message id false)) message.toValue) (c.encode message) :=
    spells_tree hfits rfl
  have hdepth : (c.encode message).length ≤ (c.encode message ++ suffix).length + 1 := by
    rw [List.length_append]
    omega
  have hread := (readsBack_tree (lawful_of_ofSchema hm hc) hfits rfl hdepth).nestedOfTree
  rw [Message.toValue, tree] at hspells hread
  have hyields := readMessage_yields (c := c) id hspells hb suffix
  rw [hread] at hyields
  exact hyields

/-- A group of a circle and a group, of which each has a label. -/
def nestedGroup : Message :=
  ⟨4, [.scalar (.double ⟨0x7ff8000000000001⟩), .scalar (.double ⟨0⟩),
    .list [.message 2 [.scalar (.double ⟨0⟩), .scalar (.double ⟨1⟩), .scalar (.double ⟨2⟩)],
      .message 4 [.scalar (.double ⟨3⟩), .scalar (.double ⟨4⟩), .list [],
        .scalar (.string "inner")]],
    .scalar (.string "outer")]⟩

theorem readMessage_encode_nestedGroup : ∃ m c, Model.ofSchema Example.shapes = .ok m ∧
    ofModel m = .ok c ∧ c.FitsMessage 0 nestedGroup ∧
    c.readMessage 0 ⟨c.encode nestedGroup ++ [7], none, [.array .object 3]⟩ =
      .ok (some (nestedGroup.persisted c)) ⟨[7], none, [.array .object 2]⟩ := by
  have hcatalog : (ofSchema? Example.shapes).any (fun c => decide
      (2 ∈ c.members 0 ∧ 4 ∈ c.members 0 ∧
        (c.slots 2).map (·.plan) = List.replicate 3 (.single (.primitive .double)) ∧
        (c.slots 4).map (·.plan) = [.single (.primitive .double), .single (.primitive .double),
          .repeated (.message 0 true), .single (.primitive .string)])) = true := by
    decide +kernel
  obtain ⟨m, c, hm, hc, hfacts⟩ := exists_of_any hcatalog
  obtain ⟨hcircle, hgroup, hslots₂, hslots₄⟩ := of_decide_eq_true hfacts
  have hdouble : ∀ x, c.Fits (.single (.primitive .double)) (.scalar (.double x)) := fun x =>
    .scalar rfl trivial
  have hlabel : ∀ s, (Utf8.encode s).length < UInt64.size →
      c.Fits (.single (.primitive .string)) (.scalar (.string s)) := fun s hs => .scalar rfl hs
  have hfirst : c.Fits (.single (.message 0 true)) (.message 2 [.scalar (.double ⟨0⟩),
      .scalar (.double ⟨1⟩), .scalar (.double ⟨2⟩)]) :=
    .of_plans hcircle hslots₂ (.cons (hdouble _) (.cons (hdouble _) (.cons (hdouble _) .nil)))
  have hsecond : c.Fits (.single (.message 0 true)) (.message 4 [.scalar (.double ⟨3⟩),
      .scalar (.double ⟨4⟩), .list [], .scalar (.string "inner")]) :=
    .of_plans hgroup hslots₄ (.cons (hdouble _) (.cons (hdouble _) (.cons
      (.list (by decide) (by simp) (by simp)) (.cons (hlabel _ (by decide)) .nil))))
  have hfits : c.FitsMessage 0 nestedGroup :=
    (Fits.of_plans hgroup hslots₄ (.cons (hdouble _) (.cons (hdouble _) (.cons
      (.list (by decide) (by simp [Value.isAbsent]) (by simp [hfirst, hsecond]))
      (.cons (hlabel _ (by decide)) .nil)))) : c.Fits (.single (.message 0 true)) _).toMessage
  exact ⟨m, c, hm, hc, hfits, readMessage_encode hm hc hfits (.inside (.item 2 [])) [7]⟩

end Catalog

end Missive
