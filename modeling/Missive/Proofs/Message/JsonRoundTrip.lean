import Missive.Example
import Missive.Proofs.Json.Number
import Missive.Proofs.Message.Catalog
import Missive.Proofs.Message.Constants
import Missive.Proofs.Message.Fits
import Missive.Proofs.Message.JsonValue
import Missive.Proofs.Text.Base64

/-!
# Missive.Proofs.Message.JsonRoundTrip

Messages are read back from their JSON values.

JSON has one NaN, so that of a NaN no more than that comes back: `plain` puts one pattern in the
place of all of them.
-/

namespace Missive

open Json

/-! ## scalars -/

/-- A scalar with one pattern for all NaNs. -/
def Scalar.plain : Scalar → Scalar
  | .float x => .float x.plain
  | .double x => .double x.plain
  | s => s

namespace Json.Read

/-- What a step makes of a value, the rest makes the result of. -/
theorem on_bind {p : Read α} {k : α → Read β} (hp : p.on value = .ok a)
    (hk : ∀ r, outcome (k a r) = result) : (p >>= k).on value = result := by
  unfold on at hp ⊢
  cases hrun : p (.ofJson value) with
  | ok b r =>
      rw [hrun] at hp
      obtain rfl : b = a := Except.ok.inj hp
      rw [bind_of_ok k hrun]
      exact hk r
  | error e r => rw [hrun] at hp; contradiction

theorem on_map {p : Read α} (g : α → β) (hp : p.on value = .ok a) :
    (g <$> p).on value = .ok (g a) := by
  rw [map_eq_pure_bind]
  exact on_bind hp fun r => rfl

theorem whole_on (hn : n.heldIn? least limit = some i) :
    (whole wanted least limit).on (.number n) = .ok i := by
  refine on_bind (next_reads.on_eq _) fun r => ?_
  simp only [JsonNumber.toIntIn?_of_heldIn? hn]
  rfl

theorem long_on (n : Int64) : long.on (.ofInt n.toInt) = .ok n := by
  have hleast : -(Int64.size / 2 : Int) ≤ n.toInt := n.le_toInt
  have hlimit : n.toInt < (Int64.size / 2 : Int) := n.toInt_lt
  rw [ofInt, Int64.ofInt_toInt]
  refine on_bind (whole_on (JsonNumber.heldIn?_ofInt64 hleast hlimit)) fun r => ?_
  rw [Int64.ofInt_toInt]
  rfl

theorem ulong_on (n : UInt64) : ulong.on (.ofNat n.toNat) = .ok n := by
  have hlimit : (n.toNat : Int) < (UInt64.size : Int) := by exact_mod_cast n.toNat_lt
  have hnumber : (JsonNumber.natural n.toNat.toUInt64).heldIn? 0 UInt64.size =
      some (n.toNat : Int) := by
    rw [JsonNumber.heldIn?, Nat.toUInt64_eq, UInt64.ofNat_toNat, if_pos hlimit]
  refine on_bind (whole_on hnumber) fun r => ?_
  rw [Int.toNat_natCast, Nat.toUInt64_eq, UInt64.ofNat_toNat]
  rfl

theorem int_on (n : Int32) : int.on (.ofInt n.toInt) = .ok n := by
  have hlow := n.le_toInt
  have hhigh := n.toInt_lt
  have hwide : (Int64.ofInt n.toInt).toInt = n.toInt :=
    Int64.toInt_ofInt_of_le (by omega) (by omega)
  have hlong : long.on (.ofInt n.toInt) = .ok (.ofInt n.toInt) := by
    rw [← hwide, long_on, hwide]
  refine on_bind hlong fun r => ?_
  rw [hwide, if_pos (by simp [Int32.size]; omega), Int32.ofInt_toInt]
  rfl

theorem uint_on (n : UInt32) : uint.on (.ofNat n.toNat) = .ok n := by
  have hlt := n.toNat_lt
  have hwide : n.toUInt64.toNat = n.toNat := UInt32.toNat_toUInt64 n
  have hulong : ulong.on (.ofNat n.toNat) = .ok n.toUInt64 := by
    rw [← hwide, ulong_on]
  refine on_bind hulong fun r => ?_
  rw [hwide, if_pos hlt, Nat.toUInt32_eq, UInt32.ofNat_toNat]
  rfl

/-- Numbers come back as they are, but for the pattern of a NaN. -/
theorem double_on (x : Double) : double.on (.ofDouble x) = .ok x.plain := by
  unfold ofDouble Double.plain
  cases hx : x.datum with
  | nan =>
      have hfinite : ¬ x.isFinite := by simp [Double.isFinite, hx]
      rw [dif_neg hfinite, if_pos rfl]
      rfl
  | infinite negative =>
      have hfinite : ¬ x.isFinite := by simp [Double.isFinite, hx]
      have hbits := Format.eq_infinity_of_decode (f := .double) x.bits_lt hx
      have hinfinity : Double.infinity negative = x := Double.eq_of_toNat hbits.symm
      rw [dif_neg hfinite, if_neg (by simp)]
      cases negative <;> rw [← hinfinity] <;> rfl
  | finite negative m e =>
      have hfinite : x.isFinite := by simp [Double.isFinite, hx]
      rw [dif_pos hfinite, if_neg (by simp)]
      rfl

/-- Narrow numbers travel as wide ones. -/
theorem float_on (x : Single) : float.on (.ofDouble x.widen) = .ok x.plain := by
  refine on_bind (double_on x.widen) fun r => ?_
  rw [x.narrow_plain_widen]
  rfl

theorem binary_on (bs : List UInt8) : binary.on (.ofBytes bs) = .ok bs := by
  refine on_bind (next_reads.on_eq _) fun r => ?_
  simp only [ofBytes, Base64.decodeText?_encodeText]
  rfl

end Json.Read

/-- A scalar comes back as it is, but for the pattern of a NaN. -/
theorem Scalar.readJson_toJson (s : Scalar) : s.type.readJson.on s.toJson = .ok s.plain := by
  cases s with
  | bool b => rfl
  | int n => exact Read.on_map _ (Read.int_on n)
  | uint n => exact Read.on_map _ (Read.uint_on n)
  | long n => exact Read.on_map _ (Read.long_on n)
  | ulong n => exact Read.on_map _ (Read.ulong_on n)
  | float x => exact Read.on_map _ (Read.float_on x)
  | double x => exact Read.on_map _ (Read.double_on x)
  | string t => rfl
  | bytes bs => exact Read.on_map _ (Read.binary_on bs)

/-! ## values -/

mutual

/-- A value with one pattern for all NaNs in it. -/
def Value.plain : Value → Value
  | .scalar s => .scalar s.plain
  | .message type fields => .message type (plainItems fields)
  | .list items => .list (plainItems items)
  | .map entries => .map (plainEntries entries)
  | value => value

def Value.plainItems : List Value → List Value
  | [] => []
  | item :: items => plain item :: plainItems items

def Value.plainEntries : List (Key × Value) → List (Key × Value)
  | [] => []
  | (k, v) :: entries => (k, plain v) :: plainEntries entries

end

/-- A message with one pattern for all NaNs in it. -/
def Message.plain (message : Message) : Message :=
  { message with fields := Value.plainItems message.fields }

theorem Value.plainItems_eq (items : List Value) : plainItems items = items.map plain := by
  induction items with
  | nil => rfl
  | cons item items ih => rw [plainItems, ih, List.map_cons]

theorem Value.plainEntries_eq (entries : List (Key × Value)) :
    plainEntries entries = entries.map fun entry => (entry.1, entry.2.plain) := by
  induction entries with
  | nil => rfl
  | cons entry entries ih => rw [plainEntries, ih, List.map_cons]

theorem Value.isAbsent_plain (v : Value) : v.plain.isAbsent = v.isAbsent := by
  cases v <;> simp [Value.plain, Value.isAbsent]

/-! ## names -/

/-- The names by which JSON tells the constants of an enumeration and the members of a family are
distinct. -/
structure Model.JsonDistinct (m : Model) : Prop where
  constants : ∀ id ∈ m.enumIds, ((m.enumeration id).constants.map (·.jsonName)).Nodup
  members : ∀ root ∈ m.messageIds, (m.message root).parent = none →
    (m.message root).isAbstract = true →
    ((m.concreteDescendants root).map fun id => (m.message id).jsonType).Nodup

/-- The concrete messages below a message are below its root. -/
theorem Model.mem_concreteDescendants_root {m : Model} {id type : MessageId} (hm : m.IsForest)
    (h : type ∈ m.concreteDescendants id) : type ∈ m.concreteDescendants (m.root id) := by
  rw [mem_concreteDescendants_iff hm] at h ⊢
  refine ⟨?_, h.2⟩
  rw [root_of_mem_ascent hm h.1]
  rcases root_eq_or_mem_ascent hm type with heq | hmem
  · have hparent := parent_root hm type
    rw [heq] at hparent
    rw [ascent_of_none hparent] at h
    exact absurd h.1 List.not_mem_nil
  · exact hmem

theorem Model.isAbstract_root {m : Model} {id : MessageId} (hm : m.IsForest)
    (habove : m.AbstractAbove) (h : (m.message id).isAbstract = true) :
    (m.message (m.root id)).isAbstract = true := by
  rcases root_eq_or_mem_ascent hm id with heq | hmem
  · rw [heq, h]
  · exact isAbstract_of_mem_ascent hm habove hmem h

/-- A type that is not abstract has one member. -/
theorem Catalog.eq_of_mem_members {c : Catalog} {id type : MessageId} (h : type ∈ c.members id)
    (hconcrete : (c.model.message id).isAbstract = false) : type = id := by
  rw [members, hconcrete] at h
  exact List.mem_singleton.mp h

namespace Catalog.Lawful

variable {c : Catalog} {id : MessageId}

/-- The members of a type have names in JSON by which they are found. -/
theorem memberOfJsonType?_eq (hc : c.Lawful) (hnames : c.model.JsonDistinct)
    (hmember : type ∈ c.members id) :
    c.memberOfJsonType? id (c.jsonType type) = some type := by
  refine find?_eq_some_of_unique (List.mem_reverse.mpr hmember) (by simp) ?_
  intro other hother hname
  have hother := List.mem_reverse.mp hother
  cases habs : (c.model.message id).isAbstract with
  | false => rw [eq_of_mem_members hother habs, eq_of_mem_members hmember habs]
  | true =>
      rw [members, habs, if_pos rfl] at hmember hother
      have hforest := hc.model.forest
      have hroot := Model.isAbstract_root hforest hc.model.abstractAbove habs
      have hfamily : c.model.inFamily (c.model.root id) = true := by
        rw [Model.inFamily, hroot, Bool.true_or]
      have hid := Model.mem_messageIds.mpr (Model.lt_of_inFamily hfamily)
      have hnodup := hnames.members (c.model.root id) hid (Model.parent_root hforest id) hroot
      exact List.inj_on_of_nodup_map hnodup (Model.mem_concreteDescendants_root hforest hother)
        (Model.mem_concreteDescendants_root hforest hmember) (by simpa [jsonType] using hname)

/-- A constant is found by its name. -/
theorem constantOfName_nameOf (hnames : c.model.JsonDistinct) (enum : EnumId)
    (h : index < (c.constants enum).length) :
    c.constantOfName enum (c.nameOf enum index) = index := by
  have henum : enum ∈ c.model.enumIds := by
    by_contra hout
    have hnone : c.model.enumeration enum = default :=
      List.getD_eq_default _ _ (Nat.le_of_not_lt fun hlt => hout (List.mem_range.mpr hlt))
    rw [constants, hnone] at h
    exact absurd h (Nat.not_lt_zero _)
  have hnodup : ((c.constants enum).map (·.jsonName)).Nodup := hnames.constants enum henum
  exact constantOfName_nameOf_iff_nodup.mpr hnodup index h

end Catalog.Lawful

/-! ## plans -/

/-- A plan of keys: they have one pattern each, and are no messages. -/
def ValuePlan.IsKey : ValuePlan → Prop
  | .primitive p => p ≠ .float ∧ p ≠ .double
  | .enumeration _ => True
  | .message .. => False

/-- A plan that knows of each type whether it is abstract. -/
def ValuePlan.IsSound (m : Model) : ValuePlan → Prop
  | .message id isAbstract => isAbstract = (m.message id).isAbstract
  | _ => True

/-- A plan of sound values, and of keys that can be keys. -/
def FieldPlan.IsSound (m : Model) : FieldPlan → Prop
  | .single value => value.IsSound m
  | .repeated element => element.IsSound m
  | .map key value => key.IsKey ∧ value.IsSound m

namespace Model

variable {m : Model} {kind : Kind}

theorem isSound_of_planValue (h : m.planValue kind = .ok plan) : plan.IsSound m := by
  cases kind <;> cases h <;> trivial

theorem isKey_of_planKey (h : m.planKey kind = .ok plan) : plan.IsKey := by
  cases kind with
  | primitive p => cases p <;> cases h <;> exact ⟨by decide, by decide⟩
  | enumeration id => cases h; trivial
  | message id => contradiction
  | map key value => contradiction

theorem isSound_of_planField (h : m.planField f = .ok plan) : plan.IsSound m := by
  unfold planField planKind at h
  split at h
  · contradiction
  · obtain ⟨key, hkey, h'⟩ := Except.bind_eq_ok h
    obtain ⟨value, hvalue, h''⟩ := Except.bind_eq_ok h'
    cases h''
    exact ⟨isKey_of_planKey hkey, isSound_of_planValue hvalue⟩
  · obtain ⟨value, hvalue, h'⟩ := Except.bind_eq_ok h
    cases h'
    exact isSound_of_planValue hvalue
  · obtain ⟨value, hvalue, h'⟩ := Except.bind_eq_ok h
    cases h'
    exact isSound_of_planValue hvalue

end Model

namespace Catalog

variable {c : Catalog} {id type : MessageId} {plan : FieldPlan} {v : Value} {k : Key}
  {key value element : ValuePlan}

/-! ## reading back -/

/-- A value is read back from its JSON value. -/
def ReadsBackJson (c : Catalog) (depth : Nat) : FieldPlan → Value → Prop
  | .single value, v =>
    c.valueOfJson (c.nestedOfJson depth) value (c.valueJson (.single value) v) = .ok (some v.plain)
  | plan, v => ∀ property,
    c.fieldOfJson (c.nestedOfJson depth) property plan (c.valueJson plan v) = .ok v.plain

theorem ReadsBackJson.fieldOfJson (h : c.ReadsBackJson depth plan v) (property : String) :
    c.fieldOfJson (c.nestedOfJson depth) property plan (c.valueJson plan v) = .ok v.plain := by
  cases plan with
  | single value =>
      rw [Catalog.fieldOfJson, show c.valueOfJson _ value _ = _ from h]
      rfl
  | repeated element => exact h property
  | map key value => exact h property

theorem membersJson_eq (slots : List Slot) (values : List Value) :
    c.membersJson slots values = (slots.zip values).filterMap fun entry =>
      if entry.2.isAbsent then none else some (entry.1.key, c.valueJson entry.1.plan entry.2) := by
  induction slots generalizing values with
  | nil => simp [membersJson]
  | cons slot slots ih =>
      cases values with
      | nil => simp [membersJson]
      | cons value values =>
          rw [membersJson, List.zip_cons_cons, List.filterMap_cons, ← ih]
          cases value.isAbsent <;> rfl

/-- The properties of a message are read one after the other. -/
theorem foldlM_membersJson {fields : List Value} (hc : c.Lawful)
    (hlength : fields.length = (c.slots id).length)
    (hfits : ∀ entry ∈ (c.slots id).zip fields, c.Fits entry.1.plan entry.2)
    (h : ∀ entry ∈ (c.slots id).zip fields, entry.2.isAbsent = false →
      c.ReadsBackJson depth entry.1.plan entry.2) :
    (c.membersJson (c.slots id) fields).foldlM (c.propertiesWith (c.nestedOfJson depth) id)
        (c.new id).fields =
      .ok (Value.plainItems fields) := by
  have hplain : Value.plainItems fields = ((c.slots id).zip fields).map fun entry =>
      entry.2.plain := by
    calc Value.plainItems fields = fields.map Value.plain := Value.plainItems_eq fields
      _ = (((c.slots id).zip fields).map Prod.snd).map Value.plain := by
        rw [List.map_snd_zip (Nat.le_of_eq hlength)]
      _ = _ := List.map_map
  rw [membersJson_eq, hplain]
  refine foldlM_slots hc hlength ?_ ?_
  · intro entry hentry part hpart values
    have habsent : entry.2.isAbsent = false := by
      by_contra habsent
      simp [habsent] at hpart
    obtain rfl : (entry.1.key, c.valueJson entry.1.plan entry.2) = part := by
      simpa [habsent] using hpart
    rw [propertiesWith, hc.find?_key (List.of_mem_zip hentry).1]
    simp [(h entry hentry habsent).fieldOfJson]
  · intro entry hentry hpart
    have habsent : entry.2.isAbsent = true := by
      by_contra habsent
      simp [habsent] at hpart
    obtain ⟨hinitial, hvalue⟩ := (hfits entry hentry).initial_eq habsent
    rw [hinitial, hvalue, Value.plain]
    all_goals simp

/-- An object with the name of a type in front is left to the member of that name. -/
theorem nestedOfJson_named (h : c.memberOfJsonType? id (c.jsonType type) = some target)
    (depth : Nat) (content : Json) :
    c.nestedOfJson (depth + 1) id true (c.named type content) =
      some <$> c.contentOfJson (c.nestedOfJson depth) target content := by
  have hname : Read.string.on (.string (c.jsonType type)) = .ok (c.jsonType type) := rfl
  simp only [named, nestedOfJson, isNull, Bool.false_eq_true, if_false, if_true, namedOfJson, hname,
    Except.ok_bind, h, map_eq_pure_bind]

/-- A message, with or without the name of its type in front. -/
theorem nestedOfJson_message {fields : List Value} (hc : c.Lawful)
    (hnames : c.model.JsonDistinct) (hmember : type ∈ c.members id)
    (hnamed : isNamed = false → type = id)
    (hlength : fields.length = (c.slots type).length)
    (hfits : ∀ entry ∈ (c.slots type).zip fields, c.Fits entry.1.plan entry.2)
    (h : ∀ entry ∈ (c.slots type).zip fields, entry.2.isAbsent = false →
      c.ReadsBackJson depth entry.1.plan entry.2) :
    c.nestedOfJson (depth + 1) id isNamed
        (if isNamed then c.named type (.object (c.membersJson (c.slots type) fields))
          else .object (c.membersJson (c.slots type) fields)) =
      .ok (some { type, fields := Value.plainItems fields }) := by
  have hcontent : c.contentOfJson (c.nestedOfJson depth) type
      (.object (c.membersJson (c.slots type) fields)) =
      .ok { type, fields := Value.plainItems fields } := by
    rw [contentOfJson, foldObject, foldlM_membersJson hc hlength hfits h]
    rfl
  cases isNamed with
  | true =>
      rw [if_pos rfl, nestedOfJson_named (hc.memberOfJsonType?_eq hnames hmember), hcontent]
      rfl
  | false =>
      obtain rfl := hnamed rfl
      simp only [Bool.false_eq_true, if_false, nestedOfJson, isNull, hcontent, Except.ok_bind,
        Except.pure_eq_ok]

/-! ## lists and maps -/

theorem itemsJson_eq (element : ValuePlan) (items : List Value) :
    c.itemsJson element items = items.map (c.valueJson (.single element)) := by
  induction items with
  | nil => rfl
  | cons item items ih => rw [itemsJson, ih, List.map_cons]

theorem recordsJson_eq (key value : ValuePlan) (entries : List (Key × Value)) :
    c.recordsJson key value entries = entries.map fun entry =>
      .object [(Json.keyName, c.keyJson key entry.1),
        (Json.valueName, c.valueJson (.single value) entry.2)] := by
  induction entries with
  | nil => rfl
  | cons entry entries ih => rw [recordsJson, ih, List.map_cons]

theorem namedJson_eq (value : ValuePlan) (entries : List (Key × Value)) :
    c.namedJson value entries = entries.map fun entry =>
      (keyName entry.1, c.valueJson (.single value) entry.2) := by
  induction entries with
  | nil => rfl
  | cons entry entries ih => rw [namedJson, ih, List.map_cons]

theorem foldlM_itemsJson {items : List Value}
    (h : ∀ item ∈ items, c.ReadsBackJson depth (.single element) item) :
    (c.itemsJson element items).foldlM (c.listWith (c.nestedOfJson depth) element) [] =
      .ok (Value.plainItems items) := by
  rw [itemsJson_eq, Value.plainItems_eq, List.foldlM_map]
  refine Except.foldlM_concat (fun item hitem done => ?_) []
  rw [listWith, show c.valueOfJson _ element _ = _ from h item hitem]
  rfl

/-- Keys have one pattern each. -/
theorem Fits.plain_key (hkey : key.IsKey) (h : c.Fits (.single key) k.toValue) :
    k.toValue.plain = k.toValue := by
  cases k with
  | constant index => simp [Key.toValue, Value.plain]
  | scalar s =>
      cases h with
      | @scalar p _ htype _ =>
          obtain ⟨hfloat, hdouble⟩ := hkey
          rw [Key.toValue, Value.plain]
          cases s with
          | float x => cases p <;> contradiction
          | double x => cases p <;> contradiction
          | _ => rfl

theorem keyJson_eq (h : c.Fits (.single key) k.toValue) :
    c.keyJson key k = c.valueJson (.single key) k.toValue := by
  cases k <;> cases h <;> simp [keyJson, Key.toValue, valueJson]

theorem recordOfJson_eq (hkey : key.IsKey) (hfits : c.Fits (.single key) k.toValue)
    (hk : c.ReadsBackJson depth (.single key) k.toValue)
    (hv : c.ReadsBackJson depth (.single value) v) :
    c.recordOfJson (c.nestedOfJson depth) key value
        (.object [(Json.keyName, c.keyJson key k),
          (Json.valueName, c.valueJson (.single value) v)]) =
      .ok (some k, some v.plain) := by
  have hk' : c.valueOfJson (c.nestedOfJson depth) key (c.keyJson key k) = .ok (some k.toValue) := by
    rw [keyJson_eq hfits, show c.valueOfJson _ key _ = _ from hk, hfits.plain_key hkey]
  have hback : Key.ofValue? k.toValue = some k := by cases k <;> rfl
  have hv' : c.valueOfJson (c.nestedOfJson depth) value (c.valueJson (.single value) v) =
      .ok (some v.plain) := hv
  simp [recordOfJson, foldObject, recordWith, hk', hv', hback, Json.keyName, Json.valueName]

/-- The records of a map are read one after the other. -/
theorem foldlM_recordsJson {entries : List (Key × Value)} (hkey : key.IsKey)
    (hdistinct : (entries.map Prod.fst).Nodup)
    (hpresent : ∀ entry ∈ entries, entry.2.isAbsent = false)
    (hkeys : ∀ entry ∈ entries, c.Fits (.single key) entry.1.toValue)
    (hk : ∀ entry ∈ entries, c.ReadsBackJson depth (.single key) entry.1.toValue)
    (hv : ∀ entry ∈ entries, c.ReadsBackJson depth (.single value) entry.2) (property : String) :
    (c.recordsJson key value entries).foldlM
        (c.recordsWith (c.nestedOfJson depth) property key value) [] =
      .ok (Value.plainEntries entries) := by
  rw [recordsJson_eq, Value.plainEntries_eq]
  refine foldlM_entries c property key value (fun entry hentry done => ?_)
    (fun entry hentry => ?_) hdistinct
  · rw [recordsWith, recordOfJson_eq hkey (hkeys entry hentry) (hk entry hentry)
      (hv entry hentry), Except.ok_bind]
  · rw [Value.isAbsent_plain, hpresent entry hentry]

/-- A key that is a name. -/
theorem Fits.eq_name (h : c.Fits (.single (.primitive .string)) k.toValue) :
    k = .scalar (.string (keyName k)) := by
  cases k with
  | constant index => cases h
  | scalar s =>
      cases h with
      | scalar htype _ => cases s <;> first | rfl | contradiction

/-- The properties of a map are read one after the other. -/
theorem foldlM_namedJson {entries : List (Key × Value)}
    (hdistinct : (entries.map Prod.fst).Nodup)
    (hpresent : ∀ entry ∈ entries, entry.2.isAbsent = false)
    (hkeys : ∀ entry ∈ entries, c.Fits (.single (.primitive .string)) entry.1.toValue)
    (hv : ∀ entry ∈ entries, c.ReadsBackJson depth (.single value) entry.2) (property : String)
    (key : ValuePlan) :
    (c.namedJson value entries).foldlM
        (c.namesWith (c.nestedOfJson depth) property key value) [] =
      .ok (Value.plainEntries entries) := by
  rw [namedJson_eq, Value.plainEntries_eq]
  refine foldlM_entries c property key value (fun entry hentry done => ?_)
    (fun entry hentry => ?_) hdistinct
  · rw [namesWith, show c.valueOfJson _ value _ = _ from hv entry hentry, Except.ok_bind,
      ← (hkeys entry hentry).eq_name]
  · rw [Value.isAbsent_plain, hpresent entry hentry]

/-! ## how much values weigh -/

theorem weight_lt_membersJson {slots : List Slot} {values : List Value}
    (h : entry ∈ slots.zip values) (hv : entry.2.isAbsent = false) :
    (c.valueJson entry.1.plan entry.2).weight < weightMembers (c.membersJson slots values) := by
  have hmem : (entry.1.key, c.valueJson entry.1.plan entry.2) ∈ c.membersJson slots values := by
    rw [membersJson_eq]
    exact List.mem_filterMap.mpr ⟨entry, h, by simp [hv]⟩
  exact weight_lt_members hmem

theorem weight_lt_namedJson {entries : List (Key × Value)} (value : ValuePlan)
    (h : entry ∈ entries) :
    (c.valueJson (.single value) entry.2).weight < weightMembers (c.namedJson value entries) := by
  rw [namedJson_eq]
  exact weight_lt_members (List.mem_map_of_mem
    (f := fun entry => (keyName entry.1, c.valueJson (.single value) entry.2)) h)

theorem weight_lt_recordsJson {entries : List (Key × Value)} (key value : ValuePlan)
    (h : entry ∈ entries) :
    (c.keyJson key entry.1).weight < weightItems (c.recordsJson key value entries) ∧
      (c.valueJson (.single value) entry.2).weight <
        weightItems (c.recordsJson key value entries) := by
  rw [recordsJson_eq]
  have hle := weight_le_items (List.mem_map_of_mem
    (f := fun entry => Json.object [(Json.keyName, c.keyJson key entry.1),
      (Json.valueName, c.valueJson (.single value) entry.2)]) h)
  simp only [weight, weightMembers] at hle
  omega

/-- **Reading**: a value is made again of its JSON value, if the nesting is bounded by its
weight. -/
theorem readsBackJson_valueJson (hc : c.Lawful) (hnames : c.model.JsonDistinct)
    (h : c.Fits plan v) (hv : v.isAbsent = false) (hsound : plan.IsSound c.model)
    (hdepth : (c.valueJson plan v).weight ≤ depth) : c.ReadsBackJson depth plan v := by
  -- only a message takes from the depth, and its members weigh less than it does
  induction h generalizing depth with
  | @scalar p s htype hsize =>
      rw [ReadsBackJson, valueJson, valueOfJson, ← htype, s.readJson_toJson, Value.plain]
      rfl
  | @constant enum index h =>
      have hname : Read.string.on (.string (c.nameOf enum index)) = .ok (c.nameOf enum index) := rfl
      rw [ReadsBackJson, valueJson, valueOfJson, hname]
      simp [Lawful.constantOfName_nameOf hnames enum h, Value.plain]
  | absent id isAbstract => contradiction
  | @message id type isAbstract fields hmember hlength hfields ih =>
      have hweight : weightMembers (c.membersJson (c.slots type) fields) + 1 ≤ depth := by
        rw [valueJson] at hdepth
        split at hdepth
        · simp only [named, weight, weightItems] at hdepth
          omega
        · exact hdepth
      obtain ⟨depth, rfl⟩ : ∃ d, depth = d + 1 := ⟨depth - 1, by omega⟩
      have hall : ∀ entry ∈ (c.slots type).zip fields, entry.2.isAbsent = false →
          c.ReadsBackJson depth entry.1.plan entry.2 := by
        intro entry hentry habsent
        have hlt := weight_lt_membersJson (c := c) hentry habsent
        have hplan := hc.plan type entry.1 (List.of_mem_zip hentry).1
        exact ih entry hentry habsent (Model.isSound_of_planField hplan) (by omega)
      have hnamed : isAbstract = false → type = id := fun hconcrete =>
        eq_of_mem_members hmember (hsound.symm.trans hconcrete)
      rw [ReadsBackJson, valueJson, valueOfJson,
        nestedOfJson_message hc hnames hmember hnamed hlength hfields hall, Value.plain]
      rfl
  | @list element items hlength hpresent hitems ih =>
      have hall : ∀ item ∈ items, c.ReadsBackJson depth (.single element) item := by
        intro item hitem
        refine ih item hitem (hpresent item hitem) hsound ?_
        have hle := weight_le_items (List.mem_map_of_mem (f := c.valueJson (.single element)) hitem)
        rw [valueJson, weight, itemsJson_eq] at hdepth
        omega
      intro property
      rw [valueJson, fieldOfJson, foldArray, foldlM_itemsJson hall, Value.plain]
      rfl
  | @map key value entries hlength hdistinct hpresent hkeys hvalues ihk ihv =>
      obtain ⟨hkey, hvalue⟩ := hsound
      have hkeySound : (FieldPlan.single key).IsSound c.model := by
        cases key <;> trivial
      intro property
      rw [valueJson, Value.plain, fieldOfJson]
      -- maps by strings are objects, all others are lists of records
      by_cases hnamed : FieldPlan.keysAreNames key = true
      · rw [valueJson, if_pos hnamed, weight] at hdepth
        obtain rfl : key = .primitive .string := by simpa [FieldPlan.keysAreNames] using hnamed
        have hallv : ∀ entry ∈ entries, c.ReadsBackJson depth (.single value) entry.2 := by
          intro entry hentry
          have hlt := weight_lt_namedJson (c := c) value hentry
          exact ihv entry hentry (hpresent entry hentry) hvalue (by omega)
        rw [if_pos hnamed, if_pos hnamed, foldObject,
          foldlM_namedJson hdistinct hpresent hkeys hallv]
        rfl
      · rw [valueJson, if_neg hnamed, weight] at hdepth
        have hallk : ∀ entry ∈ entries, c.ReadsBackJson depth (.single key) entry.1.toValue := by
          intro entry hentry
          have hlt := (weight_lt_recordsJson (c := c) key value hentry).1
          rw [keyJson_eq (hkeys entry hentry)] at hlt
          exact ihk entry hentry (by cases entry.1 <;> rfl) hkeySound (by omega)
        have hallv : ∀ entry ∈ entries, c.ReadsBackJson depth (.single value) entry.2 := by
          intro entry hentry
          have hlt := (weight_lt_recordsJson (c := c) key value hentry).2
          exact ihv entry hentry (hpresent entry hentry) hvalue (by omega)
        rw [if_neg hnamed, if_neg hnamed, foldArray,
          foldlM_recordsJson hkey hdistinct hpresent hkeys hallk hallv]
        rfl

/-! ## the round trip -/

/-- **JSON round trip**: for every accepted schema of which all fields can travel, and in which JSON
tells constants and members of families apart by their names, a message of a type, or of a member of
its family, is read back from its JSON value, its transient fields included.  Of a NaN, no more than
that it is one comes back. -/
theorem ofJson_toJson (hm : Model.ofSchema schema = .ok m) (hc : ofModel m = .ok c)
    (hnames : m.JsonDistinct) (hmessage : c.FitsMessage id message) :
    c.ofJson id (c.toJson message) = .ok (some message.plain) := by
  have hlawful := lawful_of_ofSchema hm hc
  rw [← model_of_ofModel hc] at hnames
  obtain ⟨-, hfamily, -⟩ := hlawful.of_mem_members hmessage.member
  have hnamed : c.model.inFamily id = false → message.type = id := fun hfamily =>
    eq_of_mem_members hmessage.member (Bool.or_eq_false_iff.mp hfamily).1
  have hweight : weightMembers (c.membersJson (c.slots message.type) message.fields) ≤
      (c.toJson message).weight := by
    rw [toJson]
    split
    · simp only [named, weight, weightItems]
      omega
    · simp only [weight]
      omega
  have hall : ∀ entry ∈ (c.slots message.type).zip message.fields, entry.2.isAbsent = false →
      c.ReadsBackJson (c.toJson message).weight entry.1.plan entry.2 := by
    intro entry hentry habsent
    have hlt := weight_lt_membersJson (c := c) hentry habsent
    have hplan := hlawful.plan message.type entry.1 (List.of_mem_zip hentry).1
    exact readsBackJson_valueJson hlawful hnames (hmessage.fields entry hentry) habsent
      (Model.isSound_of_planField hplan) (by omega)
  have hread := nestedOfJson_message hlawful hnames hmessage.member hnamed hmessage.length
    hmessage.fields hall
  rw [← hfamily] at hread
  rw [ofJson_eq, ← hfamily]
  exact hread

/-- A holder with a value in each of its fields. -/
def holder : Message :=
  ⟨3, [.message 1 [.scalar (.double ⟨0xfff8000000000001⟩)], .list [.scalar (.int (-1))],
    .map [(.scalar (.string "a"), .scalar (.int 2))], .constant 2,
    .map [(.scalar (.int 5), .scalar (.string "b"))],
    .map [(.scalar (.string "c"), .message 2 [.scalar (.double ⟨0⟩), .scalar (.double ⟨1⟩)])]]⟩

theorem ofJson_toJson_holder : ∃ m c, Model.ofSchema Example.scenarios = .ok m ∧
    ofModel m = .ok c ∧ m.JsonDistinct ∧ c.FitsMessage 3 holder ∧
    c.ofJson 3 (c.toJson holder) = .ok (some holder.plain) := by
  have hcatalog : (ofSchema? Example.scenarios).any (fun c => decide
      ((∀ id ∈ c.model.enumIds, ((c.model.enumeration id).constants.map (·.jsonName)).Nodup) ∧
        (∀ root ∈ c.model.messageIds, (c.model.message root).parent = none →
          (c.model.message root).isAbstract = true →
          ((c.model.concreteDescendants root).map fun id => (c.model.message id).jsonType).Nodup) ∧
        (c.constants 0).length = 3 ∧ 1 ∈ c.members 1 ∧ 2 ∈ c.members 0 ∧ 3 ∈ c.members 3 ∧
        (c.slots 1).map (·.plan) = [.single (.primitive .double)] ∧
        (c.slots 2).map (·.plan) = List.replicate 2 (.single (.primitive .double)) ∧
        (c.slots 3).map (·.plan) = [.single (.message 1 false), .repeated (.primitive .int32),
          .map (.primitive .string) (.primitive .int32), .single (.enumeration 0),
          .map (.primitive .int32) (.primitive .string),
          .map (.primitive .string) (.message 0 true)])) = true := by
    decide +kernel
  obtain ⟨m, c, hm, hc, hfacts⟩ := exists_of_any hcatalog
  obtain ⟨hconstants, hmembers, hcount, hcircle, hrectangle, hholder, hslots₁, hslots₂, hslots₃⟩ :=
    of_decide_eq_true hfacts
  have hnames : m.JsonDistinct := model_of_ofModel hc ▸ ⟨hconstants, hmembers⟩
  have hdouble : ∀ x, c.Fits (.single (.primitive .double)) (.scalar (.double x)) := fun x =>
    .scalar rfl trivial
  have hint : ∀ n, c.Fits (.single (.primitive .int32)) (.scalar (.int n)) := fun n =>
    .scalar rfl trivial
  have hstring : ∀ s, (Utf8.encode s).length < UInt64.size →
      c.Fits (.single (.primitive .string)) (.scalar (.string s)) := fun s hs => .scalar rfl hs
  have hchild : c.Fits (.single (.message 1 false)) (.message 1 [.scalar (.double _)]) :=
    .of_plans hcircle hslots₁ (.cons (hdouble ⟨0xfff8000000000001⟩) .nil)
  have hfigure : c.Fits (.single (.message 0 true))
      (.message 2 [.scalar (.double _), .scalar (.double _)]) :=
    .of_plans hrectangle hslots₂ (.cons (hdouble ⟨0⟩) (.cons (hdouble ⟨1⟩) .nil))
  have hmap : ∀ {key value : ValuePlan} {s : Scalar} {v : Value}, c.Fits (.single key) (.scalar s) →
      c.Fits (.single value) v → v.isAbsent = false →
      c.Fits (.map key value) (.map [(.scalar s, v)]) := fun hk hv hpresent =>
    .map (by simp) (by simp) (by simpa using hpresent) (by simpa [Key.toValue] using hk)
      (by simpa using hv)
  have hfits : c.FitsMessage 3 holder :=
    (Fits.of_plans hholder hslots₃ (.cons hchild (.cons
      (.list (by decide) (by simp [Value.isAbsent]) (by simp [hint]))
      (.cons (hmap (hstring "a" (by decide)) (hint 2) rfl)
        (.cons (.constant (by omega)) (.cons (hmap (hint 5) (hstring "b" (by decide)) rfl)
          (.cons (hmap (hstring "c" (by decide)) hfigure rfl) .nil)))))) :
      c.Fits (.single (.message 3 false)) _).toMessage
  exact ⟨m, c, hm, hc, hnames, hfits, ofJson_toJson hm hc hnames hfits⟩

end Catalog

end Missive
