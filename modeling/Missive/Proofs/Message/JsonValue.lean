import Missive.Message.Json
import Missive.Proofs.Json.Reader

/-!
# Missive.Proofs.Message.JsonValue

What a catalog makes of a JSON value.

The functions here say without a stream reader what a message, a field, a value or an entry of a
map becomes, or which error it is.  `Catalog.ofJson_eq` joins the two: the stream reader ends with
the same message or the same error.
-/

namespace Missive

open Json

theorem ScalarType.readJson_reads (t : ScalarType) : Reads t.readJson t.readJson.on := by
  cases t with
  | bool => exact Read.bool_reads.map _
  | int => exact Read.int_reads.map _
  | uint => exact Read.uint_reads.map _
  | long => exact Read.long_reads.map _
  | ulong => exact Read.ulong_reads.map _
  | float => exact Read.float_reads.map _
  | double => exact Read.double_reads.map _
  | string => exact Read.string_reads.map _
  | bytes => exact Read.binary_reads.map _

namespace Catalog

/-- A way to make a message of a value inside another, with or without the name of its type in
front. -/
abbrev NestedValue := MessageId → Bool → Json → Except ReadError (Option Message)

/-- The single value that a JSON value is. -/
def valueOfJson (c : Catalog) (nested : NestedValue) :
    ValuePlan → Json → Except ReadError (Option Value)
  | .primitive p, v => return some (.scalar (← p.scalarType.readJson.on v))
  | .enumeration id, v => return some (.constant (c.constantOfName id (← Read.string.on v)))
  | .message id isAbstract, v => return (← nested id isAbstract v).map Message.toValue

/-- A record of a map with one more of its properties. -/
def recordWith (c : Catalog) (nested : NestedValue) (key value : ValuePlan)
    (record : Option Key × Option Value) (property : String × Json) :
    Except ReadError (Option Key × Option Value) := do
  if property.1 == Json.keyName then
    return ((← c.valueOfJson nested key property.2).bind Key.ofValue?, record.2)
  else if property.1 == Json.valueName then
    return (record.1, ← c.valueOfJson nested value property.2)
  else return record

/-- The record of a map that a value is, of which either part may be missing. -/
def recordOfJson (c : Catalog) (nested : NestedValue) (key value : ValuePlan) :
    Json → Except ReadError (Option Key × Option Value) :=
  foldObject (c.recordWith nested key value) (none, none)

/-- The items of a list with one more element; nothing comes of an absent message. -/
def listWith (c : Catalog) (nested : NestedValue) (element : ValuePlan) (items : List Value)
    (v : Json) : Except ReadError (List Value) := do
  return items ++ (← c.valueOfJson nested element v).toList

/-- The entries of a map with one more record. -/
def recordsWith (c : Catalog) (nested : NestedValue) (property : String) (key value : ValuePlan)
    (entries : List (Key × Value)) (v : Json) : Except ReadError (List (Key × Value)) := do
  c.addEntry property key value (← c.recordOfJson nested key value v) entries

/-- The entries of a map with one more property, which is named by its key. -/
def namesWith (c : Catalog) (nested : NestedValue) (property : String) (key value : ValuePlan)
    (entries : List (Key × Value)) (member : String × Json) :
    Except ReadError (List (Key × Value)) := do
  c.addEntry property key value
    (some (.scalar (.string member.1)), ← c.valueOfJson nested value member.2) entries

/-- The value of a field that a value is. -/
def fieldOfJson (c : Catalog) (nested : NestedValue) (property : String) :
    FieldPlan → Json → Except ReadError Value
  | .single value, v => return (← c.valueOfJson nested value v).getD .absent
  | .repeated element, v => return .list (← foldArray (c.listWith nested element) [] v)
  | .map key value, v =>
    if FieldPlan.keysAreNames key then
      return .map (← foldObject (c.namesWith nested property key value) [] v)
    else return .map (← foldArray (c.recordsWith nested property key value) [] v)

/-- The values of a message with one more of its properties.  Names that are not known are
skipped. -/
def propertiesWith (c : Catalog) (nested : NestedValue) (id : MessageId) (values : List Value)
    (property : String × Json) : Except ReadError (List Value) :=
  match (c.slots id).find? (·.key == property.1) with
  | some slot =>
    return values.set slot.position (← c.fieldOfJson nested slot.key slot.plan property.2)
  | none => return values

/-- The message of a concrete type that an object is. -/
def contentOfJson (c : Catalog) (nested : NestedValue) (id : MessageId) (v : Json) :
    Except ReadError Message := do
  return { type := id, fields := ← foldObject (c.propertiesWith nested id) (c.new id).fields v }

/-- The message that an array of the name of a type and an object is. -/
def namedOfJson (c : Catalog) (nested : NestedValue) (id : MessageId) :
    Json → Except ReadError (Option Message)
  | .array [] => .error (.json .pastArrayEnd)
  | .array (name :: rest) => do
    match c.memberOfJsonType? id (← Read.string.on name), rest with
    | some type, content :: _ => return some (← c.contentOfJson nested type content)
    | none, _ :: _ => return none
    | _, [] => .error (.json .pastArrayEnd)
  | v => v.mismatch .array

/-- The message of a type that a value is, or nothing for `null`, of at most `depth` nested
messages. -/
def nestedOfJson (c : Catalog) : Nat → NestedValue
  | 0, _, _, _ => .error (.json .nothingLeft)
  | depth + 1, id, isNamed, v =>
    if v.isNull then .ok none
    else if isNamed then c.namedOfJson (c.nestedOfJson depth) id v
    else do return some (← c.contentOfJson (c.nestedOfJson depth) id v)

variable {c : Catalog} {nested : NestedJson} {nestedValue : NestedValue}

/-! ## fields -/

theorem readValueJson_reads
    (hn : ∀ id isNamed, Reads (nested id isNamed) (nestedValue id isNamed)) (plan : ValuePlan) :
    Reads (c.readValueJson nested plan) (c.valueOfJson nestedValue plan) := by
  intro v pending frames frames' hb
  cases plan with
  | primitive p =>
      exact .bind (p.scalarType.readJson_reads v _ _ _ hb) fun s => .pure _ _
  | enumeration id => exact .bind (Read.string_reads v _ _ _ hb) fun name => .pure _ _
  | message id isAbstract => exact .bind (hn id isAbstract v _ _ _ hb) fun m => .pure _ _

theorem readRecordJson_reads
    (hn : ∀ id isNamed, Reads (nested id isNamed) (nestedValue id isNamed))
    (key value : ValuePlan) :
    Reads (c.readRecordJson nested key value) (c.recordOfJson nestedValue key value) := by
  have hrecord : c.recordOfJson nestedValue key value = fun v =>
      foldObject (c.recordWith nestedValue key value) (none, none) v >>= fun b => pure b := by
    funext v
    rw [bind_pure]
    rfl
  rw [hrecord]
  refine Read.object_reads _ (fun frames record name v members => ?_) _
  obtain ⟨k, w⟩ := record
  dsimp only
  rw [bind_of_ok _ (show Read.nextName _ = .ok name _ from rfl)]
  unfold recordWith
  split
  · exact .bind (readValueJson_reads hn key v _ _ _ (.name _)) fun k => .pure _ _
  · split
    · exact .bind (readValueJson_reads hn value v _ _ _ (.name _)) fun k => .pure _ _
    · rw [bind_of_ok _ (Read.skipValue_before (.name _))]
      exact .pure _ _

theorem readFieldJson_reads
    (hn : ∀ id isNamed, Reads (nested id isNamed) (nestedValue id isNamed)) (slot : Slot) :
    Reads (c.readFieldJson nested slot) (c.fieldOfJson nestedValue slot.key slot.plan) := by
  unfold readFieldJson
  cases hplan : slot.plan with
  | single value =>
      intro v pending frames frames' hb
      exact .bind (readValueJson_reads hn value v _ _ _ hb) fun w => .pure _ _
  | repeated element =>
      refine Read.array_reads Value.list (fun items v pending frames frames' hb => ?_) []
      exact .bind (readValueJson_reads hn element v _ _ _ hb) fun w => .pure _ _
  | map key value =>
      simp only
      unfold fieldOfJson
      by_cases hnames : FieldPlan.keysAreNames key = true
      · simp only [hnames, if_true]
        refine Read.object_reads Value.map (fun frames entries name v members => ?_) []
        rw [bind_of_ok _ (show Read.nextName _ = .ok name _ from rfl)]
        refine .bind (readValueJson_reads hn value v _ _ _ (.name _)) fun w => ?_
        cases c.addEntry slot.key key value (some (.scalar (.string name)), w) entries with
        | ok entries => exact .pure _ _
        | error e => exact .error rfl
      · simp only [hnames]
        refine Read.array_reads Value.map (fun entries v pending frames frames' hb => ?_) []
        refine .bind (readRecordJson_reads hn key value v _ _ _ hb) fun record => ?_
        cases c.addEntry slot.key key value record entries with
        | ok entries => exact .pure _ _
        | error e => exact .error rfl

/-! ## messages -/

theorem readContentJson_reads
    (hn : ∀ id isNamed, Reads (nested id isNamed) (nestedValue id isNamed)) (id : MessageId) :
    Reads (c.readContentJson nested id) (c.contentOfJson nestedValue id) := by
  refine Read.object_reads (Message.mk id) (fun frames values name v members => ?_) _
  rw [bind_of_ok _ (show Read.nextName _ = .ok name _ from rfl)]
  unfold propertiesWith
  cases (c.slots id).find? (·.key == name) with
  | some slot => exact .bind (readFieldJson_reads hn slot v _ _ _ (.name _)) fun w => .pure _ _
  | none =>
      simp only
      rw [bind_of_ok _ (Read.skipValue_before (.name _))]
      exact .pure _ _

theorem readNamedJson_reads
    (hn : ∀ id isNamed, Reads (nested id isNamed) (nestedValue id isNamed)) (id : MessageId) :
    Reads (c.readNamedJson nested id) (c.namedOfJson nestedValue id) := by
  intro v pending frames frames' hb
  match v with
  | .array [] => exact .error ((bind_of_ok _ (Read.beginArray_before hb)).trans rfl)
  | .array (name :: rest) =>
      rw [readNamedJson, bind_of_ok _ (Read.beginArray_before hb)]
      refine .bind (Read.string_reads name _ _ _ (.item rest frames')) fun jsonType => ?_
      cases c.memberOfJsonType? id jsonType with
      | some type =>
          simp only [bind_map_left]
          match rest with
          | [] => exact .error rfl
          | content :: rest =>
              exact .bind (readContentJson_reads hn type content _ _ _ (.item rest frames'))
                fun message => .ok rfl
      | none =>
          match rest with
          | [] => exact .error rfl
          | content :: rest => exact .ok rfl
  | .null | .bool _ | .number _ | .string _ | .object _ =>
      exact .error (bind_of_error _ (bind_of_ok _ (Read.next_reads _ _ _ _ hb)))

theorem readNestedJson_reads (depth : Nat) (id : MessageId) (isNamed : Bool) :
    Reads (c.readNestedJson depth id isNamed) (c.nestedOfJson depth id isNamed) := by
  induction depth generalizing id isNamed with
  | zero => exact fun v pending frames frames' hb => .error rfl
  | succ depth ih =>
      intro v pending frames frames' hb
      unfold readNestedJson nestedOfJson
      rw [bind_of_ok _ (Read.peekNull_before hb)]
      split
      · rw [bind_of_ok _ (Read.skipValue_before hb)]
        exact .pure _ _
      · cases isNamed with
        | true => exact readNamedJson_reads ih id v _ _ _ hb
        | false =>
            exact .bind (readContentJson_reads ih id v _ _ _ hb) fun message => .pure _ _

/-- **Reading a value**: the stream reader ends as the value says. -/
theorem ofJson_eq (c : Catalog) (id : MessageId) (v : Json) :
    c.ofJson id v = c.nestedOfJson (v.weight + 1) id (c.model.inFamily id) v := by
  rw [← (readNestedJson_reads (v.weight + 1) id (c.model.inFamily id)).on_eq v, ofJson, Read.on,
    EStateM.run]
  cases c.readNestedJson (v.weight + 1) id (c.model.inFamily id) (.ofJson v) <;> rfl

end Catalog

end Missive
