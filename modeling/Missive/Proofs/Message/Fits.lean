import Mathlib
import Missive.Message.Catalog

/-!
# Missive.Proofs.Message.Fits

The values that the fields of a catalog can hold.

`Fits c plan v` says that a value has the shape that a plan wants: scalars have its type, constants
exist, messages are members of the type and have a fitting value for each slot, and the keys of a
map are distinct.  Only a single message may be absent, and only where it is a field.
-/

namespace Missive

/-- A scalar whose bytes can be counted in 64 bits. -/
def Scalar.IsStorable : Scalar → Prop
  | .string s => (Utf8.encode s).length < UInt64.size
  | .bytes bs => bs.length < UInt64.size
  | _ => True

namespace Catalog

/-- A value that a field can hold. -/
inductive Fits (c : Catalog) : FieldPlan → Value → Prop where
  | scalar {p : Primitive} {s : Scalar} (htype : s.type = p.scalarType) (hsize : s.IsStorable) :
      Fits c (.single (.primitive p)) (.scalar s)
  | constant {id : EnumId} {index : Nat} (h : index < (c.constants id).length) :
      Fits c (.single (.enumeration id)) (.constant index)
  | absent (id : MessageId) (isAbstract : Bool) : Fits c (.single (.message id isAbstract)) .absent
  | message {id type : MessageId} {isAbstract : Bool} {fields : List Value}
      (hmember : type ∈ c.members id) (hlength : fields.length = (c.slots type).length)
      (hfields : ∀ entry ∈ (c.slots type).zip fields, Fits c entry.1.plan entry.2) :
      Fits c (.single (.message id isAbstract)) (.message type fields)
  | list {element : ValuePlan} {items : List Value} (hlength : items.length < UInt64.size)
      (hpresent : ∀ item ∈ items, item.isAbsent = false)
      (hitems : ∀ item ∈ items, Fits c (.single element) item) :
      Fits c (.repeated element) (.list items)
  | map {key value : ValuePlan} {entries : List (Key × Value)}
      (hlength : entries.length < UInt64.size) (hdistinct : (entries.map Prod.fst).Nodup)
      (hpresent : ∀ entry ∈ entries, entry.2.isAbsent = false)
      (hkeys : ∀ entry ∈ entries, Fits c (.single key) entry.1.toValue)
      (hvalues : ∀ entry ∈ entries, Fits c (.single value) entry.2) :
      Fits c (.map key value) (.map entries)

/-- A message fits if its values fit the plans of its slots, one by one. -/
theorem Fits.of_plans {c : Catalog} {id : MessageId} (hmember : type ∈ c.members id)
    (hplans : (c.slots type).map (·.plan) = plans) (hfields : List.Forall₂ c.Fits plans fields) :
    c.Fits (.single (.message id isAbstract)) (.message type fields) := by
  subst hplans
  refine .message hmember (by simpa using hfields.length_eq.symm) fun entry hentry => ?_
  have hmem : (entry.1.plan, entry.2) ∈ ((c.slots type).map (·.plan)).zip fields := by
    rw [List.zip_map_left]
    exact List.mem_map_of_mem hentry
  exact List.forall₂_zip hfields hmem

/-- An absent message is what its field starts with. -/
theorem Fits.initial_eq {c : Catalog} (h : c.Fits plan v) (hv : v.isAbsent = true) :
    plan.initial = .absent ∧ v = .absent := by
  cases h with
  | absent id isAbstract => exact ⟨rfl, rfl⟩
  | _ => contradiction

/-- A message of a type, or of a member of its family if the type is abstract. -/
structure FitsMessage (c : Catalog) (id : MessageId) (message : Message) : Prop where
  member : message.type ∈ c.members id
  length : message.fields.length = (c.slots message.type).length
  fields : ∀ entry ∈ (c.slots message.type).zip message.fields, c.Fits entry.1.plan entry.2

theorem Fits.toMessage {c : Catalog} {id : MessageId}
    (h : c.Fits (.single (.message id isAbstract)) (.message type fields)) :
    c.FitsMessage id ⟨type, fields⟩ := by
  cases h with
  | message hmember hlength hfields => exact ⟨hmember, hlength, hfields⟩

end Catalog

/-! ## what is left of a value on the wire -/

mutual

/-- A value with every transient field, at any depth, as it starts. -/
def Value.persisted (c : Catalog) : Value → Value
  | .message type fields => .message type (persistedFields c (c.slots type) fields)
  | .list items => .list (persistedItems c items)
  | .map entries => .map (persistedEntries c entries)
  | value => value

def Value.persistedFields (c : Catalog) : List Slot → List Value → List Value
  | slot :: slots, value :: values =>
    (if slot.field.transient then slot.plan.initial else persisted c value)
      :: persistedFields c slots values
  | _, _ => []

def Value.persistedItems (c : Catalog) : List Value → List Value
  | [] => []
  | item :: items => persisted c item :: persistedItems c items

def Value.persistedEntries (c : Catalog) : List (Key × Value) → List (Key × Value)
  | [] => []
  | (k, v) :: entries => (k, persisted c v) :: persistedEntries c entries

end

/-- A message with every transient field, at any depth, as it starts. -/
def Message.persisted (c : Catalog) (message : Message) : Message :=
  { message with fields := Value.persistedFields c (c.slots message.type) message.fields }

namespace Value

variable {c : Catalog}

theorem persistedFields_eq (slots : List Slot) (values : List Value) :
    persistedFields c slots values = (slots.zip values).map fun entry =>
      if entry.1.field.transient then entry.1.plan.initial else entry.2.persisted c := by
  induction slots generalizing values with
  | nil => simp [persistedFields]
  | cons slot slots ih => cases values <;> simp [persistedFields, ih]

theorem persistedItems_eq (items : List Value) :
    persistedItems c items = items.map (·.persisted c) := by
  induction items with
  | nil => rfl
  | cons item items ih => rw [persistedItems, ih, List.map_cons]

theorem persistedEntries_eq (entries : List (Key × Value)) :
    persistedEntries c entries = entries.map fun entry => (entry.1, entry.2.persisted c) := by
  induction entries with
  | nil => rfl
  | cons entry entries ih => rw [persistedEntries, ih, List.map_cons]

theorem isAbsent_persisted (v : Value) : (v.persisted c).isAbsent = v.isAbsent := by
  cases v <;> simp [persisted, isAbsent]

end Value

end Missive
