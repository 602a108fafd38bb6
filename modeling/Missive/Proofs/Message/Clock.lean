import Missive.Proofs.Message.Progress
import Missive.Proofs.Wire.Clock

/-!
# Missive.Proofs.Message.Clock

Reading messages without bounds, by a clock.

`Catalog.readMessageWithin` reads a message as `Catalog.readMessage` does, but nothing bounds its
loops and its nesting except a clock.  The clock does not run out if it exceeds the bytes that are
left (`Catalog.readMessageWithin_timely`), so that reading ends on any bytes.
-/

namespace Missive.Catalog

open Wire

/-- A way to read a message of a type inside another, by a clock. -/
abbrev NestedClocked := MessageId → Clocked (Option Message)

/-- Read a single value. -/
def readValueWithin (c : Catalog) (nested : NestedClocked) :
    ValuePlan → Clocked (Option Value)
  | .primitive p => return some (.scalar (← p.read))
  | .enumeration id => return some (.constant (c.constantOfCode id (← Read.int)))
  | .message id _ => return (← nested id).map Message.toValue

/-- Read the fields of an entry of a map, of which either may be missing. -/
def readEntryWithin (c : Catalog) (nested : NestedClocked) (clock : Nat) (key value : ValuePlan) :
    Clocked (Option Key × Option Value) := do
  Read.beginObject
  let entry ← Clocked.whileNext (fun (k, v) => do
    let tag ← Read.nextName
    if tag == keyTag then return ((← c.readValueWithin nested key).bind Key.ofValue?, v)
    else if tag == valueTag then return (k, ← c.readValueWithin nested value)
    else
      Clocked.skipValue clock
      return (k, v)) clock (none, none)
  Clocked.endObject clock
  return entry

/-- Read the value of a field. -/
def readFieldWithin (c : Catalog) (nested : NestedClocked) (clock : Nat) (slot : Slot) :
    Clocked Value :=
  match slot.plan with
  | .single value => return (← c.readValueWithin nested value).getD .absent
  | .repeated element => do
    Read.beginArray
    let items ← Clocked.whileNext (fun items => do
      return items ++ (← c.readValueWithin nested element).toList) clock []
    Clocked.endArray clock
    return .list items
  | .map key value => do
    Read.beginArray
    let entries ← Clocked.whileNext (fun entries => do
      let entry ← c.readEntryWithin nested clock key value
      match c.addEntry slot.key key value entry entries with
      | .ok entries => return entries
      | .error e => (throw e : Read _)) clock []
    Clocked.endArray clock
    return .map entries

/-- Read the fields of a message up to the end of its object. -/
def readFieldsWithin (c : Catalog) (nested : NestedClocked) (clock : Nat) (id : MessageId) :
    Clocked Message := do
  let fields ← Clocked.whileNext (fun fields => do
    let tag ← Read.nextName
    match (c.slots id).find? (·.tag == some tag) with
    | some slot => return fields.set slot.position (← c.readFieldWithin nested clock slot)
    | none =>
      Clocked.skipValue clock
      return fields) clock (c.new id).fields
  return { type := id, fields }

/-- Read a message of a type; nothing comes of a member of the family that the type does not
have. -/
def readMessageWithin (c : Catalog) : Nat → NestedClocked
  | 0, _ => Clocked.timeout
  | clock + 1, id => do
    Read.beginObject
    let message ← (do
      match ← c.readType id with
      | some type => return some (← c.readFieldsWithin (c.readMessageWithin clock) (clock + 1) type)
      | none => return none : Clocked (Option Message))
    Clocked.endObject (clock + 1)
    return message

variable {c : Catalog} {nested : NestedRead} {nested' : NestedClocked} {id : MessageId}

open Clocked (Timely)

theorem readValue_timely (hn : ∀ id, Consumes 1 (nested id))
    (h : ∀ id, Timely n (nested' id) (nested id)) (plan : ValuePlan) :
    Timely n (c.readValueWithin nested' plan) (c.readValue nested plan) := by
  have h0 : (0 : Nat) ≤ 1 := Nat.zero_le _
  cases plan with
  | primitive p => exact (Timely.lift _ _).bind (p.read_consumes.mono h0) fun _ => .pure _ _
  | enumeration id => exact (Timely.lift _ _).bind (Read.int_consumes.mono h0) fun _ => .pure _ _
  | message id isAbstract => exact (h id).bind ((hn id).mono h0) fun _ => .pure _ _

theorem readEntry_timely (hn : ∀ id, Consumes 1 (nested id))
    (h : ∀ id, Timely n (nested' id) (nested id)) (hle : n ≤ clock) (key value : ValuePlan) :
    Timely n (c.readEntryWithin nested' clock key value) (c.readEntryFields nested key value) := by
  have h0 : (0 : Nat) ≤ 1 := Nat.zero_le _
  have hvalue : ∀ plan, Consumes 0 (c.readValue nested plan) := fun plan =>
    (readValue_consumes hn plan).mono h0
  have hstep : ∀ entry : Option Key × Option Value, Consumes 1 (Read.nextName >>= fun tag => _) :=
    fun entry => Read.nextName_consumes.bind fun tag =>
      entryStep_consumes (c := c) hn key value entry tag
  refine (Timely.lift _ _).bind Read.beginObject_consumes fun _ => ?_
  refine (Timely.whileNext hstep (fun entry => ?_) hle _).bind
    (Read.whileNext_consumes (fun entry => (hstep entry).mono h0) _) fun entry => ?_
  · refine (Timely.lift _ _).bind (Read.nextName_consumes.mono h0) fun tag => ?_
    split
    · exact (readValue_timely hn h key).bind (hvalue key) fun _ => .pure _ _
    · split
      · exact (readValue_timely hn h value).bind (hvalue value) fun _ => .pure _ _
      · exact ((Clocked.skipValue_timely clock).mono hle).bind (Read.skipValue_consumes.mono h0)
          fun _ => .pure _ _
  · exact ((Clocked.endObject_timely clock).mono hle).bind (Read.endObject_consumes.mono h0)
      fun _ => .pure _ _

/-- An array, up to its end. -/
theorem readArray_timely {step : α → Read α} {step' : α → Clocked α} {finish : α → Value}
    (hs : ∀ a, Consumes 1 (step a)) (h : ∀ a, Timely n (step' a) (step a)) (hle : n ≤ clock)
    (a : α) :
    Timely n
      (do
        liftM Read.beginArray
        let b ← Clocked.whileNext step' clock a
        Clocked.endArray clock
        return finish b)
      (do
        Read.beginArray
        let b ← Read.whileNext step a
        Read.endArray
        return finish b) := by
  have h0 : (0 : Nat) ≤ 1 := Nat.zero_le _
  refine (Timely.lift _ _).bind (Read.beginArray_consumes.mono h0) fun _ => ?_
  refine (Timely.whileNext hs h hle a).bind
    (Read.whileNext_consumes (fun a => (hs a).mono h0) a) fun b => ?_
  exact ((Clocked.endArray_timely clock).mono hle).bind (Read.endArray_consumes.mono h0)
    fun _ => .pure _ _

theorem readField_timely (hn : ∀ id, Consumes 1 (nested id))
    (h : ∀ id, Timely n (nested' id) (nested id)) (hle : n ≤ clock) (slot : Slot) :
    Timely n (c.readFieldWithin nested' clock slot) (c.readField nested slot) := by
  have h0 : (0 : Nat) ≤ 1 := Nat.zero_le _
  have hvalue : ∀ plan, Consumes 1 (c.readValue nested plan) := readValue_consumes hn
  unfold readFieldWithin readField
  cases slot.plan with
  | single value =>
      exact (readValue_timely hn h value).bind ((hvalue value).mono h0) fun _ => .pure _ _
  | repeated element =>
      refine readArray_timely (itemStep_consumes hn element) (fun items => ?_) hle []
      exact (readValue_timely hn h element).bind ((hvalue element).mono h0) fun _ => .pure _ _
  | map key value =>
      refine readArray_timely (entriesStep_consumes hn _ key value) (fun entries => ?_) hle []
      refine (readEntry_timely hn h hle key value).bind
        ((readEntryFields_consumes hn key value).mono h0) fun entry => ?_
      cases c.addEntry slot.key key value entry entries with
      | ok entries => exact .pure _ _
      | error e => exact .lift _ _

/-- The values of the fields lie after their headers. -/
theorem readFields_timely (hn : ∀ id, Consumes 1 (nested id))
    (h : ∀ id, Timely n (nested' id) (nested id)) (hle : n + 1 ≤ clock) (id : MessageId) :
    Timely (n + 1) (c.readFieldsWithin nested' clock id) (c.readFields nested id) := by
  have h0 : (0 : Nat) ≤ 1 := Nat.zero_le _
  have hstep : ∀ fields : List Value, Consumes 1 (Read.nextName >>= fun tag => _) :=
    fun fields => Read.nextName_consumes.bind fun tag =>
      fieldStep_consumes (c := c) hn ((c.slots id).find? (·.tag == some tag)) fields
  refine (Timely.whileNext hstep (fun fields => ?_) hle _).bind
    (Read.whileNext_consumes (fun fields => (hstep fields).mono h0) _) fun _ => .pure _ _
  refine (Timely.lift _ _).after Read.nextName_consumes fun tag => ?_
  cases (c.slots id).find? (·.tag == some tag) with
  | some slot =>
      exact (readField_timely hn h (by omega) slot).bind ((readField_consumes hn slot).mono h0)
        fun _ => .pure _ _
  | none =>
      exact ((Clocked.skipValue_timely clock).mono (by omega)).bind
        (Read.skipValue_consumes.mono h0) fun _ => .pure _ _

theorem readNested_timely (hclock : n ≤ clock) (hdepth : n ≤ depth) (id : MessageId) :
    Timely n (c.readMessageWithin clock id) (c.readNested depth id) := by
  induction n generalizing clock depth id with
  | zero => intro r hr; omega
  | succ n ih =>
      obtain ⟨clock, rfl⟩ : ∃ k, clock = k + 1 := ⟨clock - 1, by omega⟩
      obtain ⟨depth, rfl⟩ : ∃ k, depth = k + 1 := ⟨depth - 1, by omega⟩
      have hn := readNested_consumes (c := c) depth
      have hnested : ∀ id, Timely n (c.readMessageWithin clock id) (c.readNested depth id) :=
        fun id => ih (by omega) (by omega) id
      rw [readNested_succ, readMessageWithin]
      refine (Timely.lift _ _).bind Read.beginObject_consumes fun _ => ?_
      refine Timely.bind ?_ (readMember_consumes hn id) fun message => ?_
      · refine (Timely.lift _ _).bind (readType_consumes id) fun type => ?_
        cases type with
        | none => exact .pure _ _
        | some type =>
            simp only [map_eq_pure_bind]
            exact (readFields_timely hn hnested (by omega) type).bind (readFields_consumes hn type)
              fun _ => .pure _ _
      · exact ((Clocked.endObject_timely (clock + 1)).mono (by omega)).bind
          (Read.endObject_consumes.mono (Nat.zero_le _)) fun _ => .pure _ _

/-- Reading a message is in time if the clock exceeds the bytes that are left. -/
theorem readMessageWithin_timely (clock : Nat) (id : MessageId) :
    Timely clock (c.readMessageWithin clock id) (c.readMessage id) := fun r hr => by
  rw [readMessage_eq hr]
  exact readNested_timely (Nat.le_refl _) (Nat.le_refl _) id r hr

end Missive.Catalog
