import Missive.Message.Binary
import Missive.Proofs.Wire.Progress

/-!
# Missive.Proofs.Message.Progress

How far the readers of messages go, on any bytes.

Every value takes at least one byte.  A message is therefore read in the same way whatever bound its
nesting is given, once the bound exceeds the bytes that are left (`Catalog.readMessage_eq`).
-/

namespace Missive

open Wire

namespace Wire.Read

theorem endObject_consumes : Consumes 1 endObject := by
  intro r u r' h
  unfold endObject at h
  rw [get_bind] at h
  match hf : r.frames with
  | .object :: frames =>
      simp only [hf] at h
      exact closeObject_consumes (skipValue_consumes.mono (Nat.zero_le _)) r u r' h
  | [] | .array .. :: _ => simp only [hf] at h; contradiction

theorem endArray_consumes : Consumes 1 endArray := by
  intro r u r' h
  unfold endArray at h
  rw [get_bind] at h
  match hf : r.frames with
  | .array .. :: frames =>
      simp only [hf] at h
      exact closeArray_consumes (skipValue_consumes.mono (Nat.zero_le _)) r u r' h
  | [] | .object :: _ => simp only [hf] at h; contradiction

/-- A value of a kind takes the bytes that its content takes. -/
theorem expect_bind_consumes {body : Read β} {f : β → Read α} (hb : Consumes 1 body)
    (hf : ∀ b, Consumes 0 (f b)) : Consumes 1 (expect kind >>= fun _ => body >>= f) :=
  (expect_consumes kind).after fun _ => hb.bind hf

theorem uint_consumes : Consumes 1 uint := expect_bind_consumes varint_consumes fun _ => .pure _

theorem int_consumes : Consumes 1 int := expect_bind_consumes varint_consumes fun _ => .pure _

theorem typeId_consumes : Consumes 1 typeId := by
  refine hasNext_consumes.after fun more => ?_
  split
  · refine nextName_consumes.bind fun tag => ?_
    split
    · exact uint_consumes.mono (Nat.zero_le _)
    · exact .throw _ 0
  · exact .throw _ 1

end Wire.Read

theorem Wire.Consumes.map {p : Read α} (g : α → β) (hp : Consumes n p) : Consumes n (g <$> p) := by
  rw [map_eq_pure_bind]
  exact hp.bind fun a => .pure (g a)

theorem Primitive.read_consumes (p : Primitive) : Consumes 1 p.read := by
  have hfixed : ∀ count, 0 < count → Consumes 1 (Read.fixed count) := fun count h =>
    (Read.fixed_consumes count).mono h
  cases p with
  | bool | int32 | uint32 | sint32 | int64 | sint64 =>
      exact .map _ (Read.expect_bind_consumes Read.varint_consumes fun n => .pure _)
  | fixed32 | sfixed32 | float =>
      exact .map _ (Read.expect_bind_consumes (hfixed 4 (by omega)) fun n => .pure _)
  | fixed64 | sfixed64 | double =>
      exact .map _ (Read.expect_bind_consumes (hfixed 8 (by omega)) fun n => .pure _)
  | uint64 => exact .map _ ((Read.expect_consumes _).after fun _ => Read.varint_consumes)
  | bytes => exact .map _ ((Read.expect_consumes _).after fun _ => Read.lengthPrefixed_consumes)
  | string =>
      refine .map _ (Read.expect_bind_consumes Read.lengthPrefixed_consumes fun bs => ?_)
      split
      · exact .pure _
      · exact .throw _ 0

namespace Catalog

variable {c : Catalog} {nested nested' : NestedRead} {id : MessageId}

/-! ## bytes read -/

theorem readValue_consumes (hn : ∀ id, Consumes 1 (nested id)) (plan : ValuePlan) :
    Consumes 1 (c.readValue nested plan) := by
  cases plan with
  | primitive p => exact p.read_consumes.bind fun s => .pure _
  | enumeration id => exact Read.int_consumes.bind fun n => .pure _
  | message id isAbstract => exact (hn id).bind fun m => .pure _

/-- A field of an entry of a map. -/
theorem entryStep_consumes (hn : ∀ id, Consumes 1 (nested id)) (key value : ValuePlan)
    (entry : Option Key × Option Value) (tag : UInt32) :
    Consumes 0 (if tag == keyTag then do
        return ((← c.readValue nested key).bind Key.ofValue?, entry.2)
      else if tag == valueTag then do return (entry.1, ← c.readValue nested value)
      else do Read.skipValue; return (entry.1, entry.2)) := by
  have h0 : (0 : Nat) ≤ 1 := Nat.zero_le _
  split
  · exact ((readValue_consumes hn key).mono h0).bind fun k => .pure _
  · split
    · exact ((readValue_consumes hn value).mono h0).bind fun v => .pure _
    · exact (Read.skipValue_consumes.mono h0).bind fun _ => .pure _

theorem readEntryFields_consumes (hn : ∀ id, Consumes 1 (nested id)) (key value : ValuePlan) :
    Consumes 1 (c.readEntryFields nested key value) := by
  refine Read.beginObject_consumes.after fun _ => ?_
  refine (Read.whileNext_consumes (fun entry => ?_) _).after fun entry =>
    Read.endObject_consumes.bind fun _ => .pure _
  exact (Read.nextName_consumes.mono (Nat.zero_le _)).bind fun tag =>
    entryStep_consumes hn key value entry tag

/-- An array, up to its end. -/
theorem readArray_consumes {step : α → Read α} {finish : α → Value}
    (hs : ∀ a, Consumes 1 (step a)) (a : α) :
    Consumes 1 (do
      Read.beginArray
      let b ← Read.whileNext step a
      Read.endArray
      return finish b) :=
  have h0 : (0 : Nat) ≤ 1 := Nat.zero_le _
  Read.beginArray_consumes.bind fun _ =>
    (Read.whileNext_consumes (fun a => (hs a).mono h0) a).after fun _ =>
      (Read.endArray_consumes.mono h0).bind fun _ => .pure _

theorem itemStep_consumes (hn : ∀ id, Consumes 1 (nested id)) (element : ValuePlan)
    (items : List Value) :
    Consumes 1 (do return items ++ (← c.readValue nested element).toList) :=
  (readValue_consumes hn element).bind fun _ => .pure _

theorem entriesStep_consumes (hn : ∀ id, Consumes 1 (nested id)) (property : String)
    (key value : ValuePlan) (entries : List (Key × Value)) :
    Consumes 1 (do
      match c.addEntry property key value (← c.readEntryFields nested key value) entries with
      | .ok entries => return entries
      | .error e => throw e) := by
  refine (readEntryFields_consumes hn key value).bind fun entry => ?_
  split
  · exact .pure _
  · exact .throw _ 0

theorem readField_consumes (hn : ∀ id, Consumes 1 (nested id)) (slot : Slot) :
    Consumes 1 (c.readField nested slot) := by
  unfold readField
  split
  · exact (readValue_consumes hn _).bind fun v => .pure _
  · exact readArray_consumes (itemStep_consumes hn _) []
  · exact readArray_consumes (entriesStep_consumes hn _ _ _) []

/-- A field of a message, known or not, after its header. -/
theorem fieldStep_consumes (hn : ∀ id, Consumes 1 (nested id)) (slot : Option Slot)
    (fields : List Value) :
    Consumes 0 (match slot with
      | some slot => do return fields.set slot.position (← c.readField nested slot)
      | none => do Read.skipValue; return fields) := by
  cases slot with
  | some slot => exact ((readField_consumes hn slot).mono (Nat.zero_le _)).bind fun v => .pure _
  | none => exact (Read.skipValue_consumes.mono (Nat.zero_le _)).bind fun _ => .pure _

theorem readFields_consumes (hn : ∀ id, Consumes 1 (nested id)) (id : MessageId) :
    Consumes 0 (c.readFields nested id) := by
  refine (Read.whileNext_consumes (fun fields => ?_) _).bind fun fields => .pure _
  exact (Read.nextName_consumes.mono (Nat.zero_le _)).bind fun tag =>
    fieldStep_consumes hn _ fields

theorem readType_consumes (id : MessageId) : Consumes 0 (c.readType id) := by
  unfold readType
  split
  · exact (Read.typeId_consumes.mono (Nat.zero_le _)).bind fun n => .pure _
  · exact .pure _

/-- What stands between the ends of the object of a message. -/
def readMember (c : Catalog) (nested : NestedRead) (id : MessageId) : Read (Option Message) := do
  match ← c.readType id with
  | some type => some <$> c.readFields nested type
  | none => pure none

theorem readNested_succ (depth : Nat) (id : MessageId) :
    c.readNested (depth + 1) id = do
      Read.beginObject
      let message ← c.readMember (c.readNested depth) id
      Read.endObject
      return message := by
  rw [readNested, readMember]
  refine bind_congr fun _ => ?_
  rw [bind_assoc]
  refine bind_congr fun type => ?_
  cases type <;> simp only [bind_map_left, pure_bind]

theorem readMember_consumes (hn : ∀ id, Consumes 1 (nested id)) (id : MessageId) :
    Consumes 0 (c.readMember nested id) := by
  refine (readType_consumes id).bind fun type => ?_
  cases type with
  | some type => exact .map _ (readFields_consumes hn type)
  | none => exact .pure _

theorem readNested_consumes (depth : Nat) (id : MessageId) :
    Consumes 1 (c.readNested depth id) := by
  induction depth generalizing id with
  | zero => exact .throw _ 1
  | succ depth ih =>
      rw [readNested_succ]
      exact Read.beginObject_consumes.after fun _ => (readMember_consumes ih id).after fun _ =>
        Read.endObject_consumes.bind fun _ => .pure _

/-! ## the bound on the nesting -/

theorem readValue_agree (hn : ∀ id, Consumes 1 (nested id))
    (h : ∀ id, Agree n (nested id) (nested' id)) (plan : ValuePlan) :
    Agree n (c.readValue nested plan) (c.readValue nested' plan) := by
  cases plan with
  | primitive p => exact .refl _ _
  | enumeration id => exact .refl _ _
  | message id isAbstract =>
      exact (h id).bind ((hn id).mono (Nat.zero_le _)) fun m => .refl _ _

theorem readEntryFields_agree (hn : ∀ id, Consumes 1 (nested id))
    (h : ∀ id, Agree n (nested id) (nested' id)) (key value : ValuePlan) :
    Agree n (c.readEntryFields nested key value) (c.readEntryFields nested' key value) := by
  have hstep : ∀ entry : Option Key × Option Value, Consumes 0 (Read.nextName >>= fun tag => _) :=
    fun entry => (Read.nextName_consumes.mono (Nat.zero_le _)).bind fun tag =>
      entryStep_consumes (c := c) hn key value entry tag
  have hvalue : ∀ plan, Consumes 0 (c.readValue nested plan) := fun plan =>
    (readValue_consumes hn plan).mono (Nat.zero_le _)
  refine (Agree.refl _ _).bind Read.beginObject_consumes fun _ => ?_
  refine (Read.whileNext_agree hstep (fun entry => ?_) _).bind
    (Read.whileNext_consumes hstep _) fun _ => .refl _ _
  refine (Agree.refl _ _).bind (Read.nextName_consumes.mono (Nat.zero_le _)) fun tag => ?_
  split
  · exact (readValue_agree hn h key).bind (hvalue key) fun _ => .refl _ _
  · split
    · exact (readValue_agree hn h value).bind (hvalue value) fun _ => .refl _ _
    · exact .refl _ _

theorem readArray_agree {step step' : α → Read α} {finish : α → Value}
    (hs : ∀ a, Consumes 1 (step a)) (h : ∀ a, Agree n (step a) (step' a)) (a : α) :
    Agree n
      (do
        Read.beginArray
        let b ← Read.whileNext step a
        Read.endArray
        return finish b)
      (do
        Read.beginArray
        let b ← Read.whileNext step' a
        Read.endArray
        return finish b) :=
  have hs : ∀ a, Consumes 0 (step a) := fun a => (hs a).mono (Nat.zero_le _)
  (Agree.refl _ _).bind (Read.beginArray_consumes.mono (Nat.zero_le _)) fun _ =>
    (Read.whileNext_agree hs h a).bind (Read.whileNext_consumes hs a) fun _ => .refl _ _

theorem readField_agree (hn : ∀ id, Consumes 1 (nested id))
    (h : ∀ id, Agree n (nested id) (nested' id)) (slot : Slot) :
    Agree n (c.readField nested slot) (c.readField nested' slot) := by
  have h0 : (0 : Nat) ≤ 1 := Nat.zero_le _
  unfold readField
  split
  · exact (readValue_agree hn h _).bind ((readValue_consumes hn _).mono h0) fun _ => .refl _ _
  · refine readArray_agree (itemStep_consumes hn _) (fun items => ?_) []
    exact (readValue_agree hn h _).bind ((readValue_consumes hn _).mono h0) fun _ => .refl _ _
  · refine readArray_agree (entriesStep_consumes hn _ _ _) (fun entries => ?_) []
    exact (readEntryFields_agree hn h _ _).bind ((readEntryFields_consumes hn _ _).mono h0)
      fun _ => .refl _ _

/-- The values of the fields lie after their headers. -/
theorem readFields_agree (hn : ∀ id, Consumes 1 (nested id))
    (h : ∀ id, Agree n (nested id) (nested' id)) (id : MessageId) :
    Agree (n + 1) (c.readFields nested id) (c.readFields nested' id) := by
  have hstep : ∀ fields : List Value, Consumes 0 (Read.nextName >>= fun tag => _) :=
    fun fields => (Read.nextName_consumes.mono (Nat.zero_le _)).bind fun tag =>
      fieldStep_consumes (c := c) hn ((c.slots id).find? (·.tag == some tag)) fields
  refine (Read.whileNext_agree hstep (fun fields => ?_) _).bind
    (Read.whileNext_consumes hstep _) fun _ => .refl _ _
  refine .after Read.nextName_consumes fun tag => ?_
  cases (c.slots id).find? (·.tag == some tag) with
  | some slot =>
      exact (readField_agree hn h slot).bind ((readField_consumes hn slot).mono (Nat.zero_le _))
        fun _ => .refl _ _
  | none => exact .refl _ _

theorem readMember_agree (hn : ∀ id, Consumes 1 (nested id))
    (h : ∀ id, Agree n (nested id) (nested' id)) (id : MessageId) :
    Agree (n + 1) (c.readMember nested id) (c.readMember nested' id) := by
  refine (Agree.refl _ _).bind (readType_consumes id) fun type => ?_
  cases type with
  | none => exact .refl _ _
  | some type =>
      simp only [map_eq_pure_bind]
      exact (readFields_agree hn h type).bind (readFields_consumes hn type) fun _ => .refl _ _

/-- The bound on the nesting does not matter once it exceeds the bytes that are left. -/
theorem readNested_agree (hd : n ≤ depth) (hd' : n ≤ depth') (id : MessageId) :
    Agree n (c.readNested depth id) (c.readNested depth' id) := by
  induction n generalizing depth depth' id with
  | zero => intro r hr; omega
  | succ n ih =>
      obtain ⟨depth, rfl⟩ : ∃ k, depth = k + 1 := ⟨depth - 1, by omega⟩
      obtain ⟨depth', rfl⟩ : ∃ k, depth' = k + 1 := ⟨depth' - 1, by omega⟩
      have hn := readNested_consumes (c := c) depth
      rw [readNested_succ, readNested_succ]
      refine (Agree.refl _ _).bind Read.beginObject_consumes fun _ => ?_
      refine (readMember_agree hn (fun id => ih ?_ ?_ id) id).bind (readMember_consumes hn id)
        fun _ => .refl _ _
      all_goals omega

/-- A message is read by any bound on the nesting that exceeds the bytes that are left. -/
theorem readMessage_eq (hd : r.rest.length < depth) (id : MessageId) :
    c.readMessage id r = c.readNested depth id r :=
  readNested_agree (Nat.le_refl _) hd id r (Nat.lt_succ_self _)

end Catalog

end Missive
