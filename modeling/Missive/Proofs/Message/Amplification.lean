import Mathlib
import Missive.Example
import Missive.Proofs.Message.Clock
import Missive.Proofs.Message.Framing

/-!
# Missive.Proofs.Message.Amplification

Payloads do not grow when they are read.

`Value.parts` counts the elements of lists and the entries of maps in a value, at every depth.
`Pays credit weight p` says that `p`, when it succeeds, has read a byte for each unit by which the
weight of its result exceeds the credit.  Every element and every entry is paid for in this way,
whatever count its array claims (`Catalog.readMessage_pays`).
-/

namespace Missive

open Wire

/-! ## counting -/

mutual

/-- The number of elements of lists and of entries of maps in a value, at every depth. -/
def Value.parts : Value → Nat
  | .message _ fields => partsOfAll fields
  | .list items => items.length + partsOfAll items
  | .map entries => entries.length + partsOfEntries entries
  | _ => 0

def Value.partsOfAll : List Value → Nat
  | [] => 0
  | value :: values => parts value + partsOfAll values

def Value.partsOfEntries : List (Key × Value) → Nat
  | [] => 0
  | (_, value) :: entries => parts value + partsOfEntries entries

end

/-- The number of elements of lists and of entries of maps in a message, at every depth. -/
def Message.parts (message : Message) : Nat := Value.partsOfAll message.fields

namespace Value

/-- The parts of a value that may be missing. -/
def partsOf (value : Option Value) : Nat := value.elim 0 parts

theorem partsOfAll_append (values others : List Value) :
    partsOfAll (values ++ others) = partsOfAll values + partsOfAll others := by
  induction values with
  | nil => simp [partsOfAll]
  | cons value values ih => simp only [List.cons_append, partsOfAll, ih]; omega

theorem partsOfEntries_append (entries others : List (Key × Value)) :
    partsOfEntries (entries ++ others) = partsOfEntries entries + partsOfEntries others := by
  induction entries with
  | nil => simp [partsOfEntries]
  | cons entry entries ih => simp only [List.cons_append, partsOfEntries, ih]; omega

theorem partsOfAll_set_le (values : List Value) (i : Nat) (value : Value) :
    partsOfAll (values.set i value) ≤ partsOfAll values + value.parts := by
  induction values generalizing i with
  | nil => simp [partsOfAll]
  | cons first values ih =>
      cases i with
      | zero => simp only [List.set_cons_zero, partsOfAll]; omega
      | succ i =>
          have := ih i
          simp only [List.set_cons_succ, partsOfAll]
          omega

/-- Another element of a list, if there is one. -/
theorem parts_list_append (items : List Value) (value : Option Value) :
    (list (items ++ value.toList)).parts ≤ (list items).parts + (partsOf value + 1) := by
  cases value <;> simp [parts, partsOfAll, partsOfAll_append, partsOf]
  omega

end Value

theorem ValuePlan.parts_initial (plan : ValuePlan) : plan.initial.parts = 0 := by
  cases plan <;> rfl

theorem FieldPlan.parts_initial (plan : FieldPlan) : plan.initial.parts = 0 := by
  cases plan with
  | single value => exact value.parts_initial
  | repeated element => rfl
  | map key value => rfl

/-! ## paying -/

/-- A step that succeeds has read a byte for each unit by which the weight of its result exceeds a
credit. -/
def Wire.Pays (credit : Nat) (weight : α → Nat) (p : Read α) : Prop :=
  ∀ r a r', p r = .ok a r' → weight a + r'.rest.length ≤ credit + r.rest.length

namespace Wire.Pays

theorem of_consumes {p : Read α} (hp : Consumes n p) (credit : Nat) :
    Pays credit (fun _ => credit + n) p := by
  intro r a r' h
  have := hp r a r' h
  dsimp only
  omega

theorem pure {weight : α → Nat} (h : weight a ≤ credit) :
    Pays credit weight (Pure.pure a : Read α) := by
  intro r b r' hb
  cases hb
  omega

theorem throw (e : ReadError) (credit : Nat) (weight : α → Nat) :
    Pays credit weight (MonadExcept.throw e : Read α) := by
  intro r b r' h
  contradiction

/-- What is paid for before stays paid. -/
theorem frame {weight : α → Nat} {p : Read α} (hp : Pays credit weight p) (n : Nat) :
    Pays (n + credit) (fun a => n + weight a) p := by
  intro r a r' h
  have := hp r a r' h
  dsimp only
  omega

theorem bind {weight : α → Nat} {weight' : β → Nat} {p : Read α} {f : α → Read β}
    (hp : Pays credit weight p) (hf : ∀ a, Pays (weight a) weight' (f a)) :
    Pays credit weight' (p >>= f) := by
  intro r b r'' h
  obtain ⟨a, r', h₁, h₂⟩ := bind_eq_ok h
  have hm := hp r a r' h₁
  have hn := hf a r' b r'' h₂
  omega

theorem repeatNext {weight : α → Nat} {step : α → Read α}
    (hs : ∀ a, Pays (weight a) weight (step a)) (fuel : Nat) (a : α) :
    Pays (weight a) weight (Missive.repeatNext Read.hasNext step fuel a) := by
  induction fuel generalizing a with
  | zero => exact .pure (Nat.le_refl _)
  | succ fuel ih =>
      refine (of_consumes Read.hasNext_consumes (weight a)).bind fun more => ?_
      cases more with
      | true => exact (hs a).bind ih
      | false => exact .pure (Nat.le_refl _)

/-- A loop pays if its steps do. -/
theorem whileNext {step : α → Read α} (weight : α → Nat)
    (hs : ∀ a, Pays (weight a) weight (step a)) (ha : weight a ≤ credit) :
    Pays credit weight (Read.whileNext step a) := fun r b r' h =>
  Nat.le_trans (repeatNext hs _ a r b r' h) (Nat.add_le_add_right ha _)

end Wire.Pays

namespace Catalog

variable {c : Catalog} {nested : NestedRead}

/-- An entry is one part more, besides the parts of its value. -/
theorem parts_addEntry (h : c.addEntry property key value entry entries = .ok entries') :
    (Value.map entries').parts ≤ (Value.map entries).parts + (Value.partsOf entry.2 + 1) := by
  have hvalue : (entry.2.getD value.initial).parts = Value.partsOf entry.2 := by
    cases entry.2 with
    | none => exact value.parts_initial
    | some v => rfl
  rw [← hvalue]
  unfold addEntry at h
  dsimp only at h
  split at h
  · cases h
    omega
  · unfold putEntry Entries.put? at h
    split at h
    · next hput =>
        cases h
        split at hput
        · contradiction
        · cases hput
          simp only [Value.parts, Value.partsOfEntries, Value.partsOfEntries_append,
            List.length_append, List.length_singleton]
          omega
    · contradiction

theorem parts_new (c : Catalog) (id : MessageId) : (c.new id).parts = 0 := by
  unfold Message.parts new
  induction c.slots id with
  | nil => rfl
  | cons slot slots ih =>
      rw [List.map_cons, Value.partsOfAll, slot.plan.parts_initial]
      simpa using ih

/-- An array, up to its end. -/
theorem readArray_pays {step : α → Read α} {finish : α → Value}
    (hs : ∀ a, Pays (finish a).parts (fun b => (finish b).parts) (step a)) (a : α)
    (ha : (finish a).parts ≤ 0) :
    Pays 0 Value.parts (do
      Read.beginArray
      let b ← Read.whileNext step a
      Read.endArray
      return finish b) := by
  have h0 : (0 : Nat) ≤ 1 := Nat.zero_le _
  refine (Pays.of_consumes (Read.beginArray_consumes.mono h0) 0).bind fun _ => ?_
  refine (Pays.whileNext _ hs ha).bind fun b => ?_
  exact (Pays.of_consumes (Read.endArray_consumes.mono h0) _).bind fun _ => .pure (Nat.le_refl _)

section

variable (hn : ∀ id, Pays 0 (fun message => message.elim 0 Message.parts + 1) (nested id))

include hn

/-- A value takes a byte more than it has parts. -/
theorem readValue_pays (plan : ValuePlan) :
    Pays 0 (fun value => Value.partsOf value + 1) (c.readValue nested plan) := by
  cases plan with
  | primitive p => exact (Pays.of_consumes p.read_consumes 0).bind fun s => .pure (by rfl)
  | enumeration id => exact (Pays.of_consumes Read.int_consumes 0).bind fun n => .pure (by rfl)
  | message id isAbstract =>
      refine (hn id).bind fun message => .pure ?_
      cases message with
      | none => exact Nat.le_refl _
      | some message => exact Nat.le_refl _

/-- An entry of a map takes a byte more than its value has parts. -/
theorem readEntryFields_pays (key value : ValuePlan) :
    Pays 0 (fun entry => Value.partsOf entry.2 + 1) (c.readEntryFields nested key value) := by
  have h0 : (0 : Nat) ≤ 1 := Nat.zero_le _
  refine (Pays.of_consumes Read.beginObject_consumes 0).bind fun _ => ?_
  refine (Pays.whileNext (fun entry : Option Key × Option Value => Value.partsOf entry.2)
    (fun entry => ?_) (Nat.le_refl _)).bind fun entry => ?_
  · refine (Pays.of_consumes (Read.nextName_consumes.mono h0) _).bind fun tag => ?_
    split
    · exact ((readValue_pays hn key).frame _).bind fun k => .pure (by dsimp only; omega)
    · split
      · -- a value that was there before is paid for, but is no longer needed
        exact ((readValue_pays hn value).frame _).bind fun v => .pure (by dsimp only; omega)
      · exact (Pays.of_consumes (Read.skipValue_consumes.mono h0) _).bind fun _ =>
          .pure (Nat.le_refl _)
  · exact (Pays.of_consumes Read.endObject_consumes _).bind fun _ => .pure (Nat.le_refl _)

theorem readField_pays (slot : Slot) : Pays 0 Value.parts (c.readField nested slot) := by
  unfold readField
  cases slot.plan with
  | single value =>
      refine (readValue_pays hn value).bind fun v => .pure ?_
      cases v with
      | none => exact Nat.zero_le _
      | some v => exact Nat.le_succ _
  | repeated element =>
      refine readArray_pays (fun items => ?_) [] (Nat.le_refl _)
      exact ((readValue_pays hn element).frame _).bind fun v =>
        .pure (Value.parts_list_append items v)
  | map key value =>
      refine readArray_pays (fun entries => ?_) [] (Nat.le_refl _)
      refine ((readEntryFields_pays hn key value).frame _).bind fun entry => ?_
      cases hadd : c.addEntry slot.key key value entry entries with
      | ok entries' => exact .pure (parts_addEntry hadd)
      | error e => exact .throw e _ _

theorem readFields_pays (id : MessageId) : Pays 0 Message.parts (c.readFields nested id) := by
  have h0 : (0 : Nat) ≤ 1 := Nat.zero_le _
  refine (Pays.whileNext Value.partsOfAll (fun fields => ?_) (c.parts_new id).le).bind
    fun fields => .pure (Nat.le_refl _)
  refine (Pays.of_consumes (Read.nextName_consumes.mono h0) _).bind fun tag => ?_
  cases (c.slots id).find? (·.tag == some tag) with
  | some slot =>
      exact ((readField_pays hn slot).frame _).bind fun v =>
        .pure (Value.partsOfAll_set_le fields slot.position v)
  | none =>
      exact (Pays.of_consumes (Read.skipValue_consumes.mono h0) _).bind fun _ =>
        .pure (Nat.le_refl _)

end

/-- A message takes a byte more than it has parts. -/
theorem readNested_pays (depth : Nat) (id : MessageId) :
    Pays 0 (fun message => message.elim 0 Message.parts + 1) (c.readNested depth id) := by
  induction depth generalizing id with
  | zero => exact .throw _ _ _
  | succ depth ih =>
      have h0 : (0 : Nat) ≤ 1 := Nat.zero_le _
      rw [readNested_succ]
      refine (Pays.of_consumes Read.beginObject_consumes 0).bind fun _ => ?_
      have hmember : Pays 0 (fun message => message.elim 0 Message.parts)
          (c.readMember (c.readNested depth) id) := by
        refine (Pays.of_consumes (readType_consumes id) 0).bind fun type => ?_
        cases type with
        | none => exact .pure (Nat.le_refl _)
        | some type =>
            simp only [map_eq_pure_bind]
            exact (readFields_pays ih type).bind fun message => .pure (Nat.le_refl _)
      refine hmember.bind fun message => ?_
      exact (Pays.of_consumes Read.endObject_consumes _).bind fun _ => .pure (Nat.le_refl _)

theorem readMessage_pays (id : MessageId) :
    Pays 0 (fun message => message.elim 0 Message.parts + 1) (c.readMessage id) :=
  fun r message r' h => readNested_pays _ id r message r' h

/-- **Reading ends and does not amplify**: on any bytes, reading a message and skipping values end
in the time of a clock that exceeds the bytes that are left, as they do by their own bounds; and a
message that is read has no more elements and entries, counted at every depth, than bytes were read
for it. -/
theorem readMessage_ends (c : Catalog) (id : MessageId) (r : Reader) :
    (∀ clock, r.rest.length < clock →
      c.readMessageWithin clock id r = some (c.readMessage id r) ∧
      Clocked.skipValue clock r = some (Read.skipValue r) ∧
      Clocked.skipRemaining clock r = some (Read.skipRemaining r) ∧
      Clocked.endObject clock r = some (Read.endObject r) ∧
      Clocked.endArray clock r = some (Read.endArray r)) ∧
    ∀ message r', c.readMessage id r = .ok (some message) r' →
      message.parts + r'.rest.length ≤ r.rest.length := by
  refine ⟨fun clock h => ⟨?_, ?_, ?_, ?_, ?_⟩, fun message r' hread => ?_⟩
  · exact readMessageWithin_timely clock id r h
  · exact Clocked.skipValue_timely clock r h
  · exact Clocked.skipRemaining_timely clock r h
  · exact Clocked.endObject_timely clock r h
  · exact Clocked.endArray_timely clock r h
  · have hpays := readMessage_pays (c := c) id r (some message) r' hread
    simp only [Option.elim_some, Nat.zero_add] at hpays
    omega

/-- A holder of a list that claims as many elements as can be claimed, and has two. -/
def boastfulHolder : Reader where
  rest := [0x2c, 1, 0xff, 0xff, 0xff, 0xff, 0xff, 0xff, 0xff, 0xff, 0xff, 1, 5, 6]

/-- A holder of a list of two elements and of a map of one entry, and a byte behind it. -/
def modestHolder : Reader where
  rest := [0x2c, 1, 2, 5, 6, 0, 0x3c, 11, 1, 0x19, 1, 0x61, 0x21, 7, 0, 0, 0, 9]

/-- Whether the bytes end before a message does. -/
def endsEarly : EStateM.Result ReadError Reader (Option Message) → Bool
  | .error .unexpectedEnd _ => true
  | _ => false

theorem exists_of_endsEarly (h : endsEarly x = true) : ∃ r, x = .error .unexpectedEnd r := by
  unfold endsEarly at h
  split at h
  · exact ⟨_, rfl⟩
  · contradiction

/-- Whether a message of a number of parts is read. -/
def hasParts (n : Nat) : EStateM.Result ReadError Reader (Option Message) → Bool
  | .ok (some message) _ => message.parts == n
  | _ => false

theorem exists_of_hasParts (h : hasParts n x = true) :
    ∃ message r, x = .ok (some message) r ∧ message.parts = n := by
  unfold hasParts at h
  split at h
  · exact ⟨_, _, rfl, by simpa using h⟩
  · contradiction

theorem readMessage_ends_holders : ∃ m c r message r',
    Model.ofSchema Example.scenarios = .ok m ∧ ofModel m = .ok c ∧
    c.readMessageWithin 15 3 boastfulHolder = some (.error .unexpectedEnd r) ∧
    c.readMessage 3 modestHolder = .ok (some message) r' ∧ message.parts = 3 ∧
    message.parts + r'.rest.length ≤ modestHolder.rest.length := by
  have hcatalog : (ofSchema? Example.scenarios).any (fun c =>
      endsEarly (c.readMessage 3 boastfulHolder) && hasParts 3 (c.readMessage 3 modestHolder)) =
        true := by
    decide +kernel
  obtain ⟨m, c, hm, hc, hfacts⟩ := exists_of_any hcatalog
  obtain ⟨hearly, hparts⟩ := (Bool.and_eq_true _ _).mp hfacts
  obtain ⟨r, hr⟩ := exists_of_endsEarly hearly
  obtain ⟨message, r', hread, hthree⟩ := exists_of_hasParts hparts
  have hboast := ((readMessage_ends c 3 boastfulHolder).1 15 (by decide)).1
  exact ⟨m, c, r, message, r', hm, hc, hboast.trans (by rw [hr]), hread, hthree,
    (readMessage_ends c 3 modestHolder).2 message r' hread⟩

end Catalog

end Missive
