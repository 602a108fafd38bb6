import Missive.Message.Property
import Missive.Proofs.Message.Catalog
import Missive.Proofs.Message.Fits

/-!
# Missive.Proofs.Message.Property

Getting and setting the properties of a message.

What is set is got (`Catalog.get_set`), to set what was got changes nothing (`Catalog.set_get`), and
setting one property leaves the others as they are (`Catalog.get_set_other`).  A property can be set
to the dynamic values that suit it, and to no others (`Catalog.exists_set_iff`).
-/

namespace Missive

/-! ## dynamic values -/

namespace PropertyValue

/-- The dynamic values that a property takes: a scalar of its type as a scalar, and anything else
together with exactly the type that is stored, where a message may be missing. -/
inductive Suits : FieldPlan → PropertyValue → Prop where
  | scalar {p : Primitive} {s : Scalar} (h : s.type = p.scalarType) :
      Suits (.single (.primitive p)) (.scalar s)
  | enumeration (id : EnumId) (v : Value) :
      Suits (.single (.enumeration id)) (.other (.enumeration id) v)
  | message (id : MessageId) (isAbstract : Bool) (v : Value) :
      Suits (.single (.message id isAbstract)) (.other (.message id) v)
  | list (element : ValuePlan) (v : Value) :
      Suits (.repeated element) (.other (.list element.shape) v)
  | map (key value : ValuePlan) (v : Value) :
      Suits (.map key value) (.other (.map key.shape value.shape) v)

/-- A value with a shape is a value of that shape. -/
def IsTyped (c : Catalog) : PropertyValue → Prop
  | .scalar s => s.IsStorable
  | .other shape v => ∀ plan : FieldPlan, plan.shape = shape → c.Fits plan v

variable {c : Catalog} {plan : FieldPlan} {d : PropertyValue} {v : Value} {property : String}

theorem cast_scalar_eq_ok (h : (scalar s).cast expected property = .ok v) :
    expected.scalarType? = some s.type ∧ v = .scalar s := by
  unfold cast at h
  cases htype : expected.scalarType? with
  | none => simp [htype] at h
  | some type =>
      by_cases hs : s.type = type
      · simp_all
      · simp [htype, hs] at h

theorem cast_other_eq_ok (h : (other shape w).cast expected property = .ok v) :
    expected.scalarType? = none ∧ shape = expected ∧ v = w := by
  unfold cast at h
  cases htype : expected.scalarType? with
  | some type => simp [htype] at h
  | none =>
      by_cases hs : shape = expected
      · simp_all
      · simp [htype, hs] at h

/-- A cast that fails names the property and the scalar that it holds. -/
theorem cast_eq_error (h : d.cast expected property = .error e) :
    e = .typeMismatch property expected.scalarType? := by
  unfold cast at h
  dsimp only at h
  split at h
  · split at h
    · contradiction
    · exact (Except.error.inj h).symm
  · split at h
    · contradiction
    · exact (Except.error.inj h).symm
  · exact (Except.error.inj h).symm

/-- A cast succeeds on the values that suit the property, and gives what they hold. -/
theorem cast_eq_ok_iff : d.cast plan.shape property = .ok v ↔ Suits plan d ∧ d.value = v := by
  constructor
  · intro h
    cases d with
    | scalar s =>
        obtain ⟨htype, rfl⟩ := cast_scalar_eq_ok h
        refine ⟨?_, rfl⟩
        match plan with
        | .single (.primitive p) => exact .scalar (Option.some.inj htype).symm
    | other shape w =>
        obtain ⟨htype, rfl, rfl⟩ := cast_other_eq_ok h
        refine ⟨?_, rfl⟩
        match plan with
        | .single (.enumeration id) => exact .enumeration id v
        | .single (.message id isAbstract) => exact .message id isAbstract v
        | .repeated element => exact .list element v
        | .map key value => exact .map key value v
  · rintro ⟨h, rfl⟩
    cases h <;> simp_all [cast, FieldPlan.shape, ValuePlan.shape, Shape.scalarType?, value]

/-- What a property holds suits it. -/
theorem suits_ofValue (h : c.Fits plan v) :
    Suits plan (.ofValue plan.shape v) ∧ (ofValue plan.shape v).value = v := by
  cases h with
  | scalar htype hsize => exact ⟨.scalar htype, rfl⟩
  | @constant id index h => exact ⟨.enumeration id _, rfl⟩
  | absent id isAbstract | @message id _ isAbstract => exact ⟨.message id isAbstract _, rfl⟩
  | @list element => exact ⟨.list element _, rfl⟩
  | @map key value => exact ⟨.map key value _, rfl⟩

/-- A typed value that suits a property can be held by it, and is got from it. -/
theorem fits_of_suits (htyped : d.IsTyped c) (h : Suits plan d) :
    c.Fits plan d.value ∧ ofValue plan.shape d.value = d := by
  cases h with
  | scalar h => exact ⟨.scalar h htyped, rfl⟩
  | enumeration id v =>
      have hfits := htyped (.single (.enumeration id)) rfl
      cases hfits with
      | constant h => exact ⟨.constant h, rfl⟩
  | message id isAbstract v =>
      have hfits := htyped (.single (.message id isAbstract)) rfl
      refine ⟨hfits, ?_⟩
      cases hfits <;> rfl
  | list element v =>
      have hfits := htyped (.repeated element) rfl
      refine ⟨hfits, ?_⟩
      cases hfits
      rfl
  | map key value v =>
      have hfits := htyped (.map key value) rfl
      refine ⟨hfits, ?_⟩
      cases hfits
      rfl

end PropertyValue

/-! ## properties -/

namespace Catalog

variable {c : Catalog} {id : MessageId} {message message' : Message} {k k' : String} {slot : Slot}
  {d : PropertyValue}

theorem of_property? (h : c.property? id k = some slot) : slot ∈ c.slots id ∧ slot.key = k :=
  ⟨List.mem_of_find?_eq_some h, by simpa using List.find?_some h⟩

theorem property?_eq_none_iff : c.property? id k = none ↔ k ∉ (c.slots id).map (·.key) := by
  simp [property?]

theorem exists_property (h : k ∈ c.properties message) :
    ∃ slot, c.property? message.type k = some slot :=
  Option.ne_none_iff_exists'.1 (mt property?_eq_none_iff.1 (not_not_intro h))

/-- The names of the properties are the keys of the fields, those of the most general ancestor
first. -/
theorem properties_eq (hc : c.Lawful) (message : Message) :
    c.properties message = (c.model.ancestors message.type ++ [message.type]).flatMap fun owner =>
      (c.model.message owner).fields.map (·.key) := by
  have hfields := congrArg (List.map fun entry => entry.2.key) (hc.fields message.type)
  rw [List.map_map, Model.allFields, List.map_flatMap] at hfields
  simpa [properties, Slot.key, Function.comp_def] using hfields

/-- Every slot has a value that fits it. -/
theorem exists_slot_value (hc : c.Lawful) (hfits : c.FitsMessage id message)
    (hslot : slot ∈ c.slots message.type) :
    ∃ v, message.fields[slot.position]? = some v ∧ c.Fits slot.plan v := by
  have hi := hc.getElem?_position hslot
  obtain ⟨hlt, -⟩ := List.getElem?_eq_some_iff.1 hi
  have hlt' : slot.position < message.fields.length := hfits.length ▸ hlt
  refine ⟨message.fields[slot.position], List.getElem?_eq_getElem hlt', ?_⟩
  refine hfits.fields (slot, _) (List.mem_iff_getElem?.2 ⟨slot.position, ?_⟩)
  rw [List.getElem?_zip_eq_some]
  exact ⟨hi, List.getElem?_eq_getElem hlt'⟩

theorem get_of_property (h : c.property? message.type k = some slot)
    (hv : message.fields[slot.position]? = some v) :
    c.get message k = .ok (.ofValue slot.plan.shape v) := by
  simp only [Catalog.get, h, List.getD_eq_getElem?_getD, hv, Option.getD_some]

theorem set_of_property (h : c.property? message.type k = some slot) (d : PropertyValue) :
    c.set message k d = (d.cast slot.plan.shape slot.key).map fun v =>
      { message with fields := message.fields.set slot.position v } := by
  simp only [Catalog.set, Catalog.modify, h]
  cases d.cast slot.plan.shape slot.key <;> rfl

/-- The properties that are not known are those that are not listed. -/
theorem get_eq_unknown_iff :
    c.get message k = .error (.unknownProperty k) ↔ k ∉ c.properties message := by
  rw [properties, ← property?_eq_none_iff]
  cases h : c.property? message.type k <;> simp [Catalog.get, h]

theorem set_eq_unknown_iff (d : PropertyValue) :
    c.set message k d = .error (.unknownProperty k) ↔ k ∉ c.properties message := by
  rw [properties, ← property?_eq_none_iff]
  cases h : c.property? message.type k with
  | none => simp [Catalog.set, Catalog.modify, h]
  | some slot =>
      rw [set_of_property h]
      cases hcast : d.cast slot.plan.shape slot.key with
      | ok v => simp [Except.map]
      | error e => simp [Except.map, PropertyValue.cast_eq_error hcast]

/-- Setting what was got changes nothing. -/
theorem set_get (hc : c.Lawful) (hfits : c.FitsMessage id message)
    (h : c.property? message.type k = some slot) :
    ∃ d, c.get message k = .ok d ∧ c.set message k d = .ok message := by
  obtain ⟨v, hv, hplan⟩ := exists_slot_value hc hfits (of_property? h).1
  refine ⟨_, get_of_property h hv, ?_⟩
  have hcast : (PropertyValue.ofValue slot.plan.shape v).cast slot.plan.shape slot.key = .ok v :=
    PropertyValue.cast_eq_ok_iff.2 (PropertyValue.suits_ofValue hplan)
  have hsame : message.fields.set slot.position v = message.fields := by
    obtain ⟨hlt, rfl⟩ := List.getElem?_eq_some_iff.1 hv
    exact List.set_getElem_self hlt
  rw [set_of_property h, hcast, Except.map, hsame]

/-- A property takes the values that suit it. -/
theorem exists_set_iff (h : c.property? message.type k = some slot) (d : PropertyValue) :
    (∃ message', c.set message k d = .ok message') ↔ d.Suits slot.plan := by
  rw [set_of_property h]
  constructor
  · rintro ⟨message', hset⟩
    cases hcast : d.cast slot.plan.shape slot.key with
    | error e => rw [hcast] at hset; contradiction
    | ok v => exact (PropertyValue.cast_eq_ok_iff.1 hcast).1
  · intro hsuits
    rw [PropertyValue.cast_eq_ok_iff.2 ⟨hsuits, rfl⟩]
    exact ⟨_, rfl⟩

/-- What comes of setting a property: its slot holds the value, which suits it. -/
theorem of_set (hset : c.set message k d = .ok message') :
    ∃ slot, c.property? message.type k = some slot ∧ d.Suits slot.plan ∧
      message' = { message with fields := message.fields.set slot.position d.value } := by
  cases h : c.property? message.type k with
  | none => simp [Catalog.set, Catalog.modify, h] at hset
  | some slot =>
      rw [set_of_property h] at hset
      cases hcast : d.cast slot.plan.shape slot.key with
      | error e => rw [hcast] at hset; contradiction
      | ok v =>
          obtain ⟨hsuits, rfl⟩ := PropertyValue.cast_eq_ok_iff.1 hcast
          rw [hcast] at hset
          cases hset
          exact ⟨slot, rfl, hsuits, rfl⟩

/-- What is set is got. -/
theorem get_set (hc : c.Lawful) (hfits : c.FitsMessage id message) (htyped : d.IsTyped c)
    (hset : c.set message k d = .ok message') : c.get message' k = .ok d := by
  obtain ⟨slot, h, hsuits, rfl⟩ := of_set hset
  obtain ⟨v, hv, -⟩ := exists_slot_value hc hfits (of_property? h).1
  obtain ⟨hlt, -⟩ := List.getElem?_eq_some_iff.1 hv
  have hstored : (message.fields.set slot.position d.value)[slot.position]? = some d.value :=
    List.getElem?_set_self hlt
  simp only [Catalog.get, h, List.getD_eq_getElem?_getD, hstored, Option.getD_some,
    (PropertyValue.fits_of_suits htyped hsuits).2]

/-- Setting a property leaves the others as they are. -/
theorem get_set_other (hc : c.Lawful) (hset : c.set message k d = .ok message') (hne : k' ≠ k) :
    c.get message' k' = c.get message k' := by
  obtain ⟨slot, h, -, rfl⟩ := of_set hset
  cases h' : c.property? message.type k' with
  | none => simp only [Catalog.get, h']
  | some slot' =>
      have hposition : slot.position ≠ slot'.position := by
        intro heq
        obtain ⟨hslot, rfl⟩ := of_property? h
        obtain ⟨hslot', rfl⟩ := of_property? h'
        exact hne (congrArg Slot.key (hc.eq_of_position hslot' hslot heq.symm))
      simp only [Catalog.get, h', List.getD_eq_getElem?_getD, List.getElem?_set_ne hposition]

/-- A message that a property was set of is still a message of its type. -/
theorem fitsMessage_set (hc : c.Lawful) (hfits : c.FitsMessage id message) (htyped : d.IsTyped c)
    (hset : c.set message k d = .ok message') : c.FitsMessage id message' := by
  obtain ⟨slot, h, hsuits, rfl⟩ := of_set hset
  obtain ⟨hslot, -⟩ := of_property? h
  refine ⟨hfits.member, by simpa using hfits.length, fun entry hentry => ?_⟩
  obtain ⟨i, hi⟩ := List.mem_iff_getElem?.1 hentry
  obtain ⟨hentrySlot, hvalue⟩ := List.getElem?_zip_eq_some.1 hi
  by_cases heq : slot.position = i
  · subst heq
    obtain ⟨hlt, hstored⟩ := List.getElem?_eq_some_iff.1 hvalue
    rw [hc.getElem?_position hslot] at hentrySlot
    rw [← Option.some.inj hentrySlot, ← hstored, List.getElem_set_self]
    exact (PropertyValue.fits_of_suits htyped hsuits).1
  · rw [List.getElem?_set_ne heq] at hvalue
    exact hfits.fields entry
      (List.mem_iff_getElem?.2 ⟨i, List.getElem?_zip_eq_some.2 ⟨hentrySlot, hvalue⟩⟩)

end Catalog

end Missive
