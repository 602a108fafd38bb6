import Missive.Example
import Missive.Proofs.Message.JsonRoundTrip
import Missive.Proofs.Message.Slots

/-!
# Missive.Proofs.Message.JsonProperties

The order of properties does not matter, nor do properties that are not known.

Properties with distinct names go to different slots, so a message is told by the values under the
keys of its type (`Catalog.contentOfJson_congr`).  The bound on nested messages has no part in it:
no value is nested deeper than it weighs (`Catalog.nestedOfJson_eq`).
-/

namespace Missive

open Json

/-! ## parts of a value -/

namespace Json

theorem foldObject_congr {f g : α → String × Json → Except ReadError α} (hv : v.weight ≤ n + 1)
    (h : ∀ property, property.2.weight ≤ n → ∀ a, f a property = g a property) (a : α) :
    foldObject f a v = foldObject g a v := by
  cases v with
  | object members =>
      rw [weight] at hv
      refine Except.foldlM_congr (fun property hproperty => h property ?_) a
      have hlt := weight_lt_members hproperty
      omega
  | null | bool | number | string | array => rfl

theorem foldArray_congr {f g : α → Json → Except ReadError α} (hv : v.weight ≤ n + 1)
    (h : ∀ item : Json, item.weight ≤ n → ∀ a, f a item = g a item) (a : α) :
    foldArray f a v = foldArray g a v := by
  cases v with
  | array items =>
      rw [weight] at hv
      refine Except.foldlM_congr (fun item hitem => h item ?_) a
      have hle := weight_le_items hitem
      omega
  | null | bool | number | string | object => rfl

end Json

namespace Catalog

variable {c : Catalog} {nested nested' : NestedValue} {id : MessageId} {v : Json} {n : Nat}
  {members members' : List (String × Json)}

/-! ## how deep values are nested -/

/-- Two ways to make nested messages agree on the values up to a weight. -/
def AgreeUpTo (n : Nat) (nested nested' : NestedValue) : Prop :=
  ∀ id isNamed v, v.weight ≤ n → nested id isNamed v = nested' id isNamed v

namespace AgreeUpTo

variable (h : AgreeUpTo n nested nested')

include h

theorem valueOfJson (plan : ValuePlan) (hv : v.weight ≤ n) :
    c.valueOfJson nested plan v = c.valueOfJson nested' plan v := by
  cases plan with
  | primitive p => rfl
  | enumeration id => rfl
  | message id isAbstract => rw [Catalog.valueOfJson, h id isAbstract v hv, Catalog.valueOfJson]

theorem recordOfJson (key value : ValuePlan) (hv : v.weight ≤ n) :
    c.recordOfJson nested key value v = c.recordOfJson nested' key value v := by
  refine foldObject_congr (Nat.le_succ_of_le hv) (fun property hproperty record => ?_) _
  rw [recordWith, h.valueOfJson key hproperty, h.valueOfJson value hproperty, recordWith]

theorem fieldOfJson (property : String) (plan : FieldPlan) (hv : v.weight ≤ n) :
    c.fieldOfJson nested property plan v = c.fieldOfJson nested' property plan v := by
  have hv' := Nat.le_succ_of_le hv
  cases plan with
  | single value => rw [Catalog.fieldOfJson, h.valueOfJson value hv, Catalog.fieldOfJson]
  | repeated element =>
      have hitems : foldArray (c.listWith nested element) [] v =
          foldArray (c.listWith nested' element) [] v :=
        foldArray_congr hv' (fun item hitem items => by
          rw [listWith, h.valueOfJson element hitem, listWith]) []
      rw [Catalog.fieldOfJson, hitems, Catalog.fieldOfJson]
  | map key value =>
      have hnames : foldObject (c.namesWith nested property key value) [] v =
          foldObject (c.namesWith nested' property key value) [] v :=
        foldObject_congr hv' (fun member hmember entries => by
          rw [namesWith, h.valueOfJson value hmember, namesWith]) []
      have hrecords : foldArray (c.recordsWith nested property key value) [] v =
          foldArray (c.recordsWith nested' property key value) [] v :=
        foldArray_congr hv' (fun item hitem entries => by
          rw [recordsWith, h.recordOfJson key value hitem, recordsWith]) []
      rw [Catalog.fieldOfJson, hnames, hrecords, Catalog.fieldOfJson]

theorem contentOfJson (id : MessageId) (hv : v.weight ≤ n + 1) :
    c.contentOfJson nested id v = c.contentOfJson nested' id v := by
  have hproperties : foldObject (c.propertiesWith nested id) (c.new id).fields v =
      foldObject (c.propertiesWith nested' id) (c.new id).fields v := by
    refine foldObject_congr hv (fun property hproperty values => ?_) _
    unfold propertiesWith
    split
    · rw [h.fieldOfJson _ _ hproperty]
    · rfl
  rw [Catalog.contentOfJson, hproperties, Catalog.contentOfJson]

theorem namedOfJson (id : MessageId) (hv : v.weight ≤ n + 1) :
    c.namedOfJson nested id v = c.namedOfJson nested' id v := by
  match v with
  | .array [] => rfl
  | .array (name :: rest) =>
      unfold Catalog.namedOfJson
      refine congrArg (Read.string.on name >>= ·) (funext fun jsonType => ?_)
      cases c.memberOfJsonType? id jsonType with
      | none => cases rest <;> rfl
      | some type =>
          cases rest with
          | nil => rfl
          | cons content rest =>
              have hcontent : content.weight ≤ n + 1 := by
                simp only [weight, weightItems] at hv
                omega
              simp only [h.contentOfJson type hcontent]
  | .null | .bool _ | .number _ | .string _ | .object _ => rfl

end AgreeUpTo

/-- No value is nested deeper than it weighs. -/
theorem nestedOfJson_eq {depth depth' : Nat} (id : MessageId) (isNamed : Bool)
    (hv : v.weight ≤ depth) (hv' : v.weight ≤ depth') :
    c.nestedOfJson depth id isNamed v = c.nestedOfJson depth' id isNamed v := by
  induction depth generalizing depth' id isNamed v with
  | zero => exact absurd hv (Nat.not_le.mpr v.weight_pos)
  | succ depth ih =>
      cases depth' with
      | zero => exact absurd hv' (Nat.not_le.mpr v.weight_pos)
      | succ depth' =>
          have hagree : AgreeUpTo (v.weight - 1) (c.nestedOfJson depth) (c.nestedOfJson depth') :=
            fun id isNamed inner hinner => ih id isNamed (by omega) (by omega)
          have hle : v.weight ≤ v.weight - 1 + 1 := by omega
          rw [nestedOfJson, nestedOfJson, hagree.namedOfJson id hle, hagree.contentOfJson id hle]

/-! ## the values under the keys of a type -/

theorem propertiesWith_eq (nested : NestedValue) (id : MessageId) : c.propertiesWith nested id =
    slotsWith (c.slots id) (fun slot => some slot.key)
      fun slot => c.fieldOfJson nested slot.key slot.plan := rfl

/-- Objects that agree on the values under the keys of a type are one message of it. -/
theorem contentOfJson_congr (hc : c.Lawful) (hnodup : (members.map Prod.fst).Nodup)
    (hnodup' : (members'.map Prod.fst).Nodup)
    (hlookup : ∀ slot ∈ c.slots id, members.lookup slot.key = members'.lookup slot.key)
    (hread : ∀ slot ∈ c.slots id, ∀ v, members.lookup slot.key = some v →
      c.fieldOfJson nested slot.key slot.plan v = c.fieldOfJson nested' slot.key slot.plan v)
    (h : c.contentOfJson nested id (.object members) = .ok message) :
    c.contentOfJson nested' id (.object members') = .ok message := by
  obtain ⟨values, hvalues, hmessage⟩ := Except.bind_eq_ok h
  cases hmessage
  have hsame : ∀ slot ∈ c.slots id,
      slotOf (fun slot => some slot.key) (fun slot => c.fieldOfJson nested slot.key slot.plan)
        members slot =
      slotOf (fun slot => some slot.key) (fun slot => c.fieldOfJson nested' slot.key slot.plan)
        members' slot := by
    intro slot hslot
    simp only [slotOf, Option.bind_some, lookup_reverse hnodup, lookup_reverse hnodup',
      ← hlookup slot hslot]
    cases hv : members.lookup slot.key with
    | none => rfl
    | some v => exact hread slot hslot v hv
  have hholds := holdsSlots_of_foldlM (hc.keyed_key id) hvalues
  have hreads : ∀ member ∈ members', ∀ slot ∈ c.slots id, some slot.key = some member.1 →
      ∃ value, c.fieldOfJson nested' slot.key slot.plan member.2 = .ok value := by
    intro member hmember slot hslot hkey
    have hfound : members'.lookup slot.key = some member.2 :=
      (lookup_eq_some_iff_mem hnodup').mpr (Option.some.inj hkey ▸ hmember)
    have hmem : slotOf _ _ members slot ∈ values.map (Except.ok (ε := ReadError)) :=
      hholds ▸ List.mem_map_of_mem hslot
    rw [hsame slot hslot] at hmem
    simp only [slotOf, Option.bind_some, lookup_reverse hnodup', hfound] at hmem
    obtain ⟨value, -, hvalue⟩ := List.mem_map.mp hmem
    exact ⟨value, hvalue.symm⟩
  obtain ⟨values', hvalues'⟩ := exists_foldlM_slotsWith hreads (c.new id).fields
  obtain rfl := eq_of_foldlM_slotsWith (hc.keyed_key id) hsame hvalues hvalues'
  simp [contentOfJson, foldObject, propertiesWith_eq, hvalues']

/-! ## readers -/

theorem readContentJson_nested_reads (depth : Nat) (id : MessageId) :
    Reads (c.readContentJson (c.readNestedJson depth) id)
      (c.contentOfJson (c.nestedOfJson depth) id) :=
  readContentJson_reads (readNestedJson_reads depth) id

/-- Where a message is read, one value is taken and nothing is left pending. -/
theorem before_of_readContentJson {depth : Nat} {r r' : Reader}
    (h : c.readContentJson (c.readNestedJson depth) id r = .ok message r') :
    ∃ value, Before value r.pending r.frames r'.frames ∧ r'.pending = none := by
  obtain ⟨_, r₁, hbegin, -⟩ := bind_eq_ok h
  obtain ⟨value, r₂, hnext, -⟩ := bind_eq_ok hbegin
  obtain ⟨hbefore, -⟩ := Read.before_of_next hnext
  obtain ⟨-, rfl⟩ := (readContentJson_nested_reads depth id _ _ _ _ hbefore).eq_of_ok h
  exact ⟨value, hbefore, rfl⟩

/-- **Properties**: two objects with distinct names that have the same value, or none, under each
key of a type are read as the same message, wherever they stand.  Whatever is read, one value is
taken, the open containers are as before, and nothing is left pending. -/
theorem readContentJson_properties (hm : Model.ofSchema schema = .ok m) (hc : ofModel m = .ok c)
    (id : MessageId) :
    (∀ members members' : List (String × Json), (members.map Prod.fst).Nodup →
      (members'.map Prod.fst).Nodup →
      (∀ owned ∈ m.allFields id, members.lookup owned.2.key = members'.lookup owned.2.key) →
      ∀ depth pending frames frames₁ message r, (Json.object members).weight ≤ depth →
        Before (.object members) pending frames frames₁ →
        c.readContentJson (c.readNestedJson depth) id ⟨pending, frames⟩ = .ok message r →
      ∀ depth' pending' frames' frames₁', (Json.object members').weight ≤ depth' →
        Before (.object members') pending' frames' frames₁' →
        c.readContentJson (c.readNestedJson depth') id ⟨pending', frames'⟩ =
          .ok message ⟨none, frames₁'⟩) ∧
    ∀ depth r message r', c.readContentJson (c.readNestedJson depth) id r = .ok message r' →
      ∃ value, Before value r.pending r.frames r'.frames ∧ r'.pending = none := by
  have hlawful := lawful_of_ofSchema hm hc
  refine ⟨?_, fun depth r message r' => before_of_readContentJson⟩
  intro members members' hnodup hnodup' hlookup depth pending frames frames₁ message r hweight
    hbefore hread depth' pending' frames' frames₁' hweight' hbefore'
  have hkeys : ∀ slot ∈ c.slots id, members.lookup slot.key = members'.lookup slot.key := by
    intro slot hslot
    refine hlookup (slot.owner, slot.field) ?_
    rw [← model_of_ofModel hc, ← hlawful.fields id]
    exact List.mem_map_of_mem hslot
  have hcontent : c.contentOfJson (c.nestedOfJson depth) id (.object members) = .ok message :=
    ((readContentJson_nested_reads depth id _ _ _ _ hbefore).eq_of_ok hread).1
  have hcontent' : c.contentOfJson (c.nestedOfJson depth') id (.object members') = .ok message := by
    refine contentOfJson_congr hlawful hnodup hnodup' hkeys (fun slot hslot v hv => ?_) hcontent
    have hlt : v.weight < weightMembers members := weight_lt_members (mem_of_lookup hv)
    have hlt' : v.weight < weightMembers members' :=
      weight_lt_members (mem_of_lookup (hkeys slot hslot ▸ hv))
    rw [weight] at hweight hweight'
    have hagree : AgreeUpTo v.weight (c.nestedOfJson depth) (c.nestedOfJson depth') :=
      fun id isNamed inner hinner => nestedOfJson_eq id isNamed (by omega) (by omega)
    exact hagree.fieldOfJson _ _ le_rfl
  have hyields := readContentJson_nested_reads (c := c) depth' id _ _ _ _ hbefore'
  rw [hcontent'] at hyields
  exact hyields

/-- The properties of a holder. -/
def listFirst : List (String × Json) :=
  [("values", .array [.ofNat 7]), ("corpus", .string "WEB"),
    ("child", .object [("radius", .ofNat 2)])]

/-- The properties of the holder in another order, and a strange one. -/
def strangeFirst : List (String × Json) :=
  [("owner", .string "nobody"), ("child", .object [("radius", .ofNat 2)]),
    ("corpus", .string "WEB"), ("values", .array [.ofNat 7])]

theorem readContentJson_properties_holder : ∃ m c message,
    Model.ofSchema Example.scenarios = .ok m ∧ ofModel m = .ok c ∧
    c.readContentJson (c.readNestedJson 20) 3 ⟨some (.object listFirst), []⟩ =
      .ok message ⟨none, []⟩ ∧
    c.readContentJson (c.readNestedJson 30) 3
      ⟨none, [.array [.object strangeFirst, .null]]⟩ = .ok message ⟨none, [.array [.null]]⟩ := by
  have hcatalog : (ofSchema? Example.scenarios).any (fun c => decide
      ((c.model.allFields 3).map (·.2.key) =
        ["child", "values", "counts", "corpus", "labels", "figures"] ∧
      (outcome (c.readContentJson (c.readNestedJson 20) 3
        ⟨some (.object listFirst), []⟩)).toOption.isSome = true)) = true := by
    decide +kernel
  obtain ⟨m, c, hm, hc, hfacts⟩ := exists_of_any hcatalog
  obtain ⟨hkeys, hsome⟩ := of_decide_eq_true hfacts
  obtain ⟨hproperties, -⟩ := readContentJson_properties hm hc 3
  obtain ⟨message, r, hread⟩ : ∃ message r, c.readContentJson (c.readNestedJson 20) 3
      ⟨some (.object listFirst), []⟩ = .ok message r := by
    cases h : c.readContentJson (c.readNestedJson 20) 3 ⟨some (.object listFirst), []⟩ with
    | ok message r => exact ⟨message, r, rfl⟩
    | error e r => rw [h] at hsome; contradiction
  have hnodup : (listFirst.map Prod.fst).Nodup := by decide
  have hnodup' : (strangeFirst.map Prod.fst).Nodup := by decide
  have hlookup : ∀ owned ∈ m.allFields 3,
      listFirst.lookup owned.2.key = strangeFirst.lookup owned.2.key := by
    intro owned howned
    have hmem := List.mem_map_of_mem (f := fun owned => owned.2.key) howned
    rw [← model_of_ofModel hc, hkeys] at hmem
    simp only [List.mem_cons, List.not_mem_nil, or_false] at hmem
    obtain h | h | h | h | h | h := hmem <;> rw [h] <;> rfl
  refine ⟨m, c, message, hm, hc, ?_, ?_⟩
  · exact hproperties listFirst listFirst hnodup hnodup (fun _ _ => rfl) 20 _ _ _ message r
      (by decide) (.name []) hread 20 _ _ _ (by decide) (.name [])
  · exact hproperties listFirst strangeFirst hnodup hnodup' hlookup 20 _ _ _ message r
      (by decide) (.name []) hread 30 _ _ _ (by decide) (.item [.null] [])

end Catalog

end Missive
