import Missive.Message.Catalog
import Missive.Proofs.Model.Accepted

/-!
# Missive.Proofs.Message.Catalog

Looking things up in the catalog of an accepted schema.

`Lawful c` says that the model is unambiguous and that the slots lay out its fields.  A slot is then
found by its tag and by its key, a constant by its code, and a member of a type by its
discriminator.
-/

namespace Missive.Catalog

/-- The slots of a catalog lay out the fields of an unambiguous model. -/
structure Lawful (c : Catalog) : Prop where
  model : c.model.Unambiguous
  fields : ∀ id, (c.slots id).map (fun slot => (slot.owner, slot.field)) = c.model.allFields id
  position : ∀ id i (slot : Slot), (c.slots id)[i]? = some slot → slot.position = i
  plan : ∀ id, ∀ slot ∈ c.slots id, c.model.planField slot.field = .ok slot.plan

/-! ## laying out -/

theorem slot_ofField (h : Slot.ofField m owner f position = .ok slot) :
    slot.owner = owner ∧ slot.field = f ∧ slot.position = position ∧
      m.planField f = .ok slot.plan := by
  unfold Slot.ofField at h
  split at h
  · next hplan =>
      cases h
      exact ⟨rfl, rfl, rfl, hplan⟩
  · contradiction

/-- A slot for each field, in order, with places from `start` on. -/
theorem mapM_ofField {fields : List (MessageId × Model.Field)}
    (h : (fields.zipIdx start).mapM
        (fun ((owner, f), position) => Slot.ofField m owner f position) =
      .ok laid) :
    laid.map (fun slot => (slot.owner, slot.field)) = fields ∧
      (∀ i (slot : Slot), laid[i]? = some slot → slot.position = start + i) ∧
      ∀ slot ∈ laid, m.planField slot.field = .ok slot.plan := by
  induction fields generalizing start laid with
  | nil => cases h; simp
  | cons entry rest ih =>
      rw [List.zipIdx_cons, List.mapM_cons] at h
      obtain ⟨slot, hslot, h₁⟩ := Except.bind_eq_ok h
      obtain ⟨laid', hrest, h₂⟩ := Except.bind_eq_ok h₁
      cases h₂
      obtain ⟨howner, hfield, hposition, hplan⟩ := slot_ofField hslot
      obtain ⟨hfields, hpositions, hplans⟩ := ih hrest
      refine ⟨by rw [List.map_cons, howner, hfield, hfields], fun i slot' hi => ?_, ?_⟩
      · cases i with
        | zero => cases hi; exact hposition
        | succ i =>
            have := hpositions i slot' hi
            omega
      · exact List.forall_mem_cons.mpr ⟨hfield ▸ hplan, hplans⟩

variable {c : Catalog} {m : Model} {id : MessageId}

/-- **Catalogs are lawful**: the catalog of an accepted schema, all of whose fields can travel. -/
theorem lawful_of_ofSchema (hm : Model.ofSchema schema = .ok m) (hc : ofModel m = .ok c) :
    c.Lawful := by
  have hmodel := Model.unambiguous_of_ofSchema hm
  obtain ⟨layouts, hlayouts, h⟩ := Except.bind_eq_ok hc
  cases h
  have hall := Except.forall₂_of_mapM_eq_ok hlayouts
  have hlength : m.messages.length = layouts.length := by
    have := hall.length_eq
    rwa [Model.messageIds, List.length_range] at this
  have hslots : ∀ id, layout m id = .ok (Catalog.slots ⟨m, layouts⟩ id) := by
    intro id
    by_cases hid : id < layouts.length
    · have hget := hall.get (by simpa [Model.messageIds, hlength] using hid) hid
      rw [slots, List.getD_eq_getElem _ _ hid]
      simpa [Model.messageIds] using hget
    · have hnone : m.message id = default := Model.message_of_le (hlength ▸ Nat.le_of_not_lt hid)
      rw [slots, List.getD_eq_default _ _ (Nat.le_of_not_lt hid), layout]
      rw [Model.allFields_of_none (by rw [hnone]; rfl), hnone]
      rfl
  refine ⟨hmodel, fun id => (mapM_ofField (hslots id)).1, fun id i slot hi => ?_,
    fun id => (mapM_ofField (hslots id)).2.2⟩
  simpa using (mapM_ofField (hslots id)).2.1 i slot hi

theorem model_of_ofModel (hc : ofModel m = .ok c) : c.model = m := by
  obtain ⟨layouts, -, h⟩ := Except.bind_eq_ok hc
  cases h
  rfl

/-- The catalog of a schema that is accepted and of which all fields can travel. -/
def ofSchema? (schema : Schema) : Option Catalog := do
  let m ← (Model.ofSchema schema).toOption
  (ofModel m).toOption

/-- A test that the catalog of a schema passes. -/
theorem exists_of_any {p : Catalog → Bool} (h : (ofSchema? schema).any p = true) :
    ∃ m c, Model.ofSchema schema = .ok m ∧ ofModel m = .ok c ∧ p c = true := by
  cases hc : ofSchema? schema with
  | none => rw [hc] at h; contradiction
  | some c =>
      rw [hc] at h
      obtain ⟨m, hm, hc⟩ := Option.bind_eq_some_iff.mp hc
      exact ⟨m, c, Except.toOption_eq_some.mp hm, Except.toOption_eq_some.mp hc, h⟩

/-! ## looking up -/

theorem find?_eq_some_of_unique {p : α → Bool} {xs : List α} (hx : x ∈ xs) (hp : p x = true)
    (hunique : ∀ y ∈ xs, p y = true → y = x) : xs.find? p = some x := by
  cases hf : xs.find? p with
  | none => exact absurd hp (List.find?_eq_none.mp hf x hx)
  | some y => rw [hunique y (List.mem_of_find?_eq_some hf) (List.find?_some hf)]

/-- Where the marks of elements are distinct, an element is told by its mark. -/
theorem eq_of_nodup_filterMap {g : α → Option β} {xs : List α} (h : (xs.filterMap g).Nodup)
    (hx : x ∈ xs) (hy : y ∈ xs) (hgx : g x = some b) (hgy : g y = some b) : x = y := by
  by_contra hne
  have hpair := List.pairwise_filterMap.mp h
  have hsymm : Std.Symm fun a a' => ∀ b, g a = some b → ∀ b', g a' = some b' → b ≠ b' :=
    ⟨fun a a' h b hb b' hb' => (h b' hb' b hb).symm⟩
  exact hpair.forall hx hy hne b hgx b hgy rfl

/-- An element is found by its mark at its place if no element before it has that mark. -/
theorem findIdx?_eq_some_iff_first [BEq β] [LawfulBEq β] {f : α → β} {xs : List α}
    (hx : xs[i]? = some x) :
    xs.findIdx? (f · == f x) = some i ↔ ∀ j < i, ∀ y, xs[j]? = some y → f y ≠ f x := by
  obtain ⟨hi, rfl⟩ := List.getElem?_eq_some_iff.mp hx
  rw [List.findIdx?_eq_some_iff_getElem]
  constructor
  · rintro ⟨_, _, hfirst⟩ j hj y hy
    obtain ⟨hlt, rfl⟩ := List.getElem?_eq_some_iff.mp hy
    simpa using hfirst j hj
  · intro hfirst
    refine ⟨hi, beq_self_eq_true _, fun j hj => ?_⟩
    simpa using hfirst j hj _ (List.getElem?_eq_getElem (Nat.lt_trans hj hi))

/-- Where the marks of elements are distinct, an element is found at its place. -/
theorem findIdx?_of_nodup [BEq β] [LawfulBEq β] {f : α → β} {xs : List α} (h : (xs.map f).Nodup)
    (hx : xs[i]? = some x) : xs.findIdx? (f · == f x) = some i := by
  rw [findIdx?_eq_some_iff_first hx]
  intro j hj y hy heq
  exact Nat.ne_of_lt hj (index_eq_of_nodup_map h hy hx heq)

/-- A constant is found by its code. -/
theorem constantOfCode_codeOf (hm : c.model.Unambiguous) (enum : EnumId)
    (h : index < (c.constants enum).length) :
    c.constantOfCode enum (c.codeOf enum index) = index := by
  have hget := List.getElem?_eq_getElem h
  have hcodes : ((c.constants enum).map (·.code)).Nodup := hm.codes enum
  rw [constantOfCode, codeOf, hget]
  simp only [Option.map_some, Option.getD_some]
  rw [findIdx?_of_nodup hcodes hget]
  rfl

namespace Lawful

theorem nodup_tags (hc : c.Lawful) (id : MessageId) : ((c.slots id).filterMap (·.tag)).Nodup := by
  have h := hc.model.tags id
  rw [← hc.fields, List.filterMap_map] at h
  exact h

theorem nodup_keys (hc : c.Lawful) (id : MessageId) : ((c.slots id).map (·.key)).Nodup := by
  have h := hc.model.keys id
  rw [← hc.fields, List.map_map] at h
  exact h

theorem mem_allFields (hc : c.Lawful) (hslot : slot ∈ c.slots id) :
    (slot.owner, slot.field) ∈ c.model.allFields id := by
  rw [← hc.fields]
  exact List.mem_map_of_mem hslot

theorem tag_eq_none_iff (hc : c.Lawful) (hslot : slot ∈ c.slots id) :
    slot.tag = none ↔ slot.field.transient = true :=
  hc.model.transient slot.owner slot.field (Model.mem_allFields.mp (hc.mem_allFields hslot)).2

/-- A slot stands at its position. -/
theorem getElem?_position (hc : c.Lawful) (hslot : slot ∈ c.slots id) :
    (c.slots id)[slot.position]? = some slot := by
  obtain ⟨i, hi⟩ := List.mem_iff_getElem?.mp hslot
  rw [hc.position id i slot hi, hi]

/-- Slots are told by their positions. -/
theorem eq_of_position (hc : c.Lawful) (hslot : slot ∈ c.slots id) (hother : other ∈ c.slots id)
    (heq : slot.position = other.position) : slot = other := by
  have hget := hc.getElem?_position hslot
  rw [heq, hc.getElem?_position hother] at hget
  exact (Option.some.inj hget).symm

/-- A slot is found by its tag. -/
theorem find?_tag (hc : c.Lawful) (hslot : slot ∈ c.slots id) (htag : slot.tag = some tag) :
    (c.slots id).find? (·.tag == some tag) = some slot := by
  refine find?_eq_some_of_unique hslot (by simp [htag]) fun other hother htag' => ?_
  exact eq_of_nodup_filterMap (hc.nodup_tags id) hother hslot (by simpa using htag') htag

/-- A slot is found by its key. -/
theorem find?_key (hc : c.Lawful) (hslot : slot ∈ c.slots id) :
    (c.slots id).find? (·.key == slot.key) = some slot := by
  refine find?_eq_some_of_unique hslot (by simp) fun other hother hkey => ?_
  exact List.inj_on_of_nodup_map (hc.nodup_keys id) hother hslot (by simpa using hkey)

/-- The members of a type are concrete and of the same family. -/
theorem of_mem_members (hc : c.Lawful) (h : type ∈ c.members id) :
    c.model.root type = c.model.root id ∧ c.model.inFamily type = c.model.inFamily id ∧
      (c.model.message type).isAbstract = false := by
  unfold members at h
  split at h
  · next habs =>
      obtain ⟨hascent, hconcrete⟩ := (Model.mem_concreteDescendants_iff hc.model.forest).mp h
      refine ⟨(Model.root_of_mem_ascent hc.model.forest hascent).symm, ?_, hconcrete⟩
      rw [Model.inFamily_of_mem_ascent hascent habs, Model.inFamily, habs, Bool.true_or]
  · next hconcrete =>
      obtain rfl := List.mem_singleton.mp h
      exact ⟨rfl, rfl, by simpa using hconcrete⟩

/-- The members of a type in a family have discriminators by which they are found. -/
theorem memberOfTypeId?_eq (hc : c.Lawful) (hfamily : c.model.inFamily id = true)
    (hmember : type ∈ c.members id) :
    ∃ n, c.typeId? type = some n ∧ c.memberOfTypeId? id n = some type := by
  obtain ⟨hroot, hin, hconcrete⟩ := hc.of_mem_members hmember
  have hin' : c.model.inFamily type = true := hin.trans hfamily
  have hlt : type < c.model.messages.length := Model.lt_of_inFamily hin'
  have hsome := (hc.model.typeId_isSome type).mpr
    (Model.mem_familyMembers.mpr ⟨hlt, hin', hconcrete⟩)
  obtain ⟨n, hn⟩ := Option.isSome_iff_exists.mp hsome
  refine ⟨n, hn, find?_eq_some_of_unique hmember (by simp [typeId?, hn]) ?_⟩
  intro other hother htag
  have hroot' := (hc.of_mem_members hother).1
  exact hc.model.typeId_inj other type n (hroot'.trans hroot.symm)
    (by simpa [typeId?] using htag) hn

/-- A type outside of any family has no discriminator. -/
theorem typeId?_eq_none (hc : c.Lawful) (hfamily : c.model.inFamily id = false) :
    c.typeId? id = none := by
  refine Option.not_isSome_iff_eq_none.mp fun hsome => ?_
  have hin := (Model.mem_familyMembers.mp ((hc.model.typeId_isSome id).mp hsome)).2.1
  rw [hfamily] at hin
  contradiction

end Lawful

/-! ## folds over the parts of a message -/

/-- The slots of `before` are done, and the rest is set in order. -/
theorem foldlM_slots_after {step : List Value → τ → Except ε (List Value)}
    {part : Slot × Value → Option τ} {result : Slot × Value → Value} {before slots : List Slot}
    {done values : List Value} (hc : c.Lawful) (hslots : c.slots id = before ++ slots)
    (hdone : done.length = before.length) (hlength : values.length = slots.length)
    (hset : ∀ entry ∈ slots.zip values, ∀ t, part entry = some t → ∀ values,
      step values t = .ok (values.set entry.1.position (result entry)))
    (hkeep : ∀ entry ∈ slots.zip values, part entry = none →
      result entry = entry.1.plan.initial) :
    ((slots.zip values).filterMap part).foldlM step (done ++ slots.map (·.plan.initial)) =
      .ok (done ++ (slots.zip values).map result) := by
  induction slots generalizing before done values with
  | nil => simp
  | cons slot slots ih =>
      cases values with
      | nil => contradiction
      | cons value values =>
          have hposition : slot.position = done.length := by
            rw [hdone]
            exact hc.position id before.length slot (by simp [hslots])
          -- the rest of the slots, whatever this one has become
          have hrest : ∀ v, ((slots.zip values).filterMap part).foldlM step
              (done ++ v :: slots.map (·.plan.initial)) =
              .ok (done ++ v :: (slots.zip values).map result) := by
            intro v
            have hstep := ih (show c.slots id = (before ++ [slot]) ++ slots by simp [hslots])
              (show (done ++ [v]).length = (before ++ [slot]).length by simp [hdone])
              (by simpa using hlength) (fun entry hentry => hset entry (.tail _ hentry))
              (fun entry hentry => hkeep entry (.tail _ hentry))
            simpa using hstep
          rw [List.zip_cons_cons, List.filterMap_cons, List.map_cons, List.map_cons]
          cases hpart : part (slot, value) with
          | none =>
              rw [hkeep (slot, value) (.head _) hpart]
              exact hrest _
          | some t =>
              have hstep := hset (slot, value) (.head _) t hpart
                (done ++ slot.plan.initial :: slots.map (·.plan.initial))
              rw [hposition, List.set_append_right _ _ (Nat.le_refl _), Nat.sub_self,
                List.set_cons_zero] at hstep
              rw [List.foldlM_cons, hstep]
              exact hrest _

/-- Parts that set the values of the slots of a message in order, where a slot without a part keeps
the value that it starts with. -/
theorem foldlM_slots {step : List Value → τ → Except ε (List Value)}
    {part : Slot × Value → Option τ} {result : Slot × Value → Value} {values : List Value}
    (hc : c.Lawful) (hlength : values.length = (c.slots id).length)
    (hset : ∀ entry ∈ (c.slots id).zip values, ∀ t, part entry = some t → ∀ values,
      step values t = .ok (values.set entry.1.position (result entry)))
    (hkeep : ∀ entry ∈ (c.slots id).zip values, part entry = none →
      result entry = entry.1.plan.initial) :
    (((c.slots id).zip values).filterMap part).foldlM step (c.new id).fields =
      .ok (((c.slots id).zip values).map result) :=
  foldlM_slots_after hc (List.nil_append _).symm
    (show ([] : List Value).length = ([] : List Slot).length from rfl) hlength hset hkeep

theorem putEntry_new (hk : k ∉ (entries.map Prod.fst : List Key)) (property : String)
    (plan : ValuePlan) (v : Value) :
    c.putEntry property plan k v entries = .ok (entries ++ [(k, v)]) := by
  simp [putEntry, Entries.put?, lookup_eq_none_iff_not_mem.mpr hk]

theorem putEntry_old (hk : k ∈ (entries.map Prod.fst : List Key)) (property : String)
    (plan : ValuePlan) (v : Value) :
    c.putEntry property plan k v entries = .error (.duplicateKey property (c.keyText plan k)) := by
  simp [putEntry, Entries.put?, isSome_lookup_iff_mem.mpr hk]

/-- An entry without a message is dropped, and any other is put at the end. -/
theorem addEntry_eq (property : String) (key value : ValuePlan) (entry : Option Key × Option Value)
    (entries : List (Key × Value)) :
    c.addEntry property key value entry entries =
      if (entry.2.getD value.initial).isAbsent then .ok entries
      else c.putEntry property key (entry.1.getD key.initialKey) (entry.2.getD value.initial)
        entries := by
  unfold addEntry
  cases entry.2.getD value.initial <;> rfl

/-- An entry with a new key is added at the end. -/
theorem addEntry_new (key value : ValuePlan) (hv : v.isAbsent = false)
    (hk : k ∉ (done.map Prod.fst : List Key)) (property : String) :
    c.addEntry property key value (some k, some v) done = .ok (done ++ [(k, v)]) := by
  simp [addEntry_eq, hv, putEntry_new hk]

/-- Parts that add entries with distinct keys in order. -/
theorem foldlM_entries (c : Catalog) (property : String) (key value : ValuePlan)
    {step : List (Key × Value) → τ → Except ReadError (List (Key × Value))} {part : Key × Value → τ}
    {result : Value → Value} {entries done : List (Key × Value)}
    (hstep : ∀ entry ∈ entries, ∀ done, step done (part entry) =
      c.addEntry property key value (some entry.1, some (result entry.2)) done)
    (hpresent : ∀ entry ∈ entries, (result entry.2).isAbsent = false)
    (hdistinct : ((done ++ entries).map Prod.fst).Nodup) :
    (entries.map part).foldlM step done =
      .ok (done ++ entries.map fun entry => (entry.1, result entry.2)) := by
  induction entries generalizing done with
  | nil => simp
  | cons entry entries ih =>
      have hnew : entry.1 ∉ done.map Prod.fst := by
        simp only [List.map_append, List.map_cons] at hdistinct
        exact fun hk => (List.nodup_append'.mp hdistinct).2.2 hk (.head _)
      rw [List.map_cons, List.foldlM_cons, hstep entry (.head _),
        addEntry_new key value (hpresent entry (.head _)) hnew, Except.ok_bind, ih]
      · simp
      · exact fun entry h => hstep entry (.tail _ h)
      · exact fun entry h => hpresent entry (.tail _ h)
      · simpa using hdistinct

end Missive.Catalog
