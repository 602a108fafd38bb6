import Missive.Example
import Missive.Proofs.Message.Property
import Missive.Proofs.Source.Instance

/-!
# Missive.Proofs.Source.Reflection

Properties by name, in the emitted types.

Every message has a table of the properties that it declares, and passes on to the message that it
extends what its table does not have (`Catalog.search`).  A property is set in place, in what is
inside all cases of an abstract message.

On every value of an emitted type, getting and setting properties is a lawful lens
(`reflection_lawful`).
-/

namespace Missive

/-! ## tables -/

namespace Catalog

variable {c : Catalog} {type : MessageId} {k : String} {slot : Slot} {R : Type}

/-- The table of the properties that a message declares, in a message that is it or extends it. -/
def table (c : Catalog) (type level : MessageId) : List Slot :=
  (c.slots type).filter (·.owner == level)

/-- Go to the first of several tables that has a property. -/
def search (c : Catalog) (type : MessageId) (k : String) (found : Slot → R) (unknown : R) :
    List MessageId → R
  | [] => unknown
  | level :: levels =>
    match (c.table type level).find? (·.key == k) with
    | some slot => found slot
    | none => search c type k found unknown levels

/-- A property is found in the table of the message that declares it. -/
theorem search_of_property (hc : c.Lawful) {found : Slot → R} {unknown : R}
    {levels : List MessageId} (h : c.property? type k = some slot) (hlevel : slot.owner ∈ levels) :
    c.search type k found unknown levels = found slot := by
  obtain ⟨hslot, rfl⟩ := of_property? h
  induction levels with
  | nil => contradiction
  | cons level levels ih =>
      rw [search]
      cases hfind : (c.table type level).find? (·.key == slot.key) with
      | some other =>
          -- No other message of the line has a property of this name.
          have hother := (List.mem_filter.1 (List.mem_of_find?_eq_some hfind)).1
          have hkey : other.key = slot.key := by simpa using List.find?_some hfind
          rw [List.inj_on_of_nodup_map (hc.nodup_keys type) hother hslot hkey]
      | none =>
          refine ih ((List.mem_cons.1 hlevel).resolve_left fun heq => ?_)
          have hmem : slot ∈ c.table type level := List.mem_filter.2 ⟨hslot, by simp [heq]⟩
          simpa using List.find?_eq_none.1 hfind slot hmem

theorem search_of_unknown {found : Slot → R} {unknown : R} (h : c.property? type k = none)
    (levels : List MessageId) : c.search type k found unknown levels = unknown := by
  induction levels with
  | nil => rfl
  | cons level levels ih =>
      have hfind : (c.table type level).find? (·.key == k) = none :=
        List.find?_eq_none.2 fun slot hslot =>
          List.find?_eq_none.1 h slot (List.mem_filter.1 hslot).1
      rw [search, hfind]
      exact ih

/-- All properties of a message are declared by it or by a message that it extends. -/
theorem owner_mem_line (hc : c.Lawful) (hslot : slot ∈ c.slots type) :
    slot.owner ∈ c.model.line type := by
  have hfield : (slot.owner, slot.field) ∈ c.model.allFields type :=
    hc.fields type ▸ List.mem_map_of_mem hslot
  obtain ⟨howner, -⟩ := Model.mem_allFields.1 hfield
  rw [Model.mem_ancestors] at howner
  exact List.mem_cons.2 howner.symm

/-- The tables of a message and of those that it extends have all of its properties. -/
theorem search_line (hc : c.Lawful) (found : Slot → R) (unknown : R) :
    c.search type k found unknown (c.model.line type) =
      match c.property? type k with
      | some slot => found slot
      | none => unknown := by
  cases h : c.property? type k with
  | none => exact search_of_unknown h _
  | some slot => exact search_of_property hc h (owner_mem_line hc (of_property? h).1)

/-- Get a property by the tables. -/
def fetch (c : Catalog) (message : Message) (k : String) : Except ReadError PropertyValue :=
  c.search message.type k
    (fun slot =>
      .ok (.ofValue slot.plan.shape (message.fields.getD slot.position slot.plan.initial)))
    (.error (.unknownProperty k)) (c.model.line message.type)

/-- Set a property by the tables, in place. -/
def store (c : Catalog) (type : MessageId) (k : String) (d : PropertyValue) :
    EStateM ReadError (List Value) Unit :=
  c.search type k
    (fun slot => do
      let value ← ofExcept (d.cast slot.plan.shape slot.key)
      modify (·.set slot.position value))
    (throw (.unknownProperty k)) (c.model.line type)

theorem fetch_eq (hc : c.Lawful) (message : Message) (k : String) :
    c.fetch message k = c.get message k := by
  rw [fetch, search_line hc]
  unfold Catalog.get
  cases c.property? message.type k <;> rfl

/-- A message whose property cannot be set is left as it was. -/
theorem store_eq (hc : c.Lawful) (message : Message) (k : String) (d : PropertyValue) :
    c.store message.type k d message.fields =
      match c.set message k d with
      | .ok message' => .ok () message'.fields
      | .error e => .error e message.fields := by
  rw [store, search_line hc]
  cases h : c.property? message.type k with
  | none => simp only [Catalog.set, Catalog.modify, h]; rfl
  | some slot =>
      rw [set_of_property h]
      cases hcast : d.cast slot.plan.shape slot.key <;> simp only [hcast] <;> rfl

end Catalog

/-! ## values of the emitted types -/

namespace Source

open Model

variable {m : Model} {a : MessageId}

namespace Instance

variable {c : Catalog} {v : Instance m a} {k : String} {d : PropertyValue}

/-- The result of changing a part, as that of changing the whole. -/
def within {σ τ : Type} (whole : σ → τ) :
    EStateM.Result ReadError σ Unit → EStateM.Result ReadError τ Unit
  | .ok () part => .ok () (whole part)
  | .error e part => .error e (whole part)

/-- Set a property of the content, in place. -/
protected def set (c : Catalog) (k : String) (d : PropertyValue) :
    {a : MessageId} → Instance m a → EStateM.Result ReadError (Instance m a) Unit
  | a, .plain hx fields => within (.plain hx) (c.store a k d fields)
  | _, .case ha hb inner => within (.case ha hb) (inner.set c k d)

/-- The same cases around other fields. -/
def replace : {a : MessageId} → Instance m a → List Value → Instance m a
  | _, .plain hx _, fields => .plain hx fields
  | _, .case ha hb inner, fields => .case ha hb (inner.replace fields)

theorem content_replace (v : Instance m a) (fields : List Value) :
    (v.replace fields).content = { v.content with fields } := by
  induction v with
  | plain hx _ => rfl
  | case ha hb inner ih => exact ih

theorem replace_content (v : Instance m a) : v.replace v.content.fields = v := by
  induction v with
  | plain hx fields => rfl
  | case ha hb inner ih => exact congrArg (case ha hb) ih

theorem properties_eq (v : Instance m a) : v.properties c = c.properties v.content :=
  v.dispatch_eq _

theorem get_eq (v : Instance m a) (k : String) : v.get c k = c.get v.content k := v.dispatch_eq _

/-- Setting a property of a value is setting it of the content. -/
theorem set_eq (hc : c.Lawful) (k : String) (d : PropertyValue) (v : Instance m a) :
    v.set c k d =
      match c.set v.content k d with
      | .ok message => .ok () (v.replace message.fields)
      | .error e => .error e v := by
  induction v with
  | @plain x hx fields =>
      rw [Instance.set, c.store_eq hc ⟨x, fields⟩, content]
      cases c.set ⟨x, fields⟩ k d <;> rfl
  | case ha hb inner ih =>
      rw [Instance.set, ih, content]
      cases c.set inner.content k d <;> rfl

theorem set_content {v' : Instance m a} (hc : c.Lawful) (h : v.set c k d = .ok () v') :
    c.set v.content k d = .ok v'.content := by
  rw [set_eq hc] at h
  cases hset : c.set v.content k d with
  | error e => rw [hset] at h; contradiction
  | ok message =>
      rw [hset] at h
      cases h
      obtain ⟨slot, -, -, rfl⟩ := Catalog.of_set hset
      rw [v.content_replace]

theorem exists_set_ok_iff (hc : c.Lawful) (v : Instance m a) (k : String) (d : PropertyValue) :
    (∃ v', v.set c k d = .ok () v') ↔ ∃ message, c.set v.content k d = .ok message := by
  rw [set_eq hc]
  cases c.set v.content k d <;> simp

theorem exists_set_unknown_iff (hc : c.Lawful) (v : Instance m a) (k : String)
    (d : PropertyValue) :
    (∃ v', v.set c k d = .error (.unknownProperty k) v') ↔
      c.set v.content k d = .error (.unknownProperty k) := by
  rw [set_eq hc]
  cases c.set v.content k d <;> simp

theorem eq_of_set_error {v' : Instance m a} (hc : c.Lawful) (h : v.set c k d = .error e v') :
    v' = v := by
  rw [set_eq hc] at h
  cases hset : c.set v.content k d with
  | ok message => rw [hset] at h; contradiction
  | error e' => rw [hset] at h; cases h; rfl

end Instance

/-- The laws of the properties of a value. -/
structure LawfulLens (c : Catalog) (v : Instance m a) : Prop where
  /-- The properties are listed with those of the most general ancestor first. -/
  properties : v.properties c =
    (m.ancestors v.content.type ++ [v.content.type]).flatMap fun owner =>
      (m.message owner).fields.map (·.key)
  nodup : (v.properties c).Nodup
  /-- A property is got by the tables. -/
  fetch : ∀ k, v.get c k = c.fetch v.content k
  /-- The properties that are not known are those that are not listed. -/
  get_unknown : ∀ k, v.get c k = .error (.unknownProperty k) ↔ k ∉ v.properties c
  set_unknown : ∀ k d, (∃ v', v.set c k d = .error (.unknownProperty k) v') ↔ k ∉ v.properties c
  /-- Setting what was got changes nothing. -/
  set_get : ∀ k ∈ v.properties c, ∃ d, v.get c k = .ok d ∧ v.set c k d = .ok () v
  /-- What is set is got, and the other properties are what they were. -/
  get_set : ∀ k d v', d.IsTyped c → v.set c k d = .ok () v' →
    v'.get c k = .ok d ∧ (∀ k', k' ≠ k → v'.get c k' = v.get c k') ∧
      v'.properties c = v.properties c ∧ c.FitsMessage v.content.type v'.content
  /-- A property that cannot be set is left as it was. -/
  set_error : ∀ k d e v', v.set c k d = .error e v' → v' = v
  /-- A property takes the values of its own type, and no others. -/
  set_ok : ∀ entry ∈ m.allFields v.content.type, ∃ plan, m.planField entry.2 = .ok plan ∧
    ∀ d, (∃ v', v.set c entry.2.key d = .ok () v') ↔ d.Suits plan

/-- **Properties are a lawful lens.**  On every value of an emitted type, be it a concrete message
or one inside the cases of an abstract message, the properties are those of all fields of the
message; getting and setting them obeys the laws of lenses, and fails only for names that are not
properties and for values that are not of the type of the field. -/
theorem reflection_lawful {c : Catalog} (hm : ofSchema schema = .ok m)
    (hc : Catalog.ofModel m = .ok c) (v : Instance m a)
    (hv : c.FitsMessage v.content.type v.content) : LawfulLens c v := by
  have hlawful := Catalog.lawful_of_ofSchema hm hc
  obtain rfl := Catalog.model_of_ofModel hc
  constructor
  case properties => rw [v.properties_eq, Catalog.properties_eq hlawful]
  case nodup => rw [v.properties_eq]; exact hlawful.nodup_keys _
  case fetch => exact fun k => (v.get_eq k).trans (Catalog.fetch_eq hlawful _ k).symm
  case get_unknown =>
    intro k
    rw [v.get_eq, v.properties_eq, Catalog.get_eq_unknown_iff]
  case set_unknown =>
    intro k d
    rw [v.exists_set_unknown_iff hlawful, v.properties_eq, Catalog.set_eq_unknown_iff]
  case set_get =>
    intro k hk
    obtain ⟨slot, hslot⟩ := Catalog.exists_property (v.properties_eq ▸ hk)
    obtain ⟨d, hgot, hset⟩ := Catalog.set_get hlawful hv hslot
    refine ⟨d, (v.get_eq k).trans hgot, ?_⟩
    simp only [Instance.set_eq hlawful, hset, v.replace_content]
  case get_set =>
    intro k d v' htyped hset
    have hcontent := Instance.set_content hlawful hset
    obtain ⟨slot, -, -, hfields⟩ := Catalog.of_set hcontent
    refine ⟨?_, fun k' hne => ?_, ?_, Catalog.fitsMessage_set hlawful hv htyped hcontent⟩
    · rw [v'.get_eq, Catalog.get_set hlawful hv htyped hcontent]
    · rw [v'.get_eq, v.get_eq, Catalog.get_set_other hlawful hcontent hne]
    · rw [v'.properties_eq, v.properties_eq, hfields, Catalog.properties, Catalog.properties]
  case set_error => exact fun k d e v' hset => Instance.eq_of_set_error hlawful hset
  case set_ok =>
    intro entry hentry
    rw [← hlawful.fields] at hentry
    obtain ⟨slot, hslot, rfl⟩ := List.mem_map.1 hentry
    refine ⟨slot.plan, hlawful.plan _ slot hslot, fun d => ?_⟩
    rw [Instance.exists_set_ok_iff hlawful]
    exact Catalog.exists_set_iff (hlawful.find?_key hslot) d

/-- A wolf with a dog in its pack. -/
def wolf : Message :=
  ⟨4, [.scalar (.string "Akela"), .constant 1, .scalar (.string "forest"),
    .list [.message 1 [.scalar (.string "Rex"), .constant 0, .scalar (.string "collie")]], .absent]⟩

/-- The properties of a wolf among the wild ones among the animals. -/
theorem reflection_lawful_wolf : ∃ m c, ofSchema Example.zoo = .ok m ∧
    Catalog.ofModel m = .ok c ∧
    ∃ v : Instance m 0, v.content = wolf ∧ c.FitsMessage 4 wolf ∧ LawfulLens c v := by
  have hcatalog : (Catalog.ofSchema? Example.zoo).any (fun c => decide
      ((c.model.message 0).isAbstract = true ∧ (c.model.message 3).isAbstract = true ∧
        (c.model.message 4).isAbstract = false ∧ 3 ∈ c.model.variants 0 ∧
        4 ∈ c.model.variants 3 ∧ 1 ∈ c.members 0 ∧ 4 ∈ c.members 4 ∧
        (c.constants 0).length = 4 ∧
        (c.slots 1).map (·.plan) = [.single (.primitive .string), .single (.enumeration 0),
          .single (.primitive .string)] ∧
        (c.slots 4).map (·.plan) = [.single (.primitive .string), .single (.enumeration 0),
          .single (.primitive .string), .repeated (.message 0 true),
          .single (.message 0 true)])) = true := by
    decide +kernel
  obtain ⟨m, c, hm, hc, hfacts⟩ := Catalog.exists_of_any hcatalog
  obtain ⟨hanimal, hwild, hwolf, hbranch, hleaf, hdog, hmember, hconstants, hslots₁, hslots₄⟩ :=
    of_decide_eq_true hfacts
  obtain rfl := Catalog.model_of_ofModel hc
  have htext : ∀ s, (Utf8.encode s).length < UInt64.size →
      c.Fits (.single (.primitive .string)) (.scalar (.string s)) := fun s hs => .scalar rfl hs
  have hlevel : ∀ i < 4, c.Fits (.single (.enumeration 0)) (.constant i) := fun i hi =>
    .constant (hconstants ▸ hi)
  have hmate : c.Fits (.single (.message 0 true))
      (.message 1 [.scalar (.string "Rex"), .constant 0, .scalar (.string "collie")]) :=
    .of_plans hdog hslots₁ (.cons (htext _ (by decide)) (.cons (hlevel 0 (by decide))
      (.cons (htext _ (by decide)) .nil)))
  have hfits : c.FitsMessage 4 wolf :=
    (Catalog.Fits.of_plans hmember hslots₄ (.cons (htext _ (by decide))
      (.cons (hlevel 1 (by decide)) (.cons (htext _ (by decide))
        (.cons (.list (by decide) (by simp [Value.isAbsent]) (by simp [hmate]))
          (.cons (.absent 0 true) .nil))))) : c.Fits (.single (.message 4 false)) _).toMessage
  refine ⟨c.model, c, hm, hc, .case hanimal hbranch (.case hwild hleaf (.plain hwolf wolf.fields)),
    rfl, hfits, ?_⟩
  exact reflection_lawful hm hc _ hfits

end Source

end Missive
